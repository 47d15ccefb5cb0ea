import CellMachine.Proofs.Cell.Identity
import CellMachine.Proofs.Eval.Results
import CellMachine.Proofs.Vec.Runs

/-!
# Sequences as lists

Core functions see `nil` and vectors as lists: `nil` lists nothing and a vector its elements (`Cell.Lists`).
What is concatenated or added to is built up from runs and single elements, in chunks where they are aligned
and one by one elsewhere, and it comes out as the vector that is built from the elements of the list
(`Cell.IsVectorOf`), with the positions and the count of the list (`Cell.ActsAs`). So it does not matter which
runs of arguments are concatenated first (`CoreFn.Regrouped`).

Main statement: `CoreFn.sequences_exact`.
-/

namespace CellMachine

/-! ## Values as lists -/

/-- True of the values that stand for lists. -/
def Cell.IsSequence (c : Cell) : Prop := c = .nil ∨ ∃ v, c = .vector v

/-- The list that an intact value stands for: nothing for `nil`, and its elements for a vector. -/
inductive Cell.Lists : Cell → List Cell → Prop where
  | nil : Cell.Lists .nil []
  | vector {v : Vec} {xs : List Cell} (h : v.Lists xs) : Cell.Lists (.vector v) xs

theorem Cell.Lists.isSequence {c : Cell} {xs : List Cell} (h : c.Lists xs) : c.IsSequence := by
  cases h with
  | nil => exact .inl rfl
  | vector h => exact .inr ⟨_, rfl⟩

/-- An intact sequence has its elements at hand. -/
theorem Cell.Intact.exists_lists {c : Cell} (hc : c.Intact) (h : c.IsSequence) : ∃ xs, c.Lists xs := by
  obtain rfl | ⟨v, rfl⟩ := h
  · exact ⟨[], .nil⟩
  · obtain ⟨xs, hxs⟩ := Vec.exists_lists hc
    exact ⟨xs, .vector hxs⟩

/-- The counting and indexing functions find a list in the value. -/
structure Cell.ActsAs (c : Cell) (xs : List Cell) : Prop where
  counted : ∃ n : Int64, CoreFn.count.Returns [c] (.long n) ∧ (xs.length < 2 ^ 63 → n.toInt = xs.length)
  within (i : Int64) (x : Cell) (hi : 0 ≤ i.toInt) (hx : xs[i.toInt.toNat]? = some x) :
    CoreFn.nth.Returns [c, .long i] x
  beyond (i : Int64) (hi : i.toInt < 0 ∨ xs.length ≤ i.toInt) :
    CoreFn.nth.Raises [c, .long i]
      (.signal (.ofText Code.bounds s!"index {i.toInt} out of bounds for count {xs.length}"))

/-- The vector of some elements, in the form in which it is built from them. -/
structure Vec.IsVectorOf (u : Vec) (xs : List Cell) : Prop where
  elements : u.toList = .ok xs
  canonical : u.cell.encode = (Vec.of xs).cell.encode
  actsAs : u.cell.ActsAs xs

namespace CoreFn

section Sequence
variable (f : CoreFn) {c : Cell} {xs : List Cell}

/-- A value that stands for a list is read as a vector of it. -/
theorem exists_sequence (h : c.Lists xs) : ∃ v, f.sequence c = .ok v ∧ v.Lists xs := by
  cases h with
  | nil => exact ⟨.empty, rfl, Vec.lists_empty⟩
  | vector h => exact ⟨_, rfl, h⟩

theorem sequence_of_not (h : ¬ c.IsSequence) : f.sequence c = .error (f.castError c) := by
  cases c with
  | nil => exact absurd (.inl rfl) h
  | vector v => exact absurd (.inr ⟨v, rfl⟩) h
  | _ => rfl

end Sequence

/-! ## Counting and indexing -/

theorem run_count {c : Cell} {xs : List Cell} (h : c.Lists xs) :
    count.run [c] = .ok (countCell xs.length) := by
  cases h with
  | nil => rfl
  | vector h =>
    rw [h.length_eq]
    rfl

/-- The element at a position, or an error that states the position and the count. -/
theorem run_nth {c : Cell} {xs : List Cell} (h : c.Lists xs) (i : Int64) :
    ∃ v : Vec, v.Lists xs ∧ nth.run [c, .long i] =
      if i.toInt < 0 ∨ (xs.length : Int) ≤ i.toInt then
        .error (.signal (.ofText Code.bounds s!"index {i.toInt} out of bounds for count {xs.length}"))
      else access (v.get i.toInt.toNat) := by
  obtain ⟨v, hv, hlists⟩ := exists_sequence nth h
  refine ⟨v, hlists, ?_⟩
  rw [run, runNth, both, ok_bind]
  simp only
  rw [hv, ok_bind, hlists.length_eq]

end CoreFn

open CoreFn in
/-- Counting and indexing show the list that a value stands for. -/
theorem Cell.Lists.actsAs {c : Cell} {xs : List Cell} (h : c.Lists xs) : c.ActsAs xs where
  counted := ⟨Int64.ofNat xs.length, returns_iff.2 (run_count h), fun hlt => Int64.toInt_ofNat_of_lt hlt⟩
  within i x hi hx := by
    obtain ⟨hlt, rfl⟩ := List.getElem?_eq_some_iff.1 hx
    obtain ⟨v, hlists, hrun⟩ := run_nth h i
    rw [returns_iff, hrun, if_neg (by omega), hlists.get hlt]
    rfl
  beyond i hi := by
    obtain ⟨v, -, hrun⟩ := run_nth h i
    rw [raises_iff, hrun, if_pos hi]

/-- A vector of a list is the one that its elements make. -/
theorem Vec.Lists.isVectorOf {u : Vec} {xs : List Cell} (h : u.Lists xs) : u.IsVectorOf xs := by
  obtain ⟨w, hw⟩ := h.intact.valid
  exact ⟨h.toList, (Valid.encode_of_toList hw h.toList).symm, (Cell.Lists.vector h).actsAs⟩

namespace CoreFn

/-! ## Adding elements -/

theorem run_conj {coll : Cell} {xs items : List Cell} (h : coll.Lists xs) (hitems : ∀ c ∈ items, c.Intact) :
    ∃ u : Vec, conj.run (coll :: items) = .ok u.cell ∧ u.Lists (xs ++ items) := by
  obtain ⟨v, hv, hlists⟩ := exists_sequence conj h
  obtain ⟨u, hu, hlistsu⟩ := hlists.foldlM_push hitems
  refine ⟨u, ?_, hlistsu⟩
  rw [run, runConj, hv, ok_bind, hu]
  rfl

/-! ## Concatenation -/

/-- Adds the elements of one more argument. -/
def extendBy (f : CoreFn) (acc : Vec) (c : Cell) : Except Exit Vec := do
  let w ← f.sequence c
  access (acc.append w)

theorem runConcat_eq (f : CoreFn) (args : List Cell) :
    f.runConcat args = args.foldlM f.extendBy .empty >>= fun v => .ok v.cell := rfl

theorem exists_extendBy (f : CoreFn) {acc : Vec} {as : List Cell} (hacc : acc.Lists as) {c : Cell}
    {xs : List Cell} (h : c.Lists xs) : ∃ u, f.extendBy acc c = .ok u ∧ u.Lists (as ++ xs) := by
  obtain ⟨v, hv, hlists⟩ := exists_sequence f h
  obtain ⟨u, hu, hlistsu⟩ := hacc.append hlists
  refine ⟨u, ?_, hlistsu⟩
  rw [extendBy, hv, ok_bind, hu]
  rfl

/-- Appending lists one after another flattens them. -/
theorem exists_foldlM_extendBy (f : CoreFn) {args : List Cell} {parts : List (List Cell)}
    (h : List.Forall₂ Cell.Lists args parts) {acc : Vec} {as : List Cell} (hacc : acc.Lists as) :
    ∃ u, args.foldlM f.extendBy acc = .ok u ∧ u.Lists (as ++ parts.flatten) := by
  -- on the arguments: what has been appended so far is the accumulator's list
  induction h generalizing acc as with
  | nil =>
    refine ⟨acc, rfl, ?_⟩
    rwa [List.flatten_nil, List.append_nil]
  | cons hc _ ih =>
    obtain ⟨t, ht, htlists⟩ := exists_extendBy f hacc hc
    obtain ⟨u, hu, hlists⟩ := ih htlists
    refine ⟨u, ?_, ?_⟩
    · rw [List.foldlM_cons, ht]
      exact hu
    · rwa [List.flatten_cons, ← List.append_assoc]

theorem run_concat {args : List Cell} {parts : List (List Cell)} (h : List.Forall₂ Cell.Lists args parts) :
    ∃ u : Vec, concat.run args = .ok u.cell ∧ u.Lists parts.flatten := by
  obtain ⟨u, hu, hlists⟩ := exists_foldlM_extendBy concat h Vec.lists_empty
  refine ⟨u, ?_, hlists⟩
  rw [run, runConcat_eq, hu]
  rfl

/-- The first argument that stands for no list is named. -/
theorem run_concat_of_not {before rest : List Cell} {c : Cell} {parts : List (List Cell)}
    (h : List.Forall₂ Cell.Lists before parts) (hc : ¬ c.IsSequence) :
    concat.run (before ++ c :: rest) = .error (concat.castError c) := by
  obtain ⟨u, hu, -⟩ := exists_foldlM_extendBy concat h Vec.lists_empty
  rw [run, runConcat_eq, List.foldlM_append, hu, ok_bind, List.foldlM_cons, extendBy, sequence_of_not _ hc]
  rfl

/-! ## Grouping -/

/-- Values that come of arguments when runs of them are concatenated first, and runs of such values again. -/
inductive Regrouped : List Cell → List Cell → Prop where
  | nil : Regrouped [] []
  | keep {c : Cell} {cs args : List Cell} (h : Regrouped cs args) : Regrouped (c :: cs) (c :: args)
  | group {inner args cs rest : List Cell} {c : Cell} (hinner : Regrouped inner args)
    (hc : concat.Returns inner c) (h : Regrouped cs rest) : Regrouped (c :: cs) (args ++ rest)

theorem regrouped_self (args : List Cell) : Regrouped args args := by
  induction args with
  | nil => exact .nil
  | cons c args ih => exact .keep ih

/-- Grouping keeps the elements and their order. -/
theorem Regrouped.lists {cs args : List Cell} (h : Regrouped cs args) {parts : List (List Cell)}
    (hargs : List.Forall₂ Cell.Lists args parts) :
    ∃ parts', List.Forall₂ Cell.Lists cs parts' ∧ parts'.flatten = parts.flatten := by
  induction h generalizing parts with
  | nil =>
    cases hargs
    exact ⟨[], .nil, rfl⟩
  | keep _ ih =>
    cases hargs with
    | cons hc hargs =>
      obtain ⟨parts', hparts', heq⟩ := ih hargs
      exact ⟨_, .cons hc hparts', by rw [List.flatten_cons, List.flatten_cons, heq]⟩
  | @group inner args cs rest c _ hc _ ihinner ih =>
    have hargs' := List.forall₂_take_append _ _ _ hargs.flip
    have hrest' := List.forall₂_drop_append _ _ _ hargs.flip
    obtain ⟨inside, hinside, heqinside⟩ := ihinner hargs'.flip
    obtain ⟨behind, hbehind, heqbehind⟩ := ih hrest'.flip
    obtain ⟨u, hu, hlists⟩ := run_concat hinside
    have hcu : c = u.cell := by
      rw [returns_iff, hu] at hc
      exact (Except.ok.inj hc).symm
    subst hcu
    refine ⟨_, .cons (.vector hlists) hbehind, ?_⟩
    rw [List.flatten_cons, heqinside, heqbehind, ← List.flatten_append, List.take_append_drop]

/-! ## Arguments that stand for no list -/

/-- Sequences that are intact stand for lists, one each. -/
theorem exists_parts {args : List Cell} (hargs : ∀ c ∈ args, c.Intact) (hall : ∀ c ∈ args, c.IsSequence) :
    ∃ parts, List.Forall₂ Cell.Lists args parts :=
  exists_forall₂ fun c hc => (hargs c hc).exists_lists (hall c hc)

/-- Concatenation succeeds, or the first argument that stands for no list is named. -/
theorem concat_cases {args : List Cell} (hargs : ∀ c ∈ args, c.Intact) :
    (∃ parts, List.Forall₂ Cell.Lists args parts) ∨
      ∃ before c rest, args = before ++ c :: rest ∧ (∀ b ∈ before, b.IsSequence) ∧ ¬ c.IsSequence ∧
        concat.run args = .error (concat.castError c) := by
  obtain hall | ⟨before, c, rest, rfl, hbefore, hc⟩ := all_or_first Cell.IsSequence args
  · exact .inl (exists_parts hargs hall)
  · obtain ⟨parts, hparts⟩ := exists_parts (fun b hb => hargs b (List.mem_append_left _ hb)) hbefore
    exact .inr ⟨before, c, rest, rfl, hbefore, hc, run_concat_of_not hparts hc⟩

theorem run_conj_of_not {coll : Cell} (items : List Cell) (h : ¬ coll.IsSequence) :
    conj.run (coll :: items) = .error (conj.castError coll) := by
  rw [run, runConj, sequence_of_not _ h]
  rfl

/-- Only sequences have elements to be asked for. -/
theorem run_nth_of_not {coll : Cell} (index : Cell) (h : ¬ coll.IsSequence) :
    nth.run [coll, index] = .error (nth.castError coll) := by
  rw [run, runNth, both, ok_bind]
  simp only
  rw [sequence_of_not _ h]
  rfl

/-! ## Faults -/

/-- The functions that see lists. -/
def OnSequences (f : CoreFn) : Prop := f = concat ∨ f = conj ∨ f = count ∨ f = nth

/-- A result that is no fault. -/
def Sane (r : Except Exit Cell) : Prop := ∀ fault, r ≠ .error (.fault fault)

theorem sane_ok (c : Cell) : Sane (.ok c) := fun _ h => nomatch h

theorem sane_signal (s : Signal) : Sane (.error (.signal s)) := fun _ h => nomatch h

section Sane
variable {args : List Cell} (hargs : ∀ c ∈ args, c.Intact)
include hargs

/-- Concatenation succeeds or complains about an argument. -/
theorem sane_concat : Sane (concat.run args) := by
  obtain ⟨parts, hparts⟩ | ⟨_, c, _, _, _, _, hrun⟩ := concat_cases hargs
  · obtain ⟨u, hu, -⟩ := run_concat hparts
    rw [hu]
    exact sane_ok _
  · rw [hrun]
    exact sane_signal _

theorem sane_conj : Sane (conj.run args) := by
  obtain _ | ⟨coll, items⟩ := args
  · exact sane_signal _
  · obtain ⟨hcoll, hitems⟩ := List.forall_mem_cons.1 hargs
    by_cases h : coll.IsSequence
    · obtain ⟨xs, hxs⟩ := hcoll.exists_lists h
      obtain ⟨u, hu, -⟩ := run_conj hxs hitems
      rw [hu]
      exact sane_ok _
    · rw [run_conj_of_not items h]
      exact sane_signal _

theorem sane_nth : Sane (nth.run args) := by
  match args, hargs with
  | [coll, index], hargs =>
    by_cases h : coll.IsSequence
    · obtain ⟨xs, hxs⟩ := (hargs coll List.mem_cons_self).exists_lists h
      cases index with
      | long i =>
        obtain ⟨v, hlists, hrun⟩ := run_nth hxs i
        rw [hrun]
        split
        · exact sane_signal _
        · next hi =>
          rw [hlists.get (by omega)]
          exact sane_ok _
      | _ =>
        obtain ⟨v, hv, -⟩ := exists_sequence nth hxs
        rw [run, runNth, both, ok_bind]
        simp only
        rw [hv]
        exact sane_signal _
    · rw [run_nth_of_not index h]
      exact sane_signal _
  | [], _ | [_], _ | _ :: _ :: _ :: _, _ => exact sane_signal _

end Sane

theorem sane_count (args : List Cell) : Sane (count.run args) := by
  match args with
  | [c] =>
    cases c with
    | nil | vector | text | blob | map => exact sane_ok _
    | _ => exact sane_signal _
  | [] | _ :: _ :: _ => exact sane_signal _

/-- Calls that see lists do not fault on intact arguments, whether or not they can be paid. -/
theorem callCore_ne_fault {f : CoreFn} (hf : f.OnSequences) {args : List Cell}
    (hargs : ∀ c ∈ args, c.Intact) (m after : Machine) (fault : Fault) :
    Eval.callCore f args m ≠ .error (.fault fault) after := by
  have hsane : Sane (f.run args) := by
    obtain rfl | rfl | rfl | rfl := hf
    · exact sane_concat hargs
    · exact sane_conj hargs
    · exact sane_count args
    · exact sane_nth hargs
  intro h
  by_cases hm : f.price args ≤ m.juice
  · rw [callCore_of_le hm] at h
    cases hrun : f.run args with
    | ok c =>
      rw [hrun] at h
      cases h
    | error e =>
      rw [hrun] at h
      cases h
      exact hsane fault hrun
  · have hcharge : Eval.charge (f.price args) m = .error (.signal .outOfJuice) { m with juice := 0 } :=
      if_pos (Nat.not_le.1 hm)
    rw [Eval.callCore, Eval.bind_of_error hcharge] at h
    cases h

/-! ## Sequences as lists -/

/-- The functions on sequences are functions on lists. The arguments are loaded values, whatever they came
about from, and the calls can be paid.

* A sequence lists its elements, and counting and indexing see that list: a position below its length is that
  of an element, and any other is an error.
* Concatenation yields the vector of the elements of all arguments, also if runs of arguments are concatenated
  first; it succeeds exactly if all arguments are sequences, and otherwise names the first that is not.
* Adding to a sequence yields the vector of its elements and the items.
* Adding to or indexing what is no sequence is an error that names it.
* No such call faults, whether or not it can be paid. -/
theorem sequences_exact {args : List Cell}
    (hargs : ∀ c ∈ args, (∃ stores w, Built stores w c) ∧ c.loaded = true) :
    (∀ c ∈ args, c.IsSequence → ∃ xs, c.Lists xs ∧ c.ActsAs xs) ∧
    (∀ parts, List.Forall₂ Cell.Lists args parts → ∀ cs, Regrouped cs args → ∃ u : Vec,
      concat.Returns cs u.cell ∧ u.IsVectorOf parts.flatten ∧ u.count = total (parts.map List.length)) ∧
    ((∃ c, concat.Returns args c) ↔ ∀ c ∈ args, c.IsSequence) ∧
    (¬ (∀ c ∈ args, c.IsSequence) → ∃ before c rest, args = before ++ c :: rest ∧
      (∀ b ∈ before, b.IsSequence) ∧ ¬ c.IsSequence ∧ concat.Raises args (concat.castError c)) ∧
    (∀ coll items, args = coll :: items → ∀ xs, coll.Lists xs → ∃ u : Vec,
      conj.Returns args u.cell ∧ u.IsVectorOf (xs ++ items) ∧ u.count = xs.length + items.length) ∧
    (∀ coll items, args = coll :: items → ¬ coll.IsSequence → conj.Raises args (conj.castError coll)) ∧
    (∀ coll index, args = [coll, index] → ¬ coll.IsSequence → nth.Raises args (nth.castError coll)) ∧
    (∀ f : CoreFn, f.OnSequences → ∀ m fault after,
      Eval.callCore f args m ≠ .error (.fault fault) after) := by
  have hintact : ∀ c ∈ args, c.Intact := fun c hc => by
    obtain ⟨⟨stores, w, hbuilt⟩, hloaded⟩ := hargs c hc
    exact hbuilt.intact hloaded
  refine ⟨fun c hc hseq => ?_, fun parts hparts cs hcs => ?_, ⟨?_, fun hall => ?_⟩, fun hnot => ?_,
    ?_, ?_, ?_, fun f hf m fault after => callCore_ne_fault hf hintact m after fault⟩
  · obtain ⟨xs, hxs⟩ := (hintact c hc).exists_lists hseq
    exact ⟨xs, hxs, hxs.actsAs⟩
  -- however the arguments are grouped, they stand for lists that flatten to the same
  · obtain ⟨parts', hparts', heq⟩ := hcs.lists hparts
    obtain ⟨u, hu, hlists⟩ := run_concat hparts'
    rw [heq] at hlists
    exact ⟨u, returns_iff.2 hu, hlists.isVectorOf, hlists.length_eq.symm.trans List.length_flatten⟩
  · rintro ⟨c, hc⟩
    obtain ⟨parts, hparts⟩ | ⟨_, _, _, _, _, _, hrun⟩ := concat_cases hintact
    · intro c hc
      obtain ⟨xs, -, hxs⟩ := exists_of_forall₂_left hparts hc
      exact hxs.isSequence
    · rw [returns_iff, hrun] at hc
      cases hc
  · obtain ⟨parts, hparts⟩ := exists_parts hintact hall
    obtain ⟨u, hu, -⟩ := run_concat hparts
    exact ⟨_, returns_iff.2 hu⟩
  · obtain ⟨parts, hparts⟩ | ⟨before, c, rest, hsplit, hbefore, hc, hrun⟩ := concat_cases hintact
    · refine absurd (fun c hc => ?_) hnot
      obtain ⟨xs, -, hxs⟩ := exists_of_forall₂_left hparts hc
      exact hxs.isSequence
    · exact ⟨before, c, rest, hsplit, hbefore, hc, raises_iff.2 hrun⟩
  · rintro coll items rfl xs hxs
    obtain ⟨u, hu, hlists⟩ := run_conj hxs (List.forall_mem_cons.1 hintact).2
    exact ⟨u, returns_iff.2 hu, hlists.isVectorOf, by rw [← hlists.length_eq, List.length_append]⟩
  · rintro coll items rfl h
    exact raises_iff.2 (run_conj_of_not items h)
  · rintro coll index rfl h
    exact raises_iff.2 (run_nth_of_not index h)

/-- A full chunk, nothing and one more element, of which the first two are concatenated first. -/
theorem sequences_exact_threeParts :
    ∃ t u : Vec, concat.Returns [(Vec.of (List.replicate 32 .nil)).cell, .nil] t.cell ∧
      concat.Returns [t.cell, (Vec.of [.long 5]).cell] u.cell ∧
      u.toList = .ok (List.replicate 32 .nil ++ [.long 5]) ∧
      nth.Returns [u.cell, .long 32] (.long 5) ∧
      nth.Raises [u.cell, .long (-1)]
        (.signal (.ofText Code.bounds s!"index {(-1 : Int)} out of bounds for count {33}")) := by
  have hchunk : Built [] 32 (Vec.of (List.replicate 32 .nil)).cell := Built.nils 32
  have hone : Built [] 1 (Vec.of [.long 5]).cell := .vector (List.forall_mem_singleton.2 (.long 5))
  have hargs : ∀ c ∈ [(Vec.of (List.replicate 32 .nil)).cell, .nil, (Vec.of [.long 5]).cell],
      (∃ stores w, Built stores w c) ∧ c.loaded = true := by
    refine List.forall_mem_cons.2 ⟨⟨⟨_, _, hchunk⟩, by decide +kernel⟩, List.forall_mem_cons.2
      ⟨⟨⟨[], 0, .nil⟩, rfl⟩, List.forall_mem_singleton.2 ⟨⟨_, _, hone⟩, by decide +kernel⟩⟩⟩
  have hnil : Cell.nil.Intact := (Built.nil : Built [] 0 .nil).intact rfl
  have hlong : (Cell.long 5).Intact := (Built.long 5 : Built [] 0 _).intact rfl
  have hfirst : (Vec.of (List.replicate 32 .nil)).cell.Lists (List.replicate 32 .nil) := by
    refine .vector (Vec.lists_of fun x hx => ?_)
    rw [List.eq_of_mem_replicate hx]
    exact hnil
  have hlast : (Vec.of [.long 5]).cell.Lists [.long 5] :=
    .vector (Vec.lists_of (List.forall_mem_singleton.2 hlong))
  obtain ⟨-, hconcat, -⟩ := sequences_exact hargs
  obtain ⟨t, ht, -⟩ := run_concat (.cons hfirst (.cons .nil .nil))
  obtain ⟨u, hu, hvector, -⟩ := hconcat _ (.cons hfirst (.cons .nil (.cons hlast .nil)))
    [t.cell, (Vec.of [.long 5]).cell]
    (.group (regrouped_self [_, _]) (returns_iff.2 ht) (regrouped_self [_]))
  exact ⟨t, u, returns_iff.2 ht, hu, hvector.elements, hvector.actsAs.within 32 _ (by decide) rfl,
    hvector.actsAs.beyond (-1) (.inl (by decide))⟩

end CoreFn

end CellMachine
