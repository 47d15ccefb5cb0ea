import CellMachine.Proofs.Vec.Canonical
import CellMachine.Proofs.Vec.Elements

/-!
# The end of a vector

Pushing adds an element to the list of elements and popping takes the last one away. A tree gives up its
last chunk: the chunk comes from the last child, and so on down, and a node that is left with a single
child is replaced by that child (`Vec.splitLast_of_toList`). The elements before the chunk stay as they
are listed, so that popping a listed vector cannot fail unless it is empty (`Vec.pop_of_toList`).

A sequence of elements has one encoding, and hence the two undo each other.

Main statement: `Built.push_pop_canonical`.
-/

namespace CellMachine

variable {w : Nat}

namespace Vec

variable {v : Vec} {xs : List Cell} {x : Cell}

/-! ## The last chunk -/

/-- The chunk comes from the last child. -/
theorem refsSplitLast_concat (init : List Ref) (last : Ref) :
    refsSplitLast (init ++ [last]) = last.vec >>= fun v => splitLast v >>= fun (rest, full) =>
      .ok (init ++ (rest.map Ref.of).toList, full) := by
  induction init with
  | nil =>
    rw [List.nil_append, refsSplitLast, refSplitLast_eq, bind_assoc]
    rfl
  | cons r init ih =>
    have hne : init ++ [last] = [] → False :=
      List.append_ne_nil_of_right_ne_nil init (List.cons_ne_nil last [])
    rw [List.cons_append, refsSplitLast, ih, bind_assoc]
    · refine congrArg (last.vec >>= ·) (funext fun v => ?_)
      rw [bind_assoc]
      rfl
    · exact hne

/-- What is left of a vector without its last chunk has the given elements. -/
def RestLists : Option Cell → List Cell → Prop
  | some c, ys => ∃ u, c = .vector u ∧ u.toList = .ok ys
  | none, ys => ys = []

/-- The children that are left have the elements of what remains of the node. -/
theorem remainder_of_toList {n : Nat} {rest : List Ref} (h : refsTraverse .ok rest = .ok xs) :
    ∃ u, remainder n rest = .ok (.vector u) ∧ u.toList = .ok xs := by
  have htree : ∀ {rs : List Ref}, refsTraverse .ok rs = .ok xs → (tree n rs).toList = .ok xs := by
    intro rs hrs
    rwa [toList_tree]
  cases rest with
  | nil => exact ⟨tree n [], rfl, htree h⟩
  | cons r rest =>
    cases rest with
    | nil =>
      -- the only child is the whole vector
      obtain ⟨u, first, rest, hu, hfirst, hrest, rfl⟩ := refsTraverse_cons_eq_ok_iff.1 h
      cases hrest
      refine ⟨u, Ref.cell_eq_ok_iff.2 (Ref.vec_eq_ok_iff.1 hu), ?_⟩
      rwa [List.append_nil]
    | cons s rest => exact ⟨tree n (r :: s :: rest), rfl, htree h⟩

/-- The children before the last one, and what the last one leaves. -/
theorem refsTraverse_rest {init : List Ref} {o : Option Cell} {ys : List Cell}
    (h : refsTraverse .ok init = .ok xs) (ho : RestLists o ys) :
    refsTraverse .ok (init ++ (o.map Ref.of).toList) = .ok (xs ++ ys) := by
  cases o with
  | none =>
    have hnil : ys = [] := ho
    rw [hnil, List.append_nil]
    rwa [Option.map_none, Option.toList_none, List.append_nil]
  | some c =>
    obtain ⟨u, rfl, hu⟩ := ho
    exact refsTraverse_concat_eq_ok_iff.2 ⟨xs, ys, h, leadsTo_of hu, rfl⟩

/-- A listed packed vector falls into the elements of its last chunk and the elements before them. -/
theorem splitLast_of_toList (hv : v.Valid w) (hpos : 0 < v.count) (hmod : v.count % chunkSize = 0)
    (h : v.toList = .ok xs) : ∃ o items ys zs, splitLast v = .ok (o, .chunk items) ∧
      RestLists o ys ∧ (chunk items).toList = .ok zs ∧ zs.length = chunkSize ∧ xs = ys ++ zs := by
  induction v using Vec.induction generalizing xs with
  | step v ih =>
    rcases hv.shaped.count_eq_of_packed hmod with ⟨items, rfl, -⟩ | ⟨n, children, rfl⟩
    · have hcount : 0 < (chunk items).count := hpos
      have hle : (chunk items).count ≤ chunkSize := hv.shaped
      refine ⟨none, items, [], xs, rfl, rfl, h, ?_, rfl⟩
      rw [(spec_of_toList hv h).1]
      exact Nat.le_antisymm hle (Nat.le_of_dvd hcount (Nat.dvd_of_mod_eq_zero hmod))
    · obtain ⟨hn, hn32, htiles⟩ := hv.shaped
      obtain ⟨init, last, rfl⟩ := htiles.exists_concat (by omega)
      obtain ⟨-, hlt, -, hold⟩ := tiles_concat_iff.1 htiles
      have hmem : last ∈ (tree n (init ++ [last])).refs :=
        List.mem_append_right _ List.mem_cons_self
      rw [toList_tree] at h
      obtain ⟨before, after, hbefore, ⟨t, ht, hafter⟩, rfl⟩ := refsTraverse_concat_eq_ok_iff.1 h
      obtain ⟨htv, htcount⟩ := (hv.refs hmem).vec hold ht
      have htmod : t.count % chunkSize = 0 := by
        rw [htcount]
        exact childRest_mod hn32
      -- the last child gives up its last chunk, which is the same question one level down
      obtain ⟨o, items, ys, zs, hsplit, ho, hzs, hlen, rfl⟩ :=
        ih last hmem t ht htv (by omega) htmod hafter
      obtain ⟨u, hu, hlist⟩ :=
        remainder_of_toList (n := n - chunkSize) (refsTraverse_rest hbefore ho)
      refine ⟨some (.vector u), items, before ++ ys, zs, ?_, ⟨u, rfl, hlist⟩, hzs, hlen, ?_⟩
      · rw [splitLast, refsSplitLast_concat, ht, ok_bind, hsplit, ok_bind, ok_bind]
        show (remainder _ _ >>= _) = _
        rw [hu]
        rfl
      · rw [List.append_assoc]

/-! ## The last element -/

theorem pop_chunk {items : List Ref} (h : items ≠ []) :
    (chunk items).pop = .ok (.chunk items.dropLast) := by
  cases items with
  | nil => exact absurd rfl h
  | cons r items => rfl

theorem pop_tailed {n : Nat} {front : Ref} {items : List Ref} (h : ∀ r, items ≠ [r]) :
    (tailed n front items).pop = .ok (.tailed (n - 1) front items.dropLast) := by
  unfold pop
  split
  · next heq => cases heq
  · next heq => cases heq
  · next r heq =>
    cases heq
    exact absurd rfl (h r)
  · next heq =>
    cases heq
    rfl
  · next heq => cases heq

/-- Items without the last one hold the cells without the last one. -/
theorem items_dropLast {items : List Ref}
    (h : List.Forall₂ (fun r c => r.held? = some c) items (xs ++ [x])) :
    List.Forall₂ (fun r c => r.held? = some c) items.dropLast xs := by
  have hlen : items.length - 1 = xs.length := by
    rw [h.length_eq, List.length_append, List.length_singleton, Nat.add_sub_cancel]
  rw [List.dropLast_eq_take, hlen]
  exact List.forall₂_take_append items xs [x] h

/-- A list that ends in a run of elements and in an element has that element at the end of the run. -/
theorem concat_of_append {ys zs : List Cell} (h : xs ++ [x] = ys ++ zs) (hne : zs ≠ []) :
    ∃ zs', zs = zs' ++ [x] ∧ xs = ys ++ zs' := by
  rcases List.eq_nil_or_concat zs with rfl | ⟨zs', z, rfl⟩
  · exact absurd rfl hne
  · rw [List.concat_eq_append, ← List.append_assoc] at h
    obtain ⟨hinit, hlast⟩ := List.append_inj' h rfl
    cases hlast
    exact ⟨zs', List.concat_eq_append, hinit⟩

/-- Popping a listed vector takes the last element off the list. -/
theorem pop_of_toList (hv : v.Valid w) (h : v.toList = .ok (xs ++ [x])) :
    ∃ u, v.pop = .ok u ∧ u.toList = .ok xs := by
  cases v with
  | chunk items =>
    have hitems := toList_chunk_eq_ok_iff.1 h
    refine ⟨_, pop_chunk ?_, toList_chunk_eq_ok_iff.2 (items_dropLast hitems)⟩
    rintro rfl
    have hlen := hitems.length_eq
    rw [List.length_append] at hlen
    cases hlen
  | tailed n front items =>
    obtain ⟨-, hne, -, -⟩ := hv.shaped
    obtain ⟨t, before, after, ht, hbefore, hafter, hxs⟩ := toList_tailed_eq_ok_iff.1 h
    have hane : after ≠ [] := by
      rintro rfl
      exact hne (List.forall₂_nil_right_iff.1 hafter)
    -- the last element is the last one of the tail
    obtain ⟨after', rfl, rfl⟩ := concat_of_append hxs hane
    by_cases hone : ∃ r, items = [r]
    · -- the tail is used up, and the front is what is left
      obtain ⟨r, rfl⟩ := hone
      have hnil := items_dropLast hafter
      rw [List.dropLast_singleton, List.forall₂_nil_left_iff] at hnil
      rw [hnil, List.append_nil]
      exact ⟨t, ht, hbefore⟩
    · refine ⟨_, pop_tailed fun r hr => hone ⟨r, hr⟩, toList_tailed_eq_ok_iff.2 ?_⟩
      exact ⟨t, before, after', ht, hbefore, items_dropLast hafter, rfl⟩
  | tree n children =>
    obtain ⟨hn, hn32, -⟩ := hv.shaped
    have hpos : 0 < (tree n children).count := Nat.lt_trans (by decide) hn
    -- a tree has no tail: its last chunk becomes one
    obtain ⟨o, items, ys, zs, hsplit, ho, hzs, hlen, hxs⟩ := splitLast_of_toList hv hpos hn32 h
    have hzne : zs ≠ [] := by
      rintro rfl
      cases hlen
    obtain ⟨zs', rfl, rfl⟩ := concat_of_append hxs hzne
    have hitems := items_dropLast (toList_chunk_eq_ok_iff.1 hzs)
    have hpop : (tree n children).pop = splitLast (tree n children) >>= _ := rfl
    rw [hpop, hsplit]
    cases o with
    | none =>
      have hnil : ys = [] := ho
      rw [hnil, List.nil_append]
      exact ⟨_, rfl, toList_chunk_eq_ok_iff.2 hitems⟩
    | some c =>
      obtain ⟨u, rfl, hu⟩ := ho
      exact ⟨_, rfl, toList_tailed_eq_ok_iff.2 ⟨u, ys, zs', Ref.vec_of u, hu, hitems, rfl⟩⟩

/-- A valid vector without elements has nothing to pop. -/
theorem Valid.pop_of_count_eq_zero (hv : v.Valid w) (h : v.count = 0) :
    v.pop = .error (.outOfBounds 0 0) := by
  obtain ⟨items, rfl⟩ := hv.shaped.exists_chunk h (Nat.zero_le _)
  have hnil : items = [] := List.length_eq_zero_iff.1 h
  rw [hnil]
  rfl

/-! ## Equal vectors -/

/-- A step that succeeds with a vector equal to `v`: it has the elements of `v` and its encoding. -/
def Gives (step : Except DataError Vec) (v : Vec) : Prop :=
  ∃ u, step = .ok u ∧ u.toList = v.toList ∧ u.cell.encode = v.cell.encode

/-- Valid vectors with the same elements are equal, whatever work has gone into them. -/
theorem gives_of_toList {w' : Nat} {step : Except DataError Vec} {u : Vec} (hstep : step = .ok u)
    (hu : u.Valid w) (hv : v.Valid w') (hx : u.toList = .ok xs) (hy : v.toList = .ok xs) :
    Gives step v :=
  ⟨u, hstep, hx.trans hy.symm, encode_eq_of_toList (hu.mono (Nat.le_max_left w w'))
    (hv.mono (Nat.le_max_right w w')) hx hy rfl⟩

theorem gives_of {step : Except DataError Vec} {u : Vec} (hstep : step = .ok u) (hu : u.Valid w)
    (hx : u.toList = .ok xs) : Gives step (Vec.of xs) :=
  ⟨u, hstep, hx.trans (toList_of xs).symm, (hu.encode_of_toList hx).symm⟩

theorem Valid.exists_push {w' : Nat} (hv : v.Valid w) (h : v.toList = .ok xs) (hx : x.Valid w') :
    ∃ u, v.push x = .ok u ∧ u.Valid (max w w' + 1) ∧ u.toList = .ok (xs ++ [x]) := by
  obtain ⟨u, hu, hlist⟩ := push_of_toList hv h x
  have hvalid := (valid_of_push (hv.mono (Nat.le_max_left w w'))
    (hx.mono (Nat.le_max_right w w')) hu).1
  exact ⟨u, hu, hvalid, hlist⟩

theorem Valid.exists_pop (hv : v.Valid w) (h : v.toList = .ok (xs ++ [x])) :
    ∃ u, v.pop = .ok u ∧ u.Valid w ∧ u.toList = .ok xs := by
  obtain ⟨u, hu, hlist⟩ := pop_of_toList hv h
  exact ⟨u, hu, (valid_of_pop hv hu).1, hlist⟩

/-- Popping fails on vectors without elements only. -/
theorem Valid.pop_eq_error_iff (hv : v.Valid w) (h : v.toList = .ok xs) {e : DataError} :
    v.pop = .error e ↔ v.count = 0 ∧ e = .outOfBounds 0 0 := by
  constructor
  · intro hpop
    rcases List.eq_nil_or_concat xs with rfl | ⟨ys, y, rfl⟩
    · have hzero : v.count = 0 := (spec_of_toList hv h).1.symm
      rw [hv.pop_of_count_eq_zero hzero] at hpop
      cases hpop
      exact ⟨hzero, rfl⟩
    · -- a vector with a last element gives it up
      rw [List.concat_eq_append] at h
      obtain ⟨u, hu, -⟩ := pop_of_toList hv h
      rw [hu] at hpop
      cases hpop
  · rintro ⟨hzero, rfl⟩
    exact hv.pop_of_count_eq_zero hzero

end Vec

/-! ## Pushing and popping undo each other -/

/-- Pushing and popping are inverse to each other on the canonical form. A loaded vector, whatever it
came about from, lists its elements, and

* pushing any cell gives the vector that is built from the elements and the cell, and popping that
  gives the vector back;
* if there is a last element, popping gives the vector that is built from the elements before it, and
  pushing the element again gives the vector back;
* popping fails if and only if there are no elements, and always in the same way. -/
theorem Built.push_pop_canonical {stores : List Store} {v : Vec} (h : Built stores w v.cell)
    (hloaded : v.cell.loaded = true) :
    ∃ xs, v.toList = .ok xs ∧ xs.length = v.count ∧
      (∀ (stores' : List Store) (w' : Nat) (x : Cell), Built stores' w' x →
        Vec.Gives (v.push x) (Vec.of (xs ++ [x])) ∧ Vec.Gives (v.push x >>= Vec.pop) v) ∧
      (∀ ys y, xs = ys ++ [y] →
        Vec.Gives v.pop (Vec.of ys) ∧ v.get (v.count - 1) = .ok y ∧
          Vec.Gives (v.pop >>= fun u => u.push y) v) ∧
      ∀ e, v.pop = .error e ↔ v.count = 0 ∧ e = .outOfBounds 0 0 := by
  have hv : v.Valid (w + 2 ^ 59) := h.valid (.inr (Nat.le_refl _))
  obtain ⟨xs, hxs⟩ := Vec.exists_toList hv hloaded
  obtain ⟨hlen, helements⟩ := Vec.spec_of_toList hv hxs
  refine ⟨xs, hxs, hlen, fun stores' w' x hx => ?_, fun ys y hy => ?_,
    fun e => hv.pop_eq_error_iff hxs⟩
  -- pushing, and popping what was pushed
  · have hxv : x.Valid (w' + 2 ^ 59) := hx.valid (.inr (Nat.le_refl _))
    obtain ⟨u, hu, huv, hlist⟩ := hv.exists_push hxs hxv
    obtain ⟨t, ht, htv, hrest⟩ := huv.exists_pop hlist
    refine ⟨Vec.gives_of hu huv hlist, ?_⟩
    rw [hu, ok_bind]
    exact Vec.gives_of_toList ht htv hv hrest hxs
  -- popping, and pushing what was popped
  · subst hy
    obtain ⟨u, hu, huv, hlist⟩ := hv.exists_pop hxs
    have hyv := helements y (List.mem_append_right ys List.mem_cons_self)
    obtain ⟨t, ht, htv, hagain⟩ := huv.exists_push hlist hyv
    have hcount : v.count = ys.length + 1 := by
      rw [← hlen, List.length_append, List.length_singleton]
    refine ⟨Vec.gives_of hu huv hlist, ?_, ?_⟩
    · rw [hcount, Nat.add_sub_cancel, Vec.get, if_neg (by omega)]
      exact Vec.getIn_of_toList hv hxs List.getElem?_concat_length
    · rw [hu, ok_bind]
      exact Vec.gives_of_toList ht htv hv hagain hxs

theorem Built.nils (n : Nat) : Built [] n (Vec.of (List.replicate n .nil)).cell := by
  have h : Built [] (0 + (List.replicate n Cell.nil).length) (Vec.of (List.replicate n .nil)).cell := by
    refine .vector fun c hc => ?_
    cases List.eq_of_mem_replicate hc
    exact .nil
  rwa [Nat.zero_add, List.length_replicate] at h

/-- A tree of two full chunks takes an element and gives it up again, and gives up its own last element
and takes it again. -/
theorem Built.push_pop_canonical_twoChunks :
    Vec.Gives ((Vec.of (List.replicate 64 .nil)).push (.long 5))
      (Vec.of (List.replicate 64 .nil ++ [.long 5])) ∧
    Vec.Gives ((Vec.of (List.replicate 64 .nil)).push (.long 5) >>= Vec.pop)
      (Vec.of (List.replicate 64 .nil)) ∧
    Vec.Gives (Vec.of (List.replicate 64 .nil)).pop (Vec.of (List.replicate 63 .nil)) ∧
    Vec.Gives ((Vec.of (List.replicate 64 .nil)).pop >>= fun u => u.push .nil)
      (Vec.of (List.replicate 64 .nil)) := by
  obtain ⟨xs, hxs, -, hpush, hpop, -⟩ := (nils 64).push_pop_canonical (by decide +kernel)
  rw [Vec.toList_of] at hxs
  cases hxs
  obtain ⟨hless, -, hagain⟩ := hpop (List.replicate 63 .nil) .nil rfl
  exact ⟨(hpush [] 0 _ (.long 5)).1, (hpush [] 0 _ (.long 5)).2, hless, hagain⟩

end CellMachine
