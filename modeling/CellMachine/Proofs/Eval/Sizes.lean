import Mathlib.Data.Fintype.BigOperators
import CellMachine.Proofs.Cell.Describing
import CellMachine.Proofs.Cell.Throughout
import CellMachine.Proofs.Eval.Raising
import CellMachine.Proofs.Eval.Twins

/-!
# Juice pays for the sizes of values

A program makes vectors longer by calling core functions, whose price grows with the elements that they add. So the
juice that is spent bounds what vectors can gain, and a count stays a number of 64 bits as long as the juice that
there was at the start is one. That is said with a ceiling for the counts that rises as the juice is spent
(`Juice.ceiling`): what a call adds is no more than what the ceiling gains by its price.

Texts are not made at all. So the texts that are found in a value are those that were there before.

A cell is *sized* if nothing in it is missing, all counts in it are below a limit, and all texts in it are among the
given ones (`Cell.Sized`). Core functions keep values sized, with a limit that is higher by the elements they add
(`CoreFn.regular_sized`), and evaluation stays within the budget of sized values (`Budget.sound_sizes`).

Main statements: `CoreFn.regular_sized` and `Budget.sound_sizes`.
-/

namespace CellMachine

variable {S : Text → Prop} {n k : Nat}

/-! ## Sized cells -/

/-- A vector with at most `n` elements, a text among the given ones, or any other cell. -/
def Cell.Modest (S : Text → Prop) (n : Nat) : Cell → Prop
  | .vector v => v.count ≤ n
  | .text t => S t
  | _ => True

/-- An intact cell in which, at any depth, vectors have at most `n` elements and texts are among the given ones. -/
structure Cell.Sized (S : Text → Prop) (n : Nat) (c : Cell) : Prop where
  intact : c.Intact
  modest : ∀ d, c.Contains d → d.Modest S n

namespace Cell
variable {c d : Cell}

/-- A cell that is modest stays so under a larger bound. -/
theorem Modest.mono (h : c.Modest S n) (hn : n ≤ k) : c.Modest S k := by
  cases c with
  | vector v => exact Nat.le_trans h hn
  | text t => exact h
  | _ => trivial

theorem Sized.mono (h : c.Sized S n) (hn : n ≤ k) : c.Sized S k :=
  ⟨h.intact, fun d hd => (h.modest d hd).mono hn⟩

theorem Sized.of_contains (h : c.Sized S n) (hd : c.Contains d) : d.Sized S n :=
  ⟨h.intact.of_contains hd, fun e he => h.modest e (hd.trans he)⟩

/-- The texts in a cell are among any texts that all of them are among. -/
theorem Sized.among {S' : Text → Prop} (h : c.Sized S n) (hS : ∀ t, c.Contains (.text t) → S' t) :
    c.Sized S' n := by
  refine ⟨h.intact, fun d hd => ?_⟩
  cases d with
  | vector v => exact h.modest (.vector v) hd
  | text t => exact hS t hd
  | _ => trivial

/-- Without parts there is only the cell itself to look at. -/
theorem sized_of_no_refs (shaped : c.Shaped) (room : c.Room 0) (h : c.refs = []) (hc : c.Modest S n) :
    c.Sized S n := by
  have hloaded : c.loaded = true := loaded_iff.2 fun r hr => by
    rw [h] at hr
    cases hr
  refine ⟨⟨hloaded, 0, valid_of_no_refs shaped room h⟩, fun d hd => ?_⟩
  obtain rfl | ⟨r, hr, -⟩ := contains_iff.1 hd
  · exact hc
  · rw [h] at hr
    cases hr

/-- What is known of the references is known of what they hold. -/
theorem sized_of_throughout (hintact : c.Intact) (hc : c.Modest S n)
    (h : c.Throughout (Ref.Holds (Modest S n))) : c.Sized S n :=
  ⟨hintact, Ref.throughout_holds_iff.1 (Ref.throughout_of (Ref.holds_of hc) h)⟩

theorem Sized.throughout (h : c.Sized S n) : (Ref.of c).Throughout (Ref.Holds (Modest S n)) :=
  Ref.throughout_holds_iff.2 h.modest

/-- Counts below the limit are numbers of 64 bits. -/
theorem Sized.count_lt (h : c.Sized S n) (hn : n < 2 ^ 64) : ∀ v, c = .vector v → v.count < 2 ^ 64 := by
  rintro v rfl
  exact Nat.lt_of_le_of_lt (h.modest _ .self) hn

/-- A sized cell counts in 64 bits as long as the bound does. -/
theorem Sized.countable (h : c.Sized S n) (hn : n < 2 ^ 64) : c.Countable := by
  obtain ⟨w, hvalid⟩ := h.intact.valid
  exact hvalid.countable (h.count_lt hn)

/-- So the cell is written down within the limit on encodings. -/
theorem Sized.length_encode_le (h : c.Sized S n) (hn : n < 2 ^ 64) : c.encode.length ≤ maxEncoding := by
  obtain ⟨w, hvalid⟩ := h.intact.valid
  exact hvalid.length_encode_le_of_count (h.count_lt hn)

end Cell

/-! ## Vectors, maps and closures -/

/-- All that is inside of a vector has a length of its own or is inside of an element. -/
theorem Vec.Lists.sized {v : Vec} {xs : List Cell} (h : v.Lists xs) (hxs : ∀ x ∈ xs, x.Sized S n)
    (hlen : xs.length ≤ n) : v.cell.Sized S n := by
  refine ⟨h.intact, fun d hd => ?_⟩
  obtain ⟨u, ys, rfl, hu, hsub⟩ | ⟨x, hx, hcontains⟩ := mem_of_contains h.toList hd
  · obtain ⟨w, hvalid⟩ := (h.intact.of_contains hd).valid
    show u.count ≤ n
    rw [← (spec_of_toList hvalid hu).1]
    exact Nat.le_trans hsub.length_le hlen
  · exact (hxs x hx).modest d hcontains

/-- A sized vector has a list of sized elements. -/
theorem Vec.exists_lists_sized {v : Vec} (h : v.cell.Sized S n) :
    ∃ xs, v.Lists xs ∧ (∀ x ∈ xs, x.Sized S n) ∧ xs.length ≤ n := by
  obtain ⟨xs, hlists⟩ := exists_lists h.intact
  refine ⟨xs, hlists, fun x hx => h.of_contains (contains_of_toList hlists.toList hx), ?_⟩
  rw [hlists.length_eq]
  exact h.modest _ .self

/-- A map made from sized values is sized, for maps have no length to bound. -/
theorem Table.sized_ofList {es : List (Name × Cell)} {t : Table} (hes : ∀ e ∈ es, e.2.Sized S n)
    (h : ofList (es.map fun e => (.symbol e.1, e.2)) = .ok t) : t.cell.Sized S n := by
  have hsymbol : ∀ s : Name, (Cell.symbol s).Sized S n := fun s =>
    Cell.sized_of_no_refs rfl trivial rfl trivial
  have hfit : t.cell.Fit False := fit_ofList (List.forall_mem_map.2 fun e he =>
    ⟨Cell.fit_false_iff.2 (hsymbol e.1).intact, Cell.fit_false_iff.2 (hes e he).intact⟩) h
  exact Cell.sized_of_throughout hfit.intact trivial (throughout_ofList
    (List.forall_mem_map.2 fun e he => ⟨(hsymbol e.1).throughout, (hes e he).throughout⟩) h)

/-- A closure is sized if what it is made of is. -/
theorem Closure.sized_of_create {params : Vec} {body c : Cell} {env : Table} {name : Option Name}
    (hparams : params.cell.Sized S n) (hbody : body.Sized S n) (henv : env.cell.Sized S n)
    (h : create params body env name = .ok c) : c.Sized S n := by
  have hfit : c.Fit False := fit_of_create (Cell.fit_false_iff.2 hparams.intact)
    (Cell.fit_false_iff.2 hbody.intact) (Cell.fit_false_iff.2 henv.intact) False.elim h
  have hparts := throughout_create hparams.throughout hbody.throughout henv.throughout h
  obtain ⟨-, -, h⟩ := bind_eq_ok_iff.1 h
  obtain ⟨-, -, h⟩ := bind_eq_ok_iff.1 h
  cases h
  exact Cell.sized_of_throughout hfit.intact trivial hparts

/-- A name is no text, and changes nothing else. -/
theorem Eval.sized_named {v : Cell} (h : v.Sized S n) (symbol : Name) : (named v symbol).Sized S n := by
  unfold named
  split
  · next params body env =>
    have hfit := Closure.fit_rename (n := symbol) (Cell.fit_false_iff.2 h.intact)
    exact Cell.sized_of_throughout hfit.intact trivial
      (Cell.throughout_iff.2 fun _ hr => Cell.throughout_iff.1 h.throughout.here_of _ hr)
  · exact h

/-- A closure has at most as many parameters as a sized vector has elements. -/
theorem Closure.length_paramNames_le {c : Closure} (hc : (Cell.fn c).Sized S n) {names : List Name}
    (h : c.paramNames = .ok names) : names.length ≤ n := by
  obtain ⟨v, hv, h⟩ := bind_eq_ok_iff.1 h
  have hvec : v.cell.Sized S n :=
    hc.of_contains (Cell.contains_of_held List.mem_cons_self (Ref.vec_eq_ok_iff.1 hv))
  obtain ⟨xs, hxs, -, hlen⟩ := Vec.exists_lists_sized hvec
  rw [requireSymbols, Vec.traverse_of_toList _ hxs.toList, mapM_eq_ok_iff] at h
  rw [← h.length_eq]
  exact hlen

/-! ## Maps that are too large -/

/-- The bytes of a hash, one for each position. -/
def Hash.digits (h : Hash) (i : Fin hashSize) : Fin 256 :=
  (h.bytes.get ⟨i, by rw [h.size_eq]; exact i.isLt⟩).toFin

/-- Hashes are told apart by their bytes, so there are no more of them than rows of bytes. -/
theorem Hash.digits_injective : Function.Injective digits := by
  intro a b h
  refine bytes_injective (List.ext_get (a.size_eq.trans b.size_eq.symm) fun i hi hi' => ?_)
  have hdigit := congrFun h ⟨i, by rwa [a.size_eq] at hi⟩
  exact UInt8.toFin_inj.1 hdigit

namespace Table
variable {entries : List (Cell × Cell)}

/-- A list in order has at most as many entries as there are hashes. -/
theorem length_le_of_increasing {es : List (Ref × Ref)} (h : Increasing es) : es.length ≤ 256 ^ hashSize := by
  have hnodup : (es.map fun e => e.1.hash.digits).Nodup := by
    rw [List.Nodup, List.pairwise_map]
    exact h.imp fun hlt heq => Hash.ne_of_lt hlt (Hash.digits_injective heq)
  have hcard := hnodup.length_le_card
  rwa [List.length_map, Fintype.card_fun, Fintype.card_fin, Fintype.card_fin] at hcard

/-- The references in a map that is put together from cells are new, and new references are short. -/
theorem length_encode_le_of_mem_foldl : ∀ r ∈ (Cell.map
    (entries.foldl (fun es e => insertEntry (.of e.1) (.of e.2) es) [])).refs, r.encode.length ≤ maxEmbedded := by
  intro r hr
  obtain ⟨e, he, hpart⟩ := Cell.mem_map_refs_iff.1 hr
  obtain ⟨hkey, hvalue⟩ := forall_mem_foldl (P := fun r => r.encode.length ≤ maxEmbedded)
    (Q := fun r => r.encode.length ≤ maxEmbedded)
    (fun e _ => ⟨Ref.length_encode_of_le e.1, Ref.length_encode_of_le e.2⟩)
    (fun _ he => (List.not_mem_nil he).elim) e he
  obtain rfl | rfl := hpart
  · exact hkey
  · exact hvalue

/-- A map in order whose references are short is written in less than `10 ^ 100` bytes, whatever is in it. -/
theorem length_encode_lt_of_increasing {es : List (Ref × Ref)} (h : Increasing es)
    (hshort : ∀ r ∈ (Cell.map es).refs, r.encode.length ≤ maxEmbedded) : (Cell.map es).encode.length < 10 ^ 100 := by
  have hrefs := length_encodeRefs_le hshort
  have hnumber := Cell.length_map_refs es
  -- the keys are different hashes, and there are at most `256 ^ 32` of those
  have hlen := length_le_of_increasing h
  have hcount : (Vlc.encodeNat es.length).length ≤ 40 + 1 :=
    Vlc.length_encodeInt_le_iff.2 ⟨by omega, by simp only [hashSize] at hlen; omega⟩
  rw [Cell.encode, encodeEntries_eq, List.length_cons, List.length_append]
  simp only [maxEmbedded, hashSize] at *
  omega

/-- The size of a map that is found to be too large is no more than a hundred digits long. -/
theorem lt_of_ofList_eq_mapSize (h : ofList entries = .error (.violation (.mapSize k maxEncoding))) :
    k < 10 ^ 100 := by
  rw [ofList, checked] at h
  split at h
  · cases h
    exact length_encode_lt_of_increasing (increasing_foldl entries .nil) length_encode_le_of_mem_foldl
  · cases h

end Table

/-! ## Core functions -/

/-- Core functions put together what is there. What they make out of nothing has neither elements nor texts. -/
theorem CoreFn.regular_sized : Regular fun n => Cell.Sized S n where
  mono h hn := h.mono hn
  plain h n := by
    cases h with
    | empty => exact Vec.lists_empty.sized (fun _ hx => (List.not_mem_nil hx).elim) (Nat.zero_le n)
    | _ => exact Cell.sized_of_no_refs rfl trivial rfl trivial
  vector {n items} h :=
    (Vec.lists_of fun c hc => (h c hc).intact).sized
      (fun c hc => (h c hc).mono (Nat.le_add_right n _)) (Nat.le_add_left _ n)
  push {n v u c} hv hc h := by
    obtain ⟨xs, hxs, hall, hlen⟩ := Vec.exists_lists_sized hv
    obtain ⟨t, ht, hlists⟩ := hxs.push hc.intact
    cases ht.symm.trans h
    refine hlists.sized (fun x hx => Cell.Sized.mono ?_ (Nat.le_add_right n 1)) ?_
    · exact List.forall_mem_append.2 ⟨hall, List.forall_mem_singleton.2 hc⟩ x hx
    · rw [List.length_append, List.length_singleton]
      exact Nat.succ_le_succ hlen
  copy {n v u} hv h := by
    obtain ⟨xs, hxs, hall, hlen⟩ := Vec.exists_lists_sized hv
    obtain ⟨t, ht, hlists⟩ := Vec.lists_empty.append hxs
    cases ht.symm.trans h
    exact hlists.sized hall hlen
  append {n v t u} hv ht h := by
    obtain ⟨xs, hxs, hall, hlen⟩ := Vec.exists_lists_sized hv
    obtain ⟨ys, hys, hall', -⟩ := Vec.exists_lists_sized ht
    obtain ⟨u', hu', hlists⟩ := hxs.append hys
    cases hu'.symm.trans h
    refine hlists.sized (fun x hx => Cell.Sized.mono ?_ (Nat.le_add_right n _)) ?_
    · exact List.forall_mem_append.2 ⟨hall, hall'⟩ x hx
    · rw [List.length_append, hys.length_eq]
      exact Nat.add_le_add_right hlen t.count
  element hv h := hv.of_contains (Vec.contains_of_get h)

/-- An element that is added costs ten units of juice, unless the price is the greatest that there is. -/
theorem CoreFn.added_le_price {f : CoreFn} {args : List Cell} (h : f.price args < Juice.maxAmount) :
    10 * f.added args ≤ f.price args := by
  have hbuild : ∀ a, Juice.build a < Juice.maxAmount → 10 * a ≤ Juice.build a := by
    intro a ha
    unfold Juice.build at ha ⊢
    omega
  cases f with
  | vector | conj | concat => exact hbuild _ h
  | _ => exact Nat.zero_le _

/-! ## The budget of sized values -/

/-- The greatest count that there can be when so much juice is left: there is still a unit of it for every element
that can be added. -/
def Juice.ceiling (juice : Nat) : Nat := maxAmount - juice / 10

namespace Juice
variable {j : Nat}

theorem ceiling_lt (j : Nat) : ceiling j < 2 ^ 64 := by
  have hmax : maxAmount < 2 ^ 64 := by decide
  exact Nat.lt_of_le_of_lt (Nat.sub_le _ _) hmax

/-- The bound on sizes only grows as juice is spent. -/
theorem ceiling_mono (h : k ≤ j) : ceiling j ≤ ceiling k := Nat.sub_le_sub_left (Nat.div_le_div_right h) _

/-- Elements that are paid for keep below the ceiling. -/
theorem ceiling_add_le {price added : Nat} (hj : j < 2 ^ 64) (hprice : price ≤ j) (hadded : 10 * added ≤ price) :
    ceiling j + added ≤ ceiling (j - price) := by
  have hmax : maxAmount = 2 ^ 64 - 1 := rfl
  unfold ceiling
  omega

end Juice

/-- The juice is a number of 64 bits, and values are as large as the juice that was spent can have made them. -/
def Budget.sizes (S : Text → Prop) : Budget := ⟨fun j => j < 2 ^ 64, fun j => Cell.Sized S (Juice.ceiling j)⟩

/-- Evaluation can stay within that. A call cannot pay the greatest price that there is, since it was not free
itself. -/
theorem Budget.sound_sizes (S : Text → Prop) : (sizes S).Sound where
  lessJuice h hk := Nat.lt_of_le_of_lt hk h
  mono h hk := h.mono (Juice.ceiling_mono hk)
  part h hd := h.of_contains hd
  nil _ := Cell.sized_of_no_refs rfl trivial rfl trivial
  core _ _ := Cell.sized_of_no_refs rfl trivial rfl trivial
  named h symbol := Eval.sized_named h symbol
  table := Table.sized_ofList
  closure := Closure.sized_of_create
  call {j f args c} hj hargs hpaid h := by
    have hj : j + Juice.invoke < 2 ^ 64 := hj
    have hcheap : f.price args < Juice.maxAmount := by
      simp only [Juice.invoke, Juice.maxAmount, UInt64.size] at hj ⊢
      omega
    have hrun := CoreFn.regular_sized.keeps_run (f := f) hargs
    rw [h] at hrun
    have hlt : j < 2 ^ 64 := Nat.lt_of_le_of_lt (Nat.le_add_right _ _) hj
    exact Cell.Sized.mono hrun (Juice.ceiling_add_le hlt hpaid (CoreFn.added_le_price hcheap))

end CellMachine
