import CellMachine.Proofs.Cell.Identity
import CellMachine.Proofs.Vec.Ends
import CellMachine.Proofs.Vec.Same
import Mathlib.Data.List.Nodup
import Mathlib.Order.Bounds.Basic

/-!
# Common beginnings

How many elements two vectors have in common at the front is found out chunk by chunk, by hash, and
element by element from the first chunk on that differs. The two vectors may have different counts, so
that a chunk which is a child of a tree in the one stands behind the front of the other, or is all of it;
a chunk has the same hash wherever it stands.

Chunks with different hashes only stop the search by chunks, and the search by elements goes on from
there. Chunks with the same hash are passed over, and that needs an honest hash: no two different
encodings of cells inside the two vectors may have the same digest. Under this assumption the elements
of the chunks are the same (`Vec.Lists.chunks_agree`), and the number that is found is that of the
longest common beginning of the two lists (`Vec.Lists.commonLength`).

Main statement: `Built.commonLength_longest`.
-/

namespace CellMachine

namespace Vec

variable {v u : Vec} {xs ys : List Cell} {n i : Nat}

/-! ## Common beginnings of lists -/

/-- The lists begin with `n` elements each, which are the same cells one by one. -/
structure AgreeFor (xs ys : List Cell) (n : Nat) : Prop where
  le_left : n ≤ xs.length
  le_right : n ≤ ys.length
  same : List.Forall₂ (fun x y => x.same y = true) (xs.take n) (ys.take n)

theorem same_comm (x y : Cell) : x.same y = y.same x := by
  rw [Cell.same, Cell.same, Bool.beq_comm]

theorem agreeFor_zero (xs ys : List Cell) : AgreeFor xs ys 0 :=
  ⟨Nat.zero_le _, Nat.zero_le _, .nil⟩

theorem AgreeFor.symm (h : AgreeFor xs ys n) : AgreeFor ys xs n := by
  refine ⟨h.le_right, h.le_left, h.same.flip.imp fun y x hyx => ?_⟩
  rwa [same_comm]

/-- A common beginning goes on with a common run. -/
theorem AgreeFor.add {k : Nat} (h : AgreeFor xs ys n) (hx : n + k ≤ xs.length)
    (hy : n + k ≤ ys.length) (hrun : List.Forall₂ (fun x y => x.same y = true)
      ((xs.drop n).take k) ((ys.drop n).take k)) : AgreeFor xs ys (n + k) := by
  refine ⟨hx, hy, ?_⟩
  rw [List.take_add, List.take_add]
  exact List.rel_append h.same hrun

/-- A common beginning goes on with a common element. -/
theorem AgreeFor.succ (h : AgreeFor xs ys n) (hx : n < xs.length) (hy : n < ys.length)
    (hsame : xs[n].same ys[n] = true) : AgreeFor xs ys (n + 1) := by
  refine h.add hx hy ?_
  rw [List.drop_eq_getElem_cons hx, List.drop_eq_getElem_cons hy]
  exact .cons hsame .nil

/-- A common beginning does not reach beyond elements that differ. -/
theorem AgreeFor.le_of_differs {k : Nat} (h : AgreeFor xs ys n) (hx : k < xs.length)
    (hy : k < ys.length) (hdiffers : ¬ xs[k].same ys[k] = true) : n ≤ k := by
  refine Nat.le_of_not_lt fun hlt => hdiffers ?_
  have hget := h.same.get (i := k) (by rw [List.length_take]; omega) (by rw [List.length_take]; omega)
  rwa [List.get_eq_getElem, List.get_eq_getElem, List.getElem_take, List.getElem_take] at hget

/-- Lists of cells with the same content are their own longest common beginning. -/
theorem isGreatest_of_same (h : List.Forall₂ Cell.Same xs ys) :
    IsGreatest {k | AgreeFor xs ys k} xs.length := by
  refine ⟨⟨Nat.le_refl _, Nat.le_of_eq h.length_eq, ?_⟩, fun k hk => hk.le_left⟩
  rw [List.take_length, h.length_eq, List.take_length]
  exact h.imp fun x y hxy => beq_iff_eq.2 hxy.hash_eq.symm

/-! ## Chunks by hash -/

/-- The chunks of a vector are found inside it. -/
theorem contains_of_chunkAt {offset : Nat} {r : Ref} {d : Cell} (h : chunkAt v offset = .ok r)
    (hd : r.held? = some d) : v.cell.Contains d := by
  induction v using Vec.induction generalizing offset with
  | step v ih =>
    have hnode : ∀ s ∈ v.refs, ∀ j, refChunkAt s j = .ok r → v.cell.Contains d := by
      intro s hs j hj
      rw [refChunkAt_eq, bind_eq_ok_iff] at hj
      obtain ⟨t, ht, hj⟩ := hj
      have hpart : v.cell.Contains t.cell := Cell.contains_of_held hs (Ref.vec_eq_ok_iff.1 ht)
      exact hpart.trans (ih s hs t ht hj)
    cases v with
    | chunk items =>
      unfold chunkAt at h
      split at h
      · cases h
        rw [Ref.held?_of] at hd
        cases hd
        exact .self
      · cases h
    | tailed n front items =>
      unfold chunkAt at h
      split at h
      · exact hnode front front_mem_refs _ h
      · cases h
    | tree n children =>
      unfold chunkAt at h
      simp only at h
      split at h
      · split at h
        · next s hs =>
          cases h
          exact Cell.contains_of_held (c := (tree n children).cell) (List.mem_of_getElem? hs) hd
        · cases h
      · rw [refsChunkAt_eq] at h
        split at h
        · next s hs => exact hnode s (List.mem_of_getElem? hs) _ h
        · cases h

section Compare
variable {S : Set Bytes}

/-- Intact vectors of the same hash have the same elements. -/
theorem Lists.forall₂_same_of_hash (hS : Set.InjOn Hash.digest S) (hv : v.Lists xs)
    (hu : u.Lists ys) (hvS : v.cell.encodings ⊆ S) (huS : u.cell.encodings ⊆ S)
    (h : v.hash = u.hash) : List.Forall₂ Cell.Same xs ys := by
  obtain ⟨w, hvalid⟩ := hv.intact.valid
  obtain ⟨w', hvalid'⟩ := hu.intact.valid
  have hencode : v.cell.encode = u.cell.encode :=
    hS (hvS (Cell.encode_mem_encodings .self)) (huS (Cell.encode_mem_encodings .self)) h
  exact hv.forall₂_same hu
    (hvalid.same_of_encode hS hvalid' hv.intact.loaded hu.intact.loaded hvS huS hencode)

/-- Full chunks of the same hash have the same elements, whatever nodes they hang under. -/
theorem Lists.chunks_agree (hS : Set.InjOn Hash.digest S) (hv : v.Lists xs) (hu : u.Lists ys)
    (hvS : v.cell.encodings ⊆ S) (huS : u.cell.encodings ⊆ S) (hmod : i % chunkSize = 0)
    (hle : i + chunkSize ≤ v.count) (hle' : i + chunkSize ≤ u.count) :
    ∃ r s, v.chunkAt i = .ok r ∧ u.chunkAt i = .ok s ∧
      (r.hash = s.hash → List.Forall₂ (fun x y => x.same y = true)
        ((xs.drop i).take chunkSize) ((ys.drop i).take chunkSize)) := by
  obtain ⟨w, hvalid⟩ := hv.intact.valid
  obtain ⟨w', hvalid'⟩ := hu.intact.valid
  obtain ⟨r, full, hr, hfull, hlist⟩ := hv.chunkAt hmod hle
  obtain ⟨s, full', hs, hfull', hlist'⟩ := hu.chunkAt hmod hle'
  refine ⟨r, s, hr, hs, fun hhash => ?_⟩
  have hheld := Ref.vec_eq_ok_iff.1 hfull
  have hheld' := Ref.vec_eq_ok_iff.1 hfull'
  -- what the references state about the chunks is true
  have hchunks : full.hash = full'.hash := by
    have hdescribes := ((valid_of_chunkAt hvalid hmod hle hr).1 _ hheld).1
    have hdescribes' := ((valid_of_chunkAt hvalid' hmod hle' hs).1 _ hheld').1
    rw [Vec.hash, Vec.hash, ← hdescribes.hash, ← hdescribes'.hash, hhash]
  have hinside := (Cell.encodings_subset (contains_of_chunkAt hr hheld)).trans hvS
  have hinside' := (Cell.encodings_subset (contains_of_chunkAt hs hheld')).trans huS
  refine (hlist.forall₂_same_of_hash hS hlist' hinside hinside' hchunks).imp fun x y hxy => ?_
  exact beq_iff_eq.2 hxy.hash_eq.symm

/-- The search by chunks ends within both vectors, at the end of a common beginning. -/
theorem Lists.commonChunks (hS : Set.InjOn Hash.digest S) (hv : v.Lists xs) (hu : u.Lists ys)
    (hvS : v.cell.encodings ⊆ S) (huS : u.cell.encodings ⊆ S) (left : Nat)
    (hmod : i % chunkSize = 0) (h : AgreeFor xs ys i) :
    ∃ k, commonChunks v u (min v.count u.count) left i = .ok k ∧ AgreeFor xs ys k := by
  induction left generalizing i with
  | zero =>
    rw [Vec.commonChunks]
    exact ⟨i, rfl, h⟩
  | succ left ih =>
    rw [Vec.commonChunks]
    by_cases hroom : i + chunkSize ≤ min v.count u.count
    · have hle : i + chunkSize ≤ v.count := by omega
      have hle' : i + chunkSize ≤ u.count := by omega
      obtain ⟨r, s, hr, hs, hagree⟩ := hv.chunks_agree hS hu hvS huS hmod hle hle'
      rw [if_pos hroom, hr, ok_bind, hs, ok_bind]
      by_cases hhash : r.hash = s.hash
      · rw [if_pos hhash]
        refine ih (by rw [Nat.add_mod_right, hmod]) (h.add ?_ ?_ (hagree hhash))
        · rwa [hv.length_eq]
        · rwa [hu.length_eq]
      · rw [if_neg hhash]
        exact ⟨i, rfl, h⟩
    · rw [if_neg hroom]
      exact ⟨i, rfl, h⟩

/-- The search by elements ends at the longest common beginning. -/
theorem Lists.commonItems (hv : v.Lists xs) (hu : u.Lists ys) {left : Nat}
    (hleft : min v.count u.count ≤ i + left) (h : AgreeFor xs ys i) :
    ∃ k, commonItems v u (min v.count u.count) left i = .ok k ∧
      IsGreatest {k | AgreeFor xs ys k} k := by
  have hx := hv.length_eq
  have hy := hu.length_eq
  -- at the end of one of the lists nothing can follow
  have hend : ∀ {i : Nat}, min v.count u.count ≤ i → AgreeFor xs ys i →
      IsGreatest {k | AgreeFor xs ys k} i := by
    intro i hi h
    refine ⟨h, fun k hk => ?_⟩
    have hkx := hk.le_left
    have hky := hk.le_right
    omega
  induction left generalizing i with
  | zero =>
    rw [Vec.commonItems]
    exact ⟨i, rfl, hend hleft h⟩
  | succ left ih =>
    rw [Vec.commonItems]
    by_cases hi : i < min v.count u.count
    · have hix : i < xs.length := by omega
      have hiy : i < ys.length := by omega
      rw [if_pos hi, hv.get hix, ok_bind, hu.get hiy, ok_bind]
      by_cases hsame : xs[i].same ys[i] = true
      · rw [if_pos hsame]
        exact ih (by omega) (h.succ hix hiy hsame)
      · rw [if_neg hsame]
        exact ⟨i, rfl, h, fun k hk => hk.le_of_differs hix hiy hsame⟩
    · rw [if_neg hi]
      exact ⟨i, rfl, hend (Nat.le_of_not_lt hi) h⟩

/-- The number that is found is the length of the longest common beginning. -/
theorem Lists.commonLength (hS : Set.InjOn Hash.digest S) (hv : v.Lists xs) (hu : u.Lists ys)
    (hvS : v.cell.encodings ⊆ S) (huS : u.cell.encodings ⊆ S) :
    ∃ k, v.commonLength u = .ok k ∧ IsGreatest {k | AgreeFor xs ys k} k := by
  unfold Vec.commonLength
  simp only
  by_cases hhash : v.hash = u.hash
  · have hsame := hv.forall₂_same_of_hash hS hu hvS huS hhash
    have hx := hv.length_eq
    have hy := hu.length_eq
    have hlen := hsame.length_eq
    rw [if_pos hhash, show min v.count u.count = xs.length by omega]
    exact ⟨xs.length, rfl, isGreatest_of_same hsame⟩
  · obtain ⟨i, hi, hagree⟩ := hv.commonChunks hS hu hvS huS (min v.count u.count)
      (Nat.zero_mod chunkSize) (agreeFor_zero xs ys)
    rw [if_neg hhash, hi, ok_bind]
    exact hv.commonItems hu (by omega) hagree

end Compare

end Vec

end CellMachine
