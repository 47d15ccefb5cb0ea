import CellMachine.Proofs.Cell.Identity
import CellMachine.Proofs.Vec.Ends

/-!
# Runs of elements

Slicing and appending add a run of elements of one vector to another. Where the receiver is packed and
the run stands at the border of a chunk, whole chunks are taken over by reference; elsewhere the elements
are pushed one by one. Which of the two is done depends on how the receiver, the start and the end of the
run are aligned, and it changes as the receiver grows. The outcome does not depend on it: it is the vector
of the elements of the receiver and of the run, and so is the outcome of pushing them one by one
(`Vec.Lists.foldlM_push`).

Main statement: `Built.append_slice_canonical`.
-/

namespace CellMachine

namespace Vec

variable {v u : Vec} {xs ys : List Cell}

/-! ## Pushing one by one -/

/-- Pushing the cells of a list one after another adds the list. -/
theorem Lists.foldlM_push (h : v.Lists xs) (hys : ∀ y ∈ ys, y.Intact) :
    ∃ u, ys.foldlM Vec.push v = .ok u ∧ u.Lists (xs ++ ys) := by
  induction ys generalizing v xs with
  | nil =>
    refine ⟨v, rfl, ?_⟩
    rwa [List.append_nil]
  | cons y ys ih =>
    obtain ⟨hy, hys⟩ := List.forall_mem_cons.1 hys
    obtain ⟨t, ht, htlists⟩ := h.push hy
    obtain ⟨u, hu, hlists⟩ := ih htlists hys
    refine ⟨u, ?_, ?_⟩
    · rw [List.foldlM_cons, ht]
      exact hu
    · rwa [List.append_assoc] at hlists

/-! ## Runs -/

/-- A step that ends in an intact vector gives the vector that is built from its elements. -/
theorem Lists.gives_of {step : Except DataError Vec} (h : u.Lists xs) (hstep : step = .ok u) :
    Gives step (Vec.of xs) := by
  obtain ⟨w, hu⟩ := h.intact.valid
  exact Vec.gives_of hstep hu h.toList

/-- The elements of one vector and then those of another, in chunks or one by one. -/
theorem Lists.append_gives (h : v.Lists xs) (hu : u.Lists ys) :
    Gives (v.append u) (Vec.of (xs ++ ys)) ∧ Gives (ys.foldlM Vec.push v) (Vec.of (xs ++ ys)) := by
  obtain ⟨t, ht, hlists⟩ := h.append hu
  obtain ⟨s, hs, hlists'⟩ := h.foldlM_push hu.mem_intact
  exact ⟨hlists.gives_of ht, hlists'.gives_of hs⟩

/-- A run that ends within the vector, in chunks or one by one. -/
theorem Lists.slice_gives (h : v.Lists xs) {start length : Nat} (hfits : start + length ≤ v.count) :
    Gives (v.slice start length) (Vec.of ((xs.drop start).take length)) ∧
      Gives (((xs.drop start).take length).foldlM Vec.push empty)
        (Vec.of ((xs.drop start).take length)) := by
  have hrun : ∀ x ∈ (xs.drop start).take length, x.Intact := fun x hx =>
    h.mem_intact x (List.drop_subset _ _ (List.take_subset _ _ hx))
  obtain ⟨t, ht, hlists⟩ := h.extend (i := start) lists_empty hfits (Nat.le_refl _)
  rw [List.nil_append, Nat.add_sub_cancel_left] at hlists
  obtain ⟨s, hs, hlists'⟩ := lists_empty.foldlM_push hrun
  rw [List.nil_append] at hlists'
  refine ⟨hlists.gives_of ?_, hlists'.gives_of hs⟩
  unfold Vec.slice
  simp only
  rw [if_pos hfits]
  exact ht

/-- A run that ends beyond the vector is refused. -/
theorem slice_of_lt {start length : Nat} (h : v.count < start + length) :
    v.slice start length = .error (.outOfBounds (min (start + length) maxIndex) v.count) := by
  unfold slice
  simp only
  rw [if_neg (Nat.not_le.2 h)]

end Vec

/-- Appending and slicing are their namesakes on lists, on the canonical form. Two loaded vectors, whatever
they came about from, list their elements, and

* appending gives the vector that is built from the elements of the one and then of the other;
* slicing with 64-bit numbers gives the vector that is built from that run of the elements if the end of
  the run can be written with 64 bits and is not beyond the count, and otherwise fails with the end, as far
  as it can be written, and the count;
* pushing the elements one by one gives the same vectors, however the receiver and the run are aligned. -/
theorem Built.append_slice_canonical {stores stores' : List Store} {w w' : Nat} {a b : Vec}
    (ha : Built stores w a.cell) (hb : Built stores' w' b.cell) (haloaded : a.cell.loaded = true)
    (hbloaded : b.cell.loaded = true) (hcount : a.count + b.count < 2 ^ 63) :
    ∃ xs ys, a.toList = .ok xs ∧ b.toList = .ok ys ∧
      Vec.Gives (a.append b) (Vec.of (xs ++ ys)) ∧
      Vec.Gives (ys.foldlM Vec.push a) (Vec.of (xs ++ ys)) ∧
      ∀ start length : UInt64,
        let stop := start.toNat + length.toNat
        let run := (xs.drop start.toNat).take length.toNat
        (stop < UInt64.size ∧ stop ≤ a.count →
          Vec.Gives (a.slice start.toNat length.toNat) (Vec.of run) ∧
            Vec.Gives (run.foldlM Vec.push Vec.empty) (Vec.of run)) ∧
        (¬ (stop < UInt64.size ∧ stop ≤ a.count) →
          a.slice start.toNat length.toNat =
            .error (.outOfBounds (min stop Vec.maxIndex) a.count)) := by
  obtain ⟨xs, hxs⟩ := Vec.exists_lists (ha.intact haloaded)
  obtain ⟨ys, hys⟩ := Vec.exists_lists (hb.intact hbloaded)
  obtain ⟨happend, hpushed⟩ := hxs.append_gives hys
  refine ⟨xs, ys, hxs.toList, hys.toList, happend, hpushed, fun start length => ?_⟩
  intro stop run
  refine ⟨fun hfits => hxs.slice_gives hfits.2, fun hbeyond => ?_⟩
  refine Vec.slice_of_lt (Nat.lt_of_not_le fun hle => hbeyond ⟨?_, hle⟩)
  -- an end within the vector can be written, as its count can
  have hsize : 2 ^ 63 ≤ UInt64.size := by decide
  show stop < UInt64.size
  omega

/-- One element behind a tree of two full chunks, a run in the second chunk, and a run whose end cannot be
written with 64 bits. -/
theorem Built.append_slice_canonical_twoChunks :
    Vec.Gives ((Vec.of (List.replicate 64 .nil)).append (Vec.of [.long 5]))
      (Vec.of (List.replicate 64 .nil ++ [.long 5])) ∧
    Vec.Gives ((Vec.of (List.replicate 64 .nil)).slice 32 20) (Vec.of (List.replicate 20 .nil)) ∧
    (Vec.of (List.replicate 64 .nil)).slice (2 ^ 64 - 1) 2 =
      .error (.outOfBounds (2 ^ 64 - 1) 64) := by
  have hone : Built [] 1 (Vec.of [.long 5]).cell := .vector (List.forall_mem_singleton.2 (.long 5))
  obtain ⟨xs, ys, hxs, hys, happend, -, hslice⟩ :=
    (nils 64).append_slice_canonical hone (by decide +kernel) (by decide +kernel) (by decide +kernel)
  rw [Vec.toList_of] at hxs hys
  cases hxs
  cases hys
  have hwithin := (hslice 32 20).1 (by decide +kernel)
  have hbeyond := (hslice (UInt64.ofNat (2 ^ 64 - 1)) 2).2 (by decide +kernel)
  have hcount : (Vec.of (List.replicate 64 .nil)).count = 64 := by decide +kernel
  rw [hcount] at hbeyond
  exact ⟨happend, hwithin.1, hbeyond⟩

end CellMachine
