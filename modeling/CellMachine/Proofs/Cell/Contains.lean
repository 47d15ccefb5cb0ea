import CellMachine.Proofs.Cell.Valid

/-!
# Cells inside cells

A cell contains itself and, with every cell, the cells that the references in it hold. What is
handed down from a cell to the cells that it holds, such as being valid or loaded, holds of all
that it contains.

A cell is *writable* if it is valid and its counts fit the format. Whatever is built in memory is, and
only a vector of more than `2 ^ 59` elements, brought in by a store, can fail to be.

A cell is *intact* if it is valid and nothing is missing from it. All cells that evaluation handles
are.

Main statements: `Cell.contains_iff` (a cell contains itself and what its parts contain),
`Cell.Valid.of_contains` and `Cell.Valid.loaded_of_contains`.
-/

namespace CellMachine

/-- What can be reached from a cell through references that hold cells. -/
inductive Cell.Contains (c : Cell) : Cell → Prop where
  /-- The cell itself. -/
  | self : Cell.Contains c c
  /-- What is held in a cell that can be reached. -/
  | part {d e : Cell} {r : Ref} (h : Cell.Contains c d) (hr : r ∈ d.refs)
    (he : r.held? = some e) : Cell.Contains c e

namespace Cell
variable {c d e : Cell} {r : Ref}

theorem contains_of_held (hr : r ∈ c.refs) (hd : r.held? = some d) : c.Contains d :=
  .part .self hr hd

theorem Contains.trans (h : c.Contains d) (h' : d.Contains e) : c.Contains e := by
  induction h' with
  | self => exact h
  | part _ hr he ih => exact .part ih hr he

/-- A cell contains itself and what its parts contain. -/
theorem contains_iff :
    c.Contains e ↔ e = c ∨ ∃ r ∈ c.refs, ∃ d, r.held? = some d ∧ d.Contains e := by
  constructor
  · intro h
    induction h with
    | self => exact .inl rfl
    | @part d e r h hr he ih =>
      rcases ih with rfl | ⟨s, hs, f, hf, hcontains⟩
      · exact .inr ⟨r, hr, e, he, .self⟩
      · exact .inr ⟨s, hs, f, hf, .part hcontains hr he⟩
  · rintro (rfl | ⟨r, hr, d, hd, h⟩)
    · exact .self
    · exact (contains_of_held hr hd).trans h

theorem Valid.of_contains {w : Nat} (hc : c.Valid w) (h : c.Contains d) : d.Valid w := by
  induction h with
  | self => exact hc
  | part _ hr he ih => exact (ih.refs hr _ he).2

/-- A valid cell whose counts the format can write has the least room that is needed for that. -/
theorem Valid.of_counts {w : Nat} (hc : c.Valid w)
    (h : ∀ v, c.Contains (.vector v) → v.count < 2 ^ 63) : c.Valid (2 ^ 59 - 1) := by
  induction c using Cell.induction with
  | step c ih =>
    have hroom : c.Room (2 ^ 59 - 1) := by
      cases c with
      | vector v =>
        have := h v .self
        exact .inl (by simp only [freeCount]; omega)
      | _ => trivial
    refine valid_iff.2 ⟨hc.shaped, hroom, fun r hr d hd => ⟨(hc.refs hr d hd).1, ?_⟩⟩
    exact ih r hr d hd (hc.refs hr d hd).2 fun v hv => h v ((contains_of_held hr hd).trans hv)

/-- A cell that the format can write: it is valid, and the counts in it are 64-bit integers. -/
structure Writable (c : Cell) : Prop where
  valid : ∃ w, c.Valid w
  counts : ∀ v, c.Contains (.vector v) → v.count < 2 ^ 63

theorem Writable.exists_valid (h : c.Writable) : ∃ w < 2 ^ 59, c.Valid w := by
  obtain ⟨w, hvalid⟩ := h.valid
  exact ⟨2 ^ 59 - 1, by omega, hvalid.of_counts h.counts⟩

/-- With room for less work than the limit leaves, no count passes it. -/
theorem Valid.writable {w : Nat} (hc : c.Valid w) (hw : w < 2 ^ 59) : c.Writable :=
  ⟨⟨w, hc⟩, fun _ hv => Vec.Room.count_lt (hc.of_contains hv).room hw⟩

/-- What a writable cell contains is writable: its vectors are among those of the whole. -/
theorem Writable.of_contains (hc : c.Writable) (h : c.Contains d) : d.Writable := by
  obtain ⟨w, hvalid⟩ := hc.valid
  exact ⟨⟨w, hvalid.of_contains h⟩, fun v hv => hc.counts v (h.trans hv)⟩

theorem Valid.loaded_of_held {w : Nat} (hc : c.Valid w) (hloaded : c.loaded = true)
    (hr : r ∈ c.refs) (hd : r.held? = some d) : d.loaded = true := by
  rw [← (hc.refs hr d hd).1.loaded]
  exact loaded_iff.1 hloaded r hr

/-- The cells inside a loaded cell are loaded, since its references tell the truth. -/
theorem Valid.loaded_of_contains {w : Nat} (hc : c.Valid w) (hloaded : c.loaded = true)
    (h : c.Contains d) : d.loaded = true := by
  induction h with
  | self => exact hloaded
  | part h hr he ih => exact (hc.of_contains h).loaded_of_held ih hr he

/-! ## Intact cells -/

/-- A valid cell from which nothing is missing. -/
structure Intact (c : Cell) : Prop where
  loaded : c.loaded = true
  valid : ∃ w, c.Valid w

theorem Intact.of_contains (hc : c.Intact) (h : c.Contains d) : d.Intact := by
  obtain ⟨w, hvalid⟩ := hc.valid
  exact ⟨hvalid.loaded_of_contains hc.loaded h, w, hvalid.of_contains h⟩

/-- The references in an intact cell hold intact cells, about which they tell the truth. -/
theorem Intact.exists_held (hc : c.Intact) (hr : r ∈ c.refs) :
    ∃ d, r.held? = some d ∧ d.Intact ∧ r.Describes d := by
  obtain ⟨w, hvalid⟩ := hc.valid
  obtain ⟨d, hd⟩ := Ref.exists_held?_of_loaded (loaded_iff.1 hc.loaded r hr)
  exact ⟨d, hd, hc.of_contains (contains_of_held hr hd), (hvalid.refs hr d hd).1⟩

/-- Intact cells have room for some common amount of work. -/
theorem exists_valid {cs : List Cell} (h : ∀ c ∈ cs, c.Intact) : ∃ w, ∀ c ∈ cs, c.Valid w := by
  induction cs with
  | nil => exact ⟨0, fun c hc => by cases hc⟩
  | cons c cs ih =>
    obtain ⟨hc, hcs⟩ := List.forall_mem_cons.1 h
    obtain ⟨w, hw⟩ := hc.valid
    obtain ⟨w', hw'⟩ := ih hcs
    refine ⟨max w w', List.forall_mem_cons.2 ⟨hw.mono (Nat.le_max_left w w'), fun d hd => ?_⟩⟩
    exact (hw' d hd).mono (Nat.le_max_right w w')

end Cell

end CellMachine
