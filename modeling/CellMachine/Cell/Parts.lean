import CellMachine.Cell.Basic

/-!
# Parts of a cell

The references in a cell stand in a fixed order, that of its encoding. A cell is loaded if every
reference in it holds a loaded cell. The cells that references hold are smaller than the cell that
the references are in, so what is passed on from them to it holds of every cell.

Main statements: `Ref.exists_held?_of_loaded` (a loaded reference holds a cell) and
`Cell.induction` (induction over held parts).
-/

namespace CellMachine

/-! ## Parts of a value -/

/-- The references of a vector node, in the order of their encoding. -/
def Vec.refs : Vec → List Ref
  | .chunk items => items
  | .tailed _ front items => items ++ [front]
  | .tree _ children => children

/-- The references of an op, in the order of their encoding. -/
def Op.refs : Op → List Ref
  | .constant r | .define _ r | .sequence r | .choose r | .invoke r => [r]
  | .bind symbols ops => [symbols, ops]
  | .lambda params body => [params, body]
  | .lookup _ => []

/-- The references of a closure, in the order of their encoding. -/
def Closure.refs (c : Closure) : List Ref := [c.params, c.body, c.env]

/-- The references of a cell, in the order of their encoding. -/
def Cell.refs : Cell → List Ref
  | .vector v => v.refs
  | .map entries => entries.flatMap fun e => [e.1, e.2]
  | .record _ fields => fields
  | .op o => o.refs
  | .fn c => c.refs
  | _ => []

/-! ## Loaded values -/

/-- True of a cell if every reference in it holds a loaded cell. -/
def Cell.loaded (c : Cell) : Bool := c.refs.all Ref.loaded

theorem Cell.loaded_iff {c : Cell} : c.loaded = true ↔ ∀ r ∈ c.refs, r.loaded = true :=
  List.all_eq_true

theorem Ref.exists_held?_of_loaded {r : Ref} (h : r.loaded = true) : ∃ c, r.held? = some c := by
  cases r with
  | remote => cases h
  | _ => exact ⟨_, rfl⟩

/-! ## Induction over held parts -/

theorem Ref.sizeOf_lt_of_held? {r : Ref} {d : Cell} (h : r.held? = some d) :
    sizeOf d < sizeOf r := by
  cases r with
  | remote h => cases h
  | _ =>
    cases h
    simp only [embedded.sizeOf_spec, direct.sizeOf_spec, cached.sizeOf_spec]
    omega

theorem Vec.sizeOf_lt_of_mem {r : Ref} {v : Vec} (h : r ∈ v.refs) : sizeOf r < sizeOf v := by
  cases v with
  | chunk items =>
    have : sizeOf r < sizeOf items := List.sizeOf_lt_of_mem h
    simp only [chunk.sizeOf_spec]
    omega
  | tree count children =>
    have : sizeOf r < sizeOf children := List.sizeOf_lt_of_mem h
    simp only [tree.sizeOf_spec]
    omega
  | tailed count front items =>
    simp only [tailed.sizeOf_spec]
    rcases List.mem_append.1 h with h | h
    · have := List.sizeOf_lt_of_mem h
      omega
    · cases List.mem_singleton.1 h
      omega

theorem Op.sizeOf_lt_of_mem {r : Ref} {o : Op} (h : r ∈ o.refs) : sizeOf r < sizeOf o := by
  cases o with
  | lookup symbol => cases h
  | define symbol value =>
    cases List.mem_singleton.1 h
    simp only [define.sizeOf_spec]
    omega
  | bind symbols ops =>
    simp only [refs, List.mem_cons, List.not_mem_nil, or_false] at h
    rcases h with rfl | rfl <;> simp only [bind.sizeOf_spec] <;> omega
  | lambda params body =>
    simp only [refs, List.mem_cons, List.not_mem_nil, or_false] at h
    rcases h with rfl | rfl <;> simp only [lambda.sizeOf_spec] <;> omega
  | _ =>
    cases List.mem_singleton.1 h
    simp

theorem Closure.sizeOf_lt_of_mem {r : Ref} {c : Closure} (h : r ∈ c.refs) :
    sizeOf r < sizeOf c := by
  cases c with
  | mk params body env name =>
    simp only [refs, List.mem_cons, List.not_mem_nil, or_false] at h
    rcases h with rfl | rfl | rfl <;> simp only [mk.sizeOf_spec] <;> omega

theorem Cell.sizeOf_lt_of_mem {r : Ref} {c : Cell} (h : r ∈ c.refs) : sizeOf r < sizeOf c := by
  cases c with
  | vector v =>
    have : sizeOf r < sizeOf v := Vec.sizeOf_lt_of_mem h
    simp only [vector.sizeOf_spec]
    omega
  | op o =>
    have : sizeOf r < sizeOf o := Op.sizeOf_lt_of_mem h
    simp only [op.sizeOf_spec]
    omega
  | fn c =>
    have : sizeOf r < sizeOf c := Closure.sizeOf_lt_of_mem h
    simp only [fn.sizeOf_spec]
    omega
  | record format fields =>
    have : sizeOf r < sizeOf fields := List.sizeOf_lt_of_mem h
    simp only [record.sizeOf_spec]
    omega
  | map entries =>
    obtain ⟨⟨k, v⟩, he, hr⟩ := List.mem_flatMap.1 h
    have he : sizeOf (k, v) < sizeOf entries := List.sizeOf_lt_of_mem he
    simp only [Prod.mk.sizeOf_spec] at he
    simp only [map.sizeOf_spec]
    simp only [List.mem_cons, List.not_mem_nil, or_false] at hr
    rcases hr with rfl | rfl <;> omega
  | _ => cases h

/-- What holds of a cell whenever it holds of the cells that its references hold, holds of every
cell. -/
theorem Cell.induction {P : Cell → Prop}
    (step : ∀ c, (∀ r ∈ c.refs, ∀ d, r.held? = some d → P d) → P c) (c : Cell) : P c :=
  step c fun _ hr d hd =>
    have := Cell.sizeOf_lt_of_mem hr
    have := Ref.sizeOf_lt_of_held? hd
    Cell.induction step d
termination_by sizeOf c

end CellMachine
