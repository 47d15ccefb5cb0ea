import CellMachine.Cell.Decode
import CellMachine.Store.Basic

/-!
# Fetching and loading

Fetching reads one cell from a store and checks that its bytes have the hash they are filed under;
its parts stay where they are. Loading goes on until every part at any depth is held. A part that
is small enough to be written inside its parent is refused behind a hash, and the structure of a
parent is checked again once its parts are held. Parts that are held already are left alone.

A chain of fetches inside one another cannot be longer than the store, since each of them fetches a
hash that does not occur above it; `Store.fetchLoaded` counts the fetches that may still follow.

Main statement: `loadWith_of_loaded` (a loaded cell loads as itself).
-/

namespace CellMachine

section Load
variable (fetch : Hash → Except DataError Cell)

mutual

/-- The cell with every missing part supplied by `fetch`. -/
def Cell.loadWith (c : Cell) : Except DataError Cell :=
  if c.loaded then .ok c
  else
    -- whatever was missing below is held now, so the structure can be checked in full
    match c with
    | .vector v => do (Cell.vector (← v.loadParts)).rechecked
    | .map entries => do (Cell.map (← entriesLoad entries)).rechecked
    | .record format fields => do (Cell.record format (← refsLoad fields)).rechecked
    | .op o => do (Cell.op (← o.loadParts)).rechecked
    | .fn c => do (Cell.fn (← c.loadParts)).rechecked
    | c => .ok c

/-- The node with every missing part supplied. -/
def Vec.loadParts : Vec → Except DataError Vec
  | .chunk items => do .ok (.chunk (← refsLoad items))
  | .tailed count front items => do
    let front ← front.loadWith
    .ok (.tailed count front (← refsLoad items))
  | .tree count children => do .ok (.tree count (← refsLoad children))

/-- The op with every missing part supplied. -/
def Op.loadParts : Op → Except DataError Op
  | .constant r => do .ok (.constant (← r.loadWith))
  | .define symbol r => do .ok (.define symbol (← r.loadWith))
  | .sequence r => do .ok (.sequence (← r.loadWith))
  | .choose r => do .ok (.choose (← r.loadWith))
  | .invoke r => do .ok (.invoke (← r.loadWith))
  | .bind symbols ops => do
    let symbols ← symbols.loadWith
    .ok (.bind symbols (← ops.loadWith))
  | .lambda params body => do
    let params ← params.loadWith
    .ok (.lambda params (← body.loadWith))
  | .lookup symbol => .ok (.lookup symbol)

/-- The closure with every missing part supplied. -/
def Closure.loadParts : Closure → Except DataError Closure
  | ⟨params, body, env, name⟩ => do
    let params ← params.loadWith
    let body ← body.loadWith
    .ok ⟨params, body, ← env.loadWith, name⟩

/-- The reference with its cell held and loaded. -/
def Ref.loadWith : Ref → Except DataError Ref
  | .embedded h _ c => do
    let c ← c.loadWith
    .ok (.embedded h c.loaded c)
  | .direct h _ c => do
    let c ← c.loadWith
    .ok (.direct h c.loaded c)
  | .cached h _ c => do
    let c ← c.loadWith
    .ok (.cached h c.loaded c)
  | .remote h => do
    let c ← fetch h
    .ok (.cached h c.loaded c)

/-- References with their cells held and loaded. -/
def refsLoad : List Ref → Except DataError (List Ref)
  | [] => .ok []
  | r :: rs => do
    let r ← r.loadWith
    .ok (r :: (← refsLoad rs))

/-- Entries with their keys and values held and loaded. -/
def entriesLoad : List (Ref × Ref) → Except DataError (List (Ref × Ref))
  | [] => .ok []
  | (k, v) :: es => do
    let k ← k.loadWith
    let v ← v.loadWith
    .ok ((k, v) :: (← entriesLoad es))

end

theorem Cell.loadWith_of_loaded {c : Cell} (h : c.loaded = true) : c.loadWith fetch = .ok c := by
  unfold Cell.loadWith
  rw [if_pos h]

end Load

namespace Store

/-- One cell from a store; its parts stay unresolved. -/
def fetch (s : Store) (h : Hash) : Except DataError Cell :=
  match s.get? h with
  | none => .error (.missing h)
  | some bs =>
    let actual := Hash.digest bs
    if actual = h then decode bs
    else .error (.format (.hashMismatch h actual))

/-- One cell from a store that a parent may write as a hash. -/
def resolve (s : Store) (h : Hash) : Except DataError Cell := do
  let c ← s.fetch h
  if c.isEmbeddable then .error (.format (.nonCanonical .embeddableByHash)) else .ok c

/-- One part from a store and everything below it, with at most the given number of fetches inside
one another. -/
def fetchLoaded (s : Store) : Nat → Hash → Except DataError Cell
  | 0, h => .error (.missing h)
  | fetches + 1, h => do
    let c ← s.resolve h
    c.loadWith (fetchLoaded s fetches)

/-- Supplies missing parts from a store. -/
def supply (s : Store) : Hash → Except DataError Cell := s.fetchLoaded s.size

/-- A cell from a store with everything below it. -/
def load (s : Store) (h : Hash) : Except DataError Cell := do
  let c ← s.fetch h
  c.loadWith s.supply

end Store

/-- The cell with its missing parts loaded from a store. -/
def Cell.load (c : Cell) (s : Store) : Except DataError Cell := c.loadWith s.supply

/-- The reference with its missing parts loaded from a store. -/
def Ref.load (r : Ref) (s : Store) : Except DataError Ref := r.loadWith s.supply

/-- The cell of a reference, from a store if the reference does not hold it. -/
def Ref.resolve (r : Ref) (s : Store) : Except DataError Cell :=
  match r with
  | .remote h => s.resolve h
  | r => r.cell

end CellMachine
