import CellMachine.Cell.Encode

/-!
# Content stores

A store files byte strings under hashes. The first byte string under a hash stays there for good:
filing another one has no effect.

Persisting a cell files the encodings of the parts that its parents write as hashes, children
first. Parts that are written inside their parent live there and are not filed, and parts behind a
reference to stored content are taken to be in a store already. The cell itself is always filed,
however small, so that it can be fetched by its hash.

Main statement: `get?_put` (what is filed can be read, and what was there before stays).
-/

namespace CellMachine

/-- Byte strings under hashes. -/
structure Store where
  /-- The contents, the latest first; no hash occurs twice. -/
  cells : List (Hash × Bytes)

namespace Store

/-- The store without content. -/
def empty : Store := ⟨[]⟩

instance : Inhabited Store := ⟨empty⟩

/-- The number of hashes with content. -/
def size (s : Store) : Nat := s.cells.length

/-- The content under a hash. -/
def get? (s : Store) (h : Hash) : Option Bytes := s.cells.lookup h

/-- Files content under a hash that has none yet. -/
def put (s : Store) (h : Hash) (bs : Bytes) : Store :=
  match s.get? h with
  | some _ => s
  | none => ⟨(h, bs) :: s.cells⟩

/-- Under the hash itself there is what was there before, or else what was filed; other hashes are
not touched. -/
theorem get?_put (s : Store) (h k : Hash) (bs : Bytes) :
    (s.put h bs).get? k = if k = h then some ((s.get? h).getD bs) else s.get? k := by
  unfold put
  split
  · next old hs =>
    split
    · next hk => rw [hk, hs]; rfl
    · rfl
  · next hs =>
    simp only [get?, List.lookup_cons]
    by_cases hk : k = h
    · simp [hk, show List.lookup h s.cells = none from hs]
    · simp [hk, beq_false_of_ne hk]

end Store

/-! ## Persisting -/

mutual

/-- Files the parts of a cell. -/
def Cell.persistParts : Cell → Store → Store
  | .vector v, s => v.persistParts s
  | .map entries, s => entriesPersist entries s
  | .record _ fields, s => refsPersist fields s
  | .op o, s => o.persistParts s
  | .fn ⟨params, body, env, _⟩, s =>
    env.persistInto (body.persistInto (params.persistInto s))
  | _, s => s

@[inherit_doc Cell.persistParts] def Vec.persistParts : Vec → Store → Store
  | .chunk items, s => refsPersist items s
  | .tailed _ front items, s => front.persistInto (refsPersist items s)
  | .tree _ children, s => refsPersist children s

@[inherit_doc Cell.persistParts] def Op.persistParts : Op → Store → Store
  | .constant r, s => r.persistInto s
  | .define _ r, s => r.persistInto s
  | .sequence r, s => r.persistInto s
  | .choose r, s => r.persistInto s
  | .invoke r, s => r.persistInto s
  | .bind symbols ops, s => ops.persistInto (symbols.persistInto s)
  | .lambda params body, s => body.persistInto (params.persistInto s)
  | .lookup _, s => s

/-- Files what a reference stands for, unless it is written inside its parent or is a reference
to stored content. -/
def Ref.persistInto : Ref → Store → Store
  | .embedded _ _ c, s => c.persistParts s
  | .direct h _ c, s => (c.persistParts s).put h c.encode
  | .cached _ _ _, s => s
  | .remote _, s => s

/-- Files what references stand for, in order. -/
def refsPersist : List Ref → Store → Store
  | [], s => s
  | r :: rs, s => refsPersist rs (r.persistInto s)

/-- Files what the keys and values of a map stand for, in order. -/
def entriesPersist : List (Ref × Ref) → Store → Store
  | [], s => s
  | (k, v) :: es, s => entriesPersist es (v.persistInto (k.persistInto s))

end

/-- The reference once its cell is filed: what was held directly is a copy of stored content. -/
def Ref.persisted : Ref → Ref
  | .direct h l c => .cached h l c
  | r => r

/-- Files a cell and its parts. -/
def Store.persist (s : Store) (c : Cell) : Store := (c.persistParts s).put c.hash c.encode

end CellMachine
