import CellMachine.Cell.Encode
import Mathlib.Data.List.Forall2
import Mathlib.Logic.Relation

/-!
# Cells that differ in their references only

Two cells are *alike* under a relation between references if they are of the same kind, agree in
everything that is not a reference, and have related references in the same places. Reading a cell
back from its encoding, or loading what it misses, leaves it alike to what it was.

Main statement: `Cell.Alike.encode_eq` (alike cells have the same encoding if related references
have).
-/

namespace CellMachine

variable {R S : Ref → Ref → Prop}

/-- Nodes of the same shape and count with related references. -/
inductive Vec.Alike (R : Ref → Ref → Prop) : Vec → Vec → Prop where
  | chunk {items items' : List Ref} (hitems : List.Forall₂ R items items') :
    Vec.Alike R (.chunk items) (.chunk items')
  | tailed {count : Nat} {front front' : Ref} {items items' : List Ref} (hfront : R front front')
    (hitems : List.Forall₂ R items items') :
    Vec.Alike R (.tailed count front items) (.tailed count front' items')
  | tree {count : Nat} {children children' : List Ref}
    (hchildren : List.Forall₂ R children children') :
    Vec.Alike R (.tree count children) (.tree count children')

/-- Ops of the same type with the same symbol and related parts. -/
inductive Op.Alike (R : Ref → Ref → Prop) : Op → Op → Prop where
  | constant {r r' : Ref} (h : R r r') : Op.Alike R (.constant r) (.constant r')
  | define {symbol : Name} {r r' : Ref} (h : R r r') :
    Op.Alike R (.define symbol r) (.define symbol r')
  | sequence {r r' : Ref} (h : R r r') : Op.Alike R (.sequence r) (.sequence r')
  | bind {r r' s s' : Ref} (h : R r r') (hs : R s s') : Op.Alike R (.bind r s) (.bind r' s')
  | choose {r r' : Ref} (h : R r r') : Op.Alike R (.choose r) (.choose r')
  | lookup (symbol : Name) : Op.Alike R (.lookup symbol) (.lookup symbol)
  | invoke {r r' : Ref} (h : R r r') : Op.Alike R (.invoke r) (.invoke r')
  | lambda {r r' s s' : Ref} (h : R r r') (hs : R s s') : Op.Alike R (.lambda r s) (.lambda r' s')

/-- Closures of the same name with related parts. -/
structure Closure.Alike (R : Ref → Ref → Prop) (c c' : Closure) : Prop where
  params : R c.params c'.params
  body : R c.body c'.body
  env : R c.env c'.env
  name : c.name = c'.name

/-- Cells of the same kind with the same payload and related references. -/
inductive Cell.Alike (R : Ref → Ref → Prop) : Cell → Cell → Prop where
  | nil : Cell.Alike R .nil .nil
  | bool (b : Bool) : Cell.Alike R (.bool b) (.bool b)
  | long (n : Int64) : Cell.Alike R (.long n) (.long n)
  | text (s : Text) : Cell.Alike R (.text s) (.text s)
  | blob (b : Blob) : Cell.Alike R (.blob b) (.blob b)
  | symbol (name : Name) : Cell.Alike R (.symbol name) (.symbol name)
  | keyword (name : Name) : Cell.Alike R (.keyword name) (.keyword name)
  | vector {v v' : Vec} (h : Vec.Alike R v v') : Cell.Alike R (.vector v) (.vector v')
  | map {entries entries' : List (Ref × Ref)}
    (h : List.Forall₂ (fun e e' => R e.1 e'.1 ∧ R e.2 e'.2) entries entries') :
    Cell.Alike R (.map entries) (.map entries')
  | record {format : RecordFormat} {fields fields' : List Ref} (h : List.Forall₂ R fields fields') :
    Cell.Alike R (.record format fields) (.record format fields')
  | op {o o' : Op} (h : Op.Alike R o o') : Cell.Alike R (.op o) (.op o')
  | core (f : CoreFn) : Cell.Alike R (.core f) (.core f)
  | fn {c c' : Closure} (h : Closure.Alike R c c') : Cell.Alike R (.fn c) (.fn c')

/-! ## Weakening the relation -/

/-- The relation may be weakened for the references that are there. -/
theorem forall₂_imp_of_mem {rs rs' : List Ref} (h : List.Forall₂ R rs rs')
    (himp : ∀ r ∈ rs, ∀ r', R r r' → S r r') : List.Forall₂ S rs rs' := by
  induction h with
  | nil => exact .nil
  | cons hr _ ih =>
    exact .cons (himp _ List.mem_cons_self _ hr)
      (ih fun r hr => himp r (List.mem_cons_of_mem _ hr))

/-- The references of a vector are its items and its front, or its children. -/
theorem Vec.Alike.mono {v v' : Vec} (h : v.Alike R v')
    (himp : ∀ r ∈ v.refs, ∀ r', R r r' → S r r') : v.Alike S v' := by
  cases h with
  | chunk hitems => exact .chunk (forall₂_imp_of_mem hitems himp)
  | tailed hfront hitems =>
    exact .tailed (himp _ (List.mem_append_right _ List.mem_cons_self) _ hfront)
      (forall₂_imp_of_mem hitems fun r hr => himp r (List.mem_append_left _ hr))
  | tree hchildren => exact .tree (forall₂_imp_of_mem hchildren himp)

theorem Op.Alike.mono {o o' : Op} (h : o.Alike R o')
    (himp : ∀ r ∈ o.refs, ∀ r', R r r' → S r r') : o.Alike S o' := by
  have hfirst : ∀ {r : Ref} {rs : List Ref}, r ∈ r :: rs := List.mem_cons_self
  have hsecond : ∀ {r s : Ref}, s ∈ [r, s] := List.mem_cons_of_mem _ List.mem_cons_self
  -- one case for each op, by its number of parts
  cases h with
  | constant h => exact .constant (himp _ hfirst _ h)
  | define h => exact .define (himp _ hfirst _ h)
  | sequence h => exact .sequence (himp _ hfirst _ h)
  | bind h hs => exact .bind (himp _ hfirst _ h) (himp _ hsecond _ hs)
  | choose h => exact .choose (himp _ hfirst _ h)
  | lookup symbol => exact .lookup symbol
  | invoke h => exact .invoke (himp _ hfirst _ h)
  | lambda h hs => exact .lambda (himp _ hfirst _ h) (himp _ hsecond _ hs)

theorem Closure.Alike.mono {c c' : Closure} (h : c.Alike R c')
    (himp : ∀ r ∈ c.refs, ∀ r', R r r' → S r r') : c.Alike S c' :=
  ⟨himp _ List.mem_cons_self _ h.params,
    himp _ (List.mem_cons_of_mem _ List.mem_cons_self) _ h.body,
    himp _ (List.mem_cons_of_mem _ (List.mem_cons_of_mem _ List.mem_cons_self)) _ h.env, h.name⟩

/-- The references of a map are its keys and its values. -/
theorem entries_imp_of_mem {es es' : List (Ref × Ref)}
    (h : List.Forall₂ (fun e e' => R e.1 e'.1 ∧ R e.2 e'.2) es es')
    (himp : ∀ r ∈ (Cell.map es).refs, ∀ r', R r r' → S r r') :
    List.Forall₂ (fun e e' => S e.1 e'.1 ∧ S e.2 e'.2) es es' := by
  induction h with
  | nil => exact .nil
  | cons he _ ih =>
    refine .cons ⟨himp _ List.mem_cons_self _ he.1,
      himp _ (List.mem_cons_of_mem _ List.mem_cons_self) _ he.2⟩ (ih fun r hr => himp r ?_)
    exact List.mem_cons_of_mem _ (List.mem_cons_of_mem _ hr)

/-- The relation can be weakened for the references that are there. -/
theorem Cell.Alike.mono {c c' : Cell} (h : c.Alike R c')
    (himp : ∀ r ∈ c.refs, ∀ r', R r r' → S r r') : c.Alike S c' := by
  cases h with
  | vector h => exact .vector (h.mono himp)
  | map h => exact .map (entries_imp_of_mem h himp)
  | record h => exact .record (forall₂_imp_of_mem h himp)
  | op h => exact .op (h.mono himp)
  | fn h => exact .fn (h.mono himp)
  | nil => exact .nil
  | bool b => exact .bool b
  | long n => exact .long n
  | text s => exact .text s
  | blob b => exact .blob b
  | symbol n => exact .symbol n
  | keyword n => exact .keyword n
  | core f => exact .core f

/-! ## Turning around and composing -/

/-- A vector is alike to itself if its references are. -/
theorem Vec.Alike.refl {v : Vec} (h : ∀ r ∈ v.refs, R r r) : v.Alike R v := by
  cases v with
  | chunk items => exact .chunk (List.forall₂_same.2 h)
  | tailed n front items =>
    obtain ⟨hitems, hfront⟩ := List.forall_mem_append.1 h
    exact .tailed (hfront front List.mem_cons_self) (List.forall₂_same.2 hitems)
  | tree n children => exact .tree (List.forall₂_same.2 h)

theorem Op.Alike.refl {o : Op} (h : ∀ r ∈ o.refs, R r r) : o.Alike R o := by
  have hfirst : ∀ {r : Ref} {rs : List Ref}, r ∈ r :: rs := List.mem_cons_self
  have hsecond : ∀ {r s : Ref}, s ∈ [r, s] := List.mem_cons_of_mem _ List.mem_cons_self
  cases o with
  | constant r => exact .constant (h r hfirst)
  | define symbol r => exact .define (h r hfirst)
  | sequence r => exact .sequence (h r hfirst)
  | bind r s => exact .bind (h r hfirst) (h s hsecond)
  | choose r => exact .choose (h r hfirst)
  | lookup symbol => exact .lookup symbol
  | invoke r => exact .invoke (h r hfirst)
  | lambda r s => exact .lambda (h r hfirst) (h s hsecond)

/-- A cell is alike to itself under a relation in which its references are related to themselves. -/
theorem Cell.Alike.refl {c : Cell} (h : ∀ r ∈ c.refs, R r r) : c.Alike R c := by
  cases c with
  | vector v => exact .vector (Vec.Alike.refl h)
  | map entries =>
    -- both references of an entry are among those of the map
    refine .map (List.forall₂_same.2 fun e he => ⟨h e.1 ?_, h e.2 ?_⟩)
    · exact List.mem_flatMap.2 ⟨e, he, List.mem_cons_self⟩
    · exact List.mem_flatMap.2 ⟨e, he, List.mem_cons_of_mem _ List.mem_cons_self⟩
  | record format fields => exact .record (List.forall₂_same.2 h)
  | op o => exact .op (Op.Alike.refl h)
  | fn f =>
    obtain ⟨hparams, hbody, henv⟩ : R f.params f.params ∧ R f.body f.body ∧ R f.env f.env := by
      simpa [Cell.refs, Closure.refs] using h
    exact .fn ⟨hparams, hbody, henv, rfl⟩
  | nil => exact .nil
  | bool b => exact .bool b
  | long n => exact .long n
  | text s => exact .text s
  | blob b => exact .blob b
  | symbol n => exact .symbol n
  | keyword n => exact .keyword n
  | core f => exact .core f

theorem Vec.Alike.symm {v v' : Vec} (h : v.Alike R v') : v'.Alike (flip R) v := by
  cases h with
  | chunk hitems => exact .chunk hitems.flip
  | tailed hfront hitems => exact .tailed hfront hitems.flip
  | tree hchildren => exact .tree hchildren.flip

theorem Op.Alike.symm {o o' : Op} (h : o.Alike R o') : o'.Alike (flip R) o := by
  cases h with
  | constant h => exact .constant h
  | define h => exact .define h
  | sequence h => exact .sequence h
  | bind h hs => exact .bind h hs
  | choose h => exact .choose h
  | lookup symbol => exact .lookup symbol
  | invoke h => exact .invoke h
  | lambda h hs => exact .lambda h hs

theorem Cell.Alike.symm {c c' : Cell} (h : c.Alike R c') : c'.Alike (flip R) c := by
  cases h with
  | vector h => exact .vector h.symm
  | map h => exact .map h.flip
  | record h => exact .record h.flip
  | op h => exact .op h.symm
  | fn h => exact .fn ⟨h.params, h.body, h.env, h.name.symm⟩
  | nil => exact .nil
  | bool b => exact .bool b
  | long n => exact .long n
  | text s => exact .text s
  | blob b => exact .blob b
  | symbol n => exact .symbol n
  | keyword n => exact .keyword n
  | core f => exact .core f

/-- The relation can be weakened for the references that are there, on both sides. -/
theorem Cell.Alike.imp_of_mem {c c' : Cell} (h : c.Alike R c')
    (himp : ∀ r ∈ c.refs, ∀ r' ∈ c'.refs, R r r' → S r r') : c.Alike S c' := by
  have hright : c.Alike (fun r r' => R r r' ∧ r' ∈ c'.refs) c' :=
    (h.symm.mono (S := fun r' r => R r r' ∧ r' ∈ c'.refs) fun _ hr' _ hr => ⟨hr, hr'⟩).symm
  exact hright.mono fun r hr r' hr' => himp r hr r' hr'.2 hr'.1

/-- Two lists that are related to one between them are related by both relations in turn. -/
theorem forall₂_comp {α β γ : Type} {R : α → β → Prop} {S : β → γ → Prop} {as : List α}
    {bs : List β} {cs : List γ} (h : List.Forall₂ R as bs) (h' : List.Forall₂ S bs cs) :
    List.Forall₂ (Relation.Comp R S) as cs := by
  induction h generalizing cs with
  | nil =>
    cases h'
    exact .nil
  | cons hr _ ih =>
    cases h' with
    | cons hs hrest => exact .cons ⟨_, hr, hs⟩ (ih hrest)

theorem Vec.Alike.comp {v v' v'' : Vec} (h : v.Alike R v') (h' : v'.Alike S v'') :
    v.Alike (Relation.Comp R S) v'' := by
  cases h with
  | chunk hitems =>
    cases h' with
    | chunk hitems' => exact .chunk (forall₂_comp hitems hitems')
  | tailed hfront hitems =>
    cases h' with
    | tailed hfront' hitems' =>
      exact .tailed ⟨_, hfront, hfront'⟩ (forall₂_comp hitems hitems')
  | tree hchildren =>
    cases h' with
    | tree hchildren' => exact .tree (forall₂_comp hchildren hchildren')

theorem Op.Alike.comp {o o' o'' : Op} (h : o.Alike R o') (h' : o'.Alike S o'') :
    o.Alike (Relation.Comp R S) o'' := by
  cases h with
  | constant h => cases h' with | constant h' => exact .constant ⟨_, h, h'⟩
  | define h => cases h' with | define h' => exact .define ⟨_, h, h'⟩
  | sequence h => cases h' with | sequence h' => exact .sequence ⟨_, h, h'⟩
  | bind h hs => cases h' with | bind h' hs' => exact .bind ⟨_, h, h'⟩ ⟨_, hs, hs'⟩
  | choose h => cases h' with | choose h' => exact .choose ⟨_, h, h'⟩
  | lookup symbol => cases h' with | lookup symbol => exact .lookup symbol
  | invoke h => cases h' with | invoke h' => exact .invoke ⟨_, h, h'⟩
  | lambda h hs => cases h' with | lambda h' hs' => exact .lambda ⟨_, h, h'⟩ ⟨_, hs, hs'⟩

theorem Closure.Alike.comp {c c' c'' : Closure} (h : c.Alike R c') (h' : c'.Alike S c'') :
    c.Alike (Relation.Comp R S) c'' :=
  ⟨⟨_, h.params, h'.params⟩, ⟨_, h.body, h'.body⟩, ⟨_, h.env, h'.env⟩, h.name.trans h'.name⟩

/-- Cells that are alike to one between them are alike by way of it. -/
theorem Cell.Alike.comp {c c' c'' : Cell} (h : c.Alike R c') (h' : c'.Alike S c'') :
    c.Alike (Relation.Comp R S) c'' := by
  cases h with
  | vector h => cases h' with | vector h' => exact .vector (h.comp h')
  | map h =>
    cases h' with
    | map h' =>
      refine .map ((forall₂_comp h h').imp fun e e'' => ?_)
      rintro ⟨e', ⟨hk, hv⟩, hk', hv'⟩
      exact ⟨⟨e'.1, hk, hk'⟩, ⟨e'.2, hv, hv'⟩⟩
  | record h => cases h' with | record h' => exact .record (forall₂_comp h h')
  | op h => cases h' with | op h' => exact .op (h.comp h')
  | fn h => cases h' with | fn h' => exact .fn (h.comp h')
  | _ => cases h'; constructor

/-! ## What alike cells share -/

/-- Alike vectors have the same count, which is written in all but chunks. -/
theorem Vec.Alike.count_eq {v v' : Vec} (h : v.Alike R v') : v'.count = v.count := by
  cases h with
  | chunk hitems => exact hitems.length_eq.symm
  | _ => rfl

/-- The references of alike vectors are related one by one, in the order of their encoding. -/
theorem Vec.Alike.refs {v v' : Vec} (h : v.Alike R v') : List.Forall₂ R v.refs v'.refs := by
  cases h with
  | chunk hitems => exact hitems
  | tailed hfront hitems => exact List.rel_append hitems (.cons hfront .nil)
  | tree hchildren => exact hchildren

theorem Op.Alike.refs {o o' : Op} (h : o.Alike R o') : List.Forall₂ R o.refs o'.refs := by
  cases h with
  | bind h hs | lambda h hs => exact .cons h (.cons hs .nil)
  | lookup symbol => exact .nil
  | _ h => exact .cons h .nil

theorem entries_refs_forall₂ {es es' : List (Ref × Ref)}
    (h : List.Forall₂ (fun e e' => R e.1 e'.1 ∧ R e.2 e'.2) es es') :
    List.Forall₂ R (Cell.map es).refs (Cell.map es').refs := by
  induction h with
  | nil => exact .nil
  | cons he _ ih => exact .cons he.1 (.cons he.2 ih)

/-- The references of alike cells are related one by one. -/
theorem Cell.Alike.refs {c c' : Cell} (h : c.Alike R c') : List.Forall₂ R c.refs c'.refs := by
  cases h with
  | vector h => exact h.refs
  | map h => exact entries_refs_forall₂ h
  | record h => exact h
  | op h => exact h.refs
  | fn h => exact .cons h.params (.cons h.body (.cons h.env .nil))
  | _ => exact .nil

section Encode
variable (hR : ∀ r r', R r r' → r'.encode = r.encode)
include hR

/-- References that are written alike are written alike in a row. -/
theorem encodeRefs_of_forall₂ {rs rs' : List Ref} (h : List.Forall₂ R rs rs') :
    encodeRefs rs' = encodeRefs rs := by
  induction h with
  | nil => rfl
  | cons hr _ ih => rw [encodeRefs, encodeRefs, hR _ _ hr, ih]

theorem encodeEntries_of_forall₂ {es es' : List (Ref × Ref)}
    (h : List.Forall₂ (fun e e' => R e.1 e'.1 ∧ R e.2 e'.2) es es') :
    encodeEntries es' = encodeEntries es := by
  induction h with
  | nil => rfl
  | @cons e e' _ _ he _ ih =>
    obtain ⟨k, v⟩ := e
    obtain ⟨k', v'⟩ := e'
    rw [encodeEntries, encodeEntries, hR _ _ he.1, hR _ _ he.2, ih]

/-- Beside its references the encoding of a vector shows the count only. -/
theorem Vec.Alike.encode_eq {v v' : Vec} (h : v.Alike R v') : v'.encode = v.encode := by
  cases h with
  | chunk hitems =>
    rw [Vec.encode, Vec.encode, encodeRefs_of_forall₂ hR hitems, hitems.length_eq]
  | tailed hfront hitems =>
    rw [Vec.encode, Vec.encode, encodeRefs_of_forall₂ hR hitems, hR _ _ hfront]
  | tree hchildren => rw [Vec.encode, Vec.encode, encodeRefs_of_forall₂ hR hchildren]

/-- That of an op shows its type and its symbol. -/
theorem Op.Alike.encode_eq {o o' : Op} (h : o.Alike R o') : o'.encode = o.encode := by
  cases h with
  | bind h hs | lambda h hs => rw [Op.encode, Op.encode, hR _ _ h, hR _ _ hs]
  | lookup symbol => rfl
  | _ h => rw [Op.encode, Op.encode, hR _ _ h]

theorem Closure.Alike.encode_eq {c c' : Closure} (h : c.Alike R c') : c'.encode = c.encode := by
  obtain ⟨params, body, env, name⟩ := c
  obtain ⟨params', body', env', name'⟩ := c'
  obtain ⟨hparams, hbody, henv, rfl⟩ := h
  rw [Closure.encode, Closure.encode, hR _ _ hparams, hR _ _ hbody, hR _ _ henv]

/-- If related references are written alike, so are alike cells. -/
theorem Cell.Alike.encode_eq {c c' : Cell} (h : c.Alike R c') : c'.encode = c.encode := by
  cases h with
  | vector h => rw [Cell.encode, Cell.encode, h.encode_eq hR]
  | map h => rw [Cell.encode, Cell.encode, encodeEntries_of_forall₂ hR h, h.length_eq]
  | record h => rw [Cell.encode, Cell.encode, encodeRefs_of_forall₂ hR h, h.length_eq]
  | op h => rw [Cell.encode, Cell.encode, h.encode_eq hR]
  | fn h => rw [Cell.encode, Cell.encode, h.encode_eq hR]
  | _ => rfl

end Encode

end CellMachine
