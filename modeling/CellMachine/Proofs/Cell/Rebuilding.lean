import CellMachine.Cell.Rebuild
import CellMachine.Proofs.Cell.Alike
import CellMachine.Proofs.Outcome

/-!
# What rebuilding makes of a cell

A cell that is rebuilt around new references is alike to what it was, each of its references being
what was made of the one before, and there is such a cell exactly if something can be made of every
reference.

Main statements: `Cell.mapRefs_eq_ok_iff` and `Cell.exists_mapRefs_iff`.
-/

namespace CellMachine

variable {R : Ref → Ref → Prop} {f : Ref → Except DataError Ref}

/-! ## The rebuilt cell is alike -/

/-- Rebuilding a vector replaces its references and keeps its form and its count. -/
theorem Vec.mapRefs_eq_ok_iff {v v' : Vec} :
    v.mapRefs f = .ok v' ↔ v.Alike (fun r r' => f r = .ok r') v' := by
  constructor
  · intro h
    cases v with
    | chunk items =>
      obtain ⟨items', hitems, h⟩ := bind_eq_ok_iff.1 h
      cases h
      exact .chunk (mapM_eq_ok_iff.1 hitems)
    | tailed n front items =>
      obtain ⟨front', hfront, h⟩ := bind_eq_ok_iff.1 h
      obtain ⟨items', hitems, h⟩ := bind_eq_ok_iff.1 h
      cases h
      exact .tailed hfront (mapM_eq_ok_iff.1 hitems)
    | tree n children =>
      obtain ⟨children', hchildren, h⟩ := bind_eq_ok_iff.1 h
      cases h
      exact .tree (mapM_eq_ok_iff.1 hchildren)
  · intro h
    cases h with
    | chunk hitems => rw [mapRefs, mapM_eq_ok_iff.2 hitems, ok_bind]
    | tailed hfront hitems => rw [mapRefs, hfront, ok_bind, mapM_eq_ok_iff.2 hitems, ok_bind]
    | tree hchildren => rw [mapRefs, mapM_eq_ok_iff.2 hchildren, ok_bind]

theorem Op.mapRefs_eq_ok_iff {o o' : Op} :
    o.mapRefs f = .ok o' ↔ o.Alike (fun r r' => f r = .ok r') o' := by
  constructor
  · intro h
    cases o with
    | lookup symbol =>
      cases h
      exact .lookup symbol
    -- two parts, the first of them rebuilt first
    | bind r s | lambda r s =>
      obtain ⟨r', hr, h⟩ := bind_eq_ok_iff.1 h
      obtain ⟨s', hs, h⟩ := bind_eq_ok_iff.1 h
      cases h
      constructor
      · exact hr
      · exact hs
    | constant r | define symbol r | sequence r | choose r | invoke r =>
      obtain ⟨r', hr, h⟩ := bind_eq_ok_iff.1 h
      cases h
      constructor
      exact hr
  · intro h
    cases h with
    | lookup symbol => rfl
    | bind h hs | lambda h hs => rw [mapRefs, h, ok_bind, hs, ok_bind]
    | _ h => rw [mapRefs, h, ok_bind]

theorem Closure.mapRefs_eq_ok_iff {c c' : Closure} :
    c.mapRefs f = .ok c' ↔ c.Alike (fun r r' => f r = .ok r') c' := by
  constructor
  · intro h
    obtain ⟨params, hparams, h⟩ := bind_eq_ok_iff.1 h
    obtain ⟨body, hbody, h⟩ := bind_eq_ok_iff.1 h
    obtain ⟨env, henv, h⟩ := bind_eq_ok_iff.1 h
    cases h
    exact ⟨hparams, hbody, henv, rfl⟩
  · intro h
    obtain ⟨params, body, env, name⟩ := c'
    obtain ⟨hparams, hbody, henv, rfl⟩ := h
    rw [mapRefs, hparams, ok_bind, hbody, ok_bind, henv, ok_bind]

theorem entryMapRefs_eq_ok_iff {e e' : Ref × Ref} :
    entryMapRefs f e = .ok e' ↔ f e.1 = .ok e'.1 ∧ f e.2 = .ok e'.2 := by
  constructor
  · intro h
    obtain ⟨key, hkey, h⟩ := bind_eq_ok_iff.1 h
    obtain ⟨value, hvalue, h⟩ := bind_eq_ok_iff.1 h
    cases h
    exact ⟨hkey, hvalue⟩
  · rintro ⟨hkey, hvalue⟩
    rw [entryMapRefs, hkey, ok_bind, hvalue, ok_bind]

theorem entriesMapRefs_eq_ok_iff {es es' : List (Ref × Ref)} :
    es.mapM (entryMapRefs f) = .ok es' ↔
      List.Forall₂ (fun e e' => f e.1 = .ok e'.1 ∧ f e.2 = .ok e'.2) es es' := by
  rw [mapM_eq_ok_iff]
  constructor
  · exact List.Forall₂.imp fun _ _ => entryMapRefs_eq_ok_iff.1
  · exact List.Forall₂.imp fun _ _ => entryMapRefs_eq_ok_iff.2

/-- The rebuilt cell is the one that has, in place of every reference, what is made of it. -/
theorem Cell.mapRefs_eq_ok_iff {c d : Cell} :
    c.mapRefs f = .ok d ↔ c.Alike (fun r r' => f r = .ok r') d := by
  constructor
  · intro h
    cases c with
    -- forward, the parts that were rebuilt are what makes the cells alike
    | vector v =>
      obtain ⟨v', hv, h⟩ := bind_eq_ok_iff.1 h
      cases h
      exact .vector (Vec.mapRefs_eq_ok_iff.1 hv)
    | map entries =>
      obtain ⟨entries', hentries, h⟩ := bind_eq_ok_iff.1 h
      cases h
      exact .map (entriesMapRefs_eq_ok_iff.1 hentries)
    | record format fields =>
      obtain ⟨fields', hfields, h⟩ := bind_eq_ok_iff.1 h
      cases h
      exact .record (mapM_eq_ok_iff.1 hfields)
    | op o =>
      obtain ⟨o', ho, h⟩ := bind_eq_ok_iff.1 h
      cases h
      exact .op (Op.mapRefs_eq_ok_iff.1 ho)
    | fn g =>
      obtain ⟨g', hg, h⟩ := bind_eq_ok_iff.1 h
      cases h
      exact .fn (Closure.mapRefs_eq_ok_iff.1 hg)
    | _ =>
      cases h
      constructor
  · intro h
    cases h with
    -- backward, alike parts are what rebuilding finds
    | vector h => rw [mapRefs, Vec.mapRefs_eq_ok_iff.2 h, ok_bind]
    | map h => rw [mapRefs, entriesMapRefs_eq_ok_iff.2 h, ok_bind]
    | record h => rw [mapRefs, mapM_eq_ok_iff.2 h, ok_bind]
    | op h => rw [mapRefs, Op.mapRefs_eq_ok_iff.2 h, ok_bind]
    | fn h => rw [mapRefs, Closure.mapRefs_eq_ok_iff.2 h, ok_bind]
    | _ => rfl

/-! ## There is one if there is something for every reference -/

/-- A vector has as many references as it is made of, so one for each can be put together. -/
theorem Vec.exists_alike {v : Vec} (h : ∀ r ∈ v.refs, ∃ r', R r r') : ∃ v', v.Alike R v' := by
  cases v with
  | chunk items =>
    obtain ⟨items', hitems⟩ := exists_forall₂ h
    exact ⟨.chunk items', .chunk hitems⟩
  | tailed n front items =>
    obtain ⟨hitems, hfront⟩ := List.forall_mem_append.1 h
    obtain ⟨front', hfront⟩ := hfront front List.mem_cons_self
    obtain ⟨items', hitems⟩ := exists_forall₂ hitems
    exact ⟨.tailed n front' items', .tailed hfront hitems⟩
  | tree n children =>
    obtain ⟨children', hchildren⟩ := exists_forall₂ h
    exact ⟨.tree n children', .tree hchildren⟩

theorem Op.exists_alike {o : Op} (h : ∀ r ∈ o.refs, ∃ r', R r r') : ∃ o', o.Alike R o' := by
  cases o with
  | lookup symbol => exact ⟨.lookup symbol, .lookup symbol⟩
  | bind r s =>
    obtain ⟨⟨r', hr⟩, hs⟩ := List.forall_mem_cons.1 h
    obtain ⟨s', hs⟩ := hs s List.mem_cons_self
    exact ⟨.bind r' s', .bind hr hs⟩
  | lambda r s =>
    obtain ⟨⟨r', hr⟩, hs⟩ := List.forall_mem_cons.1 h
    obtain ⟨s', hs⟩ := hs s List.mem_cons_self
    exact ⟨.lambda r' s', .lambda hr hs⟩
  | constant r =>
    obtain ⟨r', hr⟩ := h r List.mem_cons_self
    exact ⟨.constant r', .constant hr⟩
  | define symbol r =>
    obtain ⟨r', hr⟩ := h r List.mem_cons_self
    exact ⟨.define symbol r', .define hr⟩
  | sequence r =>
    obtain ⟨r', hr⟩ := h r List.mem_cons_self
    exact ⟨.sequence r', .sequence hr⟩
  | choose r =>
    obtain ⟨r', hr⟩ := h r List.mem_cons_self
    exact ⟨.choose r', .choose hr⟩
  | invoke r =>
    obtain ⟨r', hr⟩ := h r List.mem_cons_self
    exact ⟨.invoke r', .invoke hr⟩

/-- Keys and values can be chosen one association after another. -/
theorem exists_alike_entries {es : List (Ref × Ref)} (h : ∀ r ∈ (Cell.map es).refs, ∃ r', R r r') :
    ∃ es' : List (Ref × Ref), List.Forall₂ (fun e e' => R e.1 e'.1 ∧ R e.2 e'.2) es es' := by
  refine exists_forall₂ fun e he => ?_
  obtain ⟨key, hkey⟩ := h e.1 (List.mem_flatMap.2 ⟨e, he, List.mem_cons_self⟩)
  obtain ⟨value, hvalue⟩ :=
    h e.2 (List.mem_flatMap.2 ⟨e, he, List.mem_cons_of_mem _ List.mem_cons_self⟩)
  exact ⟨(key, value), hkey, hvalue⟩

/-- If every reference in a cell is related to another, there is a cell with those in their place. -/
theorem Cell.exists_alike {c : Cell} (h : ∀ r ∈ c.refs, ∃ r', R r r') : ∃ d, c.Alike R d := by
  cases c with
  | vector v =>
    obtain ⟨v', hv⟩ := Vec.exists_alike h
    exact ⟨.vector v', .vector hv⟩
  | map entries =>
    obtain ⟨entries', hentries⟩ := exists_alike_entries h
    exact ⟨.map entries', .map hentries⟩
  | record format fields =>
    obtain ⟨fields', hfields⟩ := exists_forall₂ h
    exact ⟨.record format fields', .record hfields⟩
  | op o =>
    obtain ⟨o', ho⟩ := Op.exists_alike h
    exact ⟨.op o', .op ho⟩
  | fn g =>
    obtain ⟨⟨params, hparams⟩, h⟩ := List.forall_mem_cons.1 h
    obtain ⟨⟨body, hbody⟩, h⟩ := List.forall_mem_cons.1 h
    obtain ⟨env, henv⟩ := h g.env List.mem_cons_self
    exact ⟨.fn ⟨params, body, env, g.name⟩, .fn ⟨hparams, hbody, henv, rfl⟩⟩
  | nil => exact ⟨.nil, .nil⟩
  | bool b => exact ⟨.bool b, .bool b⟩
  | long n => exact ⟨.long n, .long n⟩
  | text s => exact ⟨.text s, .text s⟩
  | blob b => exact ⟨.blob b, .blob b⟩
  | symbol n => exact ⟨.symbol n, .symbol n⟩
  | keyword n => exact ⟨.keyword n, .keyword n⟩
  | core g => exact ⟨.core g, .core g⟩

/-- A cell can be rebuilt exactly if something can be made of each of its references. -/
theorem Cell.exists_mapRefs_iff {c : Cell} :
    (∃ d, c.mapRefs f = .ok d) ↔ ∀ r ∈ c.refs, ∃ r', f r = .ok r' := by
  constructor
  · rintro ⟨d, hd⟩ r hr
    obtain ⟨r', -, h⟩ := exists_of_forall₂_left (mapRefs_eq_ok_iff.1 hd).refs hr
    exact ⟨r', h⟩
  · intro h
    obtain ⟨d, hd⟩ := Cell.exists_alike h
    exact ⟨d, mapRefs_eq_ok_iff.2 hd⟩

end CellMachine
