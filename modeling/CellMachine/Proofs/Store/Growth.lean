import CellMachine.Proofs.Store.Persisting

/-!
# What was readable stays readable

A store only ever grows: what is filed under a hash stays there, whatever else is filed and whatever cells are
persisted. So an access ends as it did before unless it came upon missing content. That is not a matter of
success only. Loading visits the parts of a cell in a fixed order and stops at the first one that it cannot load,
so if this was for another reason than missing content, everything up to there was found, and is found again.

One access *lasts* as another one if both end alike or the first one ends in missing content (`Lasts`), which is
handed on from the steps of an access to the whole.

Main statement: `Store.lasts_writeAll`.
-/

namespace CellMachine

/-! ## Writing to a store -/

namespace Store

/-- A store that has all the entries of another one, and as many at least. -/
structure Grows (s t : Store) : Prop where
  sub : s.Sub t
  size : s.size ≤ t.size

variable {s t u : Store}

theorem Grows.refl (s : Store) : s.Grows s := ⟨.refl s, Nat.le_refl _⟩

theorem Grows.trans (h : s.Grows t) (h' : t.Grows u) : s.Grows u :=
  ⟨h.sub.trans h'.sub, Nat.le_trans h.size h'.size⟩

theorem grows_put (s : Store) (h : Hash) (bs : Bytes) : s.Grows (s.put h bs) := by
  refine ⟨sub_put s h bs, ?_⟩
  unfold put
  split
  · exact Nat.le_refl _
  · exact Nat.le_succ _

theorem grows_foldl {α : Type} {f : Store → α → Store} {l : List α}
    (hf : ∀ a ∈ l, ∀ s : Store, s.Grows (f s a)) (s : Store) : s.Grows (l.foldl f s) := by
  induction l generalizing s with
  | nil => exact .refl s
  | cons a l ih =>
    obtain ⟨ha, hl⟩ := List.forall_mem_cons.1 hf
    exact (ha s).trans (ih hl _)

/-- Persisting a reference only files what it owns. -/
theorem grows_persistInto {r : Ref}
    (hheld : ∀ c, r.held? = some c → ∀ s : Store, s.Grows (c.persistParts s)) (s : Store) :
    s.Grows (r.persistInto s) := by
  cases r with
  | embedded h l c => exact hheld c rfl s
  | direct h l c => exact (hheld c rfl s).trans (grows_put _ _ _)
  | cached | remote => exact .refl s

/-- Persisting the parts of a cell keeps what the store has. -/
theorem grows_persistParts (c : Cell) (s : Store) : s.Grows (c.persistParts s) := by
  induction c using Cell.induction generalizing s with
  | step c ih =>
    rw [Cell.persistParts_eq]
    exact grows_foldl (fun r hr => grows_persistInto (ih r hr)) s

/-- What can be done to a store: filing any bytes under any hash, and persisting a cell, or the cell of a
reference that is to be stored. -/
inductive Write where
  | put (h : Hash) (bs : Bytes)
  | persist (c : Cell)
  | persistRef (r : Ref)

/-- The store after a write. -/
def write (s : Store) : Write → Store
  | .put h bs => s.put h bs
  | .persist c => s.persist c
  | .persistRef r => r.persistInto s

/-- The store after some writes, one after another. -/
def writeAll (s : Store) (writes : List Write) : Store := writes.foldl write s

theorem grows_write (s : Store) (w : Write) : s.Grows (s.write w) := by
  cases w with
  | put h bs => exact grows_put s h bs
  | persist c => exact (grows_persistParts c s).trans (grows_put _ _ _)
  | persistRef r => exact grows_persistInto (fun c _ => grows_persistParts c) s

theorem grows_writeAll (s : Store) (writes : List Write) : s.Grows (s.writeAll writes) :=
  grows_foldl (fun w _ s => grows_write s w) s

end Store

/-! ## Accesses that last -/

/-- The second access ends as the first one does, unless content was missing in the first one. -/
def Lasts {α : Type} (x x' : Except DataError α) : Prop := (∃ h, x = .error (.missing h)) ∨ x' = x

section Lasts
variable {α β : Type}

theorem lasts_refl (x : Except DataError α) : Lasts x x := .inr rfl

/-- Whatever comes later, an access that found nothing has promised nothing. -/
theorem lasts_missing (h : Hash) (x : Except DataError α) : Lasts (.error (.missing h)) x := .inl ⟨h, rfl⟩

/-- Accesses after one another last if each of them does. -/
theorem Lasts.bind {x x' : Except DataError α} {f f' : α → Except DataError β} (hx : Lasts x x')
    (hf : ∀ a, Lasts (f a) (f' a)) : Lasts (x >>= f) (x' >>= f') := by
  obtain ⟨h, rfl⟩ | rfl := hx
  · exact lasts_missing h _
  · cases x' with
    | ok a => exact hf a
    | error e => exact lasts_refl _

theorem lasts_mapM {f f' : α → Except DataError β} {l : List α} (h : ∀ a ∈ l, Lasts (f a) (f' a)) :
    Lasts (l.mapM f) (l.mapM f') := by
  induction l with
  | nil => exact lasts_refl _
  | cons a l ih =>
    obtain ⟨ha, hl⟩ := List.forall_mem_cons.1 h
    rw [List.mapM_cons, List.mapM_cons]
    exact ha.bind fun b => (ih hl).bind fun bs => lasts_refl _

end Lasts

/-! ## Rebuilding a cell around references that last -/

section Rebuilding
variable {f f' : Ref → Except DataError Ref}

/-- Rebuilding a vector lasts if what is done to its references does. -/
theorem Vec.lasts_mapRefs {v : Vec} (h : ∀ r ∈ v.refs, Lasts (f r) (f' r)) :
    Lasts (v.mapRefs f) (v.mapRefs f') := by
  cases v with
  | chunk items => exact (lasts_mapM h).bind fun _ => lasts_refl _
  | tailed n front items =>
    obtain ⟨hitems, hfront⟩ := List.forall_mem_append.1 h
    refine (List.forall_mem_singleton.1 hfront).bind fun _ => ?_
    exact (lasts_mapM hitems).bind fun _ => lasts_refl _
  | tree n children => exact (lasts_mapM h).bind fun _ => lasts_refl _

theorem Op.lasts_mapRefs {o : Op} (h : ∀ r ∈ o.refs, Lasts (f r) (f' r)) :
    Lasts (o.mapRefs f) (o.mapRefs f') := by
  cases o with
  | lookup symbol => exact lasts_refl _
  | bind first second | lambda first second =>
    obtain ⟨hfirst, hsecond⟩ := List.forall_mem_cons.1 h
    refine hfirst.bind fun _ => ?_
    exact (List.forall_mem_singleton.1 hsecond).bind fun _ => lasts_refl _
  | _ => exact (List.forall_mem_singleton.1 h).bind fun _ => lasts_refl _

theorem Closure.lasts_mapRefs {c : Closure} (h : ∀ r ∈ c.refs, Lasts (f r) (f' r)) :
    Lasts (c.mapRefs f) (c.mapRefs f') := by
  obtain ⟨hparams, h⟩ := List.forall_mem_cons.1 h
  obtain ⟨hbody, henv⟩ := List.forall_mem_cons.1 h
  refine hparams.bind fun _ => hbody.bind fun _ => ?_
  exact (List.forall_mem_singleton.1 henv).bind fun _ => lasts_refl _

theorem Cell.lasts_mapRefs {c : Cell} (h : ∀ r ∈ c.refs, Lasts (f r) (f' r)) :
    Lasts (c.mapRefs f) (c.mapRefs f') := by
  cases c with
  | vector v => exact (Vec.lasts_mapRefs h).bind fun _ => lasts_refl _
  | map entries =>
    -- an entry has two references, the key's in front
    refine (lasts_mapM fun e he => ?_).bind fun _ => lasts_refl _
    exact (h _ (key_mem_refs he)).bind fun _ => (h _ (value_mem_refs he)).bind fun _ => lasts_refl _
  | record format fields => exact (lasts_mapM h).bind fun _ => lasts_refl _
  | op o => exact (Op.lasts_mapRefs h).bind fun _ => lasts_refl _
  | fn c => exact (Closure.lasts_mapRefs h).bind fun _ => lasts_refl _
  | _ => exact lasts_refl _

end Rebuilding

/-! ## Loading -/

section Loading
variable {fetch fetch' : Hash → Except DataError Cell} (hfetch : ∀ h, Lasts (fetch h) (fetch' h))
include hfetch

/-- A reference lasts by what it holds, or by the store if it holds nothing. -/
theorem Ref.lasts_loadWith {r : Ref}
    (hheld : ∀ c, r.held? = some c → Lasts (c.loadWith fetch) (c.loadWith fetch')) :
    Lasts (r.loadWith fetch) (r.loadWith fetch') := by
  cases r with
  | remote h => exact (hfetch h).bind fun _ => lasts_refl _
  | _ => exact (hheld _ rfl).bind fun _ => lasts_refl _

/-- A cell is checked again when its parts are held. What the check finds depends on the parts alone. -/
theorem Cell.lasts_loadWith (c : Cell) : Lasts (c.loadWith fetch) (c.loadWith fetch') := by
  induction c using Cell.induction with
  | step c ih =>
    cases hloaded : c.loaded with
    | true =>
      rw [Cell.loadWith_of_loaded fetch hloaded, Cell.loadWith_of_loaded fetch' hloaded]
      exact lasts_refl _
    | false =>
      rw [Cell.loadWith_eq hloaded, Cell.loadWith_eq hloaded]
      refine (Cell.lasts_mapRefs fun r hr => ?_).bind fun _ => lasts_refl _
      exact Ref.lasts_loadWith hfetch (ih r hr)

end Loading

namespace Store
variable {s t : Store}

/-- A larger store answers a fetch in the same way or has it for the first time. -/
theorem Sub.lasts_fetch (h : s.Sub t) (k : Hash) : Lasts (s.fetch k) (t.fetch k) := by
  unfold fetch
  cases hs : s.get? k with
  | none => exact lasts_missing k _
  | some bs =>
    rw [h k bs hs]
    exact lasts_refl _

theorem Sub.lasts_resolve (h : s.Sub t) (k : Hash) : Lasts (s.resolve k) (t.resolve k) :=
  (h.lasts_fetch k).bind fun _ => lasts_refl _

/-- More fetches may follow one another in a larger store. Where they came to an end in the smaller one, content
was missing. -/
theorem Sub.lasts_fetchLoaded (h : s.Sub t) {fetches fetches' : Nat} (hle : fetches ≤ fetches') (k : Hash) :
    Lasts (s.fetchLoaded fetches k) (t.fetchLoaded fetches' k) := by
  induction fetches generalizing fetches' k with
  | zero => exact lasts_missing k _
  | succ fetches ih =>
    obtain ⟨more, rfl⟩ : ∃ more, fetches' = more + 1 := ⟨fetches' - 1, by omega⟩
    have hparts : ∀ k, Lasts (s.fetchLoaded fetches k) (t.fetchLoaded more k) := ih (by omega)
    exact (h.lasts_resolve k).bind (Cell.lasts_loadWith hparts)

/-- Loading to any depth lasts, for the larger store may also go deeper. -/
theorem Grows.lasts_supply (h : s.Grows t) (k : Hash) : Lasts (s.supply k) (t.supply k) :=
  h.sub.lasts_fetchLoaded h.size k

/-- Store growth never changes what was readable. Whatever is in a store, and whatever is written to it
afterwards, content that was found under a hash is still found there, and every way to read from the store, by a
hash, a reference or a cell with parts missing, ends in the very cell, reference or error that it ended in before,
unless it ended in missing content. -/
theorem lasts_writeAll (s : Store) (writes : List Write) :
    (∀ h bs, s.get? h = some bs → (s.writeAll writes).get? h = some bs) ∧
      (∀ h, Lasts (s.fetch h) ((s.writeAll writes).fetch h)) ∧
      (∀ h, Lasts (s.load h) ((s.writeAll writes).load h)) ∧
      (∀ r : Ref, Lasts (r.load s) (r.load (s.writeAll writes))) ∧
      (∀ r : Ref, Lasts (r.resolve s) (r.resolve (s.writeAll writes))) ∧
      ∀ c : Cell, Lasts (c.load s) (c.load (s.writeAll writes)) := by
  have hgrows : s.Grows (s.writeAll writes) := grows_writeAll s writes
  have hcell : ∀ c : Cell, Lasts (c.load s) (c.load (s.writeAll writes)) :=
    Cell.lasts_loadWith hgrows.lasts_supply
  refine ⟨hgrows.sub, hgrows.sub.lasts_fetch, fun h => ?_, fun r => ?_, fun r => ?_, hcell⟩
  · exact (hgrows.sub.lasts_fetch h).bind hcell
  · exact Ref.lasts_loadWith hgrows.lasts_supply fun c _ => hcell c
  · cases r with
    | remote h => exact hgrows.sub.lasts_resolve h
    | _ => exact lasts_refl _

/-- A store with wrong bytes under the hash of a vector. -/
def spoiled : Store := Store.empty.put (boxed largeBlob).hash [0]

/-- The hash of the vector cannot be loaded from such a store, nor can it after the vector has been persisted, and
for the same reason. The large byte string in the vector has been filed then. -/
theorem lasts_writeAll_spoiled :
    spoiled.load (boxed largeBlob).hash =
      .error (.format (.hashMismatch (boxed largeBlob).hash (Hash.digest [0]))) ∧
    (spoiled.writeAll [.persist (boxed largeBlob)]).load (boxed largeBlob).hash =
      .error (.format (.hashMismatch (boxed largeBlob).hash (Hash.digest [0]))) ∧
    spoiled.get? largeBlob.hash = none ∧
    (spoiled.writeAll [.persist (boxed largeBlob)]).get? largeBlob.hash = some largeBlob.encode := by
  have hwrong : Hash.digest [0] ≠ (boxed largeBlob).hash := by decide +kernel
  have hfound : spoiled.get? (boxed largeBlob).hash = some [0] := by
    rw [spoiled, get?_put, if_pos rfl]
    rfl
  have hload : spoiled.load (boxed largeBlob).hash =
      .error (.format (.hashMismatch (boxed largeBlob).hash (Hash.digest [0]))) := by
    simp only [load, fetch, hfound, if_neg hwrong]
    rfl
  -- the wrong bytes are not repaired by persisting the right ones
  obtain ⟨-, -, hlasts, -⟩ := lasts_writeAll spoiled [.persist (boxed largeBlob)]
  refine ⟨hload, ?_, by decide +kernel, by decide +kernel⟩
  have hagain := hlasts (boxed largeBlob).hash
  rw [hload] at hagain
  obtain ⟨h, hmissing⟩ | hsame := hagain
  · cases hmissing
  · exact hsame

end Store

end CellMachine
