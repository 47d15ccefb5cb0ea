import Mathlib.Data.List.Nodup
import CellMachine.Proofs.Store.Retrieval
import CellMachine.Proofs.Store.Safety

/-!
# What persisting leaves behind

Persisting a cell files the parts that the cell holds by itself and takes what stands behind a
reference to stored content to be in the store already, which may be false: the content may be in
another store. A store *grounds* a cell if it is true. Then the store covers the cell once the cell has
been persisted, so that the cell can be fetched and loaded again. A cell built in memory, none of whose
references is to stored content, is grounded in every store.

Nothing that is in a store is ever lost or replaced by persisting, and a store whose entries stand under
their digests stays such a store.

Main statements: `Store.persist_covers` and `Store.persist_loaded_incomplete` (a cell that was loaded
from one store is not covered by another into which it has been persisted).
-/

namespace CellMachine

/-! ## Filing parts one by one -/

/-- References of a list are persisted one after another. -/
theorem refsPersist_eq (rs : List Ref) (s : Store) :
    refsPersist rs s = rs.foldl (fun t r => r.persistInto t) s := by
  induction rs generalizing s with
  | nil => rw [refsPersist, List.foldl_nil]
  | cons r rs ih => rw [refsPersist, List.foldl_cons, ih]

/-- Entries are persisted in order, the key's reference in front of the value's. -/
theorem entriesPersist_eq (es : List (Ref × Ref)) (s : Store) :
    entriesPersist es s = (Cell.map es).refs.foldl (fun t r => r.persistInto t) s := by
  induction es generalizing s with
  | nil => rw [entriesPersist, Cell.refs, List.flatMap_nil, List.foldl_nil]
  | cons e es ih =>
    obtain ⟨k, v⟩ := e
    rw [entriesPersist, ih]
    rfl

/-- The parts of a cell are filed in the order of its references. -/
theorem Cell.persistParts_eq (c : Cell) (s : Store) :
    c.persistParts s = c.refs.foldl (fun t r => r.persistInto t) s := by
  cases c with
  | vector v =>
    rw [persistParts, refs]
    cases v with
    | chunk items => rw [Vec.persistParts, refsPersist_eq, Vec.refs]
    | tailed n front items =>
      rw [Vec.persistParts, refsPersist_eq, Vec.refs, List.foldl_append]
      rfl
    | tree n children => rw [Vec.persistParts, refsPersist_eq, Vec.refs]
  | map entries => rw [persistParts, entriesPersist_eq]
  | record format fields => rw [persistParts, refsPersist_eq, refs]
  | op o =>
    rw [persistParts]
    cases o <;> rw [Op.persistParts] <;> rfl
  | fn f =>
    obtain ⟨params, body, env, name⟩ := f
    rw [persistParts]
    rfl
  | _ => simp [persistParts, refs]

/-- A new parent holds a cell by itself. -/
theorem Ref.isSoft_of (c : Cell) : (Ref.of c).isSoft = false := by
  simp only [Ref.of]
  split <;> rfl

/-! ## Cells in memory -/

/-- A cell that has been built in memory: it has no reference to stored content, at any depth. -/
def Cell.InMemory (c : Cell) : Prop := ∀ d, c.Contains d → ∀ r ∈ d.refs, r.isSoft = false

namespace Cell
variable {c : Cell}

theorem InMemory.of_contains {d : Cell} (h : c.InMemory) (hd : c.Contains d) : d.InMemory :=
  fun e he => h e (hd.trans he)

end Cell

namespace Store

/-- The byte strings in a store. -/
def contents (s : Store) : Set Bytes := {bs | ∃ h, s.get? h = some bs}

/-- Everything in the first store is in the second one. -/
def Sub (s t : Store) : Prop := ∀ h bs, s.get? h = some bs → t.get? h = some bs

theorem Sub.refl (s : Store) : s.Sub s := fun _ _ h => h

theorem Sub.trans {s t u : Store} (h : s.Sub t) (h' : t.Sub u) : s.Sub u :=
  fun k bs hk => h' k bs (h k bs hk)

/-- A cell that is covered stays so when the store grows. -/
theorem Sub.covers {s t : Store} {c : Cell} (h : s.Sub t) (hs : s.Covers c) : t.Covers c :=
  fun d hd r hr hemb e he => h _ _ (hs d hd r hr hemb e he)

theorem Sub.coversRef {s t : Store} {r : Ref} (h : s.Sub t) (hs : s.CoversRef r) :
    t.CoversRef r :=
  fun d hd => ⟨fun hemb => h _ _ ((hs d hd).1 hemb), h.covers (hs d hd).2⟩

/-- A store whose entries stand under their digests and come from a set of byte strings. -/
def Files (S : Set Bytes) (s : Store) : Prop :=
  ∀ h bs, s.get? h = some bs → Hash.digest bs = h ∧ bs ∈ S

section Put
variable {S : Set Bytes} {s : Store} {bs : Bytes}

theorem sub_put (s : Store) (h : Hash) (bs : Bytes) : s.Sub (s.put h bs) := by
  intro k old hold
  rw [get?_put]
  by_cases hk : k = h
  · rw [if_pos hk, ← hk, hold, Option.getD_some]
  · rw [if_neg hk, hold]

/-- What stood under the digest of a byte string before is that byte string. -/
theorem get?_put_digest (hS : Set.InjOn Hash.digest S) (hs : s.Files S) (hbs : bs ∈ S) :
    (s.put (Hash.digest bs) bs).get? (Hash.digest bs) = some bs := by
  rw [get?_put, if_pos rfl]
  cases hold : s.get? (Hash.digest bs) with
  | none => rfl
  | some old =>
    obtain ⟨hdigest, hmem⟩ := hs _ _ hold
    rw [Option.getD_some, hS hmem hbs hdigest]

/-- Filing an encoding under its digest keeps the store filed. -/
theorem Files.put (hS : Set.InjOn Hash.digest S) (hs : s.Files S) (hbs : bs ∈ S) :
    (s.put (Hash.digest bs) bs).Files S := by
  intro k found hfound
  by_cases hk : k = Hash.digest bs
  · rw [hk, get?_put_digest hS hs hbs] at hfound
    cases hfound
    exact ⟨hk.symm, hbs⟩
  · rw [get?_put, if_neg hk] at hfound
    exact hs k found hfound

end Put

/-! ## What must be in the store already -/

/-- What stands behind references to stored content, in the cell and in the cells that it holds by
itself, is in the store, with all that it needs. -/
inductive Grounds (s : Store) : Cell → Prop where
  /-- The references to stored content are covered, and the cells held otherwise are grounded. -/
  | intro {c : Cell} (shared : ∀ r ∈ c.refs, r.isSoft = true → s.CoversRef r)
      (own : ∀ r ∈ c.refs, r.isDirect = true → ∀ d, r.held? = some d → Grounds s d) : Grounds s c

/-- A reference to stored content that is in the store, or to a cell that is grounded there. -/
structure GroundsRef (s : Store) (r : Ref) : Prop where
  shared : r.isSoft = true → s.CoversRef r
  own : r.isDirect = true → ∀ d, r.held? = some d → s.Grounds d

theorem grounds_iff {s : Store} {c : Cell} : s.Grounds c ↔ ∀ r ∈ c.refs, s.GroundsRef r := by
  constructor
  · rintro ⟨shared, own⟩ r hr
    exact ⟨shared r hr, own r hr⟩
  · intro h
    exact .intro (fun r hr => (h r hr).shared) fun r hr => (h r hr).own

/-- What is held in memory is grounded in every store. -/
theorem grounds_of_inMemory {s : Store} {c : Cell} (h : c.InMemory) : s.Grounds c := by
  induction c using Cell.induction with
  | step c ih =>
    refine .intro (fun r hr hsoft => ?_) fun r hr _ d hd => ih r hr d hd ?_
    · rw [h c .self r hr] at hsoft
      cases hsoft
    · exact h.of_contains (Cell.contains_of_held hr hd)

theorem Sub.grounds {s t : Store} {c : Cell} (h : s.Sub t) (hs : s.Grounds c) : t.Grounds c := by
  induction hs with
  | intro shared _ ih => exact .intro (fun r hr hsoft => h.coversRef (shared r hr hsoft)) ih

theorem Sub.groundsRef {s t : Store} {r : Ref} (h : s.Sub t) (hs : s.GroundsRef r) :
    t.GroundsRef r :=
  ⟨fun hsoft => h.coversRef (hs.shared hsoft), fun hdirect d hd => h.grounds (hs.own hdirect d hd)⟩

/-! ## What persisting does -/

section Persist
variable {S : Set Bytes} {w : Nat}

/-- What persisting has made of `s`: a store that holds more, all of it filed properly. -/
structure Grown (S : Set Bytes) (s t : Store) : Prop where
  files : t.Files S
  sub : s.Sub t

/-- Persisting a reference covers it, given that persisting the parts of what it holds covers them.
-/
theorem persistInto_spec {r : Ref} {s : Store} (hS : Set.InjOn Hash.digest S)
    (hr : r.Valid w) (hrS : ∀ d, r.held? = some d → d.encode ∈ S) (hs : s.Files S)
    (hg : s.GroundsRef r)
    (hparts : ∀ d, r.held? = some d → s.Grounds d →
      Grown S s (d.persistParts s) ∧ (d.persistParts s).Covers d) :
    Grown S s (r.persistInto s) ∧ (r.persistInto s).CoversRef r := by
  cases r with
  | embedded h l c =>
    rw [Ref.persistInto]
    obtain ⟨hgrown, hcovers⟩ := hparts c rfl (hg.own rfl c rfl)
    refine ⟨hgrown, fun d hd => ?_⟩
    cases hd
    exact ⟨(fun hemb => by cases hemb), hcovers⟩
  | direct h l c =>
    rw [Ref.persistInto]
    obtain ⟨hgrown, hcovers⟩ := hparts c rfl (hg.own rfl c rfl)
    have hhash : h = Hash.digest c.encode := (hr c rfl).1.hash
    have hsub := sub_put (c.persistParts s) h c.encode
    rw [hhash] at hsub ⊢
    refine ⟨⟨hgrown.files.put hS (hrS c rfl), hgrown.sub.trans hsub⟩, fun d hd => ?_⟩
    cases hd
    exact ⟨fun _ => get?_put_digest hS hgrown.files (hrS c rfl), hsub.covers hcovers⟩
  -- nothing is written for a soft reference: what it holds must be there already
  | cached h l c =>
    rw [Ref.persistInto]
    exact ⟨⟨hs, .refl s⟩, hg.shared rfl⟩
  | remote h =>
    rw [Ref.persistInto]
    exact ⟨⟨hs, .refl s⟩, fun d hd => by cases hd⟩

/-- Persisting references one after another covers all of them. -/
theorem persist_foldl_spec {rs : List Ref} {s : Store} (hs : s.Files S)
    (hg : ∀ r ∈ rs, s.GroundsRef r)
    (hstep : ∀ r ∈ rs, ∀ t : Store, t.Files S → t.GroundsRef r →
      Grown S t (r.persistInto t) ∧ (r.persistInto t).CoversRef r) :
    Grown S s (rs.foldl (fun t r => r.persistInto t) s) ∧
      ∀ r ∈ rs, (rs.foldl (fun t r => r.persistInto t) s).CoversRef r := by
  induction rs generalizing s with
  | nil => exact ⟨⟨hs, .refl s⟩, fun r hr => by cases hr⟩
  | cons r rs ih =>
    obtain ⟨hgrown, hcovers⟩ := hstep r List.mem_cons_self s hs (hg r List.mem_cons_self)
    obtain ⟨hgrown', hcovers'⟩ := ih hgrown.files
      (fun r' hr' => hgrown.sub.groundsRef (hg r' (List.mem_cons_of_mem _ hr')))
      fun r' hr' => hstep r' (List.mem_cons_of_mem _ hr')
    rw [List.foldl_cons]
    refine ⟨⟨hgrown'.files, hgrown.sub.trans hgrown'.sub⟩, fun r' hr' => ?_⟩
    -- what the first one has filed is still there after the others
    rcases List.mem_cons.1 hr' with rfl | hr'
    · exact hgrown'.sub.coversRef hcovers
    · exact hcovers' r' hr'

/-- Filing the parts of a grounded cell makes the store cover it. -/
theorem persistParts_spec {c : Cell} {s : Store} (hS : Set.InjOn Hash.digest S) (hc : c.Valid w)
    (hcS : c.encodings ⊆ S) (hs : s.Files S) (hg : s.Grounds c) :
    Grown S s (c.persistParts s) ∧ (c.persistParts s).Covers c := by
  induction c using Cell.induction generalizing s with
  | step c ih =>
    rw [Cell.persistParts_eq, covers_iff]
    refine persist_foldl_spec hs (grounds_iff.1 hg) fun r hr t ht hgt => ?_
    refine persistInto_spec hS (hc.refs hr) (fun d hd => ?_) ht hgt fun d hd hgd => ?_
    · exact hcS (Cell.encode_mem_encodings (Cell.contains_of_held hr hd))
    · exact ih r hr d hd (hc.refs hr d hd).2
        ((Cell.encodings_subset (Cell.contains_of_held hr hd)).trans hcS) ht hgd

end Persist

/-! ## Persisted cells come back -/

section Restore
variable {s : Store} {w : Nat}

theorem Sound.files {S : Set Bytes} (hs : s.Sound) (hS : s.contents ⊆ S) : s.Files S :=
  fun h bs hbs => ⟨hs h bs hbs, hS ⟨h, hbs⟩⟩

/-- Once a grounded cell has been persisted, the store covers it and holds it. -/
theorem persist_spec {c : Cell} (hs : s.Sound) (hc : c.Valid w)
    (hinj : Set.InjOn Hash.digest (c.encodings ∪ s.contents)) (hg : s.Grounds c) :
    (s.persist c).Covers c ∧ (s.persist c).get? c.hash = some c.encode := by
  obtain ⟨hgrown, hcovers⟩ := persistParts_spec hinj hc Set.subset_union_left
    (hs.files Set.subset_union_right) hg
  have hmem : c.encode ∈ c.encodings ∪ s.contents := .inl (Cell.encode_mem_encodings .self)
  exact ⟨(sub_put _ _ _).covers hcovers, get?_put_digest hinj hgrown.files hmem⟩

/-- Persisting a cell makes the store cover it, provided that what stands behind its references to
stored content is in the store already; that provision is what a cell built in memory meets in every
store, and a cell loaded from another store may fail. The cell is then loaded under its hash, with
nothing missing and the encoding that it had. The same goes for a reference that holds a loaded cell:
once its cell has been persisted and its copy forgotten, it loads again.

The store must keep its entries under their digests, and no two different byte strings among its
contents and the encodings of the cells inside the cell may have the same digest. Counts must fit the
format. -/
theorem persist_covers (hs : s.Sound) :
    (∀ c : Cell, c.Valid w → c.loaded = true → (∀ v, c.Contains (.vector v) → v.count < 2 ^ 63) →
      Set.InjOn Hash.digest (c.encodings ∪ s.contents) → s.Grounds c →
      (s.persist c).Covers c ∧ (s.persist c).get? c.hash = some c.encode ∧
        ∃ l, (s.persist c).load c.hash = .ok l ∧ l.loaded = true ∧ l.encode = c.encode) ∧
    (∀ (r : Ref) (c : Cell), r.held? = some c → r.Valid w → c.loaded = true →
      (∀ v, c.Contains (.vector v) → v.count < 2 ^ 63) →
      Set.InjOn Hash.digest (c.encodings ∪ s.contents) → s.GroundsRef r →
      (r.persistInto s).CoversRef r ∧ ∃ r' l, r.persisted.evict.load (r.persistInto s) = .ok r' ∧
        r'.hash = r.hash ∧ r'.held? = some l ∧ l.loaded = true ∧ l.encode = c.encode) := by
  constructor
  · intro c hc hloaded hcounts hinj hg
    obtain ⟨hcovers, hget⟩ := persist_spec hs hc hinj hg
    exact ⟨hcovers, hget, hcovers.exists_load (hc.of_counts hcounts) (by decide) hloaded hget⟩
  · intro r c hheld hr hloaded hcounts hinj hg
    obtain ⟨hdescribes, hc⟩ := hr c hheld
    have hmem : c.encode ∈ c.encodings ∪ s.contents := .inl (Cell.encode_mem_encodings .self)
    have hcovers : (r.persistInto s).CoversRef r := by
      refine (persistInto_spec hinj hr (fun d hd => ?_) (hs.files Set.subset_union_right) hg
        fun d hd hgd => ?_).2
      · rw [hheld] at hd
        cases hd
        exact hmem
      · rw [hheld] at hd
        cases hd
        exact persistParts_spec hinj hc Set.subset_union_left (hs.files Set.subset_union_right) hgd
    refine ⟨hcovers, ?_⟩
    obtain ⟨hget, hcovers⟩ := hcovers c hheld
    cases r with
    | remote h => cases hheld
    | embedded h l d =>
      -- an embedded reference keeps its cell, which is loaded already
      cases hheld
      refine ⟨.embedded h c.loaded c, c, ?_, rfl, rfl, hloaded, rfl⟩
      show (Ref.embedded h l c).load _ = _
      rw [Ref.load, Ref.loadWith, Cell.loadWith_of_loaded _ hloaded, ok_bind]
    | direct h l d | cached h l d =>
      -- what is left of any other reference is its hash
      cases hheld
      have hhash : h = c.hash := hdescribes.hash
      subst hhash
      obtain ⟨d, hd, hdloaded, hencode⟩ := hcovers.exists_supply (hc.of_counts hcounts) (by decide)
        hloaded (hget rfl) hdescribes.embedded.symm
      refine ⟨.cached c.hash d.loaded d, d, ?_, rfl, rfl, hdloaded, hencode⟩
      show (Ref.remote c.hash).load _ = _
      rw [Ref.load, Ref.loadWith, hd, ok_bind]

end Restore

end Store

/-! ## Into the empty store -/

/-- A new parent of cells that have no parts. -/
structure Cell.HoldsLeaves (c : Cell) (leaves : List Cell) : Prop where
  refs : c.refs = leaves.map Ref.of
  plain : ∀ d ∈ leaves, d.refs = []

namespace Cell.HoldsLeaves
variable {c d : Cell} {leaves : List Cell} (h : c.HoldsLeaves leaves)
include h

/-- Inside a cell whose references hold leaves there are the leaves and nothing else. -/
theorem eq_or_mem (hd : c.Contains d) : d = c ∨ d ∈ leaves := by
  obtain rfl | ⟨r, hr, e, he, hcontains⟩ := Cell.contains_iff.1 hd
  · exact .inl rfl
  · rw [h.refs] at hr
    obtain ⟨leaf, hleaf, rfl⟩ := List.mem_map.1 hr
    have hheld : leaf = e := Option.some.inj ((Ref.held?_of leaf).symm.trans he)
    subst hheld
    obtain rfl | ⟨r, hr, -⟩ := Cell.contains_iff.1 hcontains
    · exact .inr hleaf
    · rw [h.plain leaf hleaf] at hr
      exact absurd hr List.not_mem_nil

theorem inMemory : c.InMemory := by
  intro d hd r hr
  obtain rfl | hleaf := h.eq_or_mem hd
  · rw [h.refs] at hr
    obtain ⟨leaf, -, rfl⟩ := List.mem_map.1 hr
    exact Ref.isSoft_of leaf
  · rw [h.plain d hleaf] at hr
    exact absurd hr List.not_mem_nil

/-- Digests tell its parts apart if they tell the cell and its leaves apart. -/
theorem injOn_encodings (hdigests : ((c :: leaves).map Cell.hash).Nodup) :
    Set.InjOn Hash.digest c.encodings := by
  rintro _ ⟨d, hd, rfl⟩ _ ⟨e, he, rfl⟩ hhash
  have hmem : ∀ {f : Cell}, c.Contains f → f ∈ c :: leaves := fun hf => List.mem_cons.2 (h.eq_or_mem hf)
  exact congrArg Cell.encode (List.inj_on_of_nodup_map hdigests (hmem hd) (hmem he) hhash)

end Cell.HoldsLeaves

namespace Store

theorem contents_empty : Store.empty.contents = ∅ := by
  refine Set.eq_empty_of_forall_notMem ?_
  rintro bs ⟨h, hbs⟩
  cases hbs

theorem sound_empty : Store.empty.Sound := fun h bs hbs => by cases hbs

/-- The empty store has nothing of which the digest could be that of something else. -/
theorem injOn_union_empty {S : Set Bytes} (h : Set.InjOn Hash.digest S) :
    Set.InjOn Hash.digest (S ∪ Store.empty.contents) := by
  rwa [contents_empty, Set.union_empty]

theorem leaves_boxed_largeBlob : (boxed largeBlob).HoldsLeaves [largeBlob] :=
  ⟨rfl, List.forall_mem_singleton.2 rfl⟩

theorem valid_boxed_largeBlob : (boxed largeBlob).Valid 0 := by
  refine Cell.valid_iff.2 ⟨(by decide : 1 ≤ chunkSize), .inl (by decide : 1 ≤ freeCount + 0), ?_⟩
  exact List.forall_mem_singleton.2 (Ref.valid_of (Cell.valid_of_no_refs rfl trivial rfl))

theorem injOn_boxed_largeBlob : Set.InjOn Hash.digest (boxed largeBlob).encodings :=
  leaves_boxed_largeBlob.injOn_encodings (by decide +kernel)

/-- A vector built in memory comes back from the empty store into which it has been persisted, with
the large byte string that it holds. -/
theorem persist_covers_boxed : (Store.empty.persist (boxed largeBlob)).Covers (boxed largeBlob) ∧
    (Store.empty.persist (boxed largeBlob)).get? (boxed largeBlob).hash =
      some (boxed largeBlob).encode ∧
    ∃ l, (Store.empty.persist (boxed largeBlob)).load (boxed largeBlob).hash = .ok l ∧
      l.loaded = true ∧ l.encode = (boxed largeBlob).encode :=
  (persist_covers sound_empty).1 (boxed largeBlob) valid_boxed_largeBlob (by decide +kernel)
    (valid_boxed_largeBlob.writable (by decide)).counts (injOn_union_empty injOn_boxed_largeBlob)
    (grounds_of_inMemory leaves_boxed_largeBlob.inMemory)

/-- Not every loaded cell is persisted with all that it needs. A cell that has been loaded from one
store holds copies of stored content; an empty store into which it is persisted gets the cell itself
and nothing else, and does not yield it again. -/
theorem persist_loaded_incomplete : ∃ c,
    (Store.empty.persist (boxed largeBlob)).load (boxed largeBlob).hash = .ok c ∧
      c.loaded = true ∧ (Store.empty.persist c).size = 1 ∧
        (Store.empty.persist c).load c.hash = .error (.missing largeBlob.hash) := by
  -- both steps are run: the vector comes back loaded, and persisting it writes one cell
  have hrun : ((Store.empty.persist (boxed largeBlob)).load (boxed largeBlob).hash).toOption.any
      (fun c => c.loaded && (Store.empty.persist c).size == 1 &&
        match (Store.empty.persist c).load c.hash with
        | .error (.missing h) => h == largeBlob.hash
        | _ => false) = true := by
    decide +kernel
  cases hc : (Store.empty.persist (boxed largeBlob)).load (boxed largeBlob).hash with
  | error e =>
    rw [hc] at hrun
    cases hrun
  | ok c =>
    rw [hc] at hrun
    simp only [Except.toOption, Option.any_some, Bool.and_eq_true, beq_iff_eq] at hrun
    obtain ⟨⟨hloaded, hsize⟩, hmissing⟩ := hrun
    refine ⟨c, rfl, hloaded, hsize, ?_⟩
    split at hmissing
    · next h heq =>
      rw [heq, beq_iff_eq.1 hmissing]
    · cases hmissing

end Store

end CellMachine
