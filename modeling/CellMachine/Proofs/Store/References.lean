import CellMachine.Proofs.Store.Anchoring

/-!
# What the kind of a reference promises

A parent writes a reference as its kind says: an embedded one by its cell, any other by its hash. The
length of the cell is not looked at again. So the encoding of the parent is the canonical one only if
embedded references hold small cells and all others stand for large ones, and if the hashes that they
state are those of their cells.

References come about by referring to a cell, to a hash, or by decoding, and change when their cells
are persisted, forgotten or loaded. A reference that describes the cell that it holds is *truthful*,
and what changes it keeps it so (`Ref.Step.renews`). This includes what is loaded from a store that
may contain anything, since a store compares hashes and refuses small cells.

Main statement: `Ref.obtained_represents`.
-/

namespace CellMachine

/-! ## Truthful references -/

/-- A reference that describes the cell that it holds, if it holds one. -/
def Ref.Truthful (r : Ref) : Prop := ∀ d, r.held? = some d → r.Describes d

/-- The reference that is made of a cell describes it. -/
theorem Ref.truthful_of (c : Cell) : (Ref.of c).Truthful := by
  intro d hd
  rw [Ref.held?_of] at hd
  cases hd
  exact ⟨Ref.hash_of c, Ref.loaded_of c, Ref.isEmbedded_of c⟩

/-- A reference that holds nothing says nothing that could be wrong. -/
theorem Ref.truthful_remote (h : Hash) : (Ref.remote h).Throughout Ref.Truthful := by
  refine ⟨fun d hd => ?_, fun d hd => ?_⟩ <;> cases hd

/-- The references in a valid cell are truthful, at any depth. -/
theorem Cell.Valid.truthful {w : Nat} {c : Cell} (hc : c.Valid w) : c.Throughout Ref.Truthful :=
  fun _ hd _ hr e he => ((hc.of_contains hd).refs hr e he).1

/-- What may become of a reference while the parent is written as before. -/
structure Ref.Renews (r r' : Ref) : Prop where
  hash : r'.hash = r.hash
  encode : r'.encode = r.encode
  truthful : r'.Throughout Ref.Truthful

theorem Ref.Renews.trans {r r' r'' : Ref} (h : r.Renews r') (h' : r'.Renews r'') : r.Renews r'' :=
  ⟨h'.hash.trans h.hash, h'.encode.trans h.encode, h'.truthful⟩

/-- A cell is written as before around references that are, and stays truthful if they are. -/
theorem Cell.Alike.renewed {c d : Cell} (h : c.Alike Ref.Renews d) :
    d.encode = c.encode ∧ d.Throughout Ref.Truthful := by
  refine ⟨h.encode_eq fun _ _ hr => hr.encode, Cell.throughout_iff.2 fun r' hr' => ?_⟩
  obtain ⟨r, -, hr⟩ := exists_of_forall₂_right h.refs hr'
  exact hr.truthful

/-! ## Persisting, forgetting and loading -/

section Load
variable {w : Nat} {fetch : Hash → Except DataError Cell}

/-- A reference is renewed by loading if the cell that it holds is written as before. -/
theorem Ref.renews_of_held {r r' : Ref} (hfetch : Supplies w fetch) (hr : r.Throughout Ref.Truthful)
    (h : r.loadWith fetch = .ok r') (hheld : ∀ c, r.held? = some c → ∀ d,
      c.loadWith fetch = .ok d → d.encode = c.encode ∧ d.Throughout Ref.Truthful) :
    r.Renews r' := by
  obtain ⟨d, hkeeps, hencode, hdescribes, hfrom⟩ := Ref.describes_of_loadWith hfetch hr.here h
    fun c hc d hd => (hheld c hc d hd).1
  have hd : d.Throughout Ref.Truthful := by
    obtain ⟨c, hc, hd⟩ | hd := hfrom
    · exact (hheld c hc d hd).2
    · exact (hfetch.valid r.hash d hd).truthful
  refine ⟨hkeeps.hash, hencode, fun e he => ?_, fun e he => ?_⟩
  · cases hkeeps.held.symm.trans he
    exact hdescribes
  · cases hkeeps.held.symm.trans he
    exact hd

/-- A truthful cell is truthful once it is loaded, and is written as before. -/
theorem Cell.truthful_of_loadWith {c d : Cell} (hfetch : Supplies w fetch)
    (hc : c.Throughout Ref.Truthful) (h : c.loadWith fetch = .ok d) :
    d.encode = c.encode ∧ d.Throughout Ref.Truthful := by
  induction c using Cell.induction generalizing d with
  | step c ih =>
    rcases Cell.loadWith_eq_ok h with ⟨-, rfl⟩ | ⟨halike, -⟩
    · exact ⟨rfl, hc⟩
    · have hrenewed : c.Alike Ref.Renews d := halike.mono fun r hr r' hload =>
        Ref.renews_of_held hfetch (hc.refs hr) hload fun e he _ hd =>
          ih r hr e he ((hc.refs hr).inside e he) hd
      exact hrenewed.renewed

end Load

namespace Ref

/-- What a client can do with a reference. -/
inductive Step : Ref → Ref → Prop where
  /-- Its cell is filed in a store. -/
  | persist (r : Ref) : Step r r.persisted
  /-- A copy of stored content is forgotten. -/
  | evict (r : Ref) : Step r r.evict
  /-- Missing parts are loaded from a store, whatever it contains. -/
  | load {r r' : Ref} {s : Store} (h : r.load s = .ok r') : Step r r'

/-- What a reference may be after some steps. -/
def Becomes : Ref → Ref → Prop := Relation.ReflTransGen Step

variable {r r' : Ref}

/-- Persisting turns a direct reference into a soft one with the same data. -/
theorem renews_persisted (hr : r.Throughout Truthful) : r.Renews r.persisted := by
  cases r with
  | direct h l c =>
    refine ⟨rfl, rfl, fun d hd => ?_, hr.inside⟩
    obtain ⟨hhash, hloaded, hembedded⟩ := hr.here d hd
    exact ⟨hhash, hloaded, hembedded⟩
  | embedded | cached | remote => exact ⟨rfl, rfl, hr⟩

/-- Forgetting the cell leaves the hash, which is all that was written down. -/
theorem renews_evict (hr : r.Throughout Truthful) : r.Renews r.evict := by
  cases r with
  | cached h l c => exact ⟨rfl, rfl, truthful_remote h⟩
  | embedded | direct | remote => exact ⟨rfl, rfl, hr⟩

/-- Loading puts the cell back that the hash stands for. -/
theorem renews_load {s : Store} (hr : r.Throughout Truthful) (h : r.load s = .ok r') :
    r.Renews r' := by
  have hfetch : Supplies (2 ^ 59) s.supply := s.supplies_fetchLoaded (by decide) s.size
  exact renews_of_held hfetch hr h fun c hc d hd =>
    Cell.truthful_of_loadWith hfetch (hr.inside c hc) hd

/-- A step renews a truthful reference. -/
theorem Step.renews (h : r.Step r') (hr : r.Throughout Truthful) : r.Renews r' := by
  cases h with
  | persist => exact renews_persisted hr
  | evict => exact renews_evict hr
  | load h => exact renews_load hr h

/-- So does any number of steps. -/
theorem Becomes.renews (h : r.Becomes r') (hr : r.Throughout Truthful) : r.Renews r' := by
  induction h with
  | refl => exact ⟨rfl, rfl, hr⟩
  | tail _ hstep ih => exact ih.trans (hstep.renews ih.truthful)

/-! ## References that a client can get hold of -/

/-- The references that a client can get hold of, in whatever order it makes, takes and changes them. -/
inductive Obtained : Ref → Prop where
  /-- A reference in a cell that can be built, a decoded one for example. -/
  | built {stores : List Store} {w : Nat} {c : Cell} {r : Ref} (hc : Built stores w c)
    (hr : r ∈ c.refs) : Obtained r
  /-- The reference by which a new parent holds a cell, which may itself have been put together
  around references. -/
  | of {c : Cell} (hc : ∀ r ∈ c.refs, Obtained r) : Obtained (.of c)
  /-- A reference to content that is known by its hash only. -/
  | remote (h : Hash) : Obtained (.remote h)
  /-- A reference in a held cell. -/
  | inside {r s : Ref} {c : Cell} (hr : Obtained r) (hc : r.held? = some c) (hs : s ∈ c.refs) :
    Obtained s
  /-- A reference after a step. -/
  | step {r r' : Ref} (hr : Obtained r) (h : r.Step r') : Obtained r'

/-- What can be got hold of is truthful. -/
theorem Obtained.truthful (h : r.Obtained) : r.Throughout Truthful := by
  induction h with
  | built hc hr => exact (hc.valid (.inr (Nat.le_refl _))).truthful.refs hr
  | of _ ih => exact throughout_of (truthful_of _) (Cell.throughout_iff.2 ih)
  | remote h => exact truthful_remote h
  | inside _ hc hs ih => exact (ih.inside _ hc).refs hs
  | step _ h ih => exact (h.renews ih).truthful

/-- What becomes of a reference is a reference that can be got hold of. -/
theorem Obtained.becomes (hr : r.Obtained) (h : r.Becomes r') : r'.Obtained := by
  induction h with
  | refl => exact hr
  | tail _ hstep ih => exact .step ih hstep

/-- What the kind of a reference promises: an embedded cell is small, any other cell that is held is
large, and what is stated about a held cell is true. -/
def Represents : Ref → Prop
  | .embedded h l c => h = c.hash ∧ l = c.loaded ∧ c.encode.length ≤ maxEmbedded
  | .direct h l c | .cached h l c => h = c.hash ∧ l = c.loaded ∧ maxEmbedded < c.encode.length
  | .remote _ => True

/-- A truthful reference is embedded just if its cell is small. -/
theorem Truthful.represents (h : r.Truthful) : r.Represents := by
  cases r with
  | embedded hash l c =>
    obtain ⟨hhash, hloaded, hembedded⟩ := h c rfl
    exact ⟨hhash, hloaded, of_decide_eq_true hembedded.symm⟩
  | direct hash l c | cached hash l c =>
    obtain ⟨hhash, hloaded, hembedded⟩ := h c rfl
    exact ⟨hhash, hloaded, Nat.lt_of_not_le (of_decide_eq_false hembedded.symm)⟩
  | remote hash => trivial

/-- Whatever references a client gets hold of, each of them keeps the promise of its kind, and so
does every reference in the cell that it holds, at any depth: embedded cells are small, all others
are large, and the hash that is stated is that of the cell.

Persisting, forgetting and loading, in any order and with stores of any content, keeps the hash and the
way in which parents write the reference. So a parent whose references have gone through such steps,
each through its own, has the encoding and the hash that it had. Rebuilding a parent makes such a cell,
and succeeds exactly if each of its references can be replaced. -/
theorem obtained_represents :
    (∀ r : Ref, r.Obtained → r.Throughout Represents) ∧
    (∀ r r' : Ref, r.Obtained → r.Becomes r' →
      r'.Obtained ∧ r'.hash = r.hash ∧ r'.encode = r.encode) ∧
    (∀ c d : Cell, (∀ r ∈ c.refs, r.Obtained) → c.Alike Becomes d →
      d.encode = c.encode ∧ d.hash = c.hash ∧ ∀ r ∈ d.refs, r.Obtained) ∧
    ∀ (c : Cell) (f : Ref → Except DataError Ref),
      (∀ r ∈ c.refs, ∀ r', f r = .ok r' → r.Becomes r') →
      ((∃ d, c.mapRefs f = .ok d) ↔ ∀ r ∈ c.refs, ∃ r', f r = .ok r') ∧
      ∀ d, c.mapRefs f = .ok d → c.Alike Becomes d := by
  refine ⟨fun r hr => ?_, fun r r' hr h => ?_, fun c d hc h => ?_, fun c f hf => ?_⟩
  · exact ⟨hr.truthful.here.represents,
      fun d hd => (hr.truthful.inside d hd).mono fun _ hs => hs.represents⟩
  · have hrenews := h.renews hr.truthful
    exact ⟨hr.becomes h, hrenews.hash, hrenews.encode⟩
  -- parts that are renewed are written as before
  · have hencode : d.encode = c.encode :=
      (h.mono fun r hr _ hbecomes => hbecomes.renews (hc r hr).truthful).renewed.1
    refine ⟨hencode, by rw [Cell.hash, Cell.hash, hencode], fun r' hr' => ?_⟩
    obtain ⟨r, hr, hbecomes⟩ := exists_of_forall₂_right h.refs hr'
    exact (hc r hr).becomes hbecomes
  · exact ⟨Cell.exists_mapRefs_iff, fun d hd => (Cell.mapRefs_eq_ok_iff.1 hd).mono hf⟩

/-- A large byte string is persisted, forgotten and loaded again, and so is the only part of the
vector that holds it. -/
theorem obtained_represents_boxed : ∃ r d,
    (of largeBlob).persisted.evict.load (Store.empty.persist (boxed largeBlob)) = .ok r ∧
      r.Obtained ∧ r.hash = largeBlob.hash ∧ r.Throughout Represents ∧
      (boxed largeBlob).mapRefs
        (fun r => r.persisted.evict.load (Store.empty.persist (boxed largeBlob))) = .ok d ∧
      d.encode = (boxed largeBlob).encode ∧ ∀ r ∈ d.refs, r.Obtained := by
  obtain ⟨hrepresents, hkeeps, hrewrites, hrebuilds⟩ := obtained_represents
  have hof : (of largeBlob).Obtained := .of fun r hr => by cases hr
  -- persist, forget, load
  have hsteps : ∀ r r' : Ref,
      r.persisted.evict.load (Store.empty.persist (boxed largeBlob)) = .ok r' → r.Becomes r' :=
    fun r _ h => ((Relation.ReflTransGen.single (.persist r)).tail (.evict _)).tail (.load h)
  have hok : ((of largeBlob).persisted.evict.load
      (Store.empty.persist (boxed largeBlob))).isOk = true := by
    decide +kernel
  cases hr : (of largeBlob).persisted.evict.load (Store.empty.persist (boxed largeBlob)) with
  | error e =>
    rw [hr] at hok
    cases hok
  | ok r =>
    obtain ⟨hobtained, hhash, -⟩ := hkeeps _ r hof (hsteps _ r hr)
    rw [hash_of] at hhash
    obtain ⟨hiff, halike⟩ := hrebuilds (boxed largeBlob) _ fun r _ r' => hsteps r r'
    obtain ⟨d, hd⟩ := hiff.2 (List.forall_mem_singleton.2 ⟨r, hr⟩)
    obtain ⟨hencode, -, hinside⟩ :=
      hrewrites (boxed largeBlob) d (List.forall_mem_singleton.2 hof) (halike d hd)
    exact ⟨r, d, rfl, hobtained, hhash, hrepresents r hobtained, hd, hencode, hinside⟩

end Ref

end CellMachine
