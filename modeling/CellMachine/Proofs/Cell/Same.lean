import CellMachine.Proofs.Cell.Contains
import CellMachine.Proofs.Codec.Unique
import Mathlib.Data.Set.Function

/-!
# Cells with the same content

Two cells have the *same* content if they are alike at every depth, whichever way their references
hold what they hold: nothing is missing in either, and references in the same places have the same
hash, are embedded in both cells or in neither, and hold cells of the same content.

Cells of the same content have the same encoding. The converse needs hashes to be honest: loaded valid
cells with the same encoding have the same content if no two different encodings of cells inside them
have the same digest (`Cell.Valid.same_of_encode`), or if one store has the parts of both under their
hashes. That is all that is ever asked of digests.

Main statements: `Cell.same_iff`, `Cell.Same.encode_eq`, `Cell.Valid.same_of_encode_of` and
`Cell.Same.not_nested` (no cell contains another one of the same content).
-/

namespace CellMachine

/-- Cells of the same content, however it is held. -/
inductive Cell.Same : Cell → Cell → Prop where
  /-- The cells themselves are alike, and related references agree and hold the same content. -/
  | intro {c d : Cell} {R : Ref → Ref → Prop} (alike : c.Alike R d)
      (hash : ∀ r s, R r s → s.hash = r.hash)
      (embedded : ∀ r s, R r s → s.isEmbedded = r.isEmbedded)
      (held : ∀ r s, R r s → ∃ e f, r.held? = some e ∧ s.held? = some f)
      (parts : ∀ r s, R r s → ∀ e f, r.held? = some e → s.held? = some f → Cell.Same e f) :
      Cell.Same c d

/-- References that agree in hash and spelling and hold the same content. -/
structure Ref.Same (r s : Ref) : Prop where
  hash : s.hash = r.hash
  embedded : s.isEmbedded = r.isEmbedded
  held : ∃ e f, r.held? = some e ∧ s.held? = some f ∧ e.Same f

namespace Cell
variable {c d e : Cell}

/-- The content is that of the cell itself and of the cells that its references hold. -/
theorem same_iff : c.Same d ↔ c.Alike Ref.Same d := by
  constructor
  -- the relation is inductive on cells only, so it is put together for references from its parts
  · rintro ⟨alike, hash, embedded, held, parts⟩
    refine alike.mono fun r _ s hr => ⟨hash r s hr, embedded r s hr, ?_⟩
    obtain ⟨e, f, he, hf⟩ := held r s hr
    exact ⟨e, f, he, hf, parts r s hr e f he hf⟩
  · intro h
    refine .intro h (fun _ _ hr => hr.hash) (fun _ _ hr => hr.embedded)
      (fun _ _ hr => ?_) fun _ _ hr e f he hf => ?_
    · obtain ⟨e, f, he, hf, -⟩ := hr.held
      exact ⟨e, f, he, hf⟩
    · obtain ⟨e', f', he', hf', hsame⟩ := hr.held
      rw [he] at he'
      rw [hf] at hf'
      cases he'
      cases hf'
      exact hsame

theorem Same.alike (h : c.Same d) : c.Alike Ref.Same d := same_iff.1 h

/-- Cells of the same content are encoded alike. -/
theorem Same.encode_eq (h : c.Same d) : d.encode = c.encode := by
  induction h with
  | @intro c d R alike hash embedded held parts ih =>
    refine alike.encode_eq fun r s hr => ?_
    cases hemb : r.isEmbedded with
    | false =>
      rw [Ref.encode_of_not_embedded hemb, Ref.encode_of_not_embedded ((embedded r s hr).trans hemb),
        hash r s hr]
    | true =>
      obtain ⟨e, he, hencode⟩ := Ref.encode_of_embedded hemb
      obtain ⟨f, hf, hencode'⟩ := Ref.encode_of_embedded ((embedded r s hr).trans hemb)
      rw [hencode, hencode', ih r s hr e f he hf]

theorem Same.hash_eq (h : c.Same d) : d.hash = c.hash := by
  rw [Cell.hash, Cell.hash, h.encode_eq]

/-- Whether a cell is small enough depends on its encoding. -/
theorem Same.isEmbeddable_eq (h : c.Same d) : d.isEmbeddable = c.isEmbeddable := by
  rw [Cell.isEmbeddable, Cell.isEmbeddable, h.encode_eq]

/-- No cell contains another one of the same content: going down in step would never end. -/
theorem Same.not_nested (h : c.Same d) {r : Ref} (hr : r ∈ c.refs) (he : r.held? = some e) :
    ¬ e.Contains d := by
  induction c using Cell.induction generalizing d r e with
  | step c ih =>
    intro hcontains
    -- the part `e` has the content of a part `f` of `d`, and it contains `f` since it contains `d`
    obtain ⟨s, hs, hsame⟩ := exists_of_forall₂_left h.alike.refs hr
    obtain ⟨e', f, he', hf, hpart⟩ := hsame.held
    rw [he] at he'
    cases he'
    obtain rfl | ⟨t, ht, g, hg, hcontains⟩ := contains_iff.1 hcontains
    · exact ih r hr d he hpart hs hf .self
    · exact ih r hr e he hpart ht hg (.part hcontains hs hf)

end Cell

/-- New parents hold the same content in the same way. -/
theorem Ref.same_of {c d : Cell} (h : c.Same d) : (Ref.of c).Same (Ref.of d) :=
  ⟨by rw [Ref.hash_of, Ref.hash_of, h.hash_eq],
    by rw [Ref.isEmbedded_of, Ref.isEmbedded_of, h.isEmbeddable_eq],
    c, d, Ref.held?_of c, Ref.held?_of d, h⟩

/-! ## From encodings to content -/

/-- The encodings of the cells inside a cell. -/
def Cell.encodings (c : Cell) : Set Bytes := {bs | ∃ d, c.Contains d ∧ d.encode = bs}

namespace Cell
variable {c d : Cell}

theorem encode_mem_encodings (h : c.Contains d) : d.encode ∈ c.encodings := ⟨d, h, rfl⟩

theorem encodings_subset (h : c.Contains d) : d.encodings ⊆ c.encodings := by
  rintro bs ⟨e, he, rfl⟩
  exact encode_mem_encodings (h.trans he)

/-- What is inside a cell is inside every cell of the same content. -/
theorem Same.exists_of_contains (h : c.Same d) {f : Cell} (hf : d.Contains f) :
    ∃ e, c.Contains e ∧ e.Same f := by
  induction hf with
  | self => exact ⟨c, .self, h⟩
  | @part _ g s _ hs hg ih =>
    obtain ⟨e, he, hsame⟩ := ih
    obtain ⟨r, hr, hrs⟩ := exists_of_forall₂_right hsame.alike.refs hs
    obtain ⟨e', g', he', hg', hpart⟩ := hrs.held
    cases hg.symm.trans hg'
    exact ⟨e', .part he hr he', hpart⟩

/-- Cells with the same content contain cells with the same encodings. -/
theorem Same.encodings_subset (h : c.Same d) : d.encodings ⊆ c.encodings := by
  rintro bs ⟨f, hf, rfl⟩
  obtain ⟨e, he, hsame⟩ := h.exists_of_contains hf
  rw [hsame.encode_eq]
  exact encode_mem_encodings he

/-- Loaded valid cells with the same encoding have the same content, if their parts are told apart by the
hashes by which they are referred to. -/
theorem Valid.same_of_encode_of {P Q : Cell → Prop} {w w' : Nat}
    (hparts : ∀ c, P c → ∀ r ∈ c.refs, ∀ e, r.held? = some e →
      P e ∧ (r.isEmbedded = false → Q e))
    (htell : ∀ e f, Q e → Q f → e.hash = f.hash → e.encode = f.encode)
    (hc : c.Valid w) (hd : d.Valid w') (hcloaded : c.loaded = true) (hdloaded : d.loaded = true)
    (hcP : P c) (hdP : P d) (h : c.encode = d.encode) : c.Same d := by
  induction c using Cell.induction generalizing d with
  | step c ih =>
    refine same_iff.2 ((hc.alike_of_encode hd h).imp_of_mem fun r hr s hs hspelled => ?_)
    obtain ⟨e, he⟩ := Ref.exists_held?_of_loaded (loaded_iff.1 hcloaded r hr)
    obtain ⟨f, hf⟩ := Ref.exists_held?_of_loaded (loaded_iff.1 hdloaded s hs)
    obtain ⟨heP, heQ⟩ := hparts c hcP r hr e he
    obtain ⟨hfP, hfQ⟩ := hparts d hdP s hs f hf
    obtain ⟨hdescribes, hevalid⟩ := hc.refs hr e he
    obtain ⟨hdescribes', hfvalid⟩ := hd.refs hs f hf
    have hencode : e.encode = f.encode := by
      cases hemb : r.isEmbedded with
      | true =>
        -- the parts stand in the encodings of the two cells
        obtain ⟨e', he', hre⟩ := Ref.encode_of_embedded hemb
        obtain ⟨f', hf', hsf⟩ := Ref.encode_of_embedded (hspelled.embedded.trans hemb)
        cases he.symm.trans he'
        cases hf.symm.trans hf'
        rw [← hre, ← hsf, hspelled.encode]
      | false =>
        refine htell e f (heQ hemb) (hfQ (hspelled.embedded.trans hemb)) ?_
        rw [← hdescribes.hash, ← hdescribes'.hash, hspelled.hash]
    exact ⟨hspelled.hash, hspelled.embedded, e, f, he, hf,
      ih r hr e he hevalid hfvalid (hc.loaded_of_held hcloaded hr he)
        (hd.loaded_of_held hdloaded hs hf) heP hfP hencode⟩

/-- Loaded valid cells with the same encoding have the same content, unless different encodings
inside them have the same digest. -/
theorem Valid.same_of_encode {w w' : Nat} {S : Set Bytes} (hS : Set.InjOn Hash.digest S)
    (hc : c.Valid w) (hd : d.Valid w') (hcloaded : c.loaded = true) (hdloaded : d.loaded = true)
    (hcS : c.encodings ⊆ S) (hdS : d.encodings ⊆ S) (h : c.encode = d.encode) : c.Same d := by
  refine hc.same_of_encode_of (P := fun c => c.encodings ⊆ S) (Q := fun c => c.encode ∈ S)
    (fun c hcS r hr e he => ?_) (fun e f he hf hhash => hS he hf hhash) hd hcloaded hdloaded hcS hdS h
  have heS : e.encodings ⊆ S := (encodings_subset (contains_of_held hr he)).trans hcS
  exact ⟨heS, fun _ => heS (encode_mem_encodings .self)⟩

end Cell

end CellMachine
