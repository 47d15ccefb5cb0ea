import CellMachine.Proofs.Cell.Throughout
import CellMachine.Proofs.Store.Persisting

/-!
# References to stored content lead into the store

Persisting stops at references to stored content, on the understanding that what stands behind them
is in the store with all that it needs. A store *anchors* a reference for which this is true. What is
loaded from a store has no other references to stored content, and the operations on cells make none.

Main statements: `Store.backs_fetchLoaded` (what a store supplies is anchored in it) and
`Built.anchored` (so is whatever is built from nothing, from bytes and from what the store has
supplied at any time, as long as it keeps what it has).
-/

namespace CellMachine

/-! ## Loading keeps what holds of every reference -/

section Load
variable {w : Nat} {fetch : Hash → Except DataError Cell}

theorem Ref.isSoft_of_loadWith {r r' : Ref} (h : r.loadWith fetch = .ok r') :
    r'.isSoft = r.isSoft := by
  cases r with
  | remote hash | embedded hash l c | direct hash l c | cached hash l c =>
    obtain ⟨d, -, h⟩ := bind_eq_ok_iff.1 h
    cases h
    rfl

/-- A property that loading a reference keeps holds throughout a loaded cell, if it holds throughout
what is fetched. -/
theorem Cell.Throughout.loadWith {P : Ref → Prop} {c d : Cell}
    (hstep : ∀ r r' : Ref, r.Valid w → r.Throughout P → r.loadWith fetch = .ok r' → P r')
    (hfetch : ∀ h d, fetch h = .ok d → d.Throughout P) (hc : c.Valid w) (h : c.Throughout P)
    (hl : c.loadWith fetch = .ok d) : d.Throughout P := by
  induction c using Cell.induction generalizing d with
  | step c ih =>
    refine Cell.throughout_iff.2 fun r' hr' => ?_
    obtain ⟨r, hr, hload⟩ := exists_of_forall₂_right (hc.alike_of_loadWith hl).refs hr'
    refine ⟨hstep r r' (hc.refs hr) (h.refs hr) hload, fun e' he' => ?_⟩
    obtain ⟨d, hkeeps, ⟨e, he, hd⟩ | ⟨-, hd⟩⟩ := Ref.keeps_of_loadWith hload
    · rw [hkeeps.held] at he'
      cases he'
      exact ih r hr e he (hc.refs hr e he).2 ((h.refs hr).inside e he) hd
    · rw [hkeeps.held] at he'
      cases he'
      exact hfetch _ _ hd

end Load

namespace Store

/-- If the reference is to stored content, the store holds it with all that it needs. -/
def Anchors (s : Store) (r : Ref) : Prop := r.isSoft = true → s.CoversRef r

variable {s t : Store}

theorem anchors_of (s : Store) (c : Cell) : s.Anchors (.of c) := by
  intro hsoft
  rw [Ref.isSoft_of] at hsoft
  cases hsoft

/-- What a decoded cell holds is embedded, so that there is nothing that a store would have to hold. -/
theorem covers_of_written {c : Cell} (h : c.Written) : s.Covers c := by
  induction h with
  | @intro c refs _ ih =>
    refine covers_iff.2 fun r hr d hd => ⟨fun hemb => ?_, ih r hr d hd⟩
    rw [refs r hr d hd] at hemb
    cases hemb

theorem anchored_of_written {c : Cell} (h : c.Written) : c.Throughout s.Anchors := by
  induction h with
  | @intro c refs _ ih =>
    refine Cell.throughout_iff.2 fun r hr => ⟨fun hsoft d hd => ?_, ih r hr⟩
    have hemb := refs r hr d hd
    cases r with
    | embedded => cases hsoft
    | direct | cached | remote => cases hemb

/-! ## Loaded cells -/

/-- A supplier of cells that the store holds under their hashes, with all that they need. -/
structure Backs (s : Store) (fetch : Hash → Except DataError Cell) : Prop where
  stored : ∀ h c, fetch h = .ok c → s.get? h = some c.encode
  covers : ∀ h c, fetch h = .ok c → s.Covers c
  anchored : ∀ h c, fetch h = .ok c → c.Throughout s.Anchors

section Backs
variable {w : Nat} {fetch : Hash → Except DataError Cell} {c d : Cell}

theorem Backs.mono (h : s.Backs fetch) (hst : s.Sub t) : t.Backs fetch where
  stored k c hc := hst _ _ (h.stored k c hc)
  covers k c hc := hst.covers (h.covers k c hc)
  anchored k c hc := (h.anchored k c hc).mono fun _ hr hsoft => hst.coversRef (hr hsoft)

/-- Loading keeps hashes and encodings, so what is covered stays covered. -/
theorem Backs.covers_loadWith (h : s.Backs fetch) (hfetch : Supplies w fetch)
    (hw : 2 ^ 59 ≤ w + 1) (hc : c.Valid w) (hs : s.Covers c) (hl : c.loadWith fetch = .ok d) :
    s.Covers d := by
  refine Cell.Throughout.loadWith (fun r r' hr hthrough hload hemb e' he' => ?_) h.covers hc hs hl
  obtain ⟨d, hkeeps, ⟨e, he, hd⟩ | ⟨-, hd⟩⟩ := Ref.keeps_of_loadWith hload
  · cases hkeeps.held.symm.trans he'
    rw [hkeeps.hash, ((hr e he).2.loadWith hfetch hw hd).encode]
    exact hthrough.here (hkeeps.embedded ▸ hemb) e he
  · cases hkeeps.held.symm.trans he'
    rw [hkeeps.hash]
    exact h.stored _ _ hd

/-- What is anchored stays anchored, and what is fetched for a missing part is anchored too. -/
theorem Backs.anchored_loadWith (h : s.Backs fetch) (hfetch : Supplies w fetch)
    (hw : 2 ^ 59 ≤ w + 1) (hc : c.Valid w) (hs : c.Throughout s.Anchors)
    (hl : c.loadWith fetch = .ok d) : d.Throughout s.Anchors := by
  refine Cell.Throughout.loadWith (fun r r' hr hthrough hload hsoft e' he' => ?_) h.anchored hc hs hl
  rw [Ref.isSoft_of_loadWith hload] at hsoft
  obtain ⟨d, hkeeps, ⟨e, he, hd⟩ | ⟨-, hd⟩⟩ := Ref.keeps_of_loadWith hload
  · cases hkeeps.held.symm.trans he'
    obtain ⟨hstored, hcovers⟩ := hthrough.here hsoft e he
    refine ⟨fun hemb => ?_, h.covers_loadWith hfetch hw (hr e he).2 hcovers hd⟩
    rw [hkeeps.hash, ((hr e he).2.loadWith hfetch hw hd).encode]
    exact hstored (hkeeps.embedded ▸ hemb)
  · cases hkeeps.held.symm.trans he'
    rw [hkeeps.hash]
    exact ⟨fun _ => h.stored _ _ hd, h.covers _ _ hd⟩

end Backs

/-- However many fetches may follow, what a store supplies is anchored in it. -/
theorem backs_fetchLoaded (s : Store) (fetches : Nat) : s.Backs (s.fetchLoaded fetches) := by
  induction fetches with
  | zero => refine ⟨?_, ?_, ?_⟩ <;> intro h c hc <;> cases hc
  | succ fetches ih =>
    have hsupplies : Supplies (2 ^ 59) (s.fetchLoaded fetches) :=
      s.supplies_fetchLoaded (by decide) fetches
    have hload : ∀ h c, s.fetchLoaded (fetches + 1) h = .ok c →
        s.get? h = some c.encode ∧ s.Covers c ∧ c.Throughout s.Anchors := by
      intro h c hc
      obtain ⟨d, hd, hc⟩ := bind_eq_ok_iff.1 hc
      obtain ⟨e, he, hd⟩ := bind_eq_ok_iff.1 hd
      -- resolving gives the cell that was fetched, or refuses it
      have hde : e = d := by
        split at hd
        · cases hd
        · exact Except.ok.inj hd
      subst hde
      obtain ⟨bs, hbs, -, hdecode⟩ := fetch_eq_ok_iff.1 he
      have hvalid : e.Valid (2 ^ 59) := (valid_of_decode hdecode).mono (Nat.zero_le _)
      have hwritten := written_of_decode hdecode
      refine ⟨?_, ih.covers_loadWith hsupplies (by decide) hvalid (covers_of_written hwritten) hc,
        ih.anchored_loadWith hsupplies (by decide) hvalid (anchored_of_written hwritten) hc⟩
      rw [(hvalid.loadWith hsupplies (by decide) hc).encode, encode_of_decode hdecode]
      exact hbs
    exact ⟨fun h c hc => (hload h c hc).1, fun h c hc => (hload h c hc).2.1,
      fun h c hc => (hload h c hc).2.2⟩

end Store

/-- Whatever is built from nothing, from bytes and from what a store has supplied in any of its states
is anchored in the store. -/
theorem Built.anchored {stores : List Store} {s : Store} {w : Nat} {c : Cell}
    (hstores : ∀ t ∈ stores, t.Sub s) (h : Built stores w c) : c.Throughout s.Anchors := by
  refine h.throughout s.anchors_of
    (fun bs c hc => Store.anchored_of_written (written_of_decode hc)) ?_
  intro t ht c d ⟨w, hc⟩ hanchored hl
  have hw : 2 ^ 59 ≤ max w (2 ^ 59) + 1 :=
    Nat.le_trans (Nat.le_max_right w (2 ^ 59)) (Nat.le_add_right _ 1)
  exact ((t.backs_fetchLoaded t.size).mono (hstores t ht)).anchored_loadWith
    (t.supplies_fetchLoaded hw t.size) hw (hc.mono (Nat.le_max_left w (2 ^ 59))) hanchored hl

end CellMachine
