import CellMachine.Proofs.Cell.Same
import CellMachine.Proofs.Store.Loading

/-!
# Loading what is there

A store covers a cell if every part that is written as a hash, at whatever depth, is in the store
under that hash. A store that covers a cell and holds the cell itself yields it: the cell is fetched
with its hash and loaded.

Every fetch counts against the number of fetches that may be made inside one another, which is the
size of the store. It never runs out, since the hashes on the way down to a part are all different: no
cell contains another one of the same content.

A store completes a cell from which something is missing if it covers the cell that it makes of it.

Main statements: `Cell.exists_loadWith` (a cell loads if its references do), `Store.Covers.loads`,
`Store.Covers.exists_load`, `Store.Covers.same_of_fetch` (what is loaded has the content of the cell that
is covered) and `Store.Completes.exists_load`.
-/

namespace CellMachine

/-! ## Cells load if their references do -/

section Parts
variable {fetch : Hash → Except DataError Cell}

theorem Cell.rechecked_of_check {c : Cell} (h : c.check = .ok ()) : c.rechecked = .ok c := by
  rw [rechecked, h]

theorem Ref.exists_loadWith_of_held {r : Ref} {c d : Cell} (hc : r.held? = some c)
    (hd : c.loadWith fetch = .ok d) : ∃ r', r.loadWith fetch = .ok r' ∧ r'.held? = some d := by
  cases r with
  | remote h => cases hc
  | _ =>
    cases hc
    rw [loadWith, hd, ok_bind]
    exact ⟨_, rfl, rfl⟩

/-- A cell loads if its references do and the result passes the checks. -/
theorem Cell.exists_loadWith {c : Cell} (h : ∀ r ∈ c.refs, ∃ r', r.loadWith fetch = .ok r')
    (hcheck : ∀ d, c.Alike (fun r r' => r.loadWith fetch = .ok r') d → d.check = .ok ()) :
    ∃ d, c.loadWith fetch = .ok d := by
  cases hloaded : c.loaded with
  | true => exact ⟨c, Cell.loadWith_of_loaded fetch hloaded⟩
  | false =>
    obtain ⟨d, hd⟩ := Cell.exists_mapRefs_iff.2 h
    refine ⟨d, ?_⟩
    rw [Cell.loadWith_eq hloaded, hd, ok_bind]
    exact rechecked_of_check (hcheck d (mapRefs_eq_ok_iff.1 hd))

/-- A cell that is spelled like one that passes the checks loads, if its references load as echoes of those
of the other. -/
theorem Cell.exists_loadWith_of_echoes {c d : Cell} (hcheck : c.check = .ok ())
    (halike : c.Alike Ref.Spelled d)
    (hload : ∀ r ∈ c.refs, ∀ t ∈ d.refs, r.Spelled t → ∃ t', t.loadWith fetch = .ok t' ∧ r.Echoes t') :
    ∃ l, d.loadWith fetch = .ok l := by
  refine Cell.exists_loadWith (fun t ht => ?_) fun x hx => ?_
  · obtain ⟨r, hr, hspelled⟩ := exists_of_forall₂_right halike.refs ht
    obtain ⟨t', ht', -⟩ := hload r hr t ht hspelled
    exact ⟨t', ht'⟩
  · have hx' := hx.mono (S := fun t t' => t ∈ d.refs ∧ t.loadWith fetch = .ok t')
      fun t ht t' ht' => ⟨ht, ht'⟩
    refine Cell.check_of_echoes ((halike.comp hx').mono fun r hr t' => ?_) hcheck
    rintro ⟨t, hspelled, ht, ht'⟩
    obtain ⟨t'', ht'', hechoes⟩ := hload r hr t ht hspelled
    cases ht'.symm.trans ht''
    exact hechoes

end Parts

/-! ## What a store covers -/

namespace Store

/-- Every entry of the store stands under its digest. -/
def Sound (s : Store) : Prop := ∀ h bs, s.get? h = some bs → Hash.digest bs = h

/-- Every part of the cell, at any depth, that is written as a hash is in the store. -/
def Covers (s : Store) (c : Cell) : Prop :=
  ∀ d, c.Contains d → ∀ r ∈ d.refs, r.isEmbedded = false → ∀ e, r.held? = some e →
    s.get? r.hash = some e.encode

/-- What the reference holds is in the store, if it is written as a hash, with all that it needs. -/
def CoversRef (s : Store) (r : Ref) : Prop :=
  ∀ d, r.held? = some d → (r.isEmbedded = false → s.get? r.hash = some d.encode) ∧ s.Covers d

theorem covers_iff {s : Store} {c : Cell} : s.Covers c ↔ ∀ r ∈ c.refs, s.CoversRef r := by
  constructor
  · intro h r hr d hd
    exact ⟨fun hemb => h c .self r hr hemb d hd,
      fun e he => h e ((Cell.contains_of_held hr hd).trans he)⟩
  · intro h d hd
    obtain rfl | ⟨r, hr, e, he, hcontains⟩ := Cell.contains_iff.1 hd
    · exact fun r hr hemb e he => (h r hr e he).1 hemb
    · exact (h r hr e he).2 d hcontains

theorem Covers.of_contains {s : Store} {c d : Cell} (h : s.Covers c) (hd : c.Contains d) : s.Covers d :=
  fun e he => h e (hd.trans he)

/-- A store tells the parts of the cells that it covers apart: under a hash there is one encoding. -/
theorem Covers.same_of_encode {s : Store} {c d : Cell} {w w' : Nat} (hs : s.Covers c) (hs' : s.Covers d)
    (hc : c.Valid w) (hd : d.Valid w') (hcloaded : c.loaded = true) (hdloaded : d.loaded = true)
    (h : c.encode = d.encode) : c.Same d := by
  refine hc.same_of_encode_of (P := fun c => s.Covers c ∧ ∃ w, c.Valid w)
    (Q := fun c => s.get? c.hash = some c.encode) ?_ (fun e f he hf hhash => ?_) hd hcloaded hdloaded
    ⟨hs, w, hc⟩ ⟨hs', w', hd⟩ h
  · rintro c ⟨hs, w, hc⟩ r hr e he
    obtain ⟨hstored, hcovers⟩ := covers_iff.1 hs r hr e he
    obtain ⟨hdescribes, hvalid⟩ := hc.refs hr e he
    exact ⟨⟨hcovers, w, hvalid⟩, fun hemb => hdescribes.hash ▸ hstored hemb⟩
  · rw [hhash, hf] at he
    exact (Option.some.inj he).symm

/-- The hashes under which cells around `e` have been found on the way down from the root. -/
structure Trail (s : Store) (root e : Cell) (hashes : List Hash) : Prop where
  nodup : hashes.Nodup
  above : ∀ h ∈ hashes, ∃ a, root.Contains a ∧ a.Contains e ∧ a.hash = h ∧ s.get? h = some a.encode

section Trail
variable {s : Store} {root e f : Cell} {r : Ref} {hashes : List Hash}

theorem Trail.nil : s.Trail root e [] :=
  ⟨List.nodup_nil, fun _ hk => absurd hk List.not_mem_nil⟩

/-- A store has room for the hashes under which something has been found. -/
theorem Trail.length_le (h : s.Trail root e hashes) : hashes.length ≤ s.size := by
  have hsub : hashes ⊆ s.cells.map Prod.fst := by
    intro k hk
    obtain ⟨a, -, -, -, hstored⟩ := h.above k hk
    obtain ⟨before, after, hcells, -⟩ := List.lookup_eq_some_iff.1 hstored
    rw [hcells, List.map_append]
    exact List.mem_append_right _ List.mem_cons_self
  have hlen := h.nodup.length_le_of_subset hsub
  rwa [List.length_map] at hlen

theorem Trail.part (h : s.Trail root e hashes) (hr : r ∈ e.refs) (hf : r.held? = some f) :
    s.Trail root f hashes := by
  refine ⟨h.nodup, fun k hk => ?_⟩
  obtain ⟨a, hroot, ha, hstored⟩ := h.above k hk
  exact ⟨a, hroot, .part ha hr hf, hstored⟩

/-- What is stored of a cell inside `root` has none of the hashes above it. -/
theorem Trail.not_mem {w : Nat} (h : s.Trail root e hashes) (hroot : root.Valid w)
    (hloaded : root.loaded = true) (hs : s.Covers root) (he : root.Contains e) (hr : r ∈ e.refs)
    (hf : r.held? = some f) (hget : s.get? f.hash = some f.encode) : f.hash ∉ hashes := by
  intro hmem
  obtain ⟨a, ha, hae, -, hstored⟩ := h.above _ hmem
  have hrf : root.Contains f := .part he hr hf
  rw [hget] at hstored
  have hsame : a.Same f := (hs.of_contains ha).same_of_encode (hs.of_contains hrf)
    (hroot.of_contains ha) (hroot.of_contains hrf) (hroot.loaded_of_contains hloaded ha)
    (hroot.loaded_of_contains hloaded hrf) (Option.some.inj hstored).symm
  obtain rfl | ⟨t, ht, g, hg, hge⟩ := Cell.contains_iff.1 hae
  · exact hsame.not_nested hr hf .self
  · exact hsame.not_nested ht hg (.part hge hr hf)

theorem Trail.cons (h : s.Trail root f hashes) (hroot : root.Contains f)
    (hf : s.get? f.hash = some f.encode) (hnew : f.hash ∉ hashes) :
    s.Trail root f (f.hash :: hashes) := by
  refine ⟨List.nodup_cons.2 ⟨hnew, h.nodup⟩, ?_⟩
  rintro k (_ | ⟨_, hk⟩)
  · exact ⟨f, hroot, .self, rfl, hf⟩
  · exact h.above k hk

end Trail

/-! ## Loading from a store that covers -/

section Load
variable {s : Store} {w : Nat}

/-- A cell that is in the store is fetched as it is read back. -/
theorem exists_fetch {c : Cell} (hc : c.Valid w) (hw : w < 2 ^ 59)
    (hs : s.get? c.hash = some c.encode) :
    ∃ d, s.fetch c.hash = .ok d ∧ d.encode = c.encode ∧ d.Valid 0 ∧ d.Written := by
  obtain ⟨d, hd, halike⟩ := decode_encode hc hw
  refine ⟨d, ?_, encode_of_decode hd, valid_of_decode hd, halike.written⟩
  rw [fetch, hs]
  exact (if_pos rfl).trans hd

/-- A cell that is in the store and that its parents write as a hash is resolved. -/
theorem exists_resolve {c : Cell} (hc : c.Valid w) (hw : w < 2 ^ 59)
    (hs : s.get? c.hash = some c.encode) (hlarge : c.isEmbeddable = false) :
    ∃ d, s.resolve c.hash = .ok d ∧ d.encode = c.encode ∧ d.Valid 0 ∧ d.Written := by
  obtain ⟨d, hd, hencode, hvalid, hwritten⟩ := exists_fetch hc hw hs
  refine ⟨d, ?_, hencode, hvalid, hwritten⟩
  have hsize : d.isEmbeddable = false := by
    rw [← hlarge, Cell.isEmbeddable, Cell.isEmbeddable, hencode]
  rw [resolve, hd, ok_bind, hsize]
  rfl

/-- What has the encoding of a cell inside `root` and has been read back is loaded from the store, with
fetches to spare for what is not above the cell. -/
def Loads (s : Store) (root e : Cell) : Prop :=
  ∀ (d : Cell) (hashes : List Hash) (fetches : Nat), d.Valid 0 → d.Written → d.encode = e.encode →
    s.Trail root e hashes → s.size ≤ fetches + hashes.length →
      ∃ l, d.loadWith (s.fetchLoaded fetches) = .ok l ∧ l.encode = e.encode

section Down
variable {root e f d : Cell} {r t : Ref} {hashes : List Hash} {fetches : Nat}

/-- A part that is in the store is loaded under its hash, if it is not among the hashes above it and
what is fetched for it loads with one fetch less. -/
theorem Loads.fetchLoaded (hload : s.Loads root e) (he : e.Valid w) (hw : w < 2 ^ 59)
    (hroot : root.Contains e) (hget : s.get? e.hash = some e.encode) (hlarge : e.isEmbeddable = false)
    (htrail : s.Trail root e hashes) (hnew : e.hash ∉ hashes)
    (hfetches : s.size ≤ fetches + hashes.length) :
    ∃ l, s.fetchLoaded fetches e.hash = .ok l ∧ l.encode = e.encode := by
  have htrail' := htrail.cons hroot hget hnew
  have hlen := htrail'.length_le
  rw [List.length_cons] at hlen
  obtain ⟨more, rfl⟩ : ∃ more, fetches = more + 1 := ⟨fetches - 1, by omega⟩
  obtain ⟨d, hd, hencode, hvalid, hwritten⟩ := exists_resolve he hw hget hlarge
  have hmore : s.size ≤ more + (e.hash :: hashes).length := by
    rw [List.length_cons]
    omega
  obtain ⟨l, hl, hlencode⟩ := hload d _ more hvalid hwritten hencode htrail' hmore
  exact ⟨l, by rw [Store.fetchLoaded, hd, ok_bind, hl], hlencode⟩

/-- A reference that spells one to a part that loads is loaded as well. -/
theorem Loads.ref (hload : s.Loads root f) (hroot : root.Valid w) (hw : w < 2 ^ 59)
    (hloaded : root.loaded = true) (hs : s.Covers root) (he : root.Contains e) (hr : r ∈ e.refs)
    (hf : r.held? = some f) (hd : d.Valid 0) (hwritten : d.Written) (ht : t ∈ d.refs)
    (hspelled : r.Spelled t) (htrail : s.Trail root e hashes)
    (hfetches : s.size ≤ fetches + hashes.length) :
    ∃ t', t.loadWith (s.fetchLoaded fetches) = .ok t' ∧ r.Echoes t' := by
  obtain ⟨hdescribes, hfvalid⟩ := (hroot.of_contains he).refs hr f hf
  cases hemb : r.isEmbedded with
  | true =>
    -- the part is held in the bytes of `d`
    obtain ⟨f', hf', htf⟩ := Ref.encode_of_embedded (hspelled.embedded.trans hemb)
    obtain ⟨g, hg, hrf⟩ := Ref.encode_of_embedded hemb
    cases hf.symm.trans hg
    have hpart : f'.encode = f.encode := by rw [← htf, hspelled.encode, hrf]
    obtain ⟨l, hl, hlencode⟩ := hload f' hashes fetches (hd.refs ht f' hf').2 (hwritten.part ht hf')
      hpart (htrail.part hr hf) hfetches
    obtain ⟨t', ht', hheld⟩ := Ref.exists_loadWith_of_held hf' hl
    refine ⟨t', ht', fun y hy => ⟨f, hf, ?_⟩⟩
    cases hheld.symm.trans hy
    exact hlencode
  | false =>
    -- the part is fetched, and its hash is new on the way down
    have hget : s.get? f.hash = some f.encode := by
      rw [← hdescribes.hash]
      exact (covers_iff.1 (hs.of_contains he) r hr f hf).1 hemb
    have hlarge : f.isEmbeddable = false := by rw [← hdescribes.embedded, hemb]
    obtain ⟨l, hl, hlencode⟩ := hload.fetchLoaded hfvalid hw (.part he hr hf) hget hlarge
      (htrail.part hr hf) (htrail.not_mem hroot hloaded hs he hr hf hget) hfetches
    obtain ⟨h, rfl⟩ := (hwritten.refs ht).exists_remote (hspelled.embedded.trans hemb)
    have hhash : h = f.hash := hspelled.hash.trans hdescribes.hash
    refine ⟨.cached h l.loaded l, ?_, fun y hy => ⟨f, hf, ?_⟩⟩
    · rw [Ref.loadWith, hhash, hl, ok_bind]
    · cases hy
      exact hlencode

/-- What is inside a cell that the store covers is loaded. -/
theorem Covers.loads (hs : s.Covers root) (hroot : root.Valid w) (hw : w < 2 ^ 59)
    (hloaded : root.loaded = true) (he : root.Contains e) : s.Loads root e := by
  induction e using Cell.induction with
  | step e ih =>
    intro d hashes fetches hd hwritten hencode htrail hfetches
    have hevalid := hroot.of_contains he
    have halike : e.Alike Ref.Spelled d := hevalid.alike_of_encode hd hencode.symm
    obtain ⟨l, hl⟩ := Cell.exists_loadWith_of_echoes hevalid.shaped.check halike
      fun r hr t ht hspelled => by
        have hrefs := Cell.loaded_iff.1 (hroot.loaded_of_contains hloaded he)
        obtain ⟨f, hf⟩ := Ref.exists_held?_of_loaded (hrefs r hr)
        exact (ih r hr f hf (.part he hr hf)).ref hroot hw hloaded hs he hr hf hd hwritten ht hspelled
          htrail hfetches
    have hd' : d.Valid (2 ^ 59 - 1) := hd.mono (Nat.zero_le _)
    refine ⟨l, hl, ?_⟩
    rw [(hd'.loadWith (s.supplies_fetchLoaded (by decide) fetches) (by decide) hl).encode, hencode]

/-- A cell that the store covers is loaded once it has been read back. -/
theorem Covers.exists_loadWith (hs : s.Covers e) (he : e.Valid w) (hw : w < 2 ^ 59)
    (hloaded : e.loaded = true) (hd : d.Valid 0) (hwritten : d.Written) (hencode : d.encode = e.encode) :
    ∃ l, d.loadWith s.supply = .ok l ∧ l.encode = e.encode :=
  hs.loads he hw hloaded .self d [] s.size hd hwritten hencode .nil (Nat.le_add_right _ _)

end Down

/-- A part that the store covers is supplied under its hash, if the store holds it. -/
theorem Covers.exists_supply {c : Cell} (hc : c.Valid w) (hw : w < 2 ^ 59)
    (hloaded : c.loaded = true) (hs : s.Covers c)
    (hget : s.get? c.hash = some c.encode) (hlarge : c.isEmbeddable = false) :
    ∃ l, s.supply c.hash = .ok l ∧ l.loaded = true ∧ l.encode = c.encode := by
  obtain ⟨l, hl, hencode⟩ := (hs.loads hc hw hloaded .self).fetchLoaded hc hw .self hget hlarge .nil
    List.not_mem_nil (Nat.le_add_right s.size 0)
  have hsupplies : Supplies (2 ^ 59 - 1) (s.fetchLoaded s.size) :=
    s.supplies_fetchLoaded (by decide) s.size
  exact ⟨l, hl, hsupplies.loaded _ _ hl, hencode⟩

/-- A cell that the store covers is loaded under its hash, if the store holds it. -/
theorem Covers.exists_load {c : Cell} (hc : c.Valid w) (hw : w < 2 ^ 59)
    (hloaded : c.loaded = true) (hs : s.Covers c)
    (hget : s.get? c.hash = some c.encode) :
    ∃ l, s.load c.hash = .ok l ∧ l.loaded = true ∧ l.encode = c.encode := by
  obtain ⟨d, hd, hencode, hvalid, hwritten⟩ := exists_fetch hc hw hget
  obtain ⟨l, hl, hlencode⟩ := hs.exists_loadWith hc hw hloaded hvalid hwritten hencode
  refine ⟨l, by rw [load, hd, ok_bind, hl], ?_, hlencode⟩
  have hd' : d.Valid (2 ^ 59 - 1) := hvalid.mono (Nat.zero_le _)
  exact (hd'.loadWith (s.supplies_fetchLoaded (by decide) _) (by decide) hl).loaded

/-! ### What is loaded is the cell that is covered -/

/-- What has the encoding of a loaded cell that the store covers, and has been read back, has the
content of that cell once it is loaded: the store has nothing else to supply. -/
theorem Covers.same_of_loadWith {e d l : Cell} {fetches : Nat} (he : e.Valid w) (hw : w < 2 ^ 59)
    (hloaded : e.loaded = true) (hs : s.Covers e) (hd : d.Valid 0) (hwritten : d.Written)
    (hencode : d.encode = e.encode) (hl : d.loadWith (s.fetchLoaded fetches) = .ok l) :
    e.Same l := by
  induction e using Cell.induction generalizing d l fetches with
  | step e ih =>
    have halike : e.Alike Ref.Spelled d := he.alike_of_encode hd hencode.symm
    have hloads := (hd.alike_of_loadWith hl).mono
      (S := fun t t' => t ∈ d.refs ∧ t.loadWith (s.fetchLoaded fetches) = .ok t')
      fun t ht t' ht' => ⟨ht, ht'⟩
    refine Cell.same_iff.2 ((halike.comp hloads).mono fun r hr t' => ?_)
    rintro ⟨t, hspelled, ht, hload⟩
    obtain ⟨f, hf⟩ := Ref.exists_held?_of_loaded (Cell.loaded_iff.1 hloaded r hr)
    obtain ⟨hstored, hcovers⟩ := covers_iff.1 hs r hr f hf
    obtain ⟨hdescribes, hfvalid⟩ := he.refs hr f hf
    have hfloaded := he.loaded_of_held hloaded hr hf
    cases hemb : r.isEmbedded with
    | true =>
      -- the part is held in the bytes of `d`
      obtain ⟨f', hf', htf⟩ := Ref.encode_of_embedded (hspelled.embedded.trans hemb)
      obtain ⟨g, hg, hrf⟩ := Ref.encode_of_embedded hemb
      cases hf.symm.trans hg
      have hpart : f'.encode = f.encode := by rw [← htf, hspelled.encode, hrf]
      obtain ⟨l', hl', hkept⟩ := Ref.exists_of_loadWith hf' hload
      refine ⟨hkept.hash.trans hspelled.hash, hkept.embedded.trans hspelled.embedded, f, l', hf,
        hkept.held, ?_⟩
      exact ih r hr f hf hfvalid hfloaded hcovers (hd.refs ht f' hf').2 (hwritten.part ht hf') hpart hl'
    | false =>
      -- the part is fetched under its hash
      have hget : s.get? f.hash = some f.encode := by
        rw [← hdescribes.hash]
        exact hstored hemb
      have hlarge : f.isEmbeddable = false := by rw [← hdescribes.embedded, hemb]
      obtain ⟨h, rfl⟩ := (hwritten.refs ht).exists_remote (hspelled.embedded.trans hemb)
      have hhash : h = f.hash := hspelled.hash.trans hdescribes.hash
      obtain ⟨l', hl', hload⟩ := bind_eq_ok_iff.1 hload
      cases hload
      refine ⟨hspelled.hash, hemb.symm, f, l', hf, rfl, ?_⟩
      cases fetches with
      | zero => cases hl'
      | succ fetches =>
        obtain ⟨d', hd', hl'⟩ := bind_eq_ok_iff.1 hl'
        obtain ⟨f', hf', hpart, hvalid, hwritten'⟩ := exists_resolve hfvalid hw hget hlarge
        rw [hhash, hf'] at hd'
        cases hd'
        exact ih r hr f hf hfvalid hfloaded hcovers hvalid hwritten' hpart hl'

/-- The store has whatever is missing from the cell, and it has all that is written in the cell as a
hash. -/
def Completes (s : Store) (c : Cell) : Prop := ∃ full, c.load s = .ok full ∧ s.Covers full

/-- What a cell holds is held, with the same encoding, by every cell of the content that it has once it is
loaded. -/
theorem alike_of_load {c full l : Cell} (hc : c.Valid w) (hw : 2 ^ 59 ≤ w + 1)
    (hfull : c.load s = .ok full) (hsame : full.Same l) : c.Alike (flip Ref.Echoes) l := by
  have hloads := (hc.alike_of_loadWith hfull).mono
    (S := fun r r' => r.Valid w ∧ r.loadWith s.supply = .ok r') fun r hr _ hr' => ⟨hc.refs hr, hr'⟩
  refine (hloads.comp hsame.alike).mono fun r _ t => ?_
  rintro ⟨r', ⟨hr, hload⟩, hrt⟩ x hx
  obtain ⟨y, hy, hkept⟩ := Ref.exists_of_loadWith hx hload
  obtain ⟨y', z, hy', hz, hyz⟩ := hrt.held
  cases hkept.held.symm.trans hy'
  exact ⟨z, hz, by rw [hyz.encode_eq, ((hr x hx).2.load hw hy).encode]⟩

/-- A cell that the store completes is read back from its encoding and loaded, and then holds all that it
held before, with the same encoding. -/
theorem Completes.exists_load {c : Cell} (hc : c.Writable) (hs : s.Completes c) :
    ∃ d l, decode c.encode = .ok d ∧ d.load s = .ok l ∧ l.Intact ∧ l.encode = c.encode ∧
      c.Alike (flip Ref.Echoes) l := by
  have hroom : 2 ^ 59 ≤ 2 ^ 59 - 1 + 1 := by decide
  obtain ⟨full, hfull, hcovers⟩ := hs
  obtain ⟨w, hw, hvalid⟩ := hc.exists_valid
  replace hvalid := hvalid.mono (Nat.le_sub_one_of_lt hw)
  have hcomplete := hvalid.load hroom hfull
  obtain ⟨d, hd, halike⟩ := decode_encode hvalid (by decide)
  have hdvalid := valid_of_decode hd
  have hencode : d.encode = full.encode := by rw [encode_of_decode hd, hcomplete.encode]
  obtain ⟨l, hl, hlencode⟩ := hcovers.exists_loadWith hcomplete.valid (by decide) hcomplete.loaded
    hdvalid halike.written hencode
  have hsame := hcovers.same_of_loadWith hcomplete.valid (by decide) hcomplete.loaded hdvalid
    halike.written hencode hl
  have hloaded := (hdvalid.mono (Nat.zero_le _)).load hroom hl
  exact ⟨d, l, hd, hl, ⟨hloaded.loaded, _, hloaded.valid⟩, hlencode.trans hcomplete.encode,
    alike_of_load hvalid hroom hfull hsame⟩

end Load

end Store

end CellMachine
