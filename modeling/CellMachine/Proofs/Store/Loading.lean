import CellMachine.Proofs.Cell.Rebuilding
import CellMachine.Proofs.Codec.Reading
import CellMachine.Store.Load

/-!
# Loading keeps cells what they are

What is loaded is alike to what it was loaded into: every reference keeps its hash and is written as
before, and now holds a loaded cell. This rests on what loading demands of a supplier of missing
cells (`Supplies`): that it yields, for a hash, a valid loaded cell of that hash which is too large to
be written inside a parent. A store is such a supplier, since it decodes, compares hashes and refuses
small cells.

A store may yield vectors of any count that the format allows, so that only cells with that much room
stay valid.

Main statements: `Cell.loadWith_eq` (loading rebuilds a cell around its loaded references and checks
it again), `Cell.Valid.loadWith` and `Cell.Valid.load`.
-/

namespace CellMachine

/-! ## Loading rebuilds a cell around its loaded references -/

section Parts
variable {fetch : Hash → Except DataError Cell}

/-- Loading the references of a list is loading one after another. -/
theorem refsLoad_eq (rs : List Ref) : refsLoad fetch rs = rs.mapM (Ref.loadWith fetch) := by
  induction rs with
  | nil =>
    rw [refsLoad]
    rfl
  | cons r rs ih =>
    rw [refsLoad, ih, List.mapM_cons]
    rfl

theorem entriesLoad_eq (es : List (Ref × Ref)) :
    entriesLoad fetch es = es.mapM (entryMapRefs (Ref.loadWith fetch)) := by
  induction es with
  | nil =>
    rw [entriesLoad]
    rfl
  | cons e es ih =>
    rw [entriesLoad, ih, List.mapM_cons, entryMapRefs]
    simp only [bind_assoc, ok_bind]
    rfl

/-- A vector is loaded by rebuilding it around what its references load to. -/
theorem Vec.loadParts_eq (v : Vec) : v.loadParts fetch = v.mapRefs (Ref.loadWith fetch) := by
  cases v with
  | chunk items => rw [loadParts, mapRefs, refsLoad_eq]
  | tailed n front items => simp only [loadParts, mapRefs, refsLoad_eq]
  | tree n children => rw [loadParts, mapRefs, refsLoad_eq]

theorem Op.loadParts_eq (o : Op) : o.loadParts fetch = o.mapRefs (Ref.loadWith fetch) := by
  cases o <;> rw [loadParts, mapRefs]

theorem Closure.loadParts_eq (c : Closure) :
    c.loadParts fetch = c.mapRefs (Ref.loadWith fetch) := by
  cases c
  rw [loadParts, mapRefs]

/-- A cell from which something is missing is rebuilt and checked again. -/
theorem Cell.loadWith_eq {c : Cell} (h : c.loaded = false) :
    c.loadWith fetch = c.mapRefs (Ref.loadWith fetch) >>= Cell.rechecked := by
  unfold Cell.loadWith
  rw [if_neg (Bool.eq_false_iff.1 h)]
  cases c with
  | vector v => simp only [mapRefs, Vec.loadParts_eq, bind_assoc, ok_bind]
  | map entries => simp only [mapRefs, entriesLoad_eq, bind_assoc, ok_bind]
  | record format fields => simp only [mapRefs, refsLoad_eq, bind_assoc, ok_bind]
  | op o => simp only [mapRefs, Op.loadParts_eq, bind_assoc, ok_bind]
  | fn f => simp only [mapRefs, Closure.loadParts_eq, bind_assoc, ok_bind]
  | _ => cases h

theorem Cell.rechecked_eq_ok {c d : Cell} (h : c.rechecked = .ok d) :
    d = c ∧ c.check = .ok () := by
  unfold rechecked at h
  split at h
  · next hcheck =>
    cases h
    exact ⟨rfl, hcheck⟩
  · cases h

/-- A cell is loaded already, or its references are loaded one by one and it is checked again. -/
theorem Cell.loadWith_eq_ok {c d : Cell} (h : c.loadWith fetch = .ok d) :
    (c.loaded = true ∧ d = c) ∨
      (c.Alike (fun r r' => r.loadWith fetch = .ok r') d ∧ d.check = .ok ()) := by
  cases hloaded : c.loaded with
  | true =>
    rw [Cell.loadWith_of_loaded fetch hloaded] at h
    cases h
    exact .inl ⟨rfl, rfl⟩
  | false =>
    rw [Cell.loadWith_eq hloaded] at h
    obtain ⟨e, he, h⟩ := bind_eq_ok_iff.1 h
    obtain ⟨rfl, hcheck⟩ := rechecked_eq_ok h
    exact .inr ⟨mapRefs_eq_ok_iff.1 he, hcheck⟩

/-! ## What loading makes of a reference -/

/-- What loading makes of a reference: the loaded cell stands in its place. -/
structure Ref.Keeps (r r' : Ref) (d : Cell) : Prop where
  hash : r'.hash = r.hash
  embedded : r'.isEmbedded = r.isEmbedded
  loaded : r'.loaded = d.loaded
  held : r'.held? = some d

/-- A loaded reference holds the cell it held, loaded, or else the cell that was fetched for it. -/
theorem Ref.keeps_of_loadWith {r r' : Ref} (h : r.loadWith fetch = .ok r') :
    ∃ d, r.Keeps r' d ∧ ((∃ c, r.held? = some c ∧ c.loadWith fetch = .ok d) ∨
      r.held? = none ∧ fetch r.hash = .ok d) := by
  cases r with
  | remote hash =>
    obtain ⟨d, hd, h⟩ := bind_eq_ok_iff.1 h
    cases h
    exact ⟨d, ⟨rfl, rfl, rfl, rfl⟩, .inr ⟨rfl, hd⟩⟩
  | embedded hash l c | direct hash l c | cached hash l c =>
    obtain ⟨d, hd, h⟩ := bind_eq_ok_iff.1 h
    cases h
    exact ⟨d, ⟨rfl, rfl, rfl, rfl⟩, .inl ⟨c, rfl, hd⟩⟩

/-- A reference that holds a cell is loaded by loading the cell. -/
theorem Ref.exists_of_loadWith {r r' : Ref} {c : Cell} (hc : r.held? = some c)
    (h : r.loadWith fetch = .ok r') : ∃ d, c.loadWith fetch = .ok d ∧ r.Keeps r' d := by
  obtain ⟨d, hkeeps, ⟨e, he, hd⟩ | ⟨hnone, -⟩⟩ := Ref.keeps_of_loadWith h
  · cases hc.symm.trans he
    exact ⟨d, hd, hkeeps⟩
  · cases hc.symm.trans hnone

/-- A reference is written as before if its cell is. -/
theorem Ref.Keeps.encode_eq {r r' : Ref} {d : Cell} (h : r.Keeps r' d)
    (hd : ∀ c, r.held? = some c → d.encode = c.encode) : r'.encode = r.encode := by
  cases hemb : r.isEmbedded with
  | false =>
    rw [Ref.encode_of_not_embedded hemb, Ref.encode_of_not_embedded (h.embedded.trans hemb), h.hash]
  | true =>
    obtain ⟨c, hc, hr⟩ := Ref.encode_of_embedded hemb
    obtain ⟨e, he, hr'⟩ := Ref.encode_of_embedded (h.embedded.trans hemb)
    cases h.held.symm.trans he
    rw [hr, hr', hd c hc]

end Parts

/-! ## What is loaded is valid -/

/-- The order of keys is by their hashes, which loading keeps. -/
theorem Increasing.of_forall₂ {R : Ref → Ref → Prop} {es es' : List (Ref × Ref)}
    (hinc : Increasing es) (hhash : ∀ r r', R r r' → r'.hash = r.hash)
    (h : List.Forall₂ (fun e e' => R e.1 e'.1 ∧ R e.2 e'.2) es es') : Increasing es' := by
  have hkeys : es'.map (fun e => e.1.hash) = es.map fun e => e.1.hash := by
    induction h with
    | nil => rfl
    | cons he _ ih =>
      rw [List.map_cons, List.map_cons, hhash _ _ he.1, ih (List.pairwise_cons.1 hinc).2]
  have hpairs : (es.map fun e => e.1.hash).Pairwise (· < ·) := List.pairwise_map.2 hinc
  rw [← hkeys] at hpairs
  exact List.pairwise_map.1 hpairs

/-- Alike cells are of the same form, if their references agree in hash and spelling and the checks
have been made again. -/
theorem Cell.Shaped.of_alike {R : Ref → Ref → Prop} {c d : Cell} (hc : c.Shaped)
    (h : c.Alike R d) (hhash : ∀ r r', R r r' → r'.hash = r.hash)
    (hencode : ∀ r r', R r r' → r'.encode = r.encode) (hcheck : d.check = .ok ()) : d.Shaped := by
  have hsame := h.encode_eq hencode
  cases h with
  -- loading keeps the number of parts; the second check has looked at what they hold
  | vector h =>
    cases h with
    | chunk hitems =>
      have hlen : _ ≤ chunkSize := hc
      rw [hitems.length_eq] at hlen
      exact hlen
    | tailed hfront hitems =>
      obtain ⟨htree, htail, hlen, -⟩ := Vec.shaped_tailed_iff.1 hc
      rw [hitems.length_eq] at hlen
      exact Vec.shaped_tailed_iff.2 ⟨htree, htail, hlen, hcheck⟩
    | tree hchildren =>
      obtain ⟨htree, hlen, -⟩ := Vec.shaped_tree_iff.1 hc
      rw [hchildren.length_eq] at hlen
      exact Vec.shaped_tree_iff.2 ⟨htree, hlen, hcheck⟩
  | map h =>
    obtain ⟨hinc, hfits⟩ := hc
    rw [← hsame] at hfits
    exact ⟨hinc.of_forall₂ hhash h, hfits⟩
  | record h =>
    have harity : _ = RecordFormat.arity _ := hc
    rw [h.length_eq] at harity
    exact harity
  | _ => exact hcheck

/-- A supplier of missing cells: for a hash it yields a valid loaded cell of that hash, and one that
a parent writes as a hash. -/
structure Supplies (w : Nat) (fetch : Hash → Except DataError Cell) : Prop where
  hash : ∀ h c, fetch h = .ok c → c.hash = h
  large : ∀ h c, fetch h = .ok c → c.isEmbeddable = false
  loaded : ∀ h c, fetch h = .ok c → c.loaded = true
  valid : ∀ h c, fetch h = .ok c → c.Valid w

section Valid
variable {w : Nat} {fetch : Hash → Except DataError Cell}

/-- What loading makes of a reference to a cell that it loads well. -/
structure Ref.Loaded (w : Nat) (r r' : Ref) : Prop where
  hash : r'.hash = r.hash
  encode : r'.encode = r.encode
  loaded : r'.loaded = true
  valid : r'.Valid w

/-- What loading makes of a cell. -/
structure Cell.Loaded (w : Nat) (c d : Cell) : Prop where
  encode : d.encode = c.encode
  loaded : d.loaded = true
  valid : d.Valid w

/-- A reference to a cell of the same encoding describes the new cell as it did the old one. -/
theorem Ref.Describes.of_encode {r r' : Ref} {c d : Cell} (h : r.Describes c)
    (hhash : r'.hash = r.hash) (hembedded : r'.isEmbedded = r.isEmbedded)
    (hloaded : r'.loaded = d.loaded) (hencode : d.encode = c.encode) : r'.Describes d := by
  refine ⟨?_, hloaded, ?_⟩
  · rw [hhash, h.hash, Cell.hash, Cell.hash, hencode]
  · rw [hembedded, h.embedded, Cell.isEmbeddable, Cell.isEmbeddable, hencode]

theorem Ref.isEmbedded_of_not_held {r : Ref} (h : r.held? = none) : r.isEmbedded = false := by
  cases r with
  | remote => rfl
  | embedded | direct | cached => cases h

/-- A reference that describes the cell that it holds describes the loaded cell, and is written as before
if that cell is. A cell that is fetched is described because the supplier has compared its hash and
refused it if small. -/
theorem Ref.describes_of_loadWith {r r' : Ref} (hfetch : Supplies w fetch)
    (hr : ∀ c, r.held? = some c → r.Describes c) (h : r.loadWith fetch = .ok r')
    (hheld : ∀ c, r.held? = some c → ∀ d, c.loadWith fetch = .ok d → d.encode = c.encode) :
    ∃ d, r.Keeps r' d ∧ r'.encode = r.encode ∧ r'.Describes d ∧
      ((∃ c, r.held? = some c ∧ c.loadWith fetch = .ok d) ∨ fetch r.hash = .ok d) := by
  obtain ⟨d, hkeeps, ⟨c, hc, hd⟩ | ⟨hnone, hd⟩⟩ := Ref.keeps_of_loadWith h
  · have hencode := hheld c hc d hd
    refine ⟨d, hkeeps, hkeeps.encode_eq fun e he => ?_, ?_, .inl ⟨c, hc, hd⟩⟩
    · cases hc.symm.trans he
      exact hencode
    · exact (hr c hc).of_encode hkeeps.hash hkeeps.embedded hkeeps.loaded hencode
  · refine ⟨d, hkeeps, hkeeps.encode_eq fun e he => ?_, ⟨?_, hkeeps.loaded, ?_⟩, .inr hd⟩
    · cases hnone.symm.trans he
    · rw [hkeeps.hash, hfetch.hash r.hash d hd]
    · rw [hkeeps.embedded, Ref.isEmbedded_of_not_held hnone, hfetch.large r.hash d hd]

theorem Ref.Valid.loadWith {r r' : Ref} (hfetch : Supplies w fetch) (hr : r.Valid w)
    (h : r.loadWith fetch = .ok r')
    (hheld : ∀ c, r.held? = some c → ∀ d, c.loadWith fetch = .ok d → c.Loaded w d) :
    r.Loaded w r' := by
  obtain ⟨d, hkeeps, hencode, hdescribes, hfrom⟩ := Ref.describes_of_loadWith hfetch
    (fun c hc => (hr c hc).1) h fun c hc d hd => (hheld c hc d hd).encode
  -- the cell is the one held, loaded, or else the one that was fetched
  have hd : d.loaded = true ∧ d.Valid w := by
    obtain ⟨c, hc, hd⟩ | hd := hfrom
    · exact ⟨(hheld c hc d hd).loaded, (hheld c hc d hd).valid⟩
    · exact ⟨hfetch.loaded r.hash d hd, hfetch.valid r.hash d hd⟩
  refine ⟨hkeeps.hash, hencode, hkeeps.loaded.trans hd.1, fun e he => ?_⟩
  cases hkeeps.held.symm.trans he
  exact ⟨hdescribes, hd.2⟩

/-- A reference that is loaded already loads as itself. -/
theorem Ref.Valid.loadWith_of_loaded {r : Ref} (hr : r.Valid w) (h : r.loaded = true) :
    r.loadWith fetch = .ok r := by
  cases r with
  | remote hash => cases h
  | embedded hash loaded c | direct hash loaded c | cached hash loaded c =>
    have hflag : loaded = c.loaded := (hr c rfl).1.loaded
    have hc : c.loaded = true := hflag.symm.trans h
    rw [Ref.loadWith, Cell.loadWith_of_loaded fetch hc, ok_bind, ← hflag]

/-- Loading works reference by reference. -/
theorem Cell.Valid.alike_of_loadWith {c d : Cell} (hc : c.Valid w) (h : c.loadWith fetch = .ok d) :
    c.Alike (fun r r' => r.loadWith fetch = .ok r') d := by
  rcases Cell.loadWith_eq_ok h with ⟨hloaded, rfl⟩ | ⟨halike, -⟩
  · exact Cell.Alike.refl fun r hr =>
      (hc.refs hr).loadWith_of_loaded (Cell.loaded_iff.1 hloaded r hr)
  · exact halike

/-- With that much room, any count that the format allows is allowed. -/
theorem Vec.room_iff_of_le {v : Vec} (hw : 2 ^ 59 ≤ w + 1) : v.Room w ↔ v.count ≤ freeCount + w := by
  constructor
  · rintro (h | ⟨h, -⟩)
    · exact h
    · simp only [Reader.maxCount, freeCount] at *
      omega
  · exact .inl

theorem Cell.Room.of_alike {R : Ref → Ref → Prop} {c d : Cell} (hw : 2 ^ 59 ≤ w + 1)
    (h : c.Alike R d) (hc : c.Room w) : d.Room w := by
  cases h with
  | vector h =>
    -- with so much room a vector's room is a bound on its count, which loading keeps
    have hroom := (Vec.room_iff_of_le hw).1 hc
    rw [← h.count_eq] at hroom
    exact (Vec.room_iff_of_le hw).2 hroom
  | _ => trivial

/-- A valid cell is valid once it is loaded, and is encoded as before. -/
theorem Cell.Valid.loadWith {c d : Cell} (hfetch : Supplies w fetch) (hw : 2 ^ 59 ≤ w + 1)
    (hc : c.Valid w) (h : c.loadWith fetch = .ok d) : c.Loaded w d := by
  induction c using Cell.induction generalizing d with
  | step c ih =>
    rcases Cell.loadWith_eq_ok h with ⟨hloaded, rfl⟩ | ⟨halike, hcheck⟩
    · exact ⟨rfl, hloaded, hc⟩
    · -- the parts are loaded well by induction; the shape is what the second check has found
      have hloaded : c.Alike (Ref.Loaded w) d := halike.mono fun r hr r' hload =>
        (hc.refs hr).loadWith hfetch hload fun e he d hd => ih r hr e he (hc.refs hr e he).2 hd
      have hencode : ∀ r r', Ref.Loaded w r r' → r'.encode = r.encode := fun _ _ hr => hr.encode
      refine ⟨hloaded.encode_eq hencode, ?_, ?_⟩
      · exact Cell.loaded_iff.2 fun r' hr' =>
          let ⟨_, _, hr⟩ := exists_of_forall₂_right hloaded.refs hr'
          hr.loaded
      · refine Cell.valid_iff.2 ⟨hc.shaped.of_alike hloaded (fun _ _ hr => hr.hash) hencode hcheck,
          Cell.Room.of_alike hw hloaded hc.room, fun r' hr' => ?_⟩
        obtain ⟨r, -, hr⟩ := exists_of_forall₂_right hloaded.refs hr'
        exact hr.valid

end Valid

/-! ## Stores are suppliers -/

/-- What a store gives under a hash has that hash, for fetching compares digests. -/
theorem Store.fetch_eq_ok {s : Store} {h : Hash} {c : Cell} (hc : s.fetch h = .ok c) :
    c.Valid 0 ∧ c.hash = h := by
  unfold fetch at hc
  split at hc
  · cases hc
  · next bs _ =>
    simp only at hc
    split at hc
    · next hdigest =>
      refine ⟨valid_of_decode hc, ?_⟩
      rw [Cell.hash, encode_of_decode hc, hdigest]
    · cases hc

/-- What is resolved is in addition too large to be embedded. -/
theorem Store.resolve_eq_ok {s : Store} {h : Hash} {c : Cell} (hc : s.resolve h = .ok c) :
    c.Valid 0 ∧ c.hash = h ∧ c.isEmbeddable = false := by
  obtain ⟨d, hd, hc⟩ := bind_eq_ok_iff.1 hc
  obtain ⟨hvalid, hhash⟩ := Store.fetch_eq_ok hd
  by_cases hsmall : d.isEmbeddable = true
  · rw [if_pos hsmall] at hc
    cases hc
  · rw [if_neg hsmall] at hc
    cases hc
    exact ⟨hvalid, hhash, Bool.eq_false_iff.2 hsmall⟩

variable {w : Nat}

/-- However many fetches may follow, what is fetched is what was asked for. -/
theorem Store.supplies_fetchLoaded (s : Store) (hw : 2 ^ 59 ≤ w + 1) (fetches : Nat) :
    Supplies w (s.fetchLoaded fetches) := by
  induction fetches with
  | zero =>
    refine ⟨?_, ?_, ?_, ?_⟩ <;> intro h c hc <;> cases hc
  | succ fetches ih =>
    have hload : ∀ h c, s.fetchLoaded (fetches + 1) h = .ok c →
        c.hash = h ∧ c.isEmbeddable = false ∧ c.loaded = true ∧ c.Valid w := by
      intro h c hc
      obtain ⟨d, hd, hc⟩ := bind_eq_ok_iff.1 hc
      obtain ⟨hvalid, hhash, hlarge⟩ := Store.resolve_eq_ok hd
      -- what was fetched holds no cell that is not embedded, so its parts come from one fetch less
      obtain ⟨hencode, hloaded, hvalid'⟩ := (hvalid.mono (Nat.zero_le w)).loadWith ih hw hc
      refine ⟨?_, ?_, hloaded, hvalid'⟩
      · rw [← hhash, Cell.hash, Cell.hash, hencode]
      · rw [← hlarge, Cell.isEmbeddable, Cell.isEmbeddable, hencode]
    exact ⟨fun h c hc => (hload h c hc).1, fun h c hc => (hload h c hc).2.1,
      fun h c hc => (hload h c hc).2.2.1, fun h c hc => (hload h c hc).2.2.2⟩

/-- A valid cell is valid once it is loaded from a store, and is encoded as before. -/
theorem Cell.Valid.load {c d : Cell} {s : Store} (hw : 2 ^ 59 ≤ w + 1) (hc : c.Valid w)
    (h : c.load s = .ok d) : c.Loaded w d :=
  hc.loadWith (s.supplies_fetchLoaded hw s.size) hw h

end CellMachine
