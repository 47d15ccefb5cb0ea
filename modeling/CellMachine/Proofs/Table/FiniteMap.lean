import CellMachine.Proofs.Cell.Identity
import CellMachine.Proofs.Vec.Canonical
import Mathlib.Data.List.Nodup
import Mathlib.Data.Set.Function
import Mathlib.Logic.Function.Basic

/-!
# Maps are finite maps

A map says of each key, known by its hash, which value it has. What it says is its *association*, a function
on hashes, and the operations on maps are point updates of it. Entries *realize* an association if they
increase by key hash, hold their keys and values, and lead to the values of the association. Every map that
is reached realizes its association (`Reached.realizes`): putting in and taking out keep that up, and decoding
and loading establish it.

An association can be realized in one way only, as far as bytes are concerned: since the keys increase, their
places are settled, and each reference is written as a new parent would write it (`Realizes.encode_eq`). It is
only here that digests have to tell keys apart.

The limit on the encoding is checked by every operation that puts something in. Taking an entry out leaves less
to write than before, so that it never fails.

Main statement: `canonical_finite_map`.
-/

namespace CellMachine

/-- Which value a key has, by its hash. -/
abbrev Association := Hash → Option Cell

/-- The association of a list of keys and values, in which the last value of a key counts. -/
def Association.ofList (entries : List (Cell × Cell)) : Association :=
  entries.foldl (fun f e => Function.update f e.1.hash (some e.2)) fun _ => none

/-- A reference that holds a cell and describes it. -/
structure Ref.Shows (r : Ref) (c : Cell) : Prop extends r.Describes c where
  held : r.held? = some c

theorem Ref.shows_of (c : Cell) : (Ref.of c).Shows c where
  hash := hash_of c
  loaded := loaded_of c
  embedded := isEmbedded_of c
  held := held?_of c

/-- References that hold the same cell under the same hash and are written alike. -/
structure Ref.Restates (r s : Ref) : Prop where
  hash : s.hash = r.hash
  held : s.held? = r.held?
  encode : s.encode = r.encode

/-- A new parent holds a cell as references that describe it do. -/
theorem Ref.Shows.restates {r : Ref} {c : Cell} (h : r.Shows c) : r.Restates (Ref.of c) where
  hash := (hash_of c).trans h.hash.symm
  held := (held?_of c).trans h.held.symm
  encode := (h.toDescribes.encode_eq h.held).symm

namespace Table

variable {es es' : List (Ref × Ref)} {f g : Association} {t u : Table}

/-! ## Entries for an association -/

/-- Entries in order, with keys and values at hand, that lead to the values of an association. -/
structure Realizes (es : List (Ref × Ref)) (f : Association) : Prop where
  increasing : Increasing es
  shows : ∀ e ∈ es, (∃ k, e.1.Shows k) ∧ ∃ v, e.2.Shows v
  leads : ∀ h, (lookup h es).bind Ref.held? = f h

namespace Realizes

theorem nil : Realizes [] fun _ => none where
  increasing := .nil
  shows _ he := absurd he List.not_mem_nil
  leads _ := rfl

theorem insert (h : Realizes es f) (key value : Cell) :
    Realizes (insertEntry (.of key) (.of value) es) (Function.update f key.hash (some value)) where
  increasing := increasing_insertEntry h.increasing
  shows := forall_mem_insertEntry (P := fun r => ∃ k, r.Shows k) (Q := fun r => ∃ v, r.Shows v)
    ⟨key, Ref.shows_of key⟩ ⟨value, Ref.shows_of value⟩ h.shows
  leads k := by
    rw [lookup_insertEntry, Ref.hash_of, Function.update_apply]
    by_cases hk : key.hash = k
    · rw [if_pos hk, if_pos hk.symm, Option.bind_some, Ref.held?_of]
    · rw [if_neg hk, if_neg (Ne.symm hk), h.leads]

theorem erase (h : Realizes es f) (key : Hash) :
    Realizes (eraseEntry key es) (Function.update f key none) where
  increasing := h.increasing.sublist (eraseEntry_sublist key es)
  shows e he := h.shows e ((eraseEntry_sublist key es).subset he)
  leads k := by
    rw [lookup_eraseEntry h.increasing, Function.update_apply]
    by_cases hk : key = k
    · rw [if_pos hk, if_pos hk.symm, Option.bind_none]
    · rw [if_neg hk, if_neg (Ne.symm hk), h.leads]

theorem foldl (h : Realizes es f) (entries : List (Cell × Cell)) :
    Realizes (entries.foldl (fun es e => insertEntry (.of e.1) (.of e.2) es) es)
      (entries.foldl (fun f e => Function.update f e.1.hash (some e.2)) f) := by
  induction entries generalizing es f with
  | nil => exact h
  | cons e entries ih => exact ih (h.insert e.1 e.2)

/-- A value of the association is held by a reference that is written as a new parent would write it. -/
theorem exists_lookup (h : Realizes es f) {k : Hash} {v : Cell} (hv : f k = some v) :
    ∃ r, lookup k es = some r ∧ r.held? = some v ∧ (Ref.of v).encode = r.encode := by
  rw [← h.leads, Option.bind_eq_some_iff] at hv
  obtain ⟨r, hr, hheld⟩ := hv
  obtain ⟨e, he, -, rfl⟩ := exists_mem_of_lookup hr
  obtain ⟨c, hc⟩ := (h.shows e he).2
  cases hheld.symm.trans hc.held
  exact ⟨e.2, hr, hheld, hc.restates.encode⟩

theorem lookup_eq_none (h : Realizes es f) {k : Hash} (hk : f k = none) :
    lookup k es = none := by
  cases hr : lookup k es with
  | none => rfl
  | some r =>
    obtain ⟨e, he, -, rfl⟩ := exists_mem_of_lookup hr
    obtain ⟨c, hc⟩ := (h.shows e he).2
    have hleads := h.leads k
    rw [hr, hk, Option.bind_some, hc.held] at hleads
    cases hleads

end Realizes

/-! ## One encoding for an association -/

/-- The encodings of the keys of entries. -/
def keyEncodings (es : List (Ref × Ref)) : Set Bytes :=
  {bs | ∃ e ∈ es, ∃ k, e.1.held? = some k ∧ k.encode = bs}

/-- The keys of the map of a list are among those of the list. -/
theorem keyEncodings_ofList {entries : List (Cell × Cell)} (h : ofList entries = .ok t) :
    keyEncodings t.entries ⊆ {bs | bs ∈ entries.map fun e => e.1.encode} := by
  have hkeys := forall_mem_ofList (Q := fun _ => True)
    (P := fun r => ∀ k, r.held? = some k → k.encode ∈ entries.map fun e => e.1.encode)
    (fun e he => ⟨fun k hk => ?_, trivial⟩) h
  · rintro bs ⟨e, he, k, hk, rfl⟩
    exact (hkeys e he).1 k hk
  · rw [Ref.held?_of] at hk
    cases hk
    exact List.mem_map_of_mem he

/-- Keys whose values have the same encodings lead to references that are written alike. -/
theorem Realizes.lookup_rel (h : Realizes es f) (h' : Realizes es' g) {k : Hash}
    (hk : (g k).map Cell.encode = (f k).map Cell.encode) :
    Option.Rel (fun r s : Ref => s.encode = r.encode) (lookup k es) (lookup k es') := by
  cases hf : f k with
  | none =>
    rw [hf, Option.map_none, Option.map_eq_none_iff] at hk
    rw [h.lookup_eq_none hf, h'.lookup_eq_none hk]
    exact .none
  | some c =>
    rw [hf, Option.map_some, Option.map_eq_some_iff] at hk
    obtain ⟨d, hg, hcd⟩ := hk
    obtain ⟨r, hr, -, hre⟩ := h.exists_lookup hf
    obtain ⟨s, hs, -, hse⟩ := h'.exists_lookup hg
    rw [hr, hs]
    exact .some (by rw [← hre, ← hse, Ref.encode_of_congr hcd])

/-- Entries for associations whose values have the same encodings are written alike, unless two different
keys have the same digest. -/
theorem Realizes.encode_eq (h : Realizes es f) (h' : Realizes es' g)
    (hfg : ∀ k, (g k).map Cell.encode = (f k).map Cell.encode)
    (hinj : Set.InjOn Hash.digest (keyEncodings es ∪ keyEncodings es')) :
    (Cell.map es').encode = (Cell.map es).encode := by
  have hpairs := forall₂_of_lookup h.increasing h'.increasing fun k => h.lookup_rel h' (hfg k)
  have halike : (Cell.map es).Alike (fun r s => s.encode = r.encode) (.map es') := by
    refine .map (List.forall₂_iff_zip.2 ⟨hpairs.length_eq, fun {e e'} hmem => ?_⟩)
    obtain ⟨he, he'⟩ := List.of_mem_zip hmem
    obtain ⟨hhash, hvalue⟩ := (List.forall₂_iff_zip.1 hpairs).2 hmem
    -- keys in the same place have the same digest
    obtain ⟨k, hk⟩ := (h.shows e he).1
    obtain ⟨k', hk'⟩ := (h'.shows e' he').1
    rw [hk.hash, hk'.hash] at hhash
    have hkey : k'.encode = k.encode :=
      hinj (.inr ⟨e', he', k', hk'.held, rfl⟩) (.inl ⟨e, he, k, hk.held, rfl⟩) hhash
    refine ⟨?_, hvalue⟩
    rw [← hk.restates.encode, ← hk'.restates.encode, Ref.encode_of_congr hkey]
  exact halike.encode_eq fun _ _ hr => hr

/-! ## Reading a map back -/

theorem Realizes.find? (h : Realizes t.entries f) (key : Cell) :
    t.find? key = .ok (f key.hash) := by
  unfold Table.find?
  cases hf : f key.hash with
  | none => rw [h.lookup_eq_none hf]
  | some v =>
    obtain ⟨r, hr, hheld, -⟩ := h.exists_lookup hf
    rw [hr]
    show r.cell.map some = _
    rw [Ref.cell_eq_ok_iff.2 hheld]
    rfl

/-- Keys and values that are at hand can be listed, and a new map holds them in references that are written
alike. -/
theorem exists_toList (hshows : ∀ e ∈ t.entries, (∃ k, e.1.Shows k) ∧ ∃ v, e.2.Shows v) :
    ∃ entries, t.toList = .ok entries ∧
      List.Forall₂ (fun e p => e.1.Shows p.1 ∧ e.2.Shows p.2) t.entries entries := by
  have hpair : ∀ e ∈ t.entries, ∃ p : Cell × Cell, e.1.Shows p.1 ∧ e.2.Shows p.2 := by
    intro e he
    obtain ⟨⟨k, hk⟩, v, hv⟩ := hshows e he
    exact ⟨(k, v), hk, hv⟩
  obtain ⟨entries, hentries⟩ := exists_forall₂ hpair
  exact ⟨entries, toList_eq_ok_iff.2 (hentries.imp fun _ _ h => ⟨h.1.held, h.2.held⟩), hentries⟩

section Relisting
variable {entries : List (Cell × Cell)}
  (hentries : List.Forall₂ (fun e p => e.1.Shows p.1 ∧ e.2.Shows p.2) es entries)
include hentries

theorem forall₂_refsOf :
    List.Forall₂ (fun e e' => e.1.Restates e'.1 ∧ e.2.Restates e'.2) es (refsOf entries) :=
  List.forall₂_map_right_iff.2 (hentries.imp fun _ _ h => ⟨h.1.restates, h.2.restates⟩)

theorem encode_refsOf : (Cell.map (refsOf entries)).encode = (Cell.map es).encode := by
  have halike : (Cell.map es).Alike Ref.Restates (.map (refsOf entries)) :=
    .map (forall₂_refsOf hentries)
  exact halike.encode_eq fun _ _ hr => hr.encode

/-- Putting what entries in order show into a new map, one after another, gives new references to it. -/
theorem foldl_of_shows (hinc : Increasing es) :
    entries.foldl (fun es e => insertEntry (.of e.1) (.of e.2) es) [] = refsOf entries := by
  have hrefs : Increasing ([] ++ refsOf entries) :=
    hinc.of_forall₂ (fun _ _ hr => hr.hash) (forall₂_refsOf hentries)
  exact foldl_insertEntry hrefs

/-- Entries in order realize the association of what they show. -/
theorem realizes_ofList (hinc : Increasing es) : Realizes es (Association.ofList entries) := by
  have hrefs := Realizes.nil.foldl entries
  rw [foldl_of_shows hentries hinc] at hrefs
  refine ⟨hinc, fun e he => ?_, fun k => ?_⟩
  · obtain ⟨p, -, hkey, hvalue⟩ := exists_of_forall₂_left hentries he
    exact ⟨⟨p.1, hkey⟩, p.2, hvalue⟩
  · have hk := lookup_of_forall₂ (R := Ref.Restates) k
      ((forall₂_refsOf hentries).imp fun _ _ h => ⟨h.1.hash, h.2⟩)
    have hleads : (lookup k (refsOf entries)).bind Ref.held? = Association.ofList entries k :=
      hrefs.leads k
    rw [← hleads]
    generalize lookup k es = x at hk
    generalize lookup k (refsOf entries) = y at hk
    cases hk with
    | none => rfl
    | some hr => exact hr.held.symm

end Relisting

/-! ## Maps that are reached -/

/-- The maps that can be reached, with their associations: those of lists of keys and values, what becomes of
them when a value is set or a key is taken out, and what is built in any other way, decoded and
loaded. -/
inductive Reached : Table → Association → Prop where
  | ofList {entries : List (Cell × Cell)} {t : Table} (h : Table.ofList entries = .ok t) :
    Reached t (.ofList entries)
  | insert {t u : Table} {f : Association} {key value : Cell} (ht : Reached t f)
    (h : t.insert key value = .ok u) : Reached u (Function.update f key.hash (some value))
  | erase {t u : Table} {f : Association} {key : Cell} (ht : Reached t f)
    (h : t.erase key = .ok u) : Reached u (Function.update f key.hash none)
  /-- A loaded map that lists its entries. -/
  | loaded {stores : List Store} {w : Nat} {t : Table} {entries : List (Cell × Cell)}
    (h : Built stores w t.cell) (hloaded : t.cell.loaded = true) (hlist : t.toList = .ok entries) :
    Reached t (.ofList entries)

/-- What comes of making a map that says what an association says: the map, if its encoding fits, and
otherwise a refusal that states how long the encoding would be. -/
def Makes (x : Except DataError Table) (f : Association) : Prop :=
  ∃ es, Realizes es f ∧ ((Cell.map es).encode.length ≤ maxEncoding ∧ x = .ok ⟨es⟩ ∨
    maxEncoding < (Cell.map es).encode.length ∧
      x = .error (.violation (.mapSize (Cell.map es).encode.length maxEncoding)))

theorem Realizes.checked (h : Realizes es f) : Makes (Table.checked ⟨es⟩) f := by
  refine ⟨es, h, ?_⟩
  by_cases hfits : (Cell.map es).encode.length ≤ maxEncoding
  · exact .inl ⟨hfits, if_neg (Nat.not_lt.2 hfits)⟩
  · exact .inr ⟨Nat.not_le.1 hfits, if_pos (Nat.not_le.1 hfits)⟩

/-- Taking out a key leaves the entries without it, whether it was there or not, and they fit again. -/
theorem erase_eq (hfits : t.cell.encode.length ≤ maxEncoding) (key : Cell) :
    t.erase key = .ok ⟨eraseEntry key.hash t.entries⟩ := by
  unfold erase
  by_cases hmem : t.contains key = true
  · have hshorter := length_encode_le_of_sublist (eraseEntry_sublist key.hash t.entries)
    rw [if_pos hmem]
    exact if_neg (Nat.not_lt.2 (Nat.le_trans hshorter hfits))
  · have hnone : lookup key.hash t.entries = none := Option.not_isSome_iff_eq_none.1 hmem
    rw [if_neg hmem, eraseEntry_of_lookup hnone]

/-- What loaded maps are made of, however they came about. -/
theorem shows_of_loaded {stores : List Store} {w : Nat} (h : Built stores w t.cell)
    (hloaded : t.cell.loaded = true) : Increasing t.entries ∧ t.cell.encode.length ≤ maxEncoding ∧
      ∀ e ∈ t.entries, (∃ k, e.1.Shows k) ∧ ∃ v, e.2.Shows v := by
  have hintact := h.intact hloaded
  obtain ⟨w', hvalid⟩ := hintact.valid
  obtain ⟨hinc, hfits, -⟩ := Cell.valid_map_iff.1 hvalid
  refine ⟨hinc, hfits, fun e he => ⟨?_, ?_⟩⟩
  · obtain ⟨k, hk, -, hdescribes⟩ := hintact.exists_held (Cell.key_mem_refs he)
    exact ⟨k, hdescribes, hk⟩
  · obtain ⟨v, hv, -, hdescribes⟩ := hintact.exists_held (Cell.value_mem_refs he)
    exact ⟨v, hdescribes, hv⟩

/-- A reached map realizes its association, and fits. -/
theorem Reached.realizes (h : t.Reached f) :
    Realizes t.entries f ∧ t.cell.encode.length ≤ maxEncoding := by
  induction h with
  | ofList h =>
    obtain ⟨rfl, hfits⟩ := checked_eq_ok h
    exact ⟨Realizes.nil.foldl _, hfits⟩
  | @insert t u f key value _ h ih =>
    obtain ⟨rfl, hfits⟩ := checked_eq_ok h
    exact ⟨ih.1.insert key value, hfits⟩
  | @erase t u f key _ h ih =>
    obtain ⟨hrealizes, hfits⟩ := ih
    rw [erase_eq hfits] at h
    cases h
    exact ⟨hrealizes.erase key.hash,
      Nat.le_trans (length_encode_le_of_sublist (eraseEntry_sublist key.hash t.entries)) hfits⟩
  | loaded h hloaded hlist =>
    obtain ⟨hinc, hfits, hshows⟩ := shows_of_loaded h hloaded
    obtain ⟨entries, hlist', hentries⟩ := exists_toList hshows
    cases hlist.symm.trans hlist'
    exact ⟨realizes_ofList hentries hinc, hfits⟩

/-- The list of the entries of a map makes a map of the same encoding. -/
theorem Realizes.exists_relisted (h : Realizes t.entries f)
    (hfits : t.cell.encode.length ≤ maxEncoding) :
    ∃ entries u, t.toList = .ok entries ∧ Table.ofList entries = .ok u ∧
      u.cell.encode = t.cell.encode := by
  obtain ⟨entries, hlist, hentries⟩ := exists_toList h.shows
  have hsame := encode_refsOf hentries
  refine ⟨entries, ⟨refsOf entries⟩, hlist, ?_, hsame⟩
  rw [Table.ofList, foldl_of_shows hentries h.increasing]
  refine if_neg (Nat.not_lt.2 ?_)
  rw [hsame]
  exact hfits

/-- What is found in a map after a point update of its association. -/
theorem Realizes.find?_update (h : Realizes t.entries f) {key : Cell} {x : Option Cell}
    (hu : Realizes u.entries (Function.update f key.hash x)) (other : Cell) :
    u.find? other = if other.hash = key.hash then .ok x else t.find? other := by
  rw [hu.find?, h.find?, Function.update_apply]
  by_cases hkey : other.hash = key.hash
  · rw [if_pos hkey, if_pos hkey]
  · rw [if_neg hkey, if_neg hkey]

/-! ## Main statement -/

/-- **Maps are finite maps, keyed by the hashes of their keys, with one encoding each.** Any loaded map is the
map of what it lists, and every list of keys and values makes a map, in which the last value of a key counts,
unless that map would not fit one encoding. In every map that is reached from these by setting values and taking
out keys:

* the entries increase by key hash, so that a search by halves finds the place of a key, and what is found of a
  key is what the association says;
* setting a value is a point update, which is refused exactly if the encoding would be too long, and taking
  out a key is one that always succeeds;
* the list of the entries makes a map of the same encoding, and so does any other way to the same association,
  provided that no two different keys have the same digest. -/
theorem canonical_finite_map :
    (∀ {stores : List Store} {w : Nat} {t : Table}, Built stores w t.cell →
      t.cell.loaded = true → ∃ entries, t.toList = .ok entries ∧ t.Reached (.ofList entries)) ∧
    (∀ entries, Makes (ofList entries) (.ofList entries)) ∧
    ∀ {t : Table} {f : Association}, t.Reached f →
      Increasing t.entries ∧ (∀ key value, ActsAtSearch t.entries key value) ∧
      (∀ key, t.find? key = .ok (f key.hash)) ∧
      (∀ key value, Makes (t.insert key value) (Function.update f key.hash (some value)) ∧
        ∀ u, t.insert key value = .ok u → ∀ other,
          u.find? other = if other.hash = key.hash then .ok (some value) else t.find? other) ∧
      (∀ key, ∃ u, t.erase key = .ok u ∧ ∀ other,
        u.find? other = if other.hash = key.hash then .ok none else t.find? other) ∧
      (∃ entries u, t.toList = .ok entries ∧ ofList entries = .ok u ∧
        u.cell.encode = t.cell.encode) ∧
      ∀ {u : Table} {g : Association}, u.Reached g →
        (∀ h, (g h).map Cell.encode = (f h).map Cell.encode) →
          Set.InjOn Hash.digest (keyEncodings t.entries ∪ keyEncodings u.entries) →
            u.cell.encode = t.cell.encode := by
  refine ⟨fun h hloaded => ?_, fun entries => (Realizes.nil.foldl entries).checked, fun {t f} ht => ?_⟩
  · obtain ⟨-, -, hshows⟩ := shows_of_loaded h hloaded
    obtain ⟨entries, hlist, -⟩ := exists_toList hshows
    exact ⟨entries, hlist, .loaded h hloaded hlist⟩
  · obtain ⟨hrealizes, hfits⟩ := ht.realizes
    refine ⟨hrealizes.increasing, actsAtSearch hrealizes.increasing, hrealizes.find?,
      fun key value => ⟨(hrealizes.insert key value).checked, fun u hu => ?_⟩, fun key => ?_,
      hrealizes.exists_relisted hfits, fun hu hfg hinj => ?_⟩
    · exact hrealizes.find?_update (Reached.insert ht hu).realizes.1
    · have herase := erase_eq hfits key
      exact ⟨_, herase, hrealizes.find?_update (hrealizes.erase key.hash)⟩
    · exact hrealizes.encode_eq hu.realizes.1 hfg hinj

/-- The value of 1 is set twice, with 2 in between, or once, behind 2. -/
theorem canonical_finite_map_twoKeys : ∃ t u s entries,
    ofList [(.long 1, .bool true), (.long 2, .nil), (.long 1, .bool false)] = .ok t ∧
      ofList [(.long 2, .nil), (.long 1, .bool false)] = .ok u ∧ u.cell.encode = t.cell.encode ∧
      t.toList = .ok entries ∧ t.Reached (.ofList entries) ∧
      t.erase (.long 2) = .ok s ∧ s.find? (.long 1) = .ok (some (.bool false)) := by
  have exists_of_isOk : ∀ {x : Except DataError Table}, x.isOk = true → ∃ t, x = .ok t := by
    rintro (e | t) hx
    · cases hx
    · exact ⟨t, rfl⟩
  obtain ⟨t, ht⟩ := exists_of_isOk (x := ofList [(.long 1, .bool true), (.long 2, .nil),
    (.long 1, .bool false)]) (by decide +kernel)
  obtain ⟨u, hu⟩ := exists_of_isOk (x := ofList [(.long 2, .nil), (.long 1, .bool false)])
    (by decide +kernel)
  obtain ⟨hloaded, -, hlaws⟩ := canonical_finite_map
  -- the map is built from scalars, so that it is loaded
  have hbuilt : Built [] 0 t.cell := by
    refine .table (fun e he => ?_) (fun e he => ?_) ht
    all_goals
      simp only [List.mem_cons, List.not_mem_nil, or_false] at he
      rcases he with rfl | rfl | rfl <;> constructor
  have hheld : t.cell.loaded = true := by
    have hparts := forall_mem_ofList (P := fun r => r.loaded = true) (Q := fun r => r.loaded = true)
      (fun e he => ?_) ht
    · refine Cell.loaded_iff.2 fun r hr => ?_
      obtain ⟨e, he, rfl | rfl⟩ := Cell.mem_map_refs_iff.1 hr
      · exact (hparts e he).1
      · exact (hparts e he).2
    · rw [Ref.loaded_of, Ref.loaded_of]
      simp only [List.mem_cons, List.not_mem_nil, or_false] at he
      rcases he with rfl | rfl | rfl <;> exact ⟨rfl, rfl⟩
  obtain ⟨entries, hlist, hreached⟩ := hloaded hbuilt hheld
  -- the two keys have different digests
  have hinj : Set.InjOn Hash.digest {bs | bs ∈ [(Cell.long 1).encode, (Cell.long 2).encode]} :=
    List.inj_on_of_nodup_map (by decide +kernel)
  have hne : (Cell.long 1).hash ≠ (Cell.long 2).hash := by decide +kernel
  obtain ⟨-, -, hfind, -, herase, -, hcanonical⟩ := hlaws (.ofList ht)
  have hsame := hcanonical (.ofList hu) (fun h => ?_) (hinj.mono (Set.union_subset
    ((keyEncodings_ofList ht).trans ?_) ((keyEncodings_ofList hu).trans ?_)))
  · obtain ⟨s, hs, hfinds⟩ := herase (.long 2)
    refine ⟨t, u, s, entries, ht, hu, hsame, hlist, hreached, hs, ?_⟩
    rw [hfinds, if_neg hne, hfind]
    simp only [Association.ofList, List.foldl_cons, List.foldl_nil, Function.update_self]
  · refine congrArg (Option.map Cell.encode) ?_
    simp only [Association.ofList, List.foldl_cons, List.foldl_nil, Function.update_apply]
    by_cases hone : h = (Cell.long 1).hash
    · rw [if_pos hone, if_pos hone]
    · rw [if_neg hone, if_neg hone, if_neg hone]
  · intro bs hbs
    simpa [or_comm, or_assoc] using hbs
  · intro bs hbs
    simpa [or_comm] using hbs

end Table

end CellMachine
