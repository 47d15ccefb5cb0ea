import CellMachine.Proofs.Cell.Compound
import CellMachine.Proofs.Cell.Contains
import CellMachine.Proofs.Codec.Vlc

/-!
# Entries in the order of their keys

The entries of a map are a list that increases by the hash of the key. Looking up, putting in and taking out
are recursions over this list, and what they do to each other is said through `lookup` alone
(`lookup_insertEntry`, `lookup_eraseEntry`). Since the order leaves no choice, `lookup` settles the list: two
lists in which every hash leads to related values have the same keys in the same places
(`forall₂_of_lookup`).

A search by halves does with fewer comparisons. It comes to the one position where a key stands or would have
to stand, and the three recursions do what is to be done at that position.

Main statements: `lookup_insertEntry`, `lookup_eraseEntry`, `forall₂_of_lookup` and `actsAtSearch`.
-/

namespace CellMachine.Table

variable {es es' : List (Ref × Ref)} {h : Hash}

/-! ## Looking up -/

theorem lookup_eq_none (hne : ∀ e ∈ es, e.1.hash ≠ h) : lookup h es = none := by
  induction es with
  | nil => rfl
  | cons e es ih =>
    obtain ⟨he, hes⟩ := List.forall_mem_cons.1 hne
    rw [lookup, if_neg he]
    exact ih hes

/-- No entry of a list in order has a key below the first one. -/
theorem lookup_of_lt (hlt : ∀ e ∈ es, h < e.1.hash) : lookup h es = none :=
  lookup_eq_none fun e he => (Hash.ne_of_lt (hlt e he)).symm

/-- In increasing entries a key below the first one is not found. -/
theorem lookup_of_lt_first {e : Ref × Ref} (hinc : Increasing (e :: es)) (hlt : h < e.1.hash) :
    lookup h (e :: es) = none := by
  obtain ⟨hfirst, -⟩ := List.pairwise_cons.1 hinc
  exact lookup_of_lt (List.forall_mem_cons.2 ⟨hlt, fun e' he' => Hash.lt_trans hlt (hfirst e' he')⟩)

theorem lookup_first (e : Ref × Ref) (es : List (Ref × Ref)) :
    lookup e.1.hash (e :: es) = some e.2 := by
  rw [lookup, if_pos rfl]

theorem lookup_of_ne_first {e : Ref × Ref} (hne : e.1.hash ≠ h) :
    lookup h (e :: es) = lookup h es := by
  rw [lookup, if_neg hne]

/-- What is found is the value of an entry with this key. -/
theorem exists_mem_of_lookup {r : Ref} (hr : lookup h es = some r) :
    ∃ e ∈ es, e.1.hash = h ∧ e.2 = r := by
  induction es with
  | nil => cases hr
  | cons e es ih =>
    rw [lookup] at hr
    by_cases hkey : e.1.hash = h
    · rw [if_pos hkey] at hr
      exact ⟨e, List.mem_cons_self, hkey, Option.some.inj hr⟩
    · rw [if_neg hkey] at hr
      obtain ⟨e', he', hfound⟩ := ih hr
      exact ⟨e', List.mem_cons_of_mem _ he', hfound⟩

/-- Inserting changes the answer for one key only, in whatever order the entries are. -/
theorem lookup_insertEntry (key value : Ref) :
    lookup h (insertEntry key value es) = if key.hash = h then some value else lookup h es := by
  induction es with
  | nil => rfl
  | cons e es ih =>
    obtain ⟨k, v⟩ := e
    rw [insertEntry]
    by_cases hlt : k.hash < key.hash
    · rw [if_pos hlt, lookup, lookup, ih]
      by_cases hk : k.hash = h
      -- the entry passed over has a lesser key, so it is not the one that is inserted
      · have hkey : key.hash ≠ h := (Hash.ne_of_lt (hk ▸ hlt)).symm
        rw [if_pos hk, if_neg hkey, if_pos hk]
      · rw [if_neg hk, if_neg hk]
    · rw [if_neg hlt]
      by_cases heq : k.hash = key.hash
      · rw [if_pos heq, lookup, lookup, heq]
        by_cases hkey : key.hash = h
        · rw [if_pos hkey, if_pos hkey]
        · rw [if_neg hkey, if_neg hkey, if_neg hkey]
      · rw [if_neg heq]
        rfl

/-- Erasing takes the first entry with the key, so the order is needed to know that there is no
second. -/
theorem lookup_eraseEntry (hinc : Increasing es) (key : Hash) :
    lookup h (eraseEntry key es) = if key = h then none else lookup h es := by
  induction es with
  | nil => simp [eraseEntry, lookup]
  | cons e es ih =>
    obtain ⟨k, v⟩ := e
    obtain ⟨hfirst, hrest⟩ := List.pairwise_cons.1 hinc
    rw [eraseEntry, lookup]
    by_cases hk : k.hash = key
    · rw [if_pos hk]
      by_cases hkey : key = h
      · -- the key does not stand a second time
        rw [if_pos hkey]
        exact lookup_of_lt fun e he => hkey ▸ hk ▸ hfirst e he
      · rw [if_neg hkey, if_neg (hk ▸ hkey)]
    · rw [if_neg hk, lookup, ih hrest]
      by_cases hkh : k.hash = h
      · rw [if_pos hkh, if_pos hkh, if_neg fun hkey => hk (hkh.trans hkey.symm)]
      · rw [if_neg hkh, if_neg hkh]

/-- There is nothing to erase for a key that is not found. -/
theorem eraseEntry_of_lookup (hnone : lookup h es = none) : eraseEntry h es = es := by
  induction es with
  | nil => rfl
  | cons e es ih =>
    obtain ⟨k, v⟩ := e
    rw [lookup] at hnone
    by_cases hk : k.hash = h
    · rw [if_pos hk] at hnone
      cases hnone
    · rw [if_neg hk] at hnone
      rw [eraseEntry, if_neg hk, ih hnone]

/-! ## What is looked up settles the entries -/

/-- Lists in order in which every hash leads to related values have the same keys in the same places. -/
theorem forall₂_of_lookup {R : Ref → Ref → Prop} (hinc : Increasing es) (hinc' : Increasing es')
    (hlookup : ∀ h, Option.Rel R (lookup h es) (lookup h es')) :
    List.Forall₂ (fun e e' => e'.1.hash = e.1.hash ∧ R e.2 e'.2) es es' := by
  induction es generalizing es' with
  | nil =>
    cases es' with
    | nil => exact .nil
    | cons e' es' =>
      have hfirst := hlookup e'.1.hash
      rw [lookup_first] at hfirst
      cases hfirst
  | cons e es ih =>
    cases es' with
    | nil =>
      have hfirst := hlookup e.1.hash
      rw [lookup_first] at hfirst
      cases hfirst
    | cons e' es' =>
      have hfirst := hlookup e.1.hash
      have hfirst' := hlookup e'.1.hash
      rw [lookup_first] at hfirst hfirst'
      -- the lesser one of two different first keys would be missing from the other list
      have hkey : e.1.hash = e'.1.hash := by
        rcases Hash.lt_trichotomy e.1.hash e'.1.hash with hlt | heq | hlt
        · rw [lookup_of_lt_first hinc' hlt] at hfirst
          cases hfirst
        · exact heq
        · rw [lookup_of_lt_first hinc hlt] at hfirst'
          cases hfirst'
      obtain ⟨hlt, hrest⟩ := List.pairwise_cons.1 hinc
      obtain ⟨hlt', hrest'⟩ := List.pairwise_cons.1 hinc'
      rw [hkey, lookup_first] at hfirst
      cases hfirst with
      | some hvalue =>
        refine .cons ⟨hkey.symm, hvalue⟩ (ih hrest hrest' fun h => ?_)
        by_cases hh : e.1.hash = h
        · subst hh
          rw [lookup_of_lt hlt, lookup_of_lt fun e he => hkey ▸ hlt' e he]
          exact .none
        · have hboth := hlookup h
          rwa [lookup_of_ne_first hh, lookup_of_ne_first (hkey ▸ hh)] at hboth

/-- Lists of entries with the same keys and related values give related answers. -/
theorem lookup_of_forall₂ {R : Ref → Ref → Prop} (h : Hash)
    (hes : List.Forall₂ (fun e e' => e'.1.hash = e.1.hash ∧ R e.2 e'.2) es es') :
    Option.Rel R (lookup h es) (lookup h es') := by
  induction hes with
  | nil => exact .none
  | @cons e e' _ _ he _ ih =>
    by_cases hkey : e.1.hash = h
    · subst hkey
      rw [lookup_first, ← he.1, lookup_first]
      exact .some he.2
    · rw [lookup_of_ne_first hkey, lookup_of_ne_first (he.1 ▸ hkey)]
      exact ih

/-! ## Behind lesser keys -/

section Behind
variable {before : List (Ref × Ref)}

theorem lookup_append_of_lt (hlt : ∀ e ∈ before, e.1.hash < h) :
    lookup h (before ++ es) = lookup h es := by
  induction before with
  | nil => rfl
  | cons e before ih =>
    obtain ⟨he, hbefore⟩ := List.forall_mem_cons.1 hlt
    rw [List.cons_append, lookup_of_ne_first (Hash.ne_of_lt he)]
    exact ih hbefore

theorem insertEntry_append_of_lt {key : Ref} (hlt : ∀ e ∈ before, e.1.hash < key.hash)
    (value : Ref) : insertEntry key value (before ++ es) = before ++ insertEntry key value es := by
  induction before with
  | nil => rfl
  | cons e before ih =>
    obtain ⟨he, hbefore⟩ := List.forall_mem_cons.1 hlt
    rw [List.cons_append, insertEntry, if_pos he, ih hbefore]
    rfl

theorem eraseEntry_append_of_lt (hlt : ∀ e ∈ before, e.1.hash < h) :
    eraseEntry h (before ++ es) = before ++ eraseEntry h es := by
  induction before with
  | nil => rfl
  | cons e before ih =>
    obtain ⟨he, hbefore⟩ := List.forall_mem_cons.1 hlt
    rw [List.cons_append, eraseEntry, if_neg (Hash.ne_of_lt he), ih hbefore]
    rfl

end Behind

theorem insertEntry_of_lt {key : Ref} (hlt : ∀ e ∈ es, key.hash < e.1.hash) (value : Ref) :
    insertEntry key value es = (key, value) :: es := by
  cases es with
  | nil => rfl
  | cons e es =>
    have he := hlt e List.mem_cons_self
    rw [insertEntry, if_neg fun hgt => Hash.lt_irrefl _ (Hash.lt_trans he hgt),
      if_neg (Hash.ne_of_lt he).symm]

/-- The only thing that can be wrong with a new map is its size. -/
theorem exists_of_ofList_eq_error {entries : List (Cell × Cell)} {e : DataError}
    (h : ofList entries = .error e) : ∃ n, e = .violation (.mapSize n maxEncoding) := by
  rw [ofList] at h
  generalize Table.mk _ = t at h
  rw [checked] at h
  by_cases hlong : maxEncoding < t.cell.encode.length
  · rw [if_pos hlong] at h
    cases h
    exact ⟨_, rfl⟩
  · rw [if_neg hlong] at h
    cases h

/-! ## Listing entries -/

/-- A map can be listed if all its references hold their cells. -/
theorem toList_eq_ok_iff {t : Table} {es : List (Cell × Cell)} : t.toList = .ok es ↔
    List.Forall₂ (fun e p => e.1.held? = some p.1 ∧ e.2.held? = some p.2) t.entries es := by
  rw [toList, mapM_eq_ok_iff]
  have hread : ∀ (e : Ref × Ref) (p : Cell × Cell),
      (do let k ← e.1.cell; let v ← e.2.cell; Except.ok (k, v)) = .ok p ↔
        e.1.held? = some p.1 ∧ e.2.held? = some p.2 := by
    intro e p
    rw [bind_eq_ok_iff, ← Ref.cell_eq_ok_iff, ← Ref.cell_eq_ok_iff]
    constructor
    · rintro ⟨k, hk, h⟩
      obtain ⟨v, hv, h⟩ := bind_eq_ok_iff.1 h
      cases h
      exact ⟨hk, hv⟩
    · rintro ⟨hk, hv⟩
      exact ⟨p.1, hk, bind_eq_ok_iff.2 ⟨p.2, hv, rfl⟩⟩
  constructor
  · exact fun h => h.imp fun e p => (hread e p).1
  · exact fun h => h.imp fun e p => (hread e p).2

/-- The values that are listed are inside the map. -/
theorem contains_of_toList {t : Table} {es : List (Cell × Cell)} (h : t.toList = .ok es) :
    ∀ e ∈ es, t.cell.Contains e.2 := by
  intro e he
  obtain ⟨p, hp, -, hvalue⟩ := exists_of_forall₂_right (toList_eq_ok_iff.1 h) he
  exact Cell.contains_of_held (Cell.value_mem_refs hp) hvalue

/-- The map of what a closure has captured is inside of it. -/
theorem contains_of_bindings {c : Closure} {t : Table} (h : c.bindings = .ok t) :
    (Cell.fn c).Contains t.cell := by
  obtain ⟨d, hd, ht⟩ := bind_eq_ok_iff.1 h
  have henv : c.env ∈ (Cell.fn c).refs :=
    List.mem_cons_of_mem _ (List.mem_cons_of_mem _ List.mem_cons_self)
  have hcontains := Cell.contains_of_held henv (Ref.cell_eq_ok_iff.1 hd)
  cases d with
  | map entries =>
    cases ht
    exact hcontains
  | _ => cases ht

/-- The references by which a new map would hold the entries. -/
def refsOf (entries : List (Cell × Cell)) : List (Ref × Ref) :=
  entries.map fun e => (.of e.1, .of e.2)

/-- Entries that increase are put in one behind the other. -/
theorem foldl_insertEntry {before : List (Ref × Ref)} {entries : List (Cell × Cell)}
    (hinc : Increasing (before ++ refsOf entries)) :
    entries.foldl (fun es e => insertEntry (.of e.1) (.of e.2) es) before =
      before ++ refsOf entries := by
  induction entries generalizing before with
  | nil => exact (List.append_nil before).symm
  | cons e entries ih =>
    -- the next key is above all that were inserted, so it goes to the end
    have hlt : ∀ a ∈ before, a.1.hash < (Ref.of e.1).hash := fun a ha =>
      (List.pairwise_append.1 hinc).2.2 a ha _ List.mem_cons_self
    have hone : insertEntry (.of e.1) (.of e.2) (before ++ []) =
        before ++ [(Ref.of e.1, Ref.of e.2)] := insertEntry_append_of_lt hlt (.of e.2)
    have hsplit : before ++ refsOf (e :: entries) =
        (before ++ [(Ref.of e.1, Ref.of e.2)]) ++ refsOf entries := by
      rw [List.append_assoc]
      rfl
    rw [hsplit] at hinc
    rw [List.append_nil] at hone
    rw [List.foldl_cons, hone, ih hinc, hsplit]

/-! ## Fewer entries are shorter -/

/-- Leaving out entries makes the encoding shorter. -/
theorem length_encodeEntries_le (hsub : es.Sublist es') :
    (encodeEntries es).length ≤ (encodeEntries es').length := by
  induction hsub with
  | slnil => exact Nat.le_refl _
  | cons e _ ih =>
    rw [encodeEntries, List.length_append, List.length_append]
    omega
  | cons_cons e _ ih =>
    rw [encodeEntries, encodeEntries]
    simp only [List.length_append]
    omega

/-- Neither the count in front nor any entry grows when entries are left out. -/
theorem length_encode_le_of_sublist (hsub : es.Sublist es') :
    (Cell.map es).encode.length ≤ (Cell.map es').encode.length := by
  have hcount := Vlc.length_encodeNat_mono hsub.length_le
  have hentries := length_encodeEntries_le hsub
  rw [Cell.encode, Cell.encode, List.length_cons, List.length_cons, List.length_append,
    List.length_append]
  omega

/-! ## Searching by halves -/

/-- Looks for a key between two positions, by halves: yields the position of its entry, or else, as an error,
the one at which its entry would have to stand. -/
def search (h : Hash) (es : List (Ref × Ref)) (lo hi : Nat) : Except Nat Nat :=
  if lo < hi then
    let mid := lo + (hi - lo) / 2
    match es[mid]? with
    | none => .error lo
    | some e =>
      if e.1.hash < h then search h es (mid + 1) hi
      else if e.1.hash = h then .ok mid
      else search h es lo mid
  else .error lo
termination_by hi - lo

/-- An entry cuts a list in order into lesser and greater keys. -/
theorem cut_of_getElem? {e : Ref × Ref} {i : Nat} (hinc : Increasing es) (he : es[i]? = some e) :
    es.drop i = e :: es.drop (i + 1) ∧ (∀ a ∈ es.take i, a.1.hash < e.1.hash) ∧
      ∀ a ∈ es.drop (i + 1), e.1.hash < a.1.hash := by
  obtain ⟨hi, rfl⟩ := List.getElem?_eq_some_iff.1 he
  have hdrop := List.drop_eq_getElem_cons hi
  rw [← List.take_append_drop i es, hdrop] at hinc
  obtain ⟨-, hrest, hlt⟩ := List.pairwise_append.1 hinc
  exact ⟨hdrop, fun a ha => hlt a ha _ List.mem_cons_self, (List.pairwise_cons.1 hrest).1⟩

/-- Where a search for a key has to end: at its entry, or else behind all lesser keys and before all greater
ones. -/
def Ends (h : Hash) (es : List (Ref × Ref)) : Except Nat Nat → Prop
  | .ok i => ∃ e, es[i]? = some e ∧ e.1.hash = h
  | .error i => (∀ e ∈ es.take i, e.1.hash < h) ∧ ∀ e ∈ es.drop i, h < e.1.hash

/-- Half of what is left is ruled out at every turn. -/
theorem ends_search {lo hi : Nat} (hinc : Increasing es) (hle : lo ≤ hi) (hhi : hi ≤ es.length)
    (hbelow : ∀ e ∈ es.take lo, e.1.hash < h) (habove : ∀ e ∈ es.drop hi, h < e.1.hash) :
    Ends h es (search h es lo hi) := by
  fun_induction search h es lo hi with
  | case1 lo hi hlt mid hnone =>
    rw [List.getElem?_eq_none_iff] at hnone
    omega
  | case2 lo hi hlt mid e he hless ih =>
    obtain ⟨-, hbefore, -⟩ := cut_of_getElem? hinc he
    refine ih (by omega) hhi ?_ habove
    -- everything up to the middle is less, the middle too
    rw [List.take_add_one, he]
    intro a ha
    rcases List.mem_append.1 ha with ha | ha
    · exact Hash.lt_trans (hbefore a ha) hless
    · rwa [List.mem_singleton.1 ha]
  | case3 lo hi hlt mid e he _ hfound => exact ⟨e, he, hfound⟩
  | case4 lo hi hlt mid e he hnotless hne ih =>
    obtain ⟨hdrop, -, hbehind⟩ := cut_of_getElem? hinc he
    have hgreater : h < e.1.hash :=
      ((Hash.lt_trichotomy e.1.hash h).resolve_left hnotless).resolve_left hne
    refine ih (by omega) (by omega) hbelow ?_
    rw [hdrop]
    exact List.forall_mem_cons.2 ⟨hgreater, fun a ha => Hash.lt_trans hgreater (hbehind a ha)⟩
  | case5 lo hi hge =>
    -- nothing is left between the two halves
    have heq : lo = hi := by omega
    exact ⟨hbelow, heq ▸ habove⟩

/-- Looking up, putting in and taking out are done at the position at which a search by halves ends. -/
def ActsAtSearch (es : List (Ref × Ref)) (key value : Ref) : Prop :=
  match search key.hash es 0 es.length with
  | .ok i => ∃ e, es[i]? = some e ∧ lookup key.hash es = some e.2 ∧
      insertEntry key value es = es.set i (e.1, value) ∧ eraseEntry key.hash es = es.eraseIdx i
  | .error i => lookup key.hash es = none ∧
      insertEntry key value es = es.take i ++ (key, value) :: es.drop i ∧
      eraseEntry key.hash es = es

/-- In increasing entries the place that the search ends at is the right one for every access. -/
theorem actsAtSearch (hinc : Increasing es) (key value : Ref) : ActsAtSearch es key value := by
  have hends : Ends key.hash es (search key.hash es 0 es.length) :=
    ends_search hinc (Nat.zero_le _) (Nat.le_refl _) (by simp) (by simp)
  unfold ActsAtSearch
  cases hsearch : search key.hash es 0 es.length with
  | ok i =>
    rw [hsearch] at hends
    obtain ⟨e, he, hkey⟩ := hends
    obtain ⟨hdrop, hbefore, -⟩ := cut_of_getElem? hinc he
    have hi := (List.getElem?_eq_some_iff.1 he).1
    rw [hkey] at hbefore
    -- the entries around the one that was found
    have hcut : es = es.take i ++ e :: es.drop (i + 1) := by rw [← hdrop, List.take_append_drop]
    refine ⟨e, he, ?_, ?_, ?_⟩
    · rw [hcut, lookup_append_of_lt hbefore, ← hkey, lookup_first]
    · rw [List.set_eq_take_append_cons_drop, if_pos hi]
      nth_rewrite 1 [hcut]
      rw [insertEntry_append_of_lt hbefore, insertEntry, if_neg (hkey ▸ Hash.lt_irrefl _), if_pos hkey]
    · rw [List.eraseIdx_eq_take_drop_succ]
      nth_rewrite 1 [hcut]
      rw [eraseEntry_append_of_lt hbefore, eraseEntry, if_pos hkey]
  | error i =>
    rw [hsearch] at hends
    obtain ⟨hbefore, hbehind⟩ := hends
    have hnone : lookup key.hash es = none := by
      rw [← List.take_append_drop i es, lookup_append_of_lt hbefore, lookup_of_lt hbehind]
    refine ⟨hnone, ?_, eraseEntry_of_lookup hnone⟩
    nth_rewrite 1 [← List.take_append_drop i es]
    rw [insertEntry_append_of_lt hbefore, insertEntry_of_lt hbehind]

end CellMachine.Table
