import CellMachine.Proofs.Built

/-!
# What holds of every reference

A property of references holds *throughout* a cell if every reference in it has the property, at any
depth. New references come about in one way only: a new parent refers to its parts. All others are
taken over from the cells at hand, wherever they end up. So a property that new references have
holds throughout whatever the operations make of cells throughout which it holds.

Not all new references need to have it. Operations on vectors make new nodes, and put elements of one
vector into another; what else they refer to they are given (`Ref.Renewed`).

Main statements: `Cell.throughout_iff` and `Built.throughout` (a property that new references have,
that decoding yields and that loading keeps holds throughout every cell that can be built).
-/

namespace CellMachine

variable {P : Ref → Prop}

/-- Every reference in the cell, at any depth, has the property. -/
def Cell.Throughout (P : Ref → Prop) (c : Cell) : Prop := ∀ d, c.Contains d → ∀ r ∈ d.refs, P r

/-- The reference has the property, and so has every reference in the cell that it holds. -/
structure Ref.Throughout (P : Ref → Prop) (r : Ref) : Prop where
  here : P r
  inside : ∀ d, r.held? = some d → d.Throughout P

namespace Cell
variable {c d : Cell}

/-- The property is one of the references in a cell and of those behind them, so it can be checked
one level at a time. -/
theorem throughout_iff : c.Throughout P ↔ ∀ r ∈ c.refs, r.Throughout P := by
  constructor
  · intro h r hr
    exact ⟨h c .self r hr, fun d hd e he => h e ((contains_of_held hr hd).trans he)⟩
  · intro h d hd
    obtain rfl | ⟨r, hr, e, he, hcontains⟩ := contains_iff.1 hd
    · exact fun r hr => (h r hr).here
    · exact (h r hr).inside e he d hcontains

/-- What holds throughout a cell holds throughout whatever it contains. -/
theorem Throughout.of_contains (h : c.Throughout P) (hd : c.Contains d) : d.Throughout P :=
  fun e he => h e (hd.trans he)

theorem Throughout.refs (h : c.Throughout P) {r : Ref} (hr : r ∈ c.refs) : r.Throughout P :=
  throughout_iff.1 h r hr

theorem Throughout.mono {Q : Ref → Prop} (h : c.Throughout P) (hPQ : ∀ r, P r → Q r) :
    c.Throughout Q :=
  fun d hd r hr => hPQ r (h d hd r hr)

/-- Of a cell without references there is nothing to show. -/
theorem throughout_of_no_refs (h : c.refs = []) : c.Throughout P := by
  rw [throughout_iff, h]
  exact fun r hr => by cases hr

end Cell

/-- The items of a vector with a tail come before its front. -/
theorem Vec.throughout_tailed {n : Nat} {front : Ref} {items : List Ref}
    (hitems : ∀ r ∈ items, r.Throughout P) (hfront : front.Throughout P) :
    (tailed n front items).cell.Throughout P :=
  Cell.throughout_iff.2 (List.forall_mem_append.2 ⟨hitems, List.forall_mem_singleton.2 hfront⟩)

theorem Vec.front_throughout {n : Nat} {front : Ref} {items : List Ref}
    (h : (tailed n front items).cell.Throughout P) : front.Throughout P :=
  have hfront : front ∈ (tailed n front items).refs := front_mem_refs
  h.refs hfront

theorem Vec.items_throughout {n : Nat} {front : Ref} {items : List Ref}
    (h : (tailed n front items).cell.Throughout P) : ∀ r ∈ items, r.Throughout P :=
  fun _ hr => h.refs (List.mem_append_left [front] hr)

/-- The reference by which a new parent holds a cell throughout which the property holds. -/
theorem Ref.throughout_of {c : Cell} (hc : P (.of c)) (h : c.Throughout P) : (Ref.of c).Throughout P := by
  refine ⟨hc, fun d hd => ?_⟩
  rw [Ref.held?_of] at hd
  cases hd
  exact h

/-- What holds throughout a new parent holds throughout the cell it was made of. -/
theorem Ref.Throughout.here_of {c : Cell} (h : (Ref.of c).Throughout P) : c.Throughout P :=
  h.inside c (Ref.held?_of c)

/-- Operations on vectors make references of two kinds, besides those to the elements that they are given: to
vectors, and to cells that a vector at hand refers to already. The property is *renewed* if both kinds have it. -/
structure Ref.Renewed (P : Ref → Prop) : Prop where
  vec (v : Vec) : P (.of v.cell)
  again {r : Ref} {c : Cell} (hr : P r) (hc : r.held? = some c) : P (.of c)

/-- What all new references have is renewed. -/
theorem Ref.renewed_of_forall (hof : ∀ c, P (.of c)) : Ref.Renewed P :=
  ⟨fun v => hof v.cell, fun _ _ => hof _⟩

namespace Ref.Renewed
variable (hP : Ref.Renewed P)
include hP

theorem throughout_vec {v : Vec} (h : v.cell.Throughout P) : (Ref.of v.cell).Throughout P :=
  Ref.throughout_of (hP.vec v) h

/-- A cell may be given a new parent in place of one that it has. -/
theorem throughout_again {r : Ref} {c : Cell} (hr : r.Throughout P) (hc : r.held? = some c) :
    (Ref.of c).Throughout P :=
  Ref.throughout_of (hP.again hr.here hc) (hr.inside c hc)

/-- What a vector contains can be made an element of another one. -/
theorem throughout_of_contains {v : Vec} {c : Cell} (hv : v.cell.Throughout P) (h : v.cell.Contains c) :
    (Ref.of c).Throughout P := by
  cases h with
  | self => exact hP.throughout_vec hv
  | part hd hr hc => exact hP.throughout_again ((hv.of_contains hd).refs hr) hc

end Ref.Renewed

/-! ## Properties of what is held -/

/-- If the reference holds a cell, that has the property. -/
def Ref.Holds (D : Cell → Prop) (r : Ref) : Prop := ∀ d, r.held? = some d → D d

/-- A new parent holds the cell that it was made of. -/
theorem Ref.holds_of {D : Cell → Prop} {c : Cell} (hc : D c) : (Ref.of c).Holds D := by
  intro d hd
  rw [Ref.held?_of] at hd
  cases hd
  exact hc

/-- A cell and all that is inside of it have a property if all references hold cells that have it, from the one of
a new parent on. -/
theorem Ref.throughout_holds_iff {D : Cell → Prop} {c : Cell} :
    (Ref.of c).Throughout (Ref.Holds D) ↔ ∀ d, c.Contains d → D d := by
  constructor
  · intro h d hd
    cases hd with
    | self => exact h.here c (Ref.held?_of c)
    | part hd hr he => exact h.here_of _ hd _ hr _ he
  · exact fun h => throughout_of (holds_of (h c .self)) fun d hd r hr e he => h e (.part hd hr he)

/-- Where vectors come in does not matter if all of them have the property. -/
theorem Ref.renewed_holds {D : Cell → Prop} (hvec : ∀ v : Vec, D v.cell) : Ref.Renewed (Ref.Holds D) where
  vec v := Ref.holds_of (hvec v)
  again hr hc := Ref.holds_of (hr _ hc)

/-- Reading a reference as a vector leads below it. -/
theorem Ref.Throughout.vec {r : Ref} {v : Vec} (h : r.Throughout P) (hv : r.vec = .ok v) :
    v.cell.Throughout P :=
  h.inside _ (Ref.vec_eq_ok_iff.1 hv)

namespace Vec

section Operations
variable (hP : Ref.Renewed P)
include hP

/-! ## Whole chunks -/

/-- A chunk is one of the references in the vector, unless the vector is a chunk itself. -/
theorem throughout_chunkAt {v : Vec} {offset : Nat} {r : Ref} (hv : v.cell.Throughout P)
    (h : chunkAt v offset = .ok r) : r.Throughout P := by
  -- on the vector: chunks lie below its references, at another offset
  induction v using Vec.induction generalizing offset with
  | step v ih =>
    have hnode : ∀ s ∈ v.refs, ∀ j, refChunkAt s j = .ok r → r.Throughout P := by
      intro s hs j hj
      rw [refChunkAt_eq, bind_eq_ok_iff] at hj
      obtain ⟨u, hu, hj⟩ := hj
      exact ih s hs u hu ((hv.refs hs).vec hu) hj
    cases v with
    | chunk items =>
      unfold chunkAt at h
      split at h
      · cases h
        exact hP.throughout_vec hv
      · cases h
    | tailed n front items =>
      unfold chunkAt at h
      split at h
      · exact hnode front front_mem_refs _ h
      · cases h
    | tree n children =>
      unfold chunkAt at h
      simp only at h
      split at h
      · split at h
        · next s hs =>
          cases h
          exact hv.refs (List.mem_of_getElem? hs)
        · cases h
      · rw [refsChunkAt_eq] at h
        split at h
        · next s hs => exact hnode s (List.mem_of_getElem? hs) _ h
        · cases h

/-! ## Building -/

/-- Packing chunks into a tree only makes new parents of vectors. -/
theorem throughout_pack {height : Nat} {chunks : List Vec}
    (h : ∀ v ∈ chunks, v.cell.Throughout P) : (pack height chunks).cell.Throughout P := by
  -- on the height, for any chunks, since each level packs its own pieces
  induction height generalizing chunks with
  | zero =>
    cases chunks with
    | nil => exact Cell.throughout_of_no_refs rfl
    | cons v chunks => exact h v List.mem_cons_self
  | succ height ih =>
    rw [pack]
    split
    · exact ih h
    · refine Cell.throughout_iff.2 fun r hr => ?_
      obtain ⟨piece, hp, rfl⟩ := List.mem_map.1 hr
      exact hP.throughout_vec (ih fun v hv => h v ((mem_pieces hp).2.2 v hv))

/-- A vector is packed from the references it is made of, cut up into chunks. -/
theorem throughout_ofRefs {refs : List Ref} (h : ∀ r ∈ refs, r.Throughout P) :
    (ofRefs refs).cell.Throughout P := by
  -- the full chunks are cut off the front, and each holds some of the references
  have hfront : ∀ full, (ofChunks ((pieces (chunkSize - 1) (refs.take full)).map
      .chunk)).cell.Throughout P := by
    refine fun full => throughout_pack hP fun v hv => ?_
    obtain ⟨piece, hp, rfl⟩ := List.mem_map.1 hv
    refine Cell.throughout_iff.2 fun r hr => h r ?_
    exact List.take_subset _ _ ((mem_pieces hp).2.2 r hr)
  unfold ofRefs
  simp only
  split
  · exact Cell.throughout_iff.2 h
  · split
    · exact hfront _
    · exact throughout_tailed (fun r hr => h r (List.drop_subset _ _ hr))
        (hP.throughout_vec (hfront _))

/-- A vector of cells has new parents for its items. -/
theorem throughout_of {items : List Cell} (h : ∀ c ∈ items, (Ref.of c).Throughout P) :
    (Vec.of items).cell.Throughout P :=
  throughout_ofRefs hP (List.forall_mem_map.2 h)

/-! ## Appending -/

/-- A vector that gets one level taller has two new parents in it. -/
theorem throughout_taller {n : Nat} {v full : Vec} (hv : v.cell.Throughout P)
    (hfull : full.cell.Throughout P) : (taller n v full).cell.Throughout P :=
  Cell.throughout_iff.2 (List.forall_mem_cons.2
    ⟨hP.throughout_vec hv, List.forall_mem_singleton.2 (hP.throughout_vec hfull)⟩)

/-- Pushing a chunk renews the parents on the way to the place where it goes. -/
theorem throughout_pushChunk {v full u : Vec} (hv : v.cell.Throughout P)
    (hfull : full.cell.Throughout P) (h : pushChunk v full = .ok u) : u.cell.Throughout P := by
  induction v using Vec.induction generalizing u with
  | step v ih =>
    cases v with
    | chunk items | tailed n front items =>
      cases h
      exact throughout_taller hP hv hfull
    | tree n children =>
      unfold pushChunk at h
      simp only at h
      split at h
      · cases h
        exact throughout_taller hP hv hfull
      · split at h
        · obtain ⟨children', hchildren, h⟩ := bind_eq_ok_iff.1 h
          cases h
          obtain rfl | ⟨init, last, rfl⟩ := List.eq_nil_or_concat children
          · cases hchildren
            exact Cell.throughout_of_no_refs rfl
          · -- the last child takes the chunk
            rw [List.concat_eq_append] at *
            rw [refsPushChunk_concat, bind_eq_ok_iff] at hchildren
            obtain ⟨t, ht, hchildren⟩ := hchildren
            obtain ⟨t', ht', hchildren⟩ := bind_eq_ok_iff.1 hchildren
            cases hchildren
            have hlast : last ∈ (tree n (init ++ [last])).refs :=
              List.mem_append_right _ List.mem_cons_self
            have htail := ih last hlast t ht ((hv.refs hlast).vec ht) ht'
            refine Cell.throughout_iff.2 (List.forall_mem_append.2 ⟨fun r hr => ?_, ?_⟩)
            · exact hv.refs (List.mem_append_left _ hr)
            · exact List.forall_mem_singleton.2 (hP.throughout_vec htail)
        · cases h
          exact Cell.throughout_iff.2 (List.forall_mem_append.2 ⟨fun r hr => hv.refs hr,
            List.forall_mem_singleton.2 (hP.throughout_vec hfull)⟩)

/-- Pushing an element puts it behind the items, or makes a chunk of them first. -/
theorem throughout_push {v u : Vec} {c : Cell} (hv : v.cell.Throughout P)
    (hc : (Ref.of c).Throughout P) (h : v.push c = .ok u) : u.cell.Throughout P := by
  have hone : ∀ r ∈ [Ref.of c], r.Throughout P := List.forall_mem_singleton.2 hc
  have hself := hP.throughout_vec hv
  unfold push at h
  cases v with
  | chunk items =>
    simp only at h
    -- a full chunk becomes a front, and the element starts a tail
    split at h
    · cases h
      exact Cell.throughout_iff.2 (List.forall_mem_append.2 ⟨fun r hr => hv.refs hr, hone⟩)
    · cases h
      exact throughout_tailed hone hself
  | tailed n front items =>
    have hitems : ∀ r ∈ items ++ [Ref.of c], r.Throughout P :=
      List.forall_mem_append.2 ⟨items_throughout hv, hone⟩
    have hfront := front_throughout hv
    simp only at h
    split at h
    · rw [refPushChunk_eq, bind_eq_ok_iff] at h
      obtain ⟨t, ht, hpush⟩ := h
      have hchunk : (chunk (items ++ [Ref.of c])).cell.Throughout P := Cell.throughout_iff.2 hitems
      exact throughout_pushChunk hP (hfront.vec ht) hchunk hpush
    · cases h
      exact throughout_tailed hitems hfront
  | tree n children =>
    cases h
    exact throughout_tailed hone hself

/-- Appending takes over whole chunks by reference and pushes the other elements one by one. -/
theorem throughout_extend {src out u : Vec} {stop left i : Nat} (hsrc : src.cell.Throughout P)
    (hout : out.cell.Throughout P) (h : extend src stop left out i = .ok u) :
    u.cell.Throughout P := by
  induction left generalizing out i with
  | zero =>
    cases h
    exact hout
  | succ left ih =>
    unfold extend at h
    split at h
    · cases h
      exact hout
    · split at h
      · -- a chunk of the source is taken over by reference, whatever it holds
        obtain ⟨r, hr, h⟩ := bind_eq_ok_iff.1 h
        obtain ⟨full, hfull, h⟩ := bind_eq_ok_iff.1 h
        have hchunk := (throughout_chunkAt hP hsrc hr).vec hfull
        simp only at h
        split at h
        · exact ih hchunk h
        · obtain ⟨out', hout', h⟩ := bind_eq_ok_iff.1 h
          exact ih (throughout_pushChunk hP hout hchunk hout') h
      · obtain ⟨c, hc, h⟩ := bind_eq_ok_iff.1 h
        obtain ⟨out', hout', h⟩ := bind_eq_ok_iff.1 h
        exact ih (throughout_push hP hout (hP.throughout_of_contains hsrc (contains_of_get hc)) hout') h

theorem throughout_slice {v u : Vec} {start length : Nat} (hv : v.cell.Throughout P)
    (h : v.slice start length = .ok u) : u.cell.Throughout P := by
  unfold slice at h
  simp only at h
  split at h
  · exact throughout_extend hP hv (Cell.throughout_of_no_refs rfl) h
  · cases h

/-! ## Removing -/

/-- What is left of a packed vector without its last chunk, if anything, and that chunk. -/
theorem throughout_splitLast {v last : Vec} {o : Option Cell} (hv : v.cell.Throughout P)
    (h : splitLast v = .ok (o, last)) :
    (∀ c, o = some c → (Ref.of c).Throughout P) ∧ last.cell.Throughout P := by
  induction v using Vec.induction generalizing o with
  | step v ih =>
    cases v with
    | chunk items | tailed n front items =>
      cases h
      exact ⟨fun c hc => (by cases hc), hv⟩
    | tree n children =>
      obtain ⟨⟨rest, last'⟩, hrest, h⟩ := bind_eq_ok_iff.1 h
      obtain ⟨c, hc, h⟩ := bind_eq_ok_iff.1 h
      cases h
      have hparts : (∀ r ∈ rest, r.Throughout P) ∧ last.cell.Throughout P := by
        by_cases hne : children = []
        · subst hne
          cases hrest
          exact ⟨fun r hr => (by cases hr), Cell.throughout_of_no_refs rfl⟩
        · -- the last child loses its chunk, and disappears if it had no other
          obtain ⟨init, r, t, o', rfl, ht, hsplit, rfl⟩ := refsSplitLast_eq_ok hne hrest
          have hr : r ∈ (tree n (init ++ [r])).refs :=
            List.mem_append_right _ List.mem_cons_self
          obtain ⟨ho', hlast⟩ := ih r hr t ht ((hv.refs hr).vec ht) hsplit
          refine ⟨List.forall_mem_append.2 ⟨fun s hs => hv.refs (List.mem_append_left _ hs), ?_⟩,
            hlast⟩
          cases o' with
          | none => exact fun s hs => by cases hs
          | some d => exact List.forall_mem_singleton.2 (ho' d rfl)
      refine ⟨fun d hd => ?_, hparts.2⟩
      cases hd
      -- a single child that is left is the whole vector
      unfold remainder at hc
      split at hc
      · exact hP.throughout_again (hparts.1 _ List.mem_cons_self) (Ref.cell_eq_ok_iff.1 hc)
      · cases hc
        exact hP.throughout_vec (Cell.throughout_iff.2 hparts.1)

/-- Popping takes an item off, or the last chunk out of the tree if there is none. -/
theorem throughout_pop {v u : Vec} (hv : v.cell.Throughout P) (h : v.pop = .ok u) :
    u.cell.Throughout P := by
  unfold pop at h
  split at h
  · cases h
  · cases h
    exact Cell.throughout_iff.2 fun r hr => hv.refs (List.dropLast_subset _ hr)
  · next n front r => exact (front_throughout hv).vec h
  · next n front items hone =>
    cases h
    exact throughout_tailed (fun r hr => items_throughout hv r (List.dropLast_subset _ hr))
      (front_throughout hv)
  · next n children =>
    obtain ⟨⟨o, last⟩, hsplit, h⟩ := bind_eq_ok_iff.1 h
    obtain ⟨hrest, hlast⟩ := throughout_splitLast hP hv hsplit
    obtain ⟨items, hitems, h⟩ := bind_eq_ok_iff.1 h
    -- the last chunk comes from inside the tree, whichever shape it has
    have hdrop : ∀ r ∈ items.dropLast, r.Throughout P := by
      intro r hr
      have hr := List.dropLast_subset _ hr
      cases last with
      | chunk items' =>
        cases hitems
        exact hlast.refs hr
      | tailed m front items' =>
        cases hitems
        exact items_throughout hlast r hr
      | tree m children => cases hitems
    cases o with
    | some c =>
      cases h
      exact throughout_tailed hdrop (hrest c rfl)
    | none =>
      cases h
      exact Cell.throughout_iff.2 hdrop

/-! ## Replacing -/

omit hP in
theorem throughout_setItem {items items' : List Ref} {i index count : Nat} {r : Ref}
    (hitems : ∀ s ∈ items, s.Throughout P) (hr : r.Throughout P)
    (h : setItem items i r index count = .ok items') : ∀ s ∈ items', s.Throughout P := by
  unfold setItem at h
  split at h
  · cases h
    intro s hs
    rcases List.mem_or_eq_of_mem_set hs with hs | rfl
    · exact hitems s hs
    · exact hr
  · cases h

/-- Replacing an element renews the parents on the way to it. -/
theorem throughout_setIn {v u : Vec} {i : Nat} {r : Ref} (hv : v.cell.Throughout P)
    (hr : r.Throughout P) (h : setIn v i r = .ok u) : u.cell.Throughout P := by
  induction v using Vec.induction generalizing i u with
  | step v ih =>
    -- whichever reference the index leads to, what is behind it is replaced by induction
    have hnode : ∀ s ∈ v.refs, ∀ j s', refSetIn s j r = .ok s' → s'.Throughout P := by
      intro s hs j s' hset
      rw [refSetIn_eq, bind_eq_ok_iff] at hset
      obtain ⟨t, ht, hset⟩ := hset
      obtain ⟨t', ht', hset⟩ := bind_eq_ok_iff.1 hset
      cases hset
      exact hP.throughout_vec (ih s hs t ht ((hv.refs hs).vec ht) ht')
    cases v with
    | chunk items =>
      unfold setIn at h
      obtain ⟨items', hset, h⟩ := bind_eq_ok_iff.1 h
      cases h
      exact Cell.throughout_iff.2 (throughout_setItem (fun s hs => hv.refs hs) hr hset)
    | tailed n front items =>
      have hitems := items_throughout hv
      unfold setIn at h
      simp only at h
      split at h
      · obtain ⟨front', hset, h⟩ := bind_eq_ok_iff.1 h
        cases h
        exact throughout_tailed hitems (hnode front front_mem_refs _ _ hset)
      · obtain ⟨items', hset, h⟩ := bind_eq_ok_iff.1 h
        cases h
        exact throughout_tailed (throughout_setItem hitems hr hset) (front_throughout hv)
    | tree n children =>
      unfold setIn at h
      obtain ⟨children', hset, h⟩ := bind_eq_ok_iff.1 h
      cases h
      rw [refsSetIn_eq] at hset
      split at hset
      · next s hs =>
        obtain ⟨s', hset', heq⟩ := bind_eq_ok_iff.1 hset
        cases heq
        refine Cell.throughout_iff.2 fun t ht => ?_
        rcases List.mem_or_eq_of_mem_set ht with ht | rfl
        · exact hv.refs ht
        · exact hnode s (List.mem_of_getElem? hs) _ _ hset'
      · cases hset

theorem throughout_set {v u : Vec} {i : Nat} {c : Cell} (hv : v.cell.Throughout P)
    (hc : (Ref.of c).Throughout P) (h : v.set i c = .ok u) : u.cell.Throughout P := by
  unfold set at h
  split at h
  · cases h
  · exact throughout_setIn hP hv hc h

end Operations

end Vec

/-! ## Maps, records and programs -/

/-- The references of a map are its keys and its values. -/
theorem Cell.throughout_map_iff {entries : List (Ref × Ref)} :
    (Cell.map entries).Throughout P ↔ ∀ e ∈ entries, e.1.Throughout P ∧ e.2.Throughout P := by
  rw [throughout_iff]
  constructor
  · exact fun h e he => ⟨h _ (key_mem_refs he), h _ (value_mem_refs he)⟩
  · intro h r hr
    obtain ⟨e, he, rfl | rfl⟩ := mem_map_refs_iff.1 hr
    · exact (h e he).1
    · exact (h e he).2

namespace Table

theorem throughout_ofList {entries : List (Cell × Cell)} {t : Table}
    (hentries : ∀ e ∈ entries, (Ref.of e.1).Throughout P ∧ (Ref.of e.2).Throughout P)
    (h : ofList entries = .ok t) : t.cell.Throughout P :=
  Cell.throughout_map_iff.2 (forall_mem_ofList hentries h)

/-- The value replaces that of its key, or the association goes in where the order wants it. -/
theorem throughout_insert {t u : Table} {key value : Cell} (ht : t.cell.Throughout P)
    (hkey : (Ref.of key).Throughout P) (hvalue : (Ref.of value).Throughout P)
    (h : t.insert key value = .ok u) : u.cell.Throughout P := by
  obtain ⟨rfl, -⟩ := checked_eq_ok h
  exact Cell.throughout_map_iff.2 (forall_mem_insertEntry hkey hvalue (Cell.throughout_map_iff.1 ht))

theorem throughout_erase {t u : Table} {key : Cell} (ht : t.cell.Throughout P)
    (h : t.erase key = .ok u) : u.cell.Throughout P := by
  unfold erase at h
  split at h
  · obtain ⟨rfl, -⟩ := checked_eq_ok h
    exact Cell.throughout_map_iff.2 fun e he =>
      Cell.throughout_map_iff.1 ht e ((eraseEntry_sublist _ _).subset he)
  · cases h
    exact ht

end Table

theorem Record.throughout_create {format : RecordFormat} {fields : List Cell} {r : Record}
    (hfields : ∀ c ∈ fields, (Ref.of c).Throughout P) (h : create format fields = .ok r) :
    r.cell.Throughout P := by
  unfold create at h
  split at h
  · cases h
    exact Cell.throughout_iff.2 (List.forall_mem_map.2 hfields)
  · cases h

/-- A closure holds its parameters, its body and what it captured by new parents. -/
theorem Closure.throughout_create {params : Vec} {body c : Cell} {env : Table} {name : Option Name}
    (hparams : (Ref.of params.cell).Throughout P) (hbody : (Ref.of body).Throughout P)
    (henv : (Ref.of env.cell).Throughout P) (h : create params body env name = .ok c) :
    c.Throughout P := by
  obtain ⟨-, -, h⟩ := bind_eq_ok_iff.1 h
  obtain ⟨-, -, h⟩ := bind_eq_ok_iff.1 h
  cases h
  exact Cell.throughout_iff.2
    (List.forall_mem_cons.2 ⟨hparams, List.forall_mem_cons.2 ⟨hbody, List.forall_mem_singleton.2 henv⟩⟩)

section Programs
variable (hof : ∀ c, P (.of c))
include hof

theorem throughout_opVector {ops : List Cell} {r : Ref} (hops : ∀ c ∈ ops, c.Throughout P)
    (h : opVector ops = .ok r) : r.Throughout P := by
  obtain ⟨-, -, h⟩ := bind_eq_ok_iff.1 h
  cases h
  refine Ref.throughout_of (hof _) (Vec.throughout_of (Ref.renewed_of_forall hof) fun c hc => ?_)
  exact Ref.throughout_of (hof c) (hops c hc)

/-- Symbols have no references, so only the vector around them counts. -/
theorem throughout_symbolVector (symbols : List Name) : (symbolVector symbols).Throughout P := by
  refine Ref.throughout_of (hof _) (Vec.throughout_of (Ref.renewed_of_forall hof) fun c hc => ?_)
  obtain ⟨n, -, rfl⟩ := List.mem_map.1 hc
  exact Ref.throughout_of (hof _) (Cell.throughout_of_no_refs rfl)

namespace Op

theorem throughout_ofDefinition {symbol : Name} {op c : Cell} (hop : op.Throughout P)
    (h : ofDefinition symbol op = .ok c) : c.Throughout P := by
  obtain ⟨-, -, h⟩ := bind_eq_ok_iff.1 h
  cases h
  exact Cell.throughout_iff.2 (List.forall_mem_singleton.2 (Ref.throughout_of (hof _) hop))

/-- The three ops that hold nothing but a vector of ops. -/
theorem throughout_vectorOp {f : Ref → Op} {ops : List Cell} {c : Cell}
    (hrefs : ∀ r, (f r).refs = [r]) (hops : ∀ o ∈ ops, o.Throughout P)
    (h : (do .ok (.op (f (← opVector ops)))) = Except.ok c) : c.Throughout P := by
  obtain ⟨r, hr, h⟩ := bind_eq_ok_iff.1 h
  cases h
  refine Cell.throughout_iff.2 ?_
  show ∀ s ∈ (f r).refs, s.Throughout P
  rw [hrefs]
  exact List.forall_mem_singleton.2 (throughout_opVector hof hops hr)

theorem throughout_ofInvocation {ops : List Cell} {c : Cell} (hops : ∀ o ∈ ops, o.Throughout P)
    (h : ofInvocation ops = .ok c) : c.Throughout P := by
  unfold ofInvocation at h
  split at h
  · cases h
  · exact throughout_vectorOp (f := .invoke) hof (fun _ => rfl) hops h

/-- A binding holds a vector of symbols and a vector of ops. -/
theorem throughout_ofBind {symbols : List Name} {ops : List Cell} {c : Cell}
    (hops : ∀ o ∈ ops, o.Throughout P) (h : ofBind symbols ops = .ok c) : c.Throughout P := by
  unfold ofBind at h
  split at h
  · cases h
  · obtain ⟨r, hr, h⟩ := bind_eq_ok_iff.1 h
    cases h
    exact Cell.throughout_iff.2 (List.forall_mem_cons.2 ⟨throughout_symbolVector hof symbols,
      List.forall_mem_singleton.2 (throughout_opVector hof hops hr)⟩)

/-- A closure expression holds its parameters and its body. -/
theorem throughout_ofLambda {params : List Name} {body c : Cell} (hbody : body.Throughout P)
    (h : ofLambda params body = .ok c) : c.Throughout P := by
  obtain ⟨-, -, h⟩ := bind_eq_ok_iff.1 h
  cases h
  exact Cell.throughout_iff.2 (List.forall_mem_cons.2 ⟨throughout_symbolVector hof params,
    List.forall_mem_singleton.2 (Ref.throughout_of (hof _) hbody)⟩)

end Op

/-! ## Everything that can be built -/

/-- A property that new references have, that decoding yields throughout a cell and that loading
keeps holds throughout every cell that can be built. -/
theorem Built.throughout {stores : List Store} {w : Nat} {c : Cell}
    (hdecode : ∀ bs c, decode bs = .ok c → c.Throughout P)
    (hload : ∀ s ∈ stores, ∀ c d : Cell, (∃ w, c.Valid w) → c.Throughout P → c.load s = .ok d →
      d.Throughout P)
    (h : Built stores w c) : c.Throughout P := by
  have hP : Ref.Renewed P := Ref.renewed_of_forall hof
  have hnew {c : Cell} (hc : c.Throughout P) : (Ref.of c).Throughout P := Ref.throughout_of (hof c) hc
  -- one case for each way to build a cell; the new references are to cells of which it holds already
  induction h with
  | nil | bool | long | text | blob | symbol | keyword | core | lookup =>
    exact Cell.throughout_of_no_refs rfl
  | decoded h => exact hdecode _ _ h
  | part _ hr hd ih => exact (ih.refs hr).inside _ hd
  | vector _ ih => exact Vec.throughout_of hP fun c hc => hnew (ih c hc)
  | push _ _ h ihv ihc => exact Vec.throughout_push hP ihv (hnew ihc) h
  | pop _ h ih => exact Vec.throughout_pop hP ih h
  | set _ _ h ihv ihc => exact Vec.throughout_set hP ihv (hnew ihc) h
  | slice _ h ih => exact Vec.throughout_slice hP ih h
  | append _ _ h ihv ihu => exact Vec.throughout_extend hP ihu ihv h
  | table _ _ h ihk ihv => exact Table.throughout_ofList (fun e he => ⟨hnew (ihk e he), hnew (ihv e he)⟩) h
  | insert _ _ _ h iht ihk ihv => exact Table.throughout_insert iht (hnew ihk) (hnew ihv) h
  | erase _ h ih => exact Table.throughout_erase ih h
  | record _ h ih => exact Record.throughout_create (fun c hc => hnew (ih c hc)) h
  | constant _ ih =>
    exact Cell.throughout_iff.2 (List.forall_mem_singleton.2 (hnew ih))
  | define _ h ih => exact Op.throughout_ofDefinition hof ih h
  | sequence _ h ih => exact Op.throughout_vectorOp (f := .sequence) hof (fun _ => rfl) ih h
  | bind _ h ih => exact Op.throughout_ofBind hof ih h
  | choose _ h ih => exact Op.throughout_vectorOp (f := .choose) hof (fun _ => rfl) ih h
  | invoke _ h ih => exact Op.throughout_ofInvocation hof ih h
  | lambda _ h ih => exact Op.throughout_ofLambda hof ih h
  | closure _ _ _ h ihp ihb ihe => exact Closure.throughout_create (hnew ihp) (hnew ihb) (hnew ihe) h
  | rename _ ih => exact Cell.throughout_iff.2 fun r hr => ih.refs hr
  | load hc hs h ih => exact hload _ hs _ _ ⟨_, hc.valid (.inr (Nat.le_refl _))⟩ ih h
  | mono _ _ ih => exact ih

end Programs

end CellMachine
