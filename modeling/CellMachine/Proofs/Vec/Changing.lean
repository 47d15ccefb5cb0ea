import CellMachine.Proofs.Vec.Nodes

/-!
# Removing and replacing keeps vectors valid

A packed vector that loses its last chunk is again a tree with children of the same size, unless a
single child is left, which then is the whole vector (`Vec.valid_of_splitLast`). Replacing an element
changes no count.

A vector that is stuck stays so: its last child is missing, so that no chunk can be taken from it and
no element in it be replaced.

Main statements: `Vec.valid_of_pop` and `Vec.valid_of_set`.
-/

namespace CellMachine.Vec

variable {w : Nat}

/-! ## One chunk less -/

/-- The chunk comes from the last child. -/
theorem refsSplitLast_eq_ok {rs rest : List Ref} {last : Vec} (hne : rs ≠ [])
    (h : refsSplitLast rs = .ok (rest, last)) :
    ∃ init r v o, rs = init ++ [r] ∧ r.vec = .ok v ∧ splitLast v = .ok (o, last) ∧
      rest = init ++ (o.map Ref.of).toList := by
  induction rs generalizing rest with
  | nil => exact absurd rfl hne
  | cons r rs ih =>
    cases rs with
    | nil =>
      rw [refsSplitLast, refSplitLast_eq, bind_eq_ok_iff] at h
      obtain ⟨⟨o, last'⟩, hread, h⟩ := h
      obtain ⟨v, hv, hsplit⟩ := bind_eq_ok_iff.1 hread
      cases h
      exact ⟨[], r, v, o, rfl, hv, hsplit, rfl⟩
    -- the split happens in the last child, so the first one stays
    | cons s rs =>
      rw [refsSplitLast, bind_eq_ok_iff] at h
      · obtain ⟨⟨rest', last'⟩, hrest, h⟩ := h
        cases h
        obtain ⟨init, r', v, o, hlist, hv, hsplit, rfl⟩ := ih (List.cons_ne_nil s rs) hrest
        exact ⟨r :: init, r', v, o, by rw [hlist]; rfl, hv, hsplit, rfl⟩
      · exact fun hnil => by cases hnil

/-- What remains of a tree without its last chunk. -/
theorem valid_of_remainder {n : Nat} {rest : List Ref} {c : Cell} (hn : chunkSize < n)
    (hmod : n % chunkSize = 0) (hrest : Tiles (childSize n) (n - chunkSize) rest)
    (hall : ∀ r ∈ rest, r.Valid w) (hfree : n ≤ freeCount + w)
    (h : remainder (n - chunkSize) rest = .ok c) :
    ∃ u, c = .vector u ∧ u.Valid w ∧ u.count = n - chunkSize := by
  cases rest with
  | nil =>
    have hzero : n - chunkSize = 0 := hrest
    omega
  | cons r rest =>
    obtain ⟨hpos, hold, hmore⟩ := hrest
    cases rest with
    | nil =>
      -- a single child is left, and it is the whole vector
      have hle : n - chunkSize - childSize n = 0 := hmore
      rw [Nat.min_eq_left (by omega)] at hold
      have hheld := Ref.cell_eq_ok_iff.1 h
      obtain ⟨u, rfl, hu⟩ := hold c hheld
      exact ⟨u, rfl, (hall r List.mem_cons_self _ hheld).2, hu⟩
    | cons s rest =>
      obtain ⟨hlt, -⟩ := id hmore
      cases h
      refine ⟨_, rfl, valid_tree ?_ ?_ ?_ (.inl ?_) hall, rfl⟩
      · have := chunkSize_le_childSize n
        omega
      · simp only [chunkSize] at *
        omega
      · rw [childSize_sub_chunk (by omega)]
        exact ⟨hpos, hold, hmore⟩
      · exact Nat.le_trans (Nat.sub_le _ _) hfree

/-- A chunk can be taken from a tree only if it is not jammed. -/
theorem Room.count_le_of_splitLast {n : Nat} {children : List Ref} {o : Option Cell} {last : Vec}
    (hroom : (tree n children).Room w) (hne : children ≠ [])
    (h : splitLast (.tree n children) = .ok (o, last)) : n ≤ freeCount + w := by
  rcases hroom with hfree | ⟨-, hjammed⟩
  · exact hfree
  · obtain ⟨⟨rest, last'⟩, hrest, -⟩ := bind_eq_ok_iff.1 h
    obtain ⟨init, r, v, o', rfl, hv, -⟩ := refsSplitLast_eq_ok hne hrest
    have hmissing := Jammed.held?_eq_none hjammed
    rw [Ref.vec_eq_ok_iff, hmissing] at hv
    cases hv

/-- What is left of a packed vector without its last chunk: a packed vector that is valid, or
nothing. -/
def Rest (w count : Nat) : Option Cell → Prop
  | some c => ∃ u, c = .vector u ∧ u.Valid w ∧ 0 < u.count ∧ u.count + chunkSize = count
  | none => count = chunkSize

/-- The last child loses a chunk, and disappears if it was that chunk. -/
theorem tiles_of_split {n : Nat} {init : List Ref} {r : Ref} {t : Vec} {o : Option Cell}
    (hv : (tree n (init ++ [r])).Valid w) (hcount : t.count = n - childSize n * init.length)
    (ho : Rest w t.count o) :
    Tiles (childSize n) (n - chunkSize) (init ++ (o.map Ref.of).toList) ∧
      ∀ s ∈ init ++ (o.map Ref.of).toList, s.Valid w := by
  obtain ⟨hn, -, htiles⟩ := hv.shaped
  obtain ⟨hinit, hlt, hle, -⟩ := tiles_concat_iff.1 htiles
  have hinitv : ∀ s ∈ init, s.Valid w := fun s hs => hv.refs (List.mem_append_left _ hs)
  cases o with
  | none =>
    have htiles' := tiles_of_full (childSize_pos n) hinit
    -- the last child was one chunk and is gone
    have hfull : t.count = chunkSize := ho
    rw [show childSize n * init.length = n - chunkSize by omega] at htiles'
    rw [Option.map_none, Option.toList_none, List.append_nil]
    exact ⟨htiles', hinitv⟩
  | some d =>
    -- otherwise it is a chunk shorter than before
    obtain ⟨u, rfl, hu, hupos, hucount⟩ := ho
    refine ⟨tiles_concat_iff.2 ⟨hinit, by omega, by omega, ?_⟩, ?_⟩
    · exact Ref.holdsVec_of (by omega)
    · exact List.forall_mem_append.2 ⟨hinitv, List.forall_mem_singleton.2 (Ref.valid_of hu)⟩

/-- A packed vector falls into its last chunk and a valid vector of the elements before it. -/
theorem valid_of_splitLast {v last : Vec} {o : Option Cell} (hv : v.Valid w)
    (hpos : 0 < v.count) (hmod : v.count % chunkSize = 0) (h : splitLast v = .ok (o, last)) :
    (∃ items, last = .chunk items ∧ items.length = chunkSize ∧ ∀ r ∈ items, r.Valid w) ∧
      Rest w v.count o := by
  induction v using Vec.induction generalizing o with
  | step v ih =>
    rcases hv.shaped.count_eq_of_packed hmod with ⟨items, rfl, hitems⟩ | ⟨n, children, rfl⟩
    · have hlen : items.length = chunkSize := by
        refine hitems.resolve_left fun hnil => ?_
        subst hnil
        exact absurd hpos (Nat.lt_irrefl 0)
      cases h
      exact ⟨⟨items, rfl, hlen, fun r hr => hv.refs hr⟩, hlen⟩
    · obtain ⟨hn, hn32, htiles⟩ := hv.shaped
      obtain ⟨init, r, rfl⟩ := htiles.exists_concat (by omega)
      have hne : init ++ [r] ≠ [] := List.append_ne_nil_of_right_ne_nil _ (List.cons_ne_nil _ _)
      have hfree := hv.room.count_le_of_splitLast hne h
      obtain ⟨⟨rest, last'⟩, hrest, h⟩ := bind_eq_ok_iff.1 h
      obtain ⟨c, hc, h⟩ := bind_eq_ok_iff.1 h
      cases h
      obtain ⟨init', r', t, o', hlist, ht, hsplit, rfl⟩ := refsSplitLast_eq_ok hne hrest
      obtain ⟨rfl, hr⟩ := List.append_inj' hlist rfl
      cases hr
      obtain ⟨-, hlt, -, hold⟩ := tiles_concat_iff.1 htiles
      have hmem : r ∈ (tree n (init ++ [r])).refs := List.mem_append_right _ List.mem_cons_self
      obtain ⟨htv, htcount⟩ := (hv.refs hmem).vec hold ht
      have htmod : t.count % chunkSize = 0 := by
        rw [htcount]
        exact childRest_mod hn32
      -- the last child splits in the same way one level down
      obtain ⟨hlast, ho⟩ := ih r hmem t ht htv (by omega) htmod hsplit
      obtain ⟨hrest, hrestv⟩ := tiles_of_split hv htcount ho
      obtain ⟨u, rfl, hu, hucount⟩ := valid_of_remainder hn hn32 hrest hrestv hfree hc
      refine ⟨hlast, u, rfl, hu, by omega, ?_⟩
      show u.count + chunkSize = n
      omega

/-! ## One element less -/

/-- A tail that keeps an element when its last one goes. -/
theorem valid_tailed_dropLast {n : Nat} {front : Ref} {items : List Ref}
    (hv : (tailed n front items).Valid w) (hone : ∀ r, items ≠ [r]) :
    (tailed (n - 1) front items.dropLast).Valid w := by
  obtain ⟨hn, hne, hlen, hold⟩ := hv.shaped
  -- more than one item, so that a tail is left
  have htwo : 1 < items.length := by
    have hpos := List.length_pos_iff.2 hne
    refine Nat.lt_of_le_of_ne hpos fun heq => ?_
    obtain ⟨r, rfl⟩ := List.length_eq_one_iff.1 heq.symm
    exact hone r rfl
  have hlen' : items.dropLast.length = items.length - 1 := List.length_dropLast
  refine valid_tailed ⟨?_, ?_, ?_, ?_⟩ ?_ hv.front ?_
  · simp only [chunkSize] at *
    omega
  · exact List.length_pos_iff.1 (by omega)
  · simp only [chunkSize] at *
    omega
  · rwa [hlen', show n - 1 - (items.length - 1) = n - items.length by omega]
  · rcases hv.room with hfree | ⟨hmax, hstuck⟩
    · exact .inl (Nat.le_trans (Nat.sub_le n 1) hfree)
    · exact .inr ⟨Nat.le_trans (Nat.sub_le n 1) hmax, hstuck⟩
  · exact fun r hr => hv.items r (List.dropLast_subset _ hr)

/-- The last chunk of a packed vector, short of an element, becomes the tail behind the rest. -/
theorem valid_tailed_of_split {t : Vec} {items : List Ref} (ht : t.Valid w) (hpos : 0 < t.count)
    (hmod : t.count % chunkSize = 0) (hlen : items.length = chunkSize)
    (hitems : ∀ r ∈ items, r.Valid w) (hfree : t.count + chunkSize ≤ freeCount + w) :
    (tailed (t.count + chunkSize - 1) (Ref.of t.cell) items.dropLast).Valid w := by
  have hlen' : items.dropLast.length = items.length - 1 := List.length_dropLast
  -- a chunk without its last item is a tail
  refine valid_tailed ⟨?_, ?_, ?_, ?_⟩ (.inl (Nat.le_trans (Nat.sub_le _ 1) hfree))
    (Ref.valid_of ht) fun r hr => hitems r (List.dropLast_subset _ hr)
  · simp only [chunkSize] at *
    omega
  · refine List.length_pos_iff.1 ?_
    rw [hlen', hlen]
    decide
  · rw [hlen', hlen]
    simp only [chunkSize] at *
    omega
  · refine Ref.holdsVec_of ?_
    rw [hlen', hlen]
    simp only [chunkSize] at *
    omega

/-- A tree without its last element has a tail that is one element short of a chunk. -/
theorem valid_of_pop_tree {n : Nat} {children : List Ref} {u : Vec}
    (hv : (tree n children).Valid w) (h : (tree n children).pop = .ok u) :
    u.Valid w ∧ u.count + 1 = n := by
  obtain ⟨hn, hn32, htiles⟩ := hv.shaped
  have hcount : (tree n children).count = n := rfl
  obtain ⟨⟨o, last⟩, hsplit, h⟩ := bind_eq_ok_iff.1 h
  have hne : children ≠ [] := by
    rintro rfl
    have hzero : n = 0 := htiles
    omega
  have hfree := hv.room.count_le_of_splitLast hne hsplit
  obtain ⟨⟨items, rfl, hlen, hitems⟩, ho⟩ := valid_of_splitLast hv (by omega) hn32 hsplit
  cases o with
  -- nothing in front of the last chunk would be a vector of one chunk
  | none =>
    have : n = chunkSize := ho
    omega
  | some c =>
    obtain ⟨t, rfl, ht, htpos, htcount⟩ := ho
    cases h
    rw [hcount] at htcount
    have htmod : t.count % chunkSize = 0 := by
      simp only [chunkSize] at *
      omega
    have htailed := valid_tailed_of_split ht htpos htmod hlen hitems (by omega)
    rw [htcount] at htailed
    refine ⟨htailed, ?_⟩
    show n - 1 + 1 = n
    omega

/-- A vector without its last element is valid. -/
theorem valid_of_pop {v u : Vec} (hv : v.Valid w) (h : v.pop = .ok u) :
    u.Valid w ∧ u.count + 1 = v.count := by
  unfold pop at h
  split at h
  · cases h
  · next items hne =>
    cases h
    have hlen : items.length ≤ chunkSize := hv.shaped
    have hpos : 0 < items.length := List.length_pos_iff.2 fun hnil => hne (by rw [hnil])
    have hlen' : items.dropLast.length = items.length - 1 := List.length_dropLast
    refine ⟨valid_chunk (by omega) fun r hr => hv.refs (List.dropLast_subset _ hr), ?_⟩
    show items.dropLast.length + 1 = items.length
    omega
  -- the last item of the tail, so the front is all that is left
  · next n front r =>
    obtain ⟨hn, -, -, hold⟩ := hv.shaped
    obtain ⟨hu, hucount⟩ := hv.front.vec hold h
    refine ⟨hu, ?_⟩
    show u.count + 1 = n
    rw [hucount, List.length_singleton]
    omega
  · next n front items hone =>
    cases h
    obtain ⟨hn, -⟩ := hv.shaped
    refine ⟨valid_tailed_dropLast hv hone, ?_⟩
    show n - 1 + 1 = n
    omega
  · next n children => exact valid_of_pop_tree hv h

/-! ## Another element -/

theorem valid_of_setItem {items items' : List Ref} {i index count : Nat} {r : Ref}
    (hitems : ∀ s ∈ items, s.Valid w) (hr : r.Valid w)
    (h : setItem items i r index count = .ok items') :
    (∀ s ∈ items', s.Valid w) ∧ items'.length = items.length := by
  unfold setItem at h
  split at h
  · cases h
    refine ⟨fun s hs => ?_, List.length_set⟩
    rcases List.mem_or_eq_of_mem_set hs with hs | rfl
    · exact hitems s hs
    · exact hr
  · cases h

/-- A missing last child stays where it is when another child is replaced. -/
theorem Jammed.set {n k : Nat} {r r' : Ref} {children : List Ref}
    (h : (tree n children).Jammed) (hr : children[k]? = some r) (hheld : r.held? ≠ none) :
    (tree n (children.set k r')).Jammed := by
  obtain ⟨hpart, last, hlast, hmissing⟩ := h
  refine ⟨hpart, last, ?_, hmissing⟩
  rw [List.getLast?_eq_getElem?] at hlast ⊢
  rw [List.length_set, List.getElem?_set_ne]
  · exact hlast
  · rintro rfl
    rw [hr] at hlast
    cases hlast
    exact hheld hmissing

/-- A front with an element replaced stands where the front was. -/
theorem valid_set_front {n : Nat} {front : Ref} {items : List Ref} {t t' : Vec}
    (hv : (tailed n front items).Valid w) (ht : front.vec = .ok t) (ht' : t'.Valid w)
    (hcount : t'.count = n - items.length) (hjammed : t.Jammed → t'.Jammed) :
    (tailed n (Ref.of t'.cell) items).Valid w := by
  obtain ⟨hn, hne, hlen, -⟩ := hv.shaped
  refine valid_tailed ⟨hn, hne, hlen, Ref.holdsVec_of hcount⟩ ?_ (Ref.valid_of ht') hv.items
  rcases hv.room with hfree | ⟨hmax, hstuck⟩
  · exact .inl hfree
  · refine .inr ⟨hmax, fun d hd => ?_⟩
    rw [Ref.held?_of] at hd
    cases hd
    obtain ⟨s, hs, hj⟩ := hstuck _ (Ref.vec_eq_ok_iff.1 ht)
    cases hs
    exact ⟨t', rfl, hjammed hj⟩

/-- A child with an element replaced stands where the child was. -/
theorem valid_set_child {n k : Nat} {children : List Ref} {s : Ref} {t' : Vec}
    (hv : (tree n children).Valid w) (hs : children[k]? = some s) (hheld : s.held? ≠ none)
    (ht' : t'.Valid w) (hcount : t'.count = min (n - childSize n * k) (childSize n)) :
    (tree n (children.set k (Ref.of t'.cell))).Valid w := by
  obtain ⟨hn, hn32, htiles⟩ := hv.shaped
  refine valid_tree hn hn32 (htiles.set (Ref.holdsVec_of hcount)) ?_ fun a ha => ?_
  · rcases hv.room with hfree | ⟨hmax, hstuck⟩
    · exact .inl hfree
    · exact .inr ⟨hmax, Jammed.set hstuck hs hheld⟩
  · rcases List.mem_or_eq_of_mem_set ha with ha | rfl
    · exact hv.refs ha
    · exact Ref.valid_of ht'

/-- A vector with an element replaced is valid, and stays jammed if it was. -/
theorem valid_of_setIn {v u : Vec} {i : Nat} {r : Ref} (hv : v.Valid w) (hr : r.Valid w)
    (h : setIn v i r = .ok u) : u.Valid w ∧ u.count = v.count ∧ (v.Jammed → u.Jammed) := by
  induction v using Vec.induction generalizing i u with
  | step v ih =>
    -- below a reference the induction applies, and the new child is referred to anew
    have hnode : ∀ s ∈ v.refs, ∀ n j s', s.HoldsVec n → refSetIn s j r = .ok s' →
        ∃ t t' : Vec, s.vec = .ok t ∧ t'.Valid w ∧ t'.count = n ∧ (t.Jammed → t'.Jammed) ∧
          s' = Ref.of t'.cell := by
      intro s hs n j s' hold hset
      rw [refSetIn_eq, bind_eq_ok_iff] at hset
      obtain ⟨t, ht, hset⟩ := hset
      obtain ⟨t', ht', hset⟩ := bind_eq_ok_iff.1 hset
      cases hset
      obtain ⟨htv, htcount⟩ := (hv.refs hs).vec hold ht
      obtain ⟨htv', htcount', hjammed⟩ := ih s hs t ht htv ht'
      exact ⟨t, t', ht, htv', htcount'.trans htcount, hjammed, rfl⟩
    cases v with
    | chunk items =>
      unfold setIn at h
      obtain ⟨items', hset, h⟩ := bind_eq_ok_iff.1 h
      cases h
      obtain ⟨hall, hlen⟩ := valid_of_setItem (fun s hs => hv.refs hs) hr hset
      exact ⟨valid_chunk (hlen ▸ hv.shaped) hall, hlen, id⟩
    | tailed n front items =>
      obtain ⟨hn, hne, hlen, hold⟩ := hv.shaped
      unfold setIn at h
      simp only at h
      split at h
      · obtain ⟨front', hset, h⟩ := bind_eq_ok_iff.1 h
        cases h
        obtain ⟨t, t', ht, htv, htcount, hjammed, rfl⟩ :=
          hnode front front_mem_refs _ _ _ hold hset
        exact ⟨valid_set_front hv ht htv htcount hjammed, rfl, id⟩
      · obtain ⟨items', hset, h⟩ := bind_eq_ok_iff.1 h
        cases h
        obtain ⟨hall, hlen'⟩ := valid_of_setItem hv.items hr hset
        refine ⟨valid_tailed ⟨hn, ?_, hlen'.trans hlen, ?_⟩ hv.room hv.front hall, rfl, id⟩
        · exact List.length_pos_iff.1 (hlen' ▸ List.length_pos_iff.2 hne)
        · rw [hlen']
          exact hold
    | tree n children =>
      obtain ⟨-, -, htiles⟩ := hv.shaped
      unfold setIn at h
      obtain ⟨children', hset, h⟩ := bind_eq_ok_iff.1 h
      cases h
      rw [refsSetIn_eq] at hset
      split at hset
      · next s hs =>
        obtain ⟨s', hset', heq⟩ := bind_eq_ok_iff.1 hset
        cases heq
        obtain ⟨t, t', ht, htv, htcount, -, rfl⟩ :=
          hnode s (List.mem_of_getElem? hs) _ _ _ (htiles.getElem? hs).1 hset'
        have hheld : s.held? ≠ none := by
          rw [Ref.vec_eq_ok_iff.1 ht]
          exact Option.some_ne_none _
        exact ⟨valid_set_child hv hs hheld htv htcount, rfl, fun hj => hj.set hs hheld⟩
      · cases hset

/-- A vector with an element replaced is valid. -/
theorem valid_of_set {v u : Vec} {i : Nat} {c : Cell} (hv : v.Valid w) (hc : c.Valid w)
    (h : v.set i c = .ok u) : u.Valid w ∧ u.count = v.count := by
  unfold set at h
  split at h
  · cases h
  · obtain ⟨hu, hcount, -⟩ := valid_of_setIn hv (Ref.valid_of hc) h
    exact ⟨hu, hcount⟩

end CellMachine.Vec
