import CellMachine.Proofs.Vec.Ends

/-!
# Another element in its place

Replacing an element copies the nodes on the way down to it and puts the copies in their parents'
places: the front of a tailed vector, or one child of a tree. In the list of elements nothing else
changes, whatever happens to the nodes: a small element may make way for a large one, so that a copy is
embedded where the node was not, or the other way round. What the copies are made of is settled by the
elements again, so that a replaced element leaves the canonical form.

A chunk that the element does not lie in keeps its elements, and hence its hash.

Main statement: `Built.set_canonical`.
-/

namespace CellMachine

variable {w : Nat}

namespace Vec

variable {v u : Vec} {xs ys : List Cell} {x : Cell}

/-! ## Replacing in a list of references -/

theorem items_set {items : List Ref} {r : Ref} (h : List.Forall₂ (fun r c => r.held? = some c) items xs)
    (hr : r.held? = some x) (i : Nat) :
    List.Forall₂ (fun r c => r.held? = some c) (items.set i r) (xs.set i x) := by
  induction h generalizing i with
  | nil => exact .nil
  | cons hheld hrest ih =>
    cases i with
    | zero => exact .cons hr hrest
    | succ i => exact .cons hheld (ih i)

/-- A position lies in one of the parts, and a part that has another element there can take its place. -/
theorem exists_part_set {size n i : Nat} {rs : List Ref} (hsize : 0 < size) (htiles : Tiles size n rs)
    (hrs : ∀ r ∈ rs, r.Valid w) (h : refsTraverse .ok rs = .ok xs) (hi : i < n) :
    ∃ r t ys, rs[i / size]? = some r ∧ r.vec = .ok t ∧ t.Valid w ∧ t.toList = .ok ys ∧
      i % size < ys.length ∧ ∀ s, s.LeadsTo (ys.set (i % size) x) →
        refsTraverse .ok (rs.set (i / size) s) = .ok (xs.set i x) := by
  induction rs generalizing n i xs with
  | nil =>
    have hn : n = 0 := htiles
    omega
  | cons r rs ih =>
    obtain ⟨hpos, hold, hrest⟩ := htiles
    obtain ⟨hr, hrs⟩ := List.forall_mem_cons.1 hrs
    obtain ⟨t, first, rest, ht, hfirst, hxs, rfl⟩ := refsTraverse_cons_eq_ok_iff.1 h
    obtain ⟨htv, hcount⟩ := hr.vec hold ht
    have hlen := (spec_of_toList htv hfirst).1
    by_cases hlt : i < size
    · -- the position lies in the first part
      rw [Nat.mod_eq_of_lt hlt, Nat.div_eq_of_lt hlt]
      refine ⟨r, t, first, rfl, ht, htv, hfirst, by omega, ?_⟩
      rintro s ⟨u, hu, hset⟩
      rw [List.set_append_left i x (by omega)]
      exact refsTraverse_cons_eq_ok_iff.2 ⟨u, _, rest, hu, hset, hxs, rfl⟩
    · have hle := Nat.le_of_not_lt hlt
      have hfull : first.length = size := by omega
      obtain ⟨s, t', ys, hs, ht', htv', hys, hroom, hset⟩ := ih hrest hrs hxs (i := i - size) (by omega)
      rw [Nat.mod_eq_sub_mod hle, Nat.div_eq_sub_div hsize hle]
      refine ⟨s, t', ys, hs, ht', htv', hys, hroom, fun s' hs' => ?_⟩
      rw [List.set_append_right i x (by omega), hfull]
      exact refsTraverse_cons_eq_ok_iff.2 ⟨t, first, _, ht, hfirst, hset s' hs', rfl⟩

/-! ## Replacing in a vector -/

theorem setItem_of_lt {items : List Ref} {i index count : Nat} (r : Ref) (h : i < items.length) :
    setItem items i r index count = .ok (items.set i r) :=
  if_pos h

/-- An element of a listed vector can be replaced, and is replaced in the list. -/
theorem setIn_of_toList (hv : v.Valid w) (h : v.toList = .ok xs) {i : Nat} (hi : i < xs.length)
    {r : Ref} (hr : r.held? = some x) :
    ∃ u, setIn v i r = .ok u ∧ u.toList = .ok (xs.set i x) := by
  induction v using Vec.induction generalizing xs i with
  | step v ih =>
    -- the copy of a node stands in its parent's place of the node
    have hnode : ∀ s ∈ v.refs, ∀ t, s.vec = .ok t → t.Valid w → ∀ ys, t.toList = .ok ys →
        ∀ j < ys.length, ∃ s', refSetIn s j r = .ok s' ∧ s'.LeadsTo (ys.set j x) := by
      intro s hs t ht htv ys hys j hj
      obtain ⟨t', ht', hset⟩ := ih s hs t ht htv hys hj
      refine ⟨Ref.of t'.cell, ?_, leadsTo_of hset⟩
      rw [refSetIn_eq, ht, ok_bind, ht', ok_bind]
    have hlen : xs.length = v.count := (spec_of_toList hv h).1
    cases v with
    | chunk items =>
      have hlt : i < items.length := Nat.lt_of_lt_of_eq hi hlen
      unfold setIn
      rw [setItem_of_lt r hlt, ok_bind]
      exact ⟨_, rfl, toList_chunk_eq_ok_iff.2 (items_set (toList_chunk_eq_ok_iff.1 h) hr i)⟩
    | tailed n front items =>
      obtain ⟨-, -, -, hold⟩ := hv.shaped
      obtain ⟨t, before, after, ht, hbefore, hafter, rfl⟩ := toList_tailed_eq_ok_iff.1 h
      obtain ⟨htv, htcount⟩ := hv.front.vec hold ht
      have hblen : before.length = n - items.length := (spec_of_toList htv hbefore).1.trans htcount
      unfold setIn
      simp only
      by_cases hfront : i < n - items.length
      · obtain ⟨s, hs, t', ht', hset⟩ :=
          hnode front front_mem_refs t ht htv before hbefore i (by omega)
        rw [if_pos hfront, hs, ok_bind, List.set_append_left i x (by omega)]
        exact ⟨_, rfl, toList_tailed_eq_ok_iff.2 ⟨t', _, after, ht', hset, hafter, rfl⟩⟩
      · have halen := hafter.length_eq
        rw [List.length_append] at hi
        have hlt : i - (n - items.length) < items.length := by omega
        rw [if_neg hfront, setItem_of_lt r hlt, ok_bind, List.set_append_right i x (by omega), hblen]
        exact ⟨_, rfl, toList_tailed_eq_ok_iff.2
          ⟨t, before, _, ht, hbefore, items_set hafter hr _, rfl⟩⟩
    | tree n children =>
      obtain ⟨-, -, htiles⟩ := hv.shaped
      have hlt : i < n := Nat.lt_of_lt_of_eq hi hlen
      rw [toList_tree] at h
      obtain ⟨s, t, ys, hs, ht, htv, hys, hj, hset⟩ :=
        exists_part_set (x := x) (childSize_pos n) htiles (fun r hr => hv.refs hr) h hlt
      obtain ⟨s', hs', hleads⟩ := hnode s (List.mem_of_getElem? hs) t ht htv ys hys _ hj
      refine ⟨.tree n (children.set (i / childSize n) s'), ?_, ?_⟩
      · unfold setIn
        simp only
        rw [refsSetIn_eq, hs]
        show (refSetIn s _ r >>= _) >>= _ = _
        rw [hs']
        rfl
      · rw [toList_tree]
        exact hset s' hleads

/-- A position below the count can be given another element, and no other position can. -/
theorem set_of_toList (hv : v.Valid w) (h : v.toList = .ok xs) {i : Nat} (hi : i < v.count)
    (x : Cell) : ∃ u, v.set i x = .ok u ∧ u.toList = .ok (xs.set i x) := by
  have hlt : i < xs.length := by rwa [(spec_of_toList hv h).1]
  obtain ⟨u, hu, hset⟩ := setIn_of_toList hv h hlt (Ref.held?_of x)
  refine ⟨u, ?_, hset⟩
  rw [set, if_neg (Nat.not_le.2 hi)]
  exact hu

theorem set_of_le {i : Nat} (h : v.count ≤ i) (x : Cell) :
    v.set i x = .error (.outOfBounds i v.count) :=
  if_pos h

/-! ## Chunks that stay -/

/-- Valid references to vectors of the same elements have the same hash. -/
theorem hash_eq_of_leadsTo {r s : Ref} (hr : r.Valid w) (hs : s.Valid w) (hrs : r.LeadsTo xs)
    (hss : s.LeadsTo xs) : s.hash = r.hash := by
  obtain ⟨t, ht, htlist⟩ := hrs
  obtain ⟨t', ht', htlist'⟩ := hss
  obtain ⟨hdescribes, htv⟩ := hr _ (Ref.vec_eq_ok_iff.1 ht)
  obtain ⟨hdescribes', htv'⟩ := hs _ (Ref.vec_eq_ok_iff.1 ht')
  rw [hdescribes.hash, hdescribes'.hash, Cell.hash, Cell.hash,
    encode_eq_of_toList htv' htv htlist' htlist rfl]

/-- Full chunks in the same place, with the same elements in two vectors, have the same hash. -/
theorem chunk_hash_eq_of_toList (hv : v.Valid w) (hu : u.Valid w) (hx : v.toList = .ok xs)
    (hy : u.toList = .ok ys) {offset : Nat} (hmod : offset % chunkSize = 0)
    (hle : offset + chunkSize ≤ v.count) (hle' : offset + chunkSize ≤ u.count)
    (h : (ys.drop offset).take chunkSize = (xs.drop offset).take chunkSize) :
    ∃ r s, v.chunkAt offset = .ok r ∧ u.chunkAt offset = .ok s ∧ s.hash = r.hash := by
  obtain ⟨r, hr, hleads⟩ := chunkAt_of_toList hv hx hmod hle
  obtain ⟨s, hs, hleads'⟩ := chunkAt_of_toList hu hy hmod hle'
  rw [h] at hleads'
  exact ⟨r, s, hr, hs, hash_eq_of_leadsTo (valid_of_chunkAt hv hmod hle hr).1
    (valid_of_chunkAt hu hmod hle' hs).1 hleads hleads'⟩

/-- A run that a position does not lie in stays as it is when the position gets another element. -/
theorem run_set {offset k i : Nat} (h : i < offset ∨ offset + k ≤ i) :
    ((xs.set i x).drop offset).take k = (xs.drop offset).take k := by
  rw [List.drop_set]
  by_cases hi : i < offset
  · rw [if_pos hi]
  · rw [if_neg hi, List.take_set_of_le (by omega)]

end Vec

/-- Replacing is its namesake on lists, on the canonical form. A loaded vector, whatever it came about
from, lists its elements, and for every cell

* a position at the count or beyond is refused, with the position and the count;
* at a position below the count the cell takes the place of the element: the outcome is the vector that
  is built from the list with the cell there;
* every full chunk that does not contain the position is there in the outcome as well, with the hash that
  it had. -/
theorem Built.set_canonical {stores : List Store} {v : Vec} (h : Built stores w v.cell)
    (hloaded : v.cell.loaded = true) :
    ∃ xs, v.toList = .ok xs ∧ xs.length = v.count ∧
      ∀ (stores' : List Store) (w' : Nat) (x : Cell), Built stores' w' x → ∀ i : Nat,
        (v.count ≤ i → v.set i x = .error (.outOfBounds i v.count)) ∧
        (i < v.count → Vec.Gives (v.set i x) (Vec.of (xs.set i x)) ∧
          ∃ u, v.set i x = .ok u ∧ ∀ offset, offset % chunkSize = 0 →
            offset + chunkSize ≤ v.count → i < offset ∨ offset + chunkSize ≤ i →
              ∃ r s, v.chunkAt offset = .ok r ∧ u.chunkAt offset = .ok s ∧ s.hash = r.hash) := by
  have hv : v.Valid (w + 2 ^ 59) := h.valid (.inr (Nat.le_refl _))
  obtain ⟨xs, hxs⟩ := Vec.exists_toList hv hloaded
  refine ⟨xs, hxs, (Vec.spec_of_toList hv hxs).1, fun stores' w' x hx i => ?_⟩
  refine ⟨fun hle => Vec.set_of_le hle x, fun hi => ?_⟩
  have hxv : x.Valid (w' + 2 ^ 59) := hx.valid (.inr (Nat.le_refl _))
  have hv' := hv.mono (Nat.le_max_left (w + 2 ^ 59) (w' + 2 ^ 59))
  obtain ⟨u, hu, hset⟩ := Vec.set_of_toList hv hxs hi x
  obtain ⟨huv, hcount⟩ := Vec.valid_of_set hv' (hxv.mono (Nat.le_max_right _ _)) hu
  refine ⟨Vec.gives_of hu huv hset, u, hu, fun offset hmod hle hout => ?_⟩
  exact Vec.chunk_hash_eq_of_toList hv' huv hxs hset hmod hle (by rwa [hcount]) (Vec.run_set hout)

/-- A large vector takes the place of an element in the second chunk of three, and the first chunk keeps
its hash; there is no element to replace at the count. -/
theorem Built.set_canonical_threeChunks :
    Vec.Gives ((Vec.of (List.replicate 70 .nil)).set 40 (Vec.of (List.replicate 192 .nil)).cell)
      (Vec.of ((List.replicate 70 .nil).set 40 (Vec.of (List.replicate 192 .nil)).cell)) ∧
    (∃ u r s, (Vec.of (List.replicate 70 .nil)).set 40 (Vec.of (List.replicate 192 .nil)).cell = .ok u ∧
      (Vec.of (List.replicate 70 .nil)).chunkAt 0 = .ok r ∧ u.chunkAt 0 = .ok s ∧
        s.hash = r.hash) ∧
    (Vec.of (List.replicate 70 .nil)).set 70 .nil = .error (.outOfBounds 70 70) := by
  obtain ⟨xs, hxs, -, hset⟩ := (nils 70).set_canonical (by decide +kernel)
  rw [Vec.toList_of] at hxs
  cases hxs
  have hcount : (Vec.of (List.replicate 70 .nil)).count = 70 := by decide +kernel
  obtain ⟨-, hwithin⟩ := hset [] 192 _ (nils 192) 40
  obtain ⟨hgives, u, hu, hchunks⟩ := hwithin (by rw [hcount]; decide)
  obtain ⟨r, s, hr, hs, hhash⟩ := hchunks 0 rfl (by rw [hcount]; decide) (.inr (by decide))
  have hbeyond := (hset [] 0 _ .nil 70).1 (Nat.le_of_eq hcount)
  rw [hcount] at hbeyond
  exact ⟨hgives, ⟨u, r, s, hu, hr, hs, hhash⟩, hbeyond⟩

end CellMachine
