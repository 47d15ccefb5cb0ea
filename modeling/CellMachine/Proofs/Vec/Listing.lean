import CellMachine.Proofs.Vec.Building

/-!
# The elements of a vector

A vector is listed by listing its nodes one after another. The list has as many elements as the
count of the vector says (`Vec.spec_of_toList`), it exists if nothing is missing
(`Vec.exists_toList`), and the vector that is built from a list has that list
(`Vec.toList_of`).
-/

namespace CellMachine

/-- The reference that is made of a vector gives it back. -/
theorem Ref.vec_of (v : Vec) : (Ref.of v.cell).vec = .ok v :=
  Ref.vec_eq_ok_iff.2 (Ref.held?_of _)

namespace Vec

variable {w : Nat}

/-! ## Listing node by node -/

/-- The items of a leaf are read by taking what they hold. -/
theorem itemsTraverse_eq_ok_iff {items : List Ref} {xs : List Cell} :
    itemsTraverse .ok items = .ok xs ↔
      List.Forall₂ (fun r c => r.held? = some c) items xs := by
  have hread : (fun (r : Ref) (c : Cell) => (r.cell >>= Except.ok) = .ok c) =
      fun r c => r.held? = some c := by
    funext r c
    rw [bind_eq_ok_iff, ← Ref.cell_eq_ok_iff]
    exact propext ⟨fun ⟨_, hc, heq⟩ => by rwa [← Except.ok.inj heq], fun hc => ⟨c, hc, rfl⟩⟩
  rw [itemsTraverse, mapM_eq_ok_iff, hread]

/-- A child is read by resolving it to a vector. -/
theorem refTraverse_eq_ok_iff {r : Ref} {xs : List Cell} :
    refTraverse .ok r = .ok xs ↔ ∃ v, r.vec = .ok v ∧ v.toList = .ok xs := by
  rw [refTraverse_eq, bind_eq_ok_iff]
  rfl

/-- Children are read from the first to the last. -/
theorem refsTraverse_cons_eq_ok_iff {r : Ref} {rs : List Ref} {xs : List Cell} :
    refsTraverse .ok (r :: rs) = .ok xs ↔ ∃ v first rest, r.vec = .ok v ∧
      v.toList = .ok first ∧ refsTraverse .ok rs = .ok rest ∧ xs = first ++ rest := by
  rw [refsTraverse, bind_eq_ok_iff]
  constructor
  · rintro ⟨first, hfirst, h⟩
    obtain ⟨rest, hrest, h⟩ := bind_eq_ok_iff.1 h
    obtain ⟨v, hv, hfirst⟩ := refTraverse_eq_ok_iff.1 hfirst
    cases h
    exact ⟨v, first, rest, hv, hfirst, hrest, rfl⟩
  · rintro ⟨v, first, rest, hv, hfirst, hrest, rfl⟩
    exact ⟨first, refTraverse_eq_ok_iff.2 ⟨v, hv, hfirst⟩, bind_eq_ok_iff.2 ⟨rest, hrest, rfl⟩⟩

/-- The list of a chunk is what its references hold. -/
theorem toList_chunk_eq_ok_iff {items : List Ref} {xs : List Cell} :
    (chunk items).toList = .ok xs ↔ List.Forall₂ (fun r c => r.held? = some c) items xs := by
  rw [toList, traverse, itemsTraverse_eq_ok_iff]

/-- The list of a vector with a tail is the list of its front and then the tail. -/
theorem toList_tailed_eq_ok_iff {n : Nat} {front : Ref} {items : List Ref} {xs : List Cell} :
    (tailed n front items).toList = .ok xs ↔ ∃ v before after, front.vec = .ok v ∧
      v.toList = .ok before ∧ List.Forall₂ (fun r c => r.held? = some c) items after ∧
        xs = before ++ after := by
  rw [toList, traverse, bind_eq_ok_iff]
  constructor
  · rintro ⟨before, hbefore, h⟩
    obtain ⟨after, hafter, h⟩ := bind_eq_ok_iff.1 h
    obtain ⟨v, hv, hbefore⟩ := refTraverse_eq_ok_iff.1 hbefore
    cases h
    exact ⟨v, before, after, hv, hbefore, itemsTraverse_eq_ok_iff.1 hafter, rfl⟩
  · rintro ⟨v, before, after, hv, hbefore, hafter, rfl⟩
    exact ⟨before, refTraverse_eq_ok_iff.2 ⟨v, hv, hbefore⟩,
      bind_eq_ok_iff.2 ⟨after, itemsTraverse_eq_ok_iff.2 hafter, rfl⟩⟩

/-- The list of a tree is read from its children. -/
theorem toList_tree (n : Nat) (children : List Ref) :
    (tree n children).toList = refsTraverse .ok children := by
  rw [toList, traverse]

/-! ## What a list of elements is -/

/-- What the references of valid items hold is valid. -/
theorem valid_of_items {items : List Ref} {xs : List Cell} (hitems : ∀ r ∈ items, r.Valid w)
    (h : List.Forall₂ (fun r c => r.held? = some c) items xs) : ∀ x ∈ xs, x.Valid w := by
  intro x hx
  obtain ⟨r, hr, hheld⟩ := exists_of_forall₂_right h hx
  exact (hitems r hr x hheld).2

/-- The elements behind references that cut `n` elements into parts. -/
theorem spec_of_refsTraverse {size n : Nat} {rs : List Ref} {xs : List Cell}
    (htiles : Tiles size n rs) (hrs : ∀ r ∈ rs, r.Valid w)
    (hparts : ∀ r ∈ rs, ∀ v, r.vec = .ok v → ∀ ys, v.Valid w → v.toList = .ok ys →
      ys.length = v.count ∧ ∀ y ∈ ys, y.Valid w)
    (h : refsTraverse .ok rs = .ok xs) : xs.length = n ∧ ∀ x ∈ xs, x.Valid w := by
  induction rs generalizing n xs with
  | nil =>
    have hn : n = 0 := htiles
    cases h
    exact ⟨hn.symm, fun x hx => absurd hx List.not_mem_nil⟩
  | cons r rs ih =>
    obtain ⟨hpos, hold, hrest⟩ := htiles
    obtain ⟨hr, hrs⟩ := List.forall_mem_cons.1 hrs
    obtain ⟨hpart, hparts⟩ := List.forall_mem_cons.1 hparts
    obtain ⟨v, first, rest, hv, hfirst, hxs, rfl⟩ := refsTraverse_cons_eq_ok_iff.1 h
    obtain ⟨hvalid, hcount⟩ := hr.vec hold hv
    obtain ⟨hlen, hmem⟩ := hpart v hv first hvalid hfirst
    obtain ⟨hlen', hmem'⟩ := ih hrest hrs hparts hxs
    refine ⟨?_, List.forall_mem_append.2 ⟨hmem, hmem'⟩⟩
    -- the first part has its share of the elements, and the rest has what it leaves
    rw [List.length_append, hlen, hlen', hcount]
    omega

/-- A valid vector has as many elements as its count says, and they are valid. -/
theorem spec_of_toList {v : Vec} (hv : v.Valid w) {xs : List Cell} (h : v.toList = .ok xs) :
    xs.length = v.count ∧ ∀ x ∈ xs, x.Valid w := by
  induction v using Vec.induction generalizing xs with
  | step v ih =>
    cases v with
    | chunk items =>
      rw [toList_chunk_eq_ok_iff] at h
      exact ⟨h.length_eq.symm, valid_of_items (fun r hr => hv.refs hr) h⟩
    | tailed n front items =>
      obtain ⟨hn, -, hlen, hold⟩ := hv.shaped
      obtain ⟨u, before, after, hu, hbefore, hafter, rfl⟩ := toList_tailed_eq_ok_iff.1 h
      obtain ⟨huv, hucount⟩ := hv.front.vec hold hu
      obtain ⟨hblen, hbvalid⟩ := ih front front_mem_refs u hu huv hbefore
      have hvalid := valid_of_items hv.items hafter
      refine ⟨?_, List.forall_mem_append.2 ⟨hbvalid, hvalid⟩⟩
      have hmod := Nat.mod_le n chunkSize
      rw [List.length_append, hblen, hucount, ← hafter.length_eq]
      exact Nat.sub_add_cancel (by omega)
    | tree n children =>
      obtain ⟨-, -, htiles⟩ := hv.shaped
      rw [toList_tree] at h
      exact spec_of_refsTraverse htiles (fun r hr => hv.refs hr)
        (fun r hr u hu _ huv hys => ih r hr u hu huv hys) h

/-! ## Loaded vectors have a list -/

/-- A loaded reference to a node leads to a loaded vector. -/
theorem exists_vec_of_loaded {r : Ref} {n : Nat} (hr : r.Valid w) (hold : r.HoldsVec n)
    (hloaded : r.loaded = true) : ∃ v, r.vec = .ok v ∧ v.Valid w ∧ v.cell.loaded = true := by
  obtain ⟨d, hd⟩ := Ref.exists_held?_of_loaded hloaded
  obtain ⟨v, rfl, -⟩ := hold d hd
  obtain ⟨hdescribes, hvalid⟩ := hr _ hd
  exact ⟨v, Ref.vec_eq_ok_iff.2 hd, hvalid, hdescribes.loaded.symm.trans hloaded⟩

/-- References that all hold a cell. -/
theorem items_filterMap {items : List Ref} (h : ∀ r ∈ items, ∃ c, r.held? = some c) :
    List.Forall₂ (fun r c => r.held? = some c) items (items.filterMap Ref.held?) := by
  induction items with
  | nil => exact .nil
  | cons r items ih =>
    obtain ⟨⟨c, hc⟩, hitems⟩ := List.forall_mem_cons.1 h
    rw [List.filterMap_cons_some hc]
    exact .cons hc (ih hitems)

theorem items_of_loaded {items : List Ref} (h : ∀ r ∈ items, r.loaded = true) :
    List.Forall₂ (fun r c => r.held? = some c) items (items.filterMap Ref.held?) :=
  items_filterMap fun r hr => Ref.exists_held?_of_loaded (h r hr)

/-- Children that can be listed one by one can be listed together. -/
theorem exists_refsTraverse {rs : List Ref}
    (h : ∀ r ∈ rs, ∃ v ys, r.vec = .ok v ∧ v.toList = .ok ys) :
    ∃ xs, refsTraverse .ok rs = .ok xs := by
  induction rs with
  | nil => exact ⟨[], rfl⟩
  | cons r rs ih =>
    obtain ⟨⟨v, first, hv, hfirst⟩, hrs⟩ := List.forall_mem_cons.1 h
    obtain ⟨rest, hrest⟩ := ih hrs
    exact ⟨first ++ rest, refsTraverse_cons_eq_ok_iff.2 ⟨v, first, rest, hv, hfirst, hrest, rfl⟩⟩

/-- The elements of a loaded vector can be listed. -/
theorem exists_toList {v : Vec} (hv : v.Valid w) (hloaded : v.cell.loaded = true) :
    ∃ xs, v.toList = .ok xs := by
  induction v using Vec.induction with
  | step v ih =>
    have hrefs : ∀ r ∈ v.refs, r.loaded = true := Cell.loaded_iff.1 hloaded
    -- a child is a loaded vector again, so the induction applies to it
    have hnode : ∀ r ∈ v.refs, ∀ n, r.HoldsVec n → ∃ u ys, r.vec = .ok u ∧ u.toList = .ok ys := by
      intro r hr n hold
      obtain ⟨u, hu, huv, huloaded⟩ := exists_vec_of_loaded (hv.refs hr) hold (hrefs r hr)
      obtain ⟨ys, hys⟩ := ih r hr u hu huv huloaded
      exact ⟨u, ys, hu, hys⟩
    cases v with
    | chunk items =>
      exact ⟨_, toList_chunk_eq_ok_iff.2 (items_of_loaded hrefs)⟩
    | tailed n front items =>
      obtain ⟨-, -, -, hold⟩ := hv.shaped
      obtain ⟨u, before, hu, hbefore⟩ := hnode front front_mem_refs _ hold
      have hafter := items_of_loaded fun r hr => hrefs r (item_mem_refs hr)
      exact ⟨_, toList_tailed_eq_ok_iff.2 ⟨u, before, _, hu, hbefore, hafter, rfl⟩⟩
    | tree n children =>
      obtain ⟨-, -, htiles⟩ := hv.shaped
      rw [toList_tree]
      refine exists_refsTraverse fun r hr => ?_
      obtain ⟨k, hk⟩ := List.mem_iff_getElem?.1 hr
      exact hnode r hr _ (htiles.getElem? hk).1

/-! ## The list of a vector that is built from a list -/

/-- Children made from vectors give the lists of these vectors. -/
theorem refsTraverse_map_of {α : Type} {f : α → Vec} {g : α → List Cell} {xs : List α}
    (h : ∀ x ∈ xs, (f x).toList = .ok (g x)) :
    refsTraverse .ok (xs.map fun x => Ref.of (f x).cell) = .ok (xs.flatMap g) := by
  induction xs with
  | nil => rfl
  | cons x xs ih =>
    obtain ⟨hx, hxs⟩ := List.forall_mem_cons.1 h
    exact refsTraverse_cons_eq_ok_iff.2
      ⟨f x, g x, xs.flatMap g, Ref.vec_of _, hx, ih hxs, List.flatMap_cons⟩

/-- Packing keeps the elements of the chunks in order. -/
theorem toList_pack {height : Nat} {chunks : List Vec} {g : Vec → List Cell}
    (hlen : chunks.length ≤ chunkSize ^ height) (h : ∀ v ∈ chunks, v.toList = .ok (g v)) :
    (pack height chunks).toList = .ok (chunks.flatMap g) := by
  induction height generalizing chunks with
  | zero =>
    rw [Nat.pow_zero] at hlen
    cases chunks with
    | nil => exact toList_chunk_eq_ok_iff.2 .nil
    | cons v rest =>
      have hnil : rest = [] := List.length_eq_zero_iff.1 (by rw [List.length_cons] at hlen; omega)
      subst hnil
      rw [List.flatMap_singleton]
      exact h v List.mem_cons_self
  | succ height ih =>
    rw [pack, capacity_eq]
    -- a level that is not needed is left out
    by_cases hfew : chunks.length ≤ chunkSize ^ height
    · rw [if_pos hfew]
      exact ih hfew h
    · rw [if_neg hfew, toList_tree]
      have hpow : 0 < chunkSize ^ height := Nat.pow_pos (by decide)
      have hpieces : ∀ piece ∈ pieces (chunkSize ^ height - 1) chunks,
          (pack height piece).toList = .ok (piece.flatMap g) := by
        intro piece hp
        obtain ⟨-, hplen, hmem⟩ := mem_pieces hp
        exact ih (by omega) fun v hv => h v (hmem v hv)
      rw [refsTraverse_map_of hpieces, ← List.flatMap_assoc]
      -- the pieces are the chunks again
      rw [List.flatMap_id', flatten_pieces]

/-- The tree over chunks has their elements in order. -/
theorem toList_ofChunks {chunks : List Vec} {g : Vec → List Cell}
    (h : ∀ v ∈ chunks, v.toList = .ok (g v)) :
    (ofChunks chunks).toList = .ok (chunks.flatMap g) :=
  toList_pack (le_chunkSize_pow chunks.length) h

/-- The full chunks of a list of references have the cells that the references hold. -/
theorem toList_ofChunks_pieces {n : Nat} {refs : List Ref}
    (h : ∀ r ∈ refs, ∃ c, r.held? = some c) :
    (ofChunks ((pieces n refs).map chunk)).toList = .ok (refs.filterMap Ref.held?) := by
  have hchunks : ∀ v ∈ (pieces n refs).map chunk,
      v.toList = .ok (v.refs.filterMap Ref.held?) := by
    intro v hv
    obtain ⟨piece, hp, rfl⟩ := List.mem_map.1 hv
    exact toList_chunk_eq_ok_iff.2 (items_filterMap fun r hr => h r ((mem_pieces hp).2.2 r hr))
  rw [toList_ofChunks hchunks, List.flatMap_map]
  show Except.ok ((pieces n refs).flatMap fun piece => piece.filterMap Ref.held?) = _
  rw [List.flatMap_def, ← List.filterMap_flatten, flatten_pieces]

/-- The vector built from references has what they hold. -/
theorem toList_ofRefs {refs : List Ref} (h : ∀ r ∈ refs, ∃ c, r.held? = some c) :
    (ofRefs refs).toList = .ok (refs.filterMap Ref.held?) := by
  unfold ofRefs
  simp only
  split
  · exact toList_chunk_eq_ok_iff.2 (items_filterMap h)
  · have hfront := toList_ofChunks_pieces (n := chunkSize - 1) fun r hr =>
      h r (List.take_subset (refs.length - refs.length % chunkSize) refs hr)
    split
    -- without a rest the vector is the tree over full chunks
    · next hwhole =>
      rwa [hwhole, List.take_length] at hfront ⊢
    · have hrest := items_filterMap fun r hr =>
        h r (List.drop_subset (refs.length - refs.length % chunkSize) refs hr)
      refine toList_tailed_eq_ok_iff.2 ⟨_, _, _, Ref.vec_of _, hfront, hrest, ?_⟩
      rw [← List.filterMap_append, List.take_append_drop]

/-- A vector that is built from a list has the elements of that list. -/
theorem toList_of (xs : List Cell) : (Vec.of xs).toList = .ok xs := by
  have hheld : ∀ r ∈ xs.map Ref.of, ∃ c, r.held? = some c := by
    intro r hr
    obtain ⟨c, -, rfl⟩ := List.mem_map.1 hr
    exact ⟨c, Ref.held?_of c⟩
  rw [Vec.of, toList_ofRefs hheld, List.filterMap_map]
  show Except.ok (xs.filterMap fun c => (Ref.of c).held?) = _
  simp only [Ref.held?_of, List.filterMap_some]

end Vec

end CellMachine
