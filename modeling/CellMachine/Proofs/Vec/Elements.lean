import CellMachine.Proofs.Cell.Contains
import CellMachine.Proofs.Vec.Growing
import CellMachine.Proofs.Vec.Listing

/-!
# Intact vectors behave as lists

An intact vector has a list of elements (`Vec.Lists`), and what is done with the vector is done with
the list: reading an element or a whole chunk reads it off the list, and adding elements at the end
adds them to the list. None of this fails, since nothing is missing.

On the way down from a tree to the child that has a run of elements, the run stays the same
(`Vec.exists_part`). Elements are runs of length one and chunks are runs of length 32, and both lie
within one child.

Main statements: `Vec.Lists.get`, `Vec.Lists.push`, `Vec.Lists.append` and `Vec.lists_of`; what is
inside a vector is inside its elements (`Vec.mem_of_contains`).
-/

namespace CellMachine

/-- A reference to a vector with the given elements. -/
def Ref.LeadsTo (r : Ref) (ys : List Cell) : Prop := ∃ u, r.vec = .ok u ∧ u.toList = .ok ys

/-- An intact vector with its elements. -/
structure Vec.Lists (v : Vec) (xs : List Cell) : Prop where
  intact : v.cell.Intact
  toList : v.toList = .ok xs

namespace Vec

variable {w : Nat} {v full : Vec} {xs ys : List Cell}

/-! ## References and elements -/

/-- Traversing references puts together what each of them leads to. -/
theorem refsTraverse_eq_ok_iff {rs : List Ref} : refsTraverse .ok rs = .ok xs ↔
    ∃ parts, List.Forall₂ Ref.LeadsTo rs parts ∧ xs = parts.flatten := by
  induction rs generalizing xs with
  | nil =>
    constructor
    · intro h
      cases h
      exact ⟨[], .nil, rfl⟩
    · rintro ⟨parts, hparts, rfl⟩
      cases hparts
      rfl
  | cons r rs ih =>
    rw [refsTraverse_cons_eq_ok_iff]
    constructor
    · rintro ⟨u, first, rest, hu, hfirst, hrest, rfl⟩
      obtain ⟨parts, hparts, rfl⟩ := ih.1 hrest
      exact ⟨first :: parts, .cons ⟨u, hu, hfirst⟩ hparts, rfl⟩
    · rintro ⟨parts, hparts, rfl⟩
      cases hparts with
      | @cons _ first _ parts hfirst hparts =>
        obtain ⟨u, hu, hfirst⟩ := hfirst
        exact ⟨u, first, parts.flatten, hu, hfirst, ih.2 ⟨parts, hparts, rfl⟩, rfl⟩

/-- The list of a tree is made of the lists of its children. -/
theorem toList_tree_eq_ok_iff {n : Nat} {children : List Ref} :
    (tree n children).toList = .ok xs ↔
      ∃ parts, List.Forall₂ Ref.LeadsTo children parts ∧ xs = parts.flatten := by
  rw [toList_tree, refsTraverse_eq_ok_iff]

/-- A reference in a listed vector holds an element, or a node all of whose elements are listed. -/
theorem ref_of_toList (h : v.toList = .ok xs) {r : Ref} (hr : r ∈ v.refs) :
    (∃ x ∈ xs, r.held? = some x) ∨ ∃ ys, r.LeadsTo ys ∧ ys.Sublist xs := by
  cases v with
  | chunk items =>
    obtain ⟨x, hx, hheld⟩ := exists_of_forall₂_left (toList_chunk_eq_ok_iff.1 h) hr
    exact .inl ⟨x, hx, hheld⟩
  | tailed n front items =>
    obtain ⟨u, before, after, hu, hbefore, hafter, rfl⟩ := toList_tailed_eq_ok_iff.1 h
    rcases List.mem_append.1 hr with hr | hr
    · obtain ⟨x, hx, hheld⟩ := exists_of_forall₂_left hafter hr
      exact .inl ⟨x, List.mem_append_right before hx, hheld⟩
    · cases List.mem_singleton.1 hr
      exact .inr ⟨before, ⟨u, hu, hbefore⟩, List.sublist_append_left before after⟩
  | tree n children =>
    obtain ⟨parts, hparts, rfl⟩ := toList_tree_eq_ok_iff.1 h
    obtain ⟨ys, hys, hleads⟩ := exists_of_forall₂_left hparts hr
    exact .inr ⟨ys, hleads, List.sublist_flatten_of_mem hys⟩

/-- A listed element is held by a reference, or listed in the node that a reference leads to. -/
theorem element_of_toList (h : v.toList = .ok xs) {x : Cell} (hx : x ∈ xs) :
    ∃ r ∈ v.refs, r.held? = some x ∨ ∃ ys, r.LeadsTo ys ∧ x ∈ ys := by
  cases v with
  | chunk items =>
    obtain ⟨r, hr, hheld⟩ := exists_of_forall₂_right (toList_chunk_eq_ok_iff.1 h) hx
    exact ⟨r, hr, .inl hheld⟩
  | tailed n front items =>
    obtain ⟨u, before, after, hu, hbefore, hafter, rfl⟩ := toList_tailed_eq_ok_iff.1 h
    rcases List.mem_append.1 hx with hx | hx
    · exact ⟨front, front_mem_refs, .inr ⟨before, ⟨u, hu, hbefore⟩, hx⟩⟩
    · obtain ⟨r, hr, hheld⟩ := exists_of_forall₂_right hafter hx
      exact ⟨r, item_mem_refs hr, .inl hheld⟩
  | tree n children =>
    obtain ⟨parts, hparts, rfl⟩ := toList_tree_eq_ok_iff.1 h
    obtain ⟨ys, hys, hx⟩ := List.mem_flatten.1 hx
    obtain ⟨r, hr, hleads⟩ := exists_of_forall₂_right hparts hys
    exact ⟨r, hr, .inr ⟨ys, hleads, hx⟩⟩

/-- A vector contains its elements. -/
theorem contains_of_toList (h : v.toList = .ok xs) {x : Cell} (hx : x ∈ xs) :
    v.cell.Contains x := by
  induction v using Vec.induction generalizing xs with
  | step v ih =>
    obtain ⟨r, hr, hheld | ⟨ys, ⟨u, hu, hys⟩, hx⟩⟩ := element_of_toList h hx
    · exact Cell.contains_of_held (c := v.cell) hr hheld
    · have hnode := Cell.contains_of_held (c := v.cell) hr (Ref.vec_eq_ok_iff.1 hu)
      exact hnode.trans (ih r hr u hu hys hx)

/-- What is inside a vector is a node of the vector, which has some of the elements, or is inside an element. -/
theorem mem_of_contains (h : v.toList = .ok xs) {d : Cell} (hd : v.cell.Contains d) :
    (∃ u ys, d = .vector u ∧ u.toList = .ok ys ∧ ys.Sublist xs) ∨ ∃ x ∈ xs, x.Contains d := by
  induction v using Vec.induction generalizing xs with
  | step v ih =>
    obtain rfl | ⟨r, hr, e, he, hcontains⟩ := Cell.contains_iff.1 hd
    · exact .inl ⟨v, xs, rfl, h, List.Sublist.refl xs⟩
    · obtain ⟨x, hx, hheld⟩ | ⟨ys, ⟨u, hu, hys⟩, hsub⟩ := ref_of_toList h hr
      · cases he.symm.trans hheld
        exact .inr ⟨e, hx, hcontains⟩
      · cases he.symm.trans (Ref.vec_eq_ok_iff.1 hu)
        obtain ⟨t, zs, rfl, ht, hzs⟩ | ⟨y, hy, hcontains⟩ := ih r hr u hu hys hcontains
        · exact .inl ⟨t, zs, rfl, ht, hzs.trans hsub⟩
        · exact .inr ⟨y, hsub.subset hy, hcontains⟩

/-- A listed vector is loaded if its elements are. -/
theorem loaded_of_toList (hv : v.Valid w) (h : v.toList = .ok xs)
    (hxs : ∀ x ∈ xs, x.loaded = true) : v.cell.loaded = true := by
  induction v using Vec.induction generalizing xs with
  | step v ih =>
    refine Cell.loaded_iff.2 fun r (hr : r ∈ v.refs) => ?_
    obtain ⟨x, hx, hheld⟩ | ⟨ys, ⟨u, hu, hys⟩, hsub⟩ := ref_of_toList h hr
    · rw [(hv.refs hr x hheld).1.loaded]
      exact hxs x hx
    · obtain ⟨hdescribes, huv⟩ := hv.refs hr _ (Ref.vec_eq_ok_iff.1 hu)
      rw [hdescribes.loaded]
      exact ih r hr u hu huv hys fun y hy => hxs y (hsub.subset hy)

/-- What a function yields on the elements is what it yields on the list. -/
theorem traverse_of_toList {β : Type} (f : Cell → Except DataError β) (h : v.toList = .ok xs) :
    v.traverse f = xs.mapM f := by
  have hitems : ∀ {items : List Ref} {zs : List Cell},
      List.Forall₂ (fun r c => r.held? = some c) items zs → itemsTraverse f items = zs.mapM f := by
    intro items zs hheld
    rw [itemsTraverse]
    induction hheld with
    | nil => rfl
    | cons hr _ ih =>
      rw [List.mapM_cons, List.mapM_cons, ih, Ref.cell_eq_ok_iff.2 hr]
      rfl
  induction v using Vec.induction generalizing xs with
  | step v ih =>
    cases v with
    | chunk items =>
      rw [traverse]
      exact hitems (toList_chunk_eq_ok_iff.1 h)
    | tailed n front items =>
      obtain ⟨u, before, after, hu, hbefore, hafter, rfl⟩ := toList_tailed_eq_ok_iff.1 h
      rw [traverse, refTraverse_eq, hu, hitems hafter, List.mapM_append]
      show (traverse f u >>= _) = _
      rw [ih front front_mem_refs u hu hbefore]
      rfl
    | tree n children =>
      obtain ⟨parts, hparts, rfl⟩ := toList_tree_eq_ok_iff.1 h
      -- what is left is an induction over the children, for which the one over vectors is put away
      have hnodes : ∀ r ∈ children, ∀ u, r.vec = .ok u → ∀ ys, u.toList = .ok ys →
          u.traverse f = ys.mapM f := fun r hr u hu ys hys => ih r hr u hu hys
      rw [traverse]
      clear h ih
      induction hparts with
      | nil => rfl
      | cons hleads _ ihs =>
        obtain ⟨u, hu, hys⟩ := hleads
        obtain ⟨hnode, hnodes⟩ := List.forall_mem_cons.1 hnodes
        rw [refsTraverse, refTraverse_eq, hu, List.flatten_cons, List.mapM_append, ihs hnodes]
        show (traverse f u >>= _) = _
        rw [hnode u hu _ hys]
        rfl

/-! ## Lists of intact vectors -/

/-- The elements of an intact vector are intact. -/
theorem Lists.mem_intact (h : v.Lists xs) : ∀ x ∈ xs, x.Intact :=
  fun _ hx => h.intact.of_contains (contains_of_toList h.toList hx)

theorem Lists.length_eq (h : v.Lists xs) : xs.length = v.count := by
  obtain ⟨w, hv⟩ := h.intact.valid
  exact (spec_of_toList hv h.toList).1

theorem exists_lists (h : v.cell.Intact) : ∃ xs, v.Lists xs := by
  obtain ⟨w, hv⟩ := h.valid
  obtain ⟨xs, hxs⟩ := exists_toList hv h.loaded
  exact ⟨xs, h, hxs⟩

/-- A valid vector whose elements are intact. -/
theorem Valid.lists (hv : v.Valid w) (h : v.toList = .ok xs) (hxs : ∀ x ∈ xs, x.Intact) :
    v.Lists xs :=
  ⟨⟨loaded_of_toList hv h fun x hx => (hxs x hx).loaded, w, hv⟩, h⟩

theorem lists_empty : empty.Lists [] :=
  (valid_empty 0).lists (toList_chunk_eq_ok_iff.2 .nil) fun _ hx => by cases hx

/-- The vector that is built from a list of intact cells has that list. -/
theorem lists_of (hxs : ∀ x ∈ xs, x.Intact) : (Vec.of xs).Lists xs := by
  obtain ⟨w, hw⟩ := Cell.exists_valid hxs
  have hvalid : (Vec.of xs).Valid (w + xs.length) :=
    (valid_of (fun x hx => (hw x hx).mono (Nat.le_add_right w _)) (Nat.le_add_left _ _)).1
  exact hvalid.lists (toList_of xs) hxs

/-! ## Reading -/

/-- A run of elements that lies within one of the parts is a run of elements of that part. -/
theorem exists_part {size n i k : Nat} {rs : List Ref} (htiles : Tiles size n rs)
    (hrs : ∀ r ∈ rs, r.Valid w) (h : refsTraverse .ok rs = .ok xs) (hfit : i % size + k ≤ size)
    (hk : 0 < k) (hle : i + k ≤ n) :
    ∃ r u ys, rs[i / size]? = some r ∧ r.vec = .ok u ∧ u.Valid w ∧ u.toList = .ok ys ∧
      i % size + k ≤ u.count ∧ (ys.drop (i % size)).take k = (xs.drop i).take k := by
  induction rs generalizing n i xs with
  | nil =>
    have hn : n = 0 := htiles
    omega
  | cons r rs ih =>
    obtain ⟨hpos, hold, hrest⟩ := htiles
    obtain ⟨hr, hrs⟩ := List.forall_mem_cons.1 hrs
    obtain ⟨u, first, rest, hu, hfirst, hxs, rfl⟩ := refsTraverse_cons_eq_ok_iff.1 h
    obtain ⟨huv, hcount⟩ := hr.vec hold hu
    have hlen := (spec_of_toList huv hfirst).1
    by_cases hi : i < size
    · -- the run lies within the first part
      rw [Nat.mod_eq_of_lt hi] at hfit ⊢
      rw [Nat.div_eq_of_lt hi]
      refine ⟨r, u, first, rfl, hu, huv, hfirst, by omega, ?_⟩
      rw [List.drop_append_of_le_length (by omega), List.take_append_of_le_length]
      rw [List.length_drop]
      omega
    -- the run lies within one of the others, in the same place after the first part is left out
    · have hsize : 0 < size := by
        refine Nat.pos_of_ne_zero fun hzero => ?_
        subst hzero
        omega
      have hmod := Nat.mod_eq_sub_mod (Nat.le_of_not_lt hi)
      have hdiv := Nat.div_eq_sub_div hsize (Nat.le_of_not_lt hi)
      rw [hmod] at hfit
      obtain ⟨s, t, ys, hs, ht, htv, hys, hroom, hrun⟩ :=
        ih hrest hrs hxs hfit (by omega)
      rw [hmod, hdiv]
      refine ⟨s, t, ys, hs, ht, htv, hys, hroom, ?_⟩
      have hskip : first.drop i = [] := List.drop_eq_nil_of_le (by omega)
      rw [hrun, List.drop_append, hskip, List.nil_append, show first.length = size by omega]

/-- The element of an intact vector at a position is that of the list. -/
theorem getIn_of_toList (hv : v.Valid w) (h : v.toList = .ok xs) {i : Nat} {x : Cell}
    (hx : xs[i]? = some x) : getIn v i = .ok x := by
  induction v using Vec.induction generalizing xs i with
  | step v ih =>
    -- the elements of a leaf are what its references hold
    have hitem : ∀ {items : List Ref} {zs : List Cell} {j index count : Nat},
        List.Forall₂ (fun r c => r.held? = some c) items zs → zs[j]? = some x →
        itemAt items j index count = .ok x := by
      intro items zs j index count hitems hz
      obtain ⟨r, hr, hheld⟩ := exists_getElem?_of_forall₂ hitems hz
      rw [itemAt, hr]
      exact Ref.cell_eq_ok_iff.2 hheld
    have hlt : i < v.count := by
      obtain ⟨hlt, -⟩ := List.getElem?_eq_some_iff.1 hx
      rwa [(spec_of_toList hv h).1] at hlt
    cases v with
    | chunk items =>
      rw [getIn]
      exact hitem (toList_chunk_eq_ok_iff.1 h) hx
    | tailed n front items =>
      obtain ⟨-, -, -, hold⟩ := hv.shaped
      obtain ⟨u, before, after, hu, hbefore, hafter, rfl⟩ := toList_tailed_eq_ok_iff.1 h
      obtain ⟨huv, hucount⟩ := hv.front.vec hold hu
      have hlen : before.length = n - items.length := (spec_of_toList huv hbefore).1.trans hucount
      unfold getIn
      simp only
      by_cases hi : i < n - items.length
      · rw [if_pos hi, refGetIn_eq, hu]
        rw [List.getElem?_append_left (by omega)] at hx
        exact ih front front_mem_refs u hu huv hbefore hx
      · rw [if_neg hi]
        rw [List.getElem?_append_right (by omega), hlen] at hx
        exact hitem hafter hx
    | tree n children =>
      obtain ⟨-, -, htiles⟩ := hv.shaped
      rw [toList_tree] at h
      have hpos := childSize_pos n
      have hmod := Nat.mod_lt i hpos
      obtain ⟨r, u, ys, hr, hu, huv, hys, -, hrun⟩ :=
        exists_part (k := 1) htiles (fun r hr => hv.refs hr) h (by omega) (by omega) hlt
      -- a run of one element is that element
      have hy : ys[i % childSize n]? = some x := by
        have hget := congrArg (fun l => l[0]?) hrun
        simpa [List.getElem?_take, List.getElem?_drop, hx] using hget
      rw [getIn, refsGetIn_eq, hr]
      show refGetIn r _ = _
      rw [refGetIn_eq, hu]
      exact ih r (List.mem_of_getElem? hr) u hu huv hys hy

/-- Reading an element of an intact vector reads it off the list. -/
theorem Lists.get (h : v.Lists xs) {i : Nat} (hi : i < xs.length) : v.get i = .ok xs[i] := by
  obtain ⟨w, hv⟩ := h.intact.valid
  rw [Vec.get, if_neg (by rw [← h.length_eq]; omega)]
  exact getIn_of_toList hv h.toList (List.getElem?_eq_getElem hi)

/-- The chunk of a listed vector at a multiple of 32 is that part of the list. -/
theorem chunkAt_of_toList (hv : v.Valid w) (h : v.toList = .ok xs) {offset : Nat}
    (hmod : offset % chunkSize = 0) (hle : offset + chunkSize ≤ v.count) :
    ∃ r, chunkAt v offset = .ok r ∧ r.LeadsTo ((xs.drop offset).take chunkSize) := by
  induction v using Vec.induction generalizing xs offset with
  | step v ih =>
    cases v with
    | chunk items =>
      have hlen : items.length ≤ chunkSize := hv.shaped
      have hle : offset + chunkSize ≤ items.length := hle
      -- a single chunk has one full run, at its beginning
      have hzero : offset = 0 := by omega
      subst hzero
      have hfull : items.length = chunkSize := by omega
      have hxs : xs.length = items.length := (spec_of_toList hv h).1
      refine ⟨Ref.of (.vector (.chunk items)), ?_, _, Ref.vec_of _, ?_⟩
      · rw [chunkAt, if_pos ⟨rfl, hfull⟩]
      · rw [List.drop_zero, List.take_of_length_le (by omega)]
        exact h
    | tailed n front items =>
      obtain ⟨hn, -, hlen, hold⟩ := hv.shaped
      have hle : offset + chunkSize ≤ n := hle
      -- the tail is shorter than a chunk, so a full run of whole chunks ends in front of it
      have hlt : offset + chunkSize ≤ n - items.length := by
        simp only [chunkSize] at *
        omega
      obtain ⟨u, before, after, hu, hbefore, -, rfl⟩ := toList_tailed_eq_ok_iff.1 h
      obtain ⟨huv, hucount⟩ := hv.front.vec hold hu
      have hblen : before.length = n - items.length := (spec_of_toList huv hbefore).1.trans hucount
      obtain ⟨r, hr, hleads⟩ :=
        ih front front_mem_refs u hu huv hbefore hmod (by rw [hucount]; exact hlt)
      refine ⟨r, ?_, ?_⟩
      · rw [chunkAt, if_pos (by simp only [chunkSize] at hlt; omega), refChunkAt_eq, hu]
        exact hr
      · rwa [List.drop_append_of_le_length (by omega), List.take_append_of_le_length]
        rw [List.length_drop]
        omega
    | tree n children =>
      obtain ⟨hn, hn32, htiles⟩ := hv.shaped
      have hle : offset + chunkSize ≤ n := hle
      rw [toList_tree] at h
      have hpos := childSize_pos n
      have hsize := childSize_mod n
      have hrem := Nat.mod_lt offset hpos
      have hmod' : offset % childSize n % chunkSize = 0 := by
        rw [Nat.mod_mod_of_dvd _ (Nat.dvd_of_mod_eq_zero hsize), hmod]
      -- both the position in the child and the size of the child are multiples of 32
      have hfit : offset % childSize n + chunkSize ≤ childSize n := by
        simp only [chunkSize] at *
        omega
      obtain ⟨r, u, ys, hr, hu, huv, hys, hroom, hrun⟩ := exists_part htiles
        (fun r hr => hv.refs hr) h hfit (by decide) hle
      unfold chunkAt
      simp only
      by_cases hchunk : childSize n = chunkSize
      · rw [if_pos hchunk, hr]
        refine ⟨r, rfl, u, hu, ?_⟩
        obtain ⟨huv', hucount⟩ := (hv.refs (List.mem_of_getElem? hr)).vec
          (htiles.getElem? hr).1 hu
        have hylen := (spec_of_toList huv hys).1
        rw [hchunk, hmod] at hrun
        rwa [← hrun, List.drop_zero, List.take_of_length_le (by omega)]
      · rw [if_neg hchunk, refsChunkAt_eq, hr]
        obtain ⟨s, hs, hleads⟩ := ih r (List.mem_of_getElem? hr) u hu huv hys hmod' hroom
        rw [hrun] at hleads
        refine ⟨s, ?_, hleads⟩
        show refChunkAt r _ = _
        rw [refChunkAt_eq, hu]
        exact hs

/-- The chunk at an offset has the elements that stand there. -/
theorem Lists.chunkAt (h : v.Lists xs) {offset : Nat} (hmod : offset % chunkSize = 0)
    (hle : offset + chunkSize ≤ v.count) : ∃ r full, v.chunkAt offset = .ok r ∧
      r.vec = .ok full ∧ full.Lists ((xs.drop offset).take chunkSize) := by
  obtain ⟨w, hv⟩ := h.intact.valid
  obtain ⟨r, hr, full, hfull, hlist⟩ := chunkAt_of_toList hv h.toList hmod hle
  obtain ⟨hrv, hold⟩ := valid_of_chunkAt hv hmod hle hr
  refine ⟨r, full, hr, hfull, (hrv.vec hold hfull).1.lists hlist fun x hx => h.mem_intact x ?_⟩
  exact List.drop_subset _ _ (List.take_subset _ _ hx)

/-! ## Adding chunks -/

/-- Traversing can be cut at the last reference as well as at the first. -/
theorem refsTraverse_concat_eq_ok_iff {init : List Ref} {last : Ref} :
    refsTraverse .ok (init ++ [last]) = .ok xs ↔ ∃ before after,
      refsTraverse .ok init = .ok before ∧ last.LeadsTo after ∧ xs = before ++ after := by
  induction init generalizing xs with
  | nil =>
    rw [List.nil_append, refsTraverse_cons_eq_ok_iff]
    constructor
    · rintro ⟨u, first, rest, hu, hfirst, hrest, rfl⟩
      cases hrest
      exact ⟨[], first, rfl, ⟨u, hu, hfirst⟩, List.append_nil first⟩
    · rintro ⟨before, after, hbefore, ⟨u, hu, hafter⟩, rfl⟩
      cases hbefore
      exact ⟨u, after, [], hu, hafter, rfl, (List.append_nil after).symm⟩
  | cons r init ih =>
    rw [List.cons_append, refsTraverse_cons_eq_ok_iff]
    constructor
    · rintro ⟨u, first, rest, hu, hfirst, hrest, rfl⟩
      obtain ⟨before, after, hbefore, hafter, rfl⟩ := ih.1 hrest
      exact ⟨first ++ before, after, refsTraverse_cons_eq_ok_iff.2
        ⟨u, first, before, hu, hfirst, hbefore, rfl⟩, hafter, (List.append_assoc ..).symm⟩
    · rintro ⟨before, after, hbefore, hafter, rfl⟩
      obtain ⟨u, first, rest, hu, hfirst, hrest, rfl⟩ := refsTraverse_cons_eq_ok_iff.1 hbefore
      exact ⟨u, first, rest ++ after, hu, hfirst, ih.2 ⟨rest, after, hrest, hafter, rfl⟩,
        List.append_assoc ..⟩

/-- The reference that is made of a vector leads to its elements. -/
theorem leadsTo_of (h : v.toList = .ok xs) : (Ref.of v.cell).LeadsTo xs := ⟨v, Ref.vec_of v, h⟩

/-- One more child adds its elements at the end. -/
theorem toList_tree_concat {n : Nat} {init : List Ref} {last : Ref}
    (h : refsTraverse .ok init = .ok xs) (hlast : last.LeadsTo ys) :
    (tree n (init ++ [last])).toList = .ok (xs ++ ys) := by
  rw [toList_tree]
  exact refsTraverse_concat_eq_ok_iff.2 ⟨xs, ys, h, hlast, rfl⟩

theorem toList_taller {n : Nat} (h : v.toList = .ok xs) (hfull : full.toList = .ok ys) :
    (taller n v full).toList = .ok (xs ++ ys) := by
  have hv : refsTraverse .ok ([] ++ [Ref.of v.cell]) = .ok xs :=
    refsTraverse_concat_eq_ok_iff.2 ⟨[], xs, rfl, leadsTo_of h, rfl⟩
  exact toList_tree_concat hv (leadsTo_of hfull)

/-- A chunk is added to a listed vector by adding its elements to the list. -/
theorem pushChunk_of_toList (hv : v.Valid w) (h : v.toList = .ok xs)
    (hfull : full.toList = .ok ys) : ∃ u, pushChunk v full = .ok u ∧ u.toList = .ok (xs ++ ys) := by
  induction v using Vec.induction generalizing xs with
  | step v ih =>
    cases v with
    | chunk items =>
      rw [pushChunk]
      · exact ⟨_, rfl, toList_taller h hfull⟩
      · exact fun n children hn => by cases hn
    | tailed n front items =>
      rw [pushChunk]
      · exact ⟨_, rfl, toList_taller h hfull⟩
      · exact fun n children hn => by cases hn
    | tree n children =>
      obtain ⟨hn, -, htiles⟩ := hv.shaped
      rw [pushChunk]
      by_cases hsize : childSize (n + chunkSize) = childSize n
      · rw [if_neg (not_not_intro hsize)]
        by_cases hroom : n - childSize n * (children.length - 1) < childSize n
        · -- the last child takes the chunk, which is the same question one level down
          obtain ⟨init, last, rfl⟩ := htiles.exists_concat (by omega)
          obtain ⟨-, -, -, hold⟩ := tiles_concat_iff.1 htiles
          have hmem : last ∈ (tree n (init ++ [last])).refs :=
            List.mem_append_right _ List.mem_cons_self
          rw [toList_tree] at h
          obtain ⟨before, after, hbefore, ⟨t, ht, hafter⟩, rfl⟩ := refsTraverse_concat_eq_ok_iff.1 h
          obtain ⟨t', ht', hlist⟩ := ih last hmem t ht ((hv.refs hmem).vec hold ht).1 hafter
          rw [if_pos hroom, refsPushChunk_concat, ht, ok_bind, ht', ok_bind, ok_bind]
          refine ⟨_, rfl, ?_⟩
          rw [List.append_assoc]
          exact toList_tree_concat hbefore (leadsTo_of hlist)
        -- the last child is full, so the chunk is a new child
        · rw [if_neg hroom]
          rw [toList_tree] at h
          exact ⟨_, rfl, toList_tree_concat h (leadsTo_of hfull)⟩
      -- the tree is full, so it grows a level
      · rw [if_pos hsize]
        exact ⟨_, rfl, toList_taller h hfull⟩

/-- Pushing a full chunk onto full chunks appends its elements. -/
theorem Lists.pushChunk (h : v.Lists xs) (hpos : 0 < v.count) (hmod : v.count % chunkSize = 0)
    (hfull : full.Lists ys) (hlen : ys.length = chunkSize) :
    ∃ u, v.pushChunk full = .ok u ∧ u.Lists (xs ++ ys) := by
  obtain ⟨w, hv⟩ := h.intact.valid
  obtain ⟨w', hf⟩ := hfull.intact.valid
  obtain ⟨u, hu, hlist⟩ := pushChunk_of_toList hv h.toList hfull.toList
  -- there is room for whatever the vector has already and the chunk
  have hvalid : u.Valid (w + w' + (v.count + chunkSize)) :=
    (valid_of_pushChunk (hv.mono (by omega)) hpos hmod (Vec.Valid.mono hf (by omega))
      (hfull.length_eq.symm.trans hlen) (by omega) hu).1
  exact ⟨u, hu, hvalid.lists hlist (List.forall_mem_append.2 ⟨h.mem_intact, hfull.mem_intact⟩)⟩

/-! ## Adding elements -/

theorem items_concat {items : List Ref} {c : Cell}
    (h : List.Forall₂ (fun r c => r.held? = some c) items xs) :
    List.Forall₂ (fun r c => r.held? = some c) (items ++ [Ref.of c]) (xs ++ [c]) :=
  List.rel_append h (.cons (Ref.held?_of c) .nil)

/-- Pushing appends one element, in each of the three shapes. -/
theorem push_of_toList (hv : v.Valid w) (h : v.toList = .ok xs) (c : Cell) :
    ∃ u, v.push c = .ok u ∧ u.toList = .ok (xs ++ [c]) := by
  -- a new tail is put behind whatever has no room
  have hbehind : ∀ n, (tailed n (Ref.of v.cell) [Ref.of c]).toList = .ok (xs ++ [c]) := fun n =>
    toList_tailed_eq_ok_iff.2
      ⟨v, xs, [c], Ref.vec_of v, h, .cons (Ref.held?_of c) .nil, rfl⟩
  cases v with
  | chunk items =>
    unfold push
    simp only
    by_cases hroom : items.length < chunkSize
    · rw [if_pos hroom]
      exact ⟨_, rfl, toList_chunk_eq_ok_iff.2 (items_concat (toList_chunk_eq_ok_iff.1 h))⟩
    · rw [if_neg hroom]
      exact ⟨_, rfl, hbehind _⟩
  | tailed n front items =>
    obtain ⟨-, -, -, hold⟩ := hv.shaped
    obtain ⟨t, before, after, ht, hbefore, hafter, rfl⟩ := toList_tailed_eq_ok_iff.1 h
    unfold push
    simp only
    -- a tail that becomes full is pushed down as a chunk
    by_cases hfull : items.length + 1 = chunkSize
    · rw [if_pos hfull, refPushChunk_eq, ht, ok_bind, List.append_assoc]
      exact pushChunk_of_toList (hv.front.vec hold ht).1 hbefore
        (toList_chunk_eq_ok_iff.2 (items_concat hafter))
    · rw [if_neg hfull, List.append_assoc]
      exact ⟨_, rfl, toList_tailed_eq_ok_iff.2
        ⟨t, before, after ++ [c], ht, hbefore, items_concat hafter, rfl⟩⟩
  | tree n children => exact ⟨_, rfl, hbehind _⟩

/-- Pushing an element adds it to the list. -/
theorem Lists.push (h : v.Lists xs) {c : Cell} (hc : c.Intact) :
    ∃ u, v.push c = .ok u ∧ u.Lists (xs ++ [c]) := by
  obtain ⟨w, hv⟩ := h.intact.valid
  obtain ⟨w', hcv⟩ := hc.valid
  obtain ⟨u, hu, hlist⟩ := push_of_toList hv h.toList c
  have hvalid := (valid_of_push (hv.mono (Nat.le_add_right w w'))
    (hcv.mono (Nat.le_add_left w' w)) hu).1
  exact ⟨u, hu, hvalid.lists hlist
    (List.forall_mem_append.2 ⟨h.mem_intact, List.forall_mem_singleton.2 hc⟩)⟩

/-- A chunk of another vector is taken over whole: it is the vector if there are no elements yet. -/
theorem Lists.takeOver {out : Vec} (hout : out.Lists xs) (hmod : out.count % chunkSize = 0)
    (hfull : full.Lists ys) (hlen : ys.length = chunkSize) :
    ∃ u, u.Lists (xs ++ ys) ∧ ∀ k : Vec → Except DataError Vec,
      (if out.count = 0 then Except.ok full >>= k else out.pushChunk full >>= k) = k u := by
  by_cases hzero : out.count = 0
  · have hnil : xs = [] := List.length_eq_zero_iff.1 (hout.length_eq.trans hzero)
    subst hnil
    exact ⟨full, hfull, fun k => if_pos hzero⟩
  · obtain ⟨u, hu, hlist⟩ := hout.pushChunk (Nat.pos_of_ne_zero hzero) hmod hfull hlen
    refine ⟨u, hlist, fun k => ?_⟩
    rw [if_neg hzero, hu, ok_bind]

/-- A run of a list is added to a vector, by whole chunks where that is possible. -/
theorem Lists.extend {src out : Vec} {stop left i : Nat} (hsrc : src.Lists ys)
    (hout : out.Lists xs) (hstop : stop ≤ src.count) (hleft : stop ≤ i + left) :
    ∃ u, extend src stop left out i = .ok u ∧ u.Lists (xs ++ (ys.drop i).take (stop - i)) := by
  -- the loop is over when the end is reached
  have hdone : ∀ {out : Vec} {xs : List Cell} {i : Nat}, out.Lists xs → stop ≤ i →
      out.Lists (xs ++ (ys.drop i).take (stop - i)) := by
    intro out xs i hout hle
    rwa [Nat.sub_eq_zero_of_le hle, List.take_zero, List.append_nil]
  induction left generalizing out xs i with
  | zero =>
    rw [Vec.extend]
    exact ⟨out, rfl, hdone hout hleft⟩
  | succ left ih =>
    rw [Vec.extend]
    by_cases hle : stop ≤ i
    · rw [if_pos hle]
      exact ⟨out, rfl, hdone hout hle⟩
    rw [if_neg hle]
    split
    -- at a border of chunks a whole chunk is taken over
    · next hborder =>
      simp only [Bool.and_eq_true, beq_iff_eq, decide_eq_true_eq, isPacked] at hborder
      obtain ⟨⟨hpacked, hmod⟩, hwhole⟩ := hborder
      obtain ⟨r, full, hr, hfull, hrun⟩ := hsrc.chunkAt hmod (Nat.le_trans hwhole hstop)
      have hfits := hsrc.length_eq
      have hlen : ((ys.drop i).take chunkSize).length = chunkSize := by
        rw [List.length_take, List.length_drop]
        omega
      obtain ⟨out', hout', hpush⟩ := hout.takeOver hpacked hrun hlen
      obtain ⟨u, hu, hlist⟩ := ih hout' (i := i + chunkSize) (by simp only [chunkSize]; omega)
      refine ⟨u, ?_, ?_⟩
      · rw [hr, ok_bind, hfull, ok_bind]
        exact (hpush _).trans hu
      · rw [show stop - i = chunkSize + (stop - (i + chunkSize)) by omega, List.take_add,
          List.drop_drop, ← List.append_assoc]
        exact hlist
    · -- elsewhere the next element is pushed
      have hi : i < ys.length := by
        rw [hsrc.length_eq]
        omega
      obtain ⟨out', hpush, hout'⟩ := hout.push (hsrc.mem_intact _ (List.getElem_mem hi))
      obtain ⟨u, hu, hlist⟩ := ih hout' (i := i + 1) (by omega)
      refine ⟨u, ?_, ?_⟩
      · rw [hsrc.get hi, ok_bind, hpush, ok_bind]
        exact hu
      · rw [show stop - i = stop - (i + 1) + 1 by omega, List.drop_eq_getElem_cons hi,
          List.take_succ_cons, List.append_cons]
        exact hlist

/-- Appending a vector adds its elements to the list. -/
theorem Lists.append {u : Vec} (h : v.Lists xs) (hu : u.Lists ys) :
    ∃ t, v.append u = .ok t ∧ t.Lists (xs ++ ys) := by
  obtain ⟨t, ht, hlist⟩ := hu.extend h (Nat.le_refl u.count) (Nat.le_add_left _ 0)
  rw [List.drop_zero, Nat.sub_zero, List.take_of_length_le (Nat.le_of_eq hu.length_eq)] at hlist
  exact ⟨t, ht, hlist⟩

end Vec

end CellMachine
