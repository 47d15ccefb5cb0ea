import CellMachine.Proofs.Vec.Elements

/-!
# Reading a vector of which parts are missing

An element is read by going down from the root to it, over the references that the element *passes*. If all of
them are held the element is there, and if one of them is not, that is what is missing
(`Vec.getIn_eq_error_iff`); valid vectors have no other errors.

Listing the elements is reading them one after another, up to the first that is missing
(`Vec.toList_eq_mapM_get`).
-/

namespace CellMachine

variable {w : Nat}

/-! ## References that lead nowhere -/

/-- Only a reference that holds nothing fails, and it says what is missing. -/
theorem Ref.cell_eq_error_iff {r : Ref} {e : DataError} :
    r.cell = .error e ↔ ∃ h, e = .missing h ∧ r = .remote h := by
  constructor
  · intro hr
    cases r with
    | remote h =>
      cases hr
      exact ⟨h, rfl, rfl⟩
    | _ => cases hr
  · rintro ⟨h, rfl, rfl⟩
    rfl

/-- A reference to a vector is missing, or leads to the vector. -/
theorem Ref.HoldsVec.vec_eq {r : Ref} {n : Nat} (hold : r.HoldsVec n) :
    (∃ h, r = .remote h) ∨ ∃ u, r.vec = .ok u := by
  cases hr : r.cell with
  | error e =>
    obtain ⟨h, -, hremote⟩ := Ref.cell_eq_error_iff.1 hr
    exact .inl ⟨h, hremote⟩
  | ok d =>
    obtain ⟨u, rfl, -⟩ := hold d (Ref.cell_eq_ok_iff.1 hr)
    exact .inr ⟨u, Ref.vec_eq_ok_iff.2 (Ref.cell_eq_ok_iff.1 hr)⟩

/-- Every position is in one of the parts. -/
theorem Tiles.exists_getElem? {size n i : Nat} {rs : List Ref} (h : Tiles size n rs) (hsize : 0 < size)
    (hi : i < n) : ∃ r, rs[i / size]? = some r := by
  induction rs generalizing n i with
  | nil =>
    have hn : n = 0 := h
    omega
  | cons r rs ih =>
    by_cases hlt : i < size
    · exact ⟨r, by rw [Nat.div_eq_of_lt hlt]; rfl⟩
    · rw [Nat.div_eq_sub_div hsize (Nat.le_of_not_lt hlt), List.getElem?_cons_succ]
      exact ih h.2.2 (by omega)

namespace Vec

variable {v : Vec}

/-- The child of a tree that has the element at a position. -/
theorem Valid.exists_child {n i : Nat} {children : List Ref} (hv : (tree n children).Valid w) (hi : i < n) :
    ∃ r m, children[i / childSize n]? = some r ∧ r ∈ (tree n children).refs ∧
      r.HoldsVec m ∧ m = min (n - childSize n * (i / childSize n)) (childSize n) ∧ i % childSize n < m := by
  obtain ⟨-, -, htiles⟩ := hv.shaped
  have hpos := childSize_pos n
  obtain ⟨r, hr⟩ := htiles.exists_getElem? hpos hi
  obtain ⟨hold, hlt⟩ := htiles.getElem? hr
  refine ⟨r, _, hr, List.mem_of_getElem? hr, hold, rfl, ?_⟩
  have hmod := Nat.mod_lt i hpos
  have hdiv := Nat.div_add_mod i (childSize n)
  omega

/-! ## The way to an element -/

/-- The references on the way from the root to the element at a position, up to that of the element. -/
inductive Passes : Vec → Nat → Ref → Prop where
  | item {items : List Ref} {i : Nat} {r : Ref} (hr : items[i]? = some r) : Passes (.chunk items) i r
  | tail {n i : Nat} {front r : Ref} {items : List Ref} (hi : n - items.length ≤ i)
    (hr : items[i - (n - items.length)]? = some r) : Passes (.tailed n front items) i r
  | front {n i : Nat} {front : Ref} {items : List Ref} (hi : i < n - items.length) :
    Passes (.tailed n front items) i front
  | inFront {n i : Nat} {front r : Ref} {items : List Ref} {u : Vec} (hi : i < n - items.length)
    (hu : front.vec = .ok u) (hr : Passes u i r) : Passes (.tailed n front items) i r
  | child {n i : Nat} {s : Ref} {children : List Ref} (hs : children[i / childSize n]? = some s) :
    Passes (.tree n children) i s
  | inChild {n i : Nat} {s r : Ref} {children : List Ref} {u : Vec}
    (hs : children[i / childSize n]? = some s) (hu : s.vec = .ok u) (hr : Passes u (i % childSize n) r) :
    Passes (.tree n children) i r

/-- An item cannot be read only if it is missing. -/
theorem itemAt_eq_error_iff {items : List Ref} {i index count : Nat} (hi : i < items.length) {e : DataError} :
    itemAt items i index count = .error e ↔ ∃ h, e = .missing h ∧ items[i]? = some (.remote h) := by
  rw [itemAt, List.getElem?_eq_getElem hi]
  simp only [Ref.cell_eq_error_iff, Option.some.injEq]

/-- An index in front of the tail goes to the front. -/
theorem getIn_tailed_of_lt {n i : Nat} {front : Ref} {items : List Ref} (hi : i < n - items.length) :
    getIn (tailed n front items) i = refGetIn front i := by
  rw [getIn]
  exact if_pos hi

theorem getIn_tailed_of_le {n i : Nat} {front : Ref} {items : List Ref} (hi : n - items.length ≤ i) :
    getIn (tailed n front items) i = itemAt items (i - (n - items.length)) i n := by
  rw [getIn]
  exact if_neg (Nat.not_lt.2 hi)

/-- In a tree the index goes to the child it falls into. -/
theorem getIn_tree {n i : Nat} {r : Ref} {children : List Ref} (hr : children[i / childSize n]? = some r) :
    getIn (tree n children) i = refGetIn r (i % childSize n) := by
  rw [getIn, refsGetIn_eq, hr]

/-! ### What an element passes, by the shape of the root -/

section Shapes
variable {n i : Nat} {front r s : Ref} {items children : List Ref}

/-- The references on the way from a reference to a vector to the element at a position. -/
def RefPasses (s : Ref) (i : Nat) (r : Ref) : Prop := s = r ∨ ∃ u, s.vec = .ok u ∧ u.Passes i r

/-- In a chunk the way to an element is its own reference. -/
theorem passes_chunk_iff : (chunk items).Passes i r ↔ items[i]? = some r := by
  constructor
  · rintro ⟨hr⟩
    exact hr
  · exact .item

/-- In front of the tail the way leads through the front. -/
theorem passes_tailed_of_lt_iff (hi : i < n - items.length) :
    (tailed n front items).Passes i r ↔ RefPasses front i r := by
  constructor
  · intro h
    cases h with
    | tail hle => exact absurd hi (Nat.not_lt.2 hle)
    | front => exact .inl rfl
    | inFront _ hu hr => exact .inr ⟨_, hu, hr⟩
  · rintro (rfl | ⟨u, hu, hr⟩)
    · exact .front hi
    · exact .inFront hi hu hr

/-- In the tail the way is the element's own reference. -/
theorem passes_tailed_of_le_iff (hi : n - items.length ≤ i) :
    (tailed n front items).Passes i r ↔ items[i - (n - items.length)]? = some r := by
  constructor
  · intro h
    cases h with
    | tail _ hr => exact hr
    | front hlt => exact absurd hlt (Nat.not_lt.2 hi)
    | inFront hlt => exact absurd hlt (Nat.not_lt.2 hi)
  · exact .tail hi

theorem passes_tree_iff (hs : children[i / childSize n]? = some s) :
    (tree n children).Passes i r ↔ RefPasses s (i % childSize n) r := by
  constructor
  · intro h
    cases h with
    | child hs' =>
      cases hs.symm.trans hs'
      exact .inl rfl
    | inChild hs' hu hr =>
      cases hs.symm.trans hs'
      exact .inr ⟨_, hu, hr⟩
  · rintro (rfl | ⟨u, hu, hr⟩)
    · exact .child hs
    · exact .inChild hs hu hr

end Shapes

/-- What keeps an element from being read is that a reference on the way to it is missing; and whenever one is,
that is reported. -/
theorem getIn_eq_error_iff (hv : v.Valid w) {i : Nat} (hi : i < v.count) {e : DataError} :
    getIn v i = .error e ↔ ∃ h, e = .missing h ∧ v.Passes i (.remote h) := by
  induction v using Vec.induction generalizing i with
  | step v ih =>
    -- below a reference either the reference itself is missing or something behind it
    have hnode : ∀ s ∈ v.refs, ∀ m j, s.HoldsVec m → j < m →
        (refGetIn s j = .error e ↔ ∃ h, e = .missing h ∧ RefPasses s j (.remote h)) := by
      intro s hs m j hold hj
      rw [refGetIn_eq]
      rcases hold.vec_eq with ⟨h, rfl⟩ | ⟨u, hu⟩
      · constructor
        · intro he
          cases he
          exact ⟨h, rfl, .inl rfl⟩
        · rintro ⟨h', rfl, hremote | ⟨u, hu, -⟩⟩
          · cases hremote
            rfl
          · cases hu
      · obtain ⟨huv, hcount⟩ := (hv.refs hs).vec hold hu
        rw [hu, ok_bind, ih s hs u hu huv (by omega)]
        constructor
        · rintro ⟨h, rfl, hpasses⟩
          exact ⟨h, rfl, .inr ⟨u, hu, hpasses⟩⟩
        · rintro ⟨h, rfl, rfl | ⟨u', hu', hpasses⟩⟩
          · cases hu
          · cases hu.symm.trans hu'
            exact ⟨h, rfl, hpasses⟩
    cases v with
    | chunk items =>
      simp only [passes_chunk_iff]
      rw [getIn, itemAt_eq_error_iff hi]
    | tailed n front items =>
      obtain ⟨-, -, -, hold⟩ := hv.shaped
      have hi : i < n := hi
      by_cases hfront : i < n - items.length
      · simp only [passes_tailed_of_lt_iff hfront]
        rw [getIn_tailed_of_lt hfront, hnode front front_mem_refs _ i hold hfront]
      · have hle := Nat.le_of_not_lt hfront
        simp only [passes_tailed_of_le_iff hle]
        rw [getIn_tailed_of_le hle, itemAt_eq_error_iff (by omega)]
    | tree n children =>
      obtain ⟨s, m, hs, hmem, hold, -, hlt⟩ := hv.exists_child hi
      simp only [passes_tree_iff hs]
      rw [getIn_tree hs, hnode s hmem m _ hold hlt]

theorem get_of_lt {i : Nat} (hi : i < v.count) : v.get i = getIn v i := if_neg (Nat.not_le.2 hi)

/-! ## Lists -/

/-- Going through the items is reading one after another, whatever they are counted as. -/
theorem itemsTraverse_eq_mapM (items : List Ref) (index : Nat → Nat) (count : Nat) :
    itemsTraverse .ok items = (List.range items.length).mapM fun i => itemAt items i (index i) count := by
  induction items generalizing index with
  | nil => rfl
  | cons r items ih =>
    rw [List.length_cons, List.range_succ_eq_map, List.mapM_cons, List.mapM_map]
    have hrest : itemsTraverse .ok items = (List.range items.length).mapM
        ((fun i => itemAt (r :: items) i (index i) count) ∘ Nat.succ) := ih fun i => index (i + 1)
    rw [← hrest]
    show (List.mapM _ (r :: items) : Except DataError (List Cell)) = _
    rw [List.mapM_cons]
    show ((r.cell >>= Except.ok) >>= _) = (r.cell >>= _)
    cases r.cell <;> rfl

/-- What the children of a tree list is read off them position by position. -/
theorem refsTraverse_eq_mapM {size n : Nat} {rs : List Ref} (e : Nat → DataError) (htiles : Tiles size n rs)
    (hsize : 0 < size) (hparts : ∀ r ∈ rs, ∀ m, r.HoldsVec m → 0 < m →
      refTraverse .ok r = (List.range m).mapM (refGetIn r)) :
    refsTraverse .ok rs = (List.range n).mapM fun i => refsGetIn rs (i / size) (i % size) (e i) := by
  induction rs generalizing n e with
  | nil =>
    obtain rfl : n = 0 := htiles
    rfl
  | cons r rs ih =>
    obtain ⟨hpos, hold, hrest⟩ := htiles
    obtain ⟨hpart, hparts⟩ := List.forall_mem_cons.1 hparts
    -- the indices of the first child, where nothing is divided off
    have hfirst : (List.range (min n size)).mapM (fun i => refsGetIn (r :: rs) (i / size) (i % size) (e i)) =
        refTraverse .ok r := by
      rw [hpart _ hold (by omega)]
      refine mapM_congr fun i hi => ?_
      have hi := List.mem_range.1 hi
      rw [Nat.div_eq_of_lt (by omega), Nat.mod_eq_of_lt (by omega), refsGetIn]
    -- the indices of the others, one child further
    have hlater : (List.range (n - size)).mapM ((fun i => refsGetIn (r :: rs) (i / size) (i % size) (e i)) ∘
        fun i => min n size + i) = refsTraverse .ok rs := by
      rw [ih (fun i => e (min n size + i)) hrest hparts]
      refine mapM_congr fun i hi => ?_
      have hi := List.mem_range.1 hi
      have hsum : min n size + i = size + i := by omega
      show refsGetIn (r :: rs) ((min n size + i) / size) ((min n size + i) % size) (e (min n size + i)) = _
      rw [hsum, Nat.add_div_left i hsize, Nat.add_mod_left, refsGetIn]
    rw [show n = min n size + (n - size) by omega, List.range_add, List.mapM_append, List.mapM_map, hfirst,
      hlater]
    rfl

/-- Going through a vector is reading its elements one after another, also where one is missing. -/
theorem toList_eq_mapM_getIn (hv : v.Valid w) : v.toList = (List.range v.count).mapM (getIn v) := by
  induction v using Vec.induction with
  | step v ih =>
    have hnode : ∀ r ∈ v.refs, ∀ m, r.HoldsVec m → 0 < m →
        refTraverse .ok r = (List.range m).mapM (refGetIn r) := by
      intro r hr m hold hm
      obtain ⟨m, rfl⟩ := Nat.exists_eq_add_one_of_ne_zero (Nat.ne_of_gt hm)
      rw [refTraverse_eq]
      rcases hold.vec_eq with ⟨h, rfl⟩ | ⟨u, hu⟩
      -- a missing child fails at its first element already, and it has one
      · rw [List.range_succ_eq_map, List.mapM_cons]
        rfl
      · obtain ⟨huv, hcount⟩ := (hv.refs hr).vec hold hu
        rw [hu, ← hcount]
        refine (ih r hr u hu huv).trans (mapM_congr fun i _ => ?_)
        rw [refGetIn_eq, hu, ok_bind]
    cases v with
    | chunk items =>
      rw [toList, traverse, itemsTraverse_eq_mapM items id items.length]
      exact mapM_congr fun i _ => by rw [getIn, id]
    | tailed n front items =>
      obtain ⟨hn, -, hlen, hold⟩ := hv.shaped
      have hpos : 0 < n - items.length := by
        have := Nat.mod_lt n (show 0 < chunkSize by decide)
        omega
      have hbefore : (List.range (n - items.length)).mapM (getIn (tailed n front items)) =
          refTraverse .ok front := by
        rw [hnode front front_mem_refs _ hold hpos]
        exact mapM_congr fun i hi => getIn_tailed_of_lt (List.mem_range.1 hi)
      have hafter : (List.range items.length).mapM (getIn (tailed n front items) ∘
          fun i => n - items.length + i) = itemsTraverse .ok items := by
        rw [itemsTraverse_eq_mapM items (fun i => n - items.length + i) n]
        refine mapM_congr fun i _ => ?_
        rw [Function.comp_apply, getIn_tailed_of_le (Nat.le_add_right _ i), Nat.add_sub_cancel_left]
      have hrange : List.range n =
          List.range (n - items.length) ++ (List.range items.length).map fun i => n - items.length + i := by
        rw [← List.range_add, Nat.sub_add_cancel (by omega)]
      show _ = (List.range n).mapM _
      rw [hrange, List.mapM_append, List.mapM_map, hbefore, hafter]
      rfl
    | tree n children =>
      obtain ⟨-, -, htiles⟩ := hv.shaped
      rw [toList_tree, refsTraverse_eq_mapM (fun i => .outOfBounds i n) htiles (childSize_pos n) hnode]
      exact mapM_congr fun i _ => by rw [getIn]

/-- The elements of a vector are listed by reading them one after another. -/
theorem toList_eq_mapM_get (hv : v.Valid w) : v.toList = (List.range v.count).mapM v.get := by
  rw [toList_eq_mapM_getIn hv]
  exact mapM_congr fun i hi => (get_of_lt (List.mem_range.1 hi)).symm

end Vec

end CellMachine
