import CellMachine.Proofs.Cell.Contains
import CellMachine.Vec.Slice

/-!
# Nodes of valid vectors

The operations on vectors come in threes, for a node, for a reference to a node and for the children
of a node. An operation on a reference is the operation on the vector that it leads to, and a valid
reference that cuts off `n` elements leads to a valid vector of `n` elements (`Ref.Valid.vec`). With
these, a fact about nodes goes by induction over the nodes that references hold (`Vec.induction`).

Main statements: `Vec.contains_of_getIn` (the elements of a vector are found inside it) and
`Vec.valid_of_chunkAt` (the full chunks of a valid vector are valid).
-/

namespace CellMachine

/-! ## Vectors behind references -/

/-- A reference leads to a vector if the cell it holds is one. -/
theorem Ref.vec_eq_ok_iff {r : Ref} {v : Vec} : r.vec = .ok v ↔ r.held? = some (.vector v) := by
  rw [vec, bind_eq_ok_iff]
  constructor
  · rintro ⟨c, hc, hv⟩
    rw [Ref.cell_eq_ok_iff] at hc
    cases c with
    | vector u =>
      cases hv
      exact hc
    | _ => cases hv
  · intro h
    exact ⟨_, Ref.cell_eq_ok_iff.2 h, rfl⟩

/-- What holds of a vector whenever it holds of the vectors that its references lead to, holds of
every vector. -/
theorem Vec.induction {P : Vec → Prop}
    (step : ∀ v, (∀ r ∈ v.refs, ∀ u, r.vec = .ok u → P u) → P v) (v : Vec) : P v := by
  suffices h : ∀ c : Cell, ∀ v, c = .vector v → P v from h _ v rfl
  intro c
  induction c using Cell.induction with
  | step c ih =>
    rintro v rfl
    exact step v fun r hr u hu => ih r hr _ (Ref.vec_eq_ok_iff.1 hu) u rfl

namespace Vec

/-- Reading below a reference is reading below the vector it leads to; the recursion says so case by
case. -/
theorem refGetIn_eq (r : Ref) (i : Nat) : refGetIn r i = r.vec >>= fun v => getIn v i := by
  rcases r with ⟨h, l, c⟩ | ⟨h, l, c⟩ | ⟨h, l, c⟩ | h
  · cases c <;> rfl
  · cases c <;> rfl
  · cases c <;> rfl
  · rfl

theorem refChunkAt_eq (r : Ref) (i : Nat) : refChunkAt r i = r.vec >>= fun v => chunkAt v i := by
  rcases r with ⟨h, l, c⟩ | ⟨h, l, c⟩ | ⟨h, l, c⟩ | h
  · cases c <;> rfl
  · cases c <;> rfl
  · cases c <;> rfl
  · rfl

theorem refPushChunk_eq (r : Ref) (full : Vec) :
    refPushChunk r full = r.vec >>= fun v => pushChunk v full := by
  rcases r with ⟨h, l, c⟩ | ⟨h, l, c⟩ | ⟨h, l, c⟩ | h
  · cases c <;> rfl
  · cases c <;> rfl
  · cases c <;> rfl
  · rfl

theorem refSplitLast_eq (r : Ref) : refSplitLast r = r.vec >>= splitLast := by
  rcases r with ⟨h, l, c⟩ | ⟨h, l, c⟩ | ⟨h, l, c⟩ | h
  · cases c <;> rfl
  · cases c <;> rfl
  · cases c <;> rfl
  · rfl

theorem refSetIn_eq (r : Ref) (i : Nat) (value : Ref) :
    refSetIn r i value =
      r.vec >>= fun v => setIn v i value >>= fun u => .ok (Ref.of u.cell) := by
  rcases r with ⟨h, l, c⟩ | ⟨h, l, c⟩ | ⟨h, l, c⟩ | h
  · cases c <;> rfl
  · cases c <;> rfl
  · cases c <;> rfl
  · rfl

theorem refTraverse_eq {β : Type} (f : Cell → Except DataError β) (r : Ref) :
    refTraverse f r = r.vec >>= traverse f := by
  rcases r with ⟨h, l, c⟩ | ⟨h, l, c⟩ | ⟨h, l, c⟩ | h
  · cases c <;> rfl
  · cases c <;> rfl
  · cases c <;> rfl
  · rfl

/-- The recursion over children is an access to one of them. -/
theorem refsGetIn_eq (rs : List Ref) (k i : Nat) (e : DataError) :
    refsGetIn rs k i e = match rs[k]? with
      | some r => refGetIn r i
      | none => .error e := by
  induction rs generalizing k with
  | nil => rfl
  | cons r rs ih =>
    cases k with
    | zero => rfl
    | succ k => exact ih k

theorem refsChunkAt_eq (rs : List Ref) (k i : Nat) (e : DataError) :
    refsChunkAt rs k i e = match rs[k]? with
      | some r => refChunkAt r i
      | none => .error e := by
  induction rs generalizing k with
  | nil => rfl
  | cons r rs ih =>
    cases k with
    | zero => rfl
    | succ k => exact ih k

theorem refsSetIn_eq (rs : List Ref) (k i : Nat) (value : Ref) (e : DataError) :
    refsSetIn rs k i value e = match rs[k]? with
      | some r => refSetIn r i value >>= fun r' => .ok (rs.set k r')
      | none => .error e := by
  induction rs generalizing k with
  | nil => rfl
  | cons r rs ih =>
    cases k with
    | zero => rfl
    | succ k =>
      rw [refsSetIn, ih, List.getElem?_cons_succ]
      cases rs[k]? with
      | none => rfl
      | some s =>
        show (refSetIn s i value >>= _) >>= _ = _
        rw [bind_assoc]
        rfl

end Vec

/-! ## Valid nodes -/

section Valid
variable {w : Nat}

/-- The reference made of a vector holds one with its count. -/
theorem Ref.holdsVec_of {v : Vec} {n : Nat} (h : v.count = n) : (Ref.of v.cell).HoldsVec n := by
  intro d hd
  rw [Ref.held?_of] at hd
  cases hd
  exact ⟨v, rfl, h⟩

/-- A valid reference leads to a valid vector, with the count it is asked for. -/
theorem Ref.Valid.vec {r : Ref} {v : Vec} {n : Nat} (h : r.Valid w) (hold : r.HoldsVec n)
    (hv : r.vec = .ok v) : v.Valid w ∧ v.count = n := by
  rw [Ref.vec_eq_ok_iff] at hv
  obtain ⟨u, hu, hcount⟩ := hold _ hv
  cases hu
  exact ⟨(h _ hv).2, hcount⟩

/-- The part number `k` holds what is left behind `k` full parts, up to a full part. -/
theorem Tiles.getElem? {size n k : Nat} {r : Ref} {rs : List Ref} (h : Tiles size n rs)
    (hr : rs[k]? = some r) : r.HoldsVec (min (n - size * k) size) ∧ size * k < n := by
  induction rs generalizing n k with
  | nil => cases hr
  | cons r' rs ih =>
    obtain ⟨hpos, hold, hrest⟩ := h
    cases k with
    | zero =>
      cases hr
      exact ⟨hold, hpos⟩
    | succ k =>
      obtain ⟨hold', hlt⟩ := ih hrest hr
      rw [Nat.mul_succ, Nat.add_comm, Nat.sub_add_eq]
      exact ⟨hold', by omega⟩

/-- Every part but the last is full, and the last holds what they leave. -/
theorem tiles_concat_iff {size n : Nat} {init : List Ref} {r : Ref} :
    Tiles size n (init ++ [r]) ↔ (∀ s ∈ init, s.HoldsVec size) ∧ size * init.length < n ∧
      n ≤ size * init.length + size ∧ r.HoldsVec (n - size * init.length) := by
  induction init generalizing n with
  | nil =>
    simp only [List.nil_append, Tiles, List.length_nil, Nat.mul_zero, Nat.sub_zero, Nat.zero_add]
    constructor
    · rintro ⟨hpos, hold, hrest⟩
      rw [Nat.min_eq_left (by omega)] at hold
      exact ⟨fun s hs => absurd hs List.not_mem_nil, hpos, by omega, hold⟩
    · rintro ⟨-, hpos, hle, hold⟩
      rw [Nat.min_eq_left hle]
      exact ⟨hpos, hold, by omega⟩
  | cons s init ih =>
    rw [List.cons_append, Tiles, ih, List.length_cons, Nat.mul_succ, List.forall_mem_cons]
    -- what the last child is left with does not depend on how it is counted
    have hsub : n - (size * init.length + size) = n - size - size * init.length := by omega
    constructor
    · rintro ⟨hpos, hold, hinit, hlt, hle, hlast⟩
      rw [Nat.min_eq_right (by omega)] at hold
      rw [hsub]
      exact ⟨⟨hold, hinit⟩, by omega, by omega, hlast⟩
    · rintro ⟨⟨hold, hinit⟩, hlt, hle, hlast⟩
      rw [hsub] at hlast
      rw [Nat.min_eq_right (by omega)]
      exact ⟨by omega, hold, hinit, by omega, by omega, hlast⟩

/-- Parts without a rest are all full. -/
theorem Tiles.holdsVec_of_full {size n : Nat} {rs : List Ref} (h : Tiles size n rs)
    (hn : n = size * rs.length) : ∀ r ∈ rs, r.HoldsVec size := by
  induction rs generalizing n with
  | nil => exact fun r hr => by cases hr
  | cons r rs ih =>
    obtain ⟨hpos, hold, hrest⟩ := h
    rw [List.length_cons, Nat.mul_succ] at hn
    rw [Nat.min_eq_right (by omega)] at hold
    exact List.forall_mem_cons.2 ⟨hold, ih hrest (by omega)⟩

/-- Full children tile a count that they divide. -/
theorem tiles_of_full {size : Nat} {rs : List Ref} (hs : 0 < size)
    (h : ∀ r ∈ rs, r.HoldsVec size) : Tiles size (size * rs.length) rs := by
  induction rs with
  | nil => exact Nat.mul_zero size
  | cons r rs ih =>
    obtain ⟨hr, hrs⟩ := List.forall_mem_cons.1 h
    rw [List.length_cons, Nat.mul_succ, Tiles, Nat.min_eq_right (by omega), Nat.add_sub_cancel]
    exact ⟨by omega, hr, ih hrs⟩

/-- A part can be replaced by one that holds as much. -/
theorem Tiles.set {size n k : Nat} {r : Ref} {rs : List Ref} (h : Tiles size n rs)
    (hr : r.HoldsVec (min (n - size * k) size)) : Tiles size n (rs.set k r) := by
  induction rs generalizing n k with
  | nil => exact h
  | cons s rs ih =>
    obtain ⟨hpos, hold, hrest⟩ := h
    cases k with
    | zero => exact ⟨hpos, hr, hrest⟩
    | succ k =>
      rw [Nat.mul_succ, Nat.add_comm, Nat.sub_add_eq] at hr
      exact ⟨hpos, hold, ih hrest hr⟩

theorem Tiles.exists_concat {size n : Nat} {rs : List Ref} (h : Tiles size n rs) (hn : 0 < n) :
    ∃ init r, rs = init ++ [r] := by
  cases rs with
  | nil =>
    have : n = 0 := h
    omega
  | cons r rs => exact ⟨_, _, (List.dropLast_concat_getLast (List.cons_ne_nil r rs)).symm⟩

namespace Vec

theorem Valid.shaped {v : Vec} (h : v.Valid w) : v.Shaped := Cell.Valid.shaped h

theorem Valid.room {v : Vec} (h : v.Valid w) : v.Room w := Cell.Valid.room h

theorem Valid.refs {v : Vec} (h : v.Valid w) {r : Ref} (hr : r ∈ v.refs) : r.Valid w :=
  Cell.Valid.refs (c := .vector v) h hr

theorem Valid.front {n : Nat} {front : Ref} {items : List Ref}
    (h : (tailed n front items).Valid w) : front.Valid w :=
  h.refs front_mem_refs

theorem Valid.items {n : Nat} {front : Ref} {items : List Ref}
    (h : (tailed n front items).Valid w) : ∀ r ∈ items, r.Valid w :=
  fun _ hr => h.refs (item_mem_refs hr)

theorem Valid.mono {v : Vec} {w' : Nat} (h : v.Valid w) (hw : w ≤ w') : v.Valid w' :=
  Cell.Valid.mono h hw

theorem valid_chunk {items : List Ref} (hlen : items.length ≤ chunkSize)
    (hitems : ∀ r ∈ items, r.Valid w) : (chunk items).Valid w := by
  refine Cell.valid_iff.2 ⟨hlen, .inl ?_, hitems⟩
  exact Nat.le_trans hlen (Nat.le_trans (by decide) (Nat.le_add_right freeCount w))

/-- A vector with a tail is valid if its front and its items are. -/
theorem valid_tailed {count : Nat} {front : Ref} {items : List Ref}
    (hshaped : (tailed count front items).Shaped) (hroom : (tailed count front items).Room w)
    (hfront : front.Valid w) (hitems : ∀ r ∈ items, r.Valid w) :
    (tailed count front items).Valid w := by
  refine Cell.valid_iff.2 ⟨hshaped, hroom, fun r hr => ?_⟩
  rcases List.mem_append.1 hr with hr | hr
  · exact hitems r hr
  · cases List.mem_singleton.1 hr
    exact hfront

/-- A tree is valid if its children are and tile its count. -/
theorem valid_tree {count : Nat} {children : List Ref} (hcount : chunkSize < count)
    (hmod : count % chunkSize = 0) (htiles : Tiles (childSize count) count children)
    (hroom : (tree count children).Room w) (hchildren : ∀ r ∈ children, r.Valid w) :
    (tree count children).Valid w :=
  Cell.valid_iff.2 ⟨⟨hcount, hmod, htiles⟩, hroom, hchildren⟩

/-- A packed vector is a full chunk or a tree, or has no elements. -/
theorem Shaped.count_eq_of_packed {v : Vec} (h : v.Shaped) (hmod : v.count % chunkSize = 0) :
    (∃ items, v = .chunk items ∧ (items = [] ∨ items.length = chunkSize)) ∨
      ∃ n children, v = .tree n children := by
  cases v with
  | chunk items =>
    refine .inl ⟨items, rfl, ?_⟩
    have hlen : items.length ≤ chunkSize := h
    have hmod : items.length % chunkSize = 0 := hmod
    by_cases hnil : items = []
    · exact .inl hnil
    · have := List.length_pos_iff.2 hnil
      refine .inr ?_
      simp only [chunkSize] at *
      omega
  | tailed n front items => exact absurd hmod h.mod_ne_zero
  | tree n children => exact .inr ⟨n, children, rfl⟩

/-- The last child of a jammed tree is missing. -/
theorem Jammed.held?_eq_none {n : Nat} {init : List Ref} {last : Ref}
    (h : (tree n (init ++ [last])).Jammed) : last.held? = none := by
  obtain ⟨-, r, hlast, hmissing⟩ := h
  rw [List.getLast?_concat] at hlast
  cases hlast
  exact hmissing

/-! ## Reading elements and chunks -/

/-- An item is what one of the references holds. -/
theorem held?_of_itemAt {items : List Ref} {i index count : Nat} {c : Cell}
    (h : itemAt items i index count = .ok c) : ∃ r ∈ items, r.held? = some c := by
  unfold itemAt at h
  split at h
  · next r hr => exact ⟨r, List.mem_of_getElem? hr, Ref.cell_eq_ok_iff.1 h⟩
  · cases h

/-- An element of a vector is found inside it. -/
theorem contains_of_getIn {v : Vec} {i : Nat} {c : Cell} (h : getIn v i = .ok c) :
    v.cell.Contains c := by
  induction v using Vec.induction generalizing i with
  | step v ih =>
    -- below a child the element is inside the child's vector, which is inside this one
    have hnode : ∀ r ∈ v.refs, ∀ j, refGetIn r j = .ok c → v.cell.Contains c := by
      intro r hr j hj
      rw [refGetIn_eq, bind_eq_ok_iff] at hj
      obtain ⟨u, hu, hj⟩ := hj
      have hpart : v.cell.Contains u.cell := Cell.contains_of_held hr (Ref.vec_eq_ok_iff.1 hu)
      exact hpart.trans (ih r hr u hu hj)
    cases v with
    | chunk items =>
      unfold getIn at h
      obtain ⟨r, hr, hc⟩ := held?_of_itemAt h
      exact Cell.contains_of_held hr hc
    | tailed n front items =>
      unfold getIn at h
      simp only at h
      split at h
      · exact hnode front front_mem_refs _ h
      · obtain ⟨r, hr, hc⟩ := held?_of_itemAt h
        have hr : r ∈ (tailed n front items).cell.refs := List.mem_append_left [front] hr
        exact Cell.contains_of_held hr hc
    | tree n children =>
      unfold getIn at h
      rw [refsGetIn_eq] at h
      split at h
      · next r hr => exact hnode r (List.mem_of_getElem? hr) _ h
      · cases h

theorem contains_of_get {v : Vec} {i : Nat} {c : Cell} (h : v.get i = .ok c) :
    v.cell.Contains c := by
  unfold get at h
  split at h
  · cases h
  · exact contains_of_getIn h

/-- The elements of a valid vector are valid. -/
theorem valid_of_get {v : Vec} (hv : v.Valid w) {i : Nat} {c : Cell} (h : v.get i = .ok c) :
    c.Valid w :=
  hv.of_contains (contains_of_get h)

/-- The reference to a full chunk of a valid vector. -/
theorem valid_of_chunkAt {v : Vec} (hv : v.Valid w) {offset : Nat}
    (hmod : offset % chunkSize = 0) (hle : offset + chunkSize ≤ v.count) {r : Ref}
    (h : chunkAt v offset = .ok r) : r.Valid w ∧ r.HoldsVec chunkSize := by
  induction v using Vec.induction generalizing offset with
  | step v ih =>
    -- the same question for a child, whose count is a multiple of the chunk size as well
    have hnode : ∀ s ∈ v.refs, ∀ n j, s.HoldsVec n → j % chunkSize = 0 → j + chunkSize ≤ n →
        refChunkAt s j = .ok r → r.Valid w ∧ r.HoldsVec chunkSize := by
      intro s hs n j hold hj hjn hread
      rw [refChunkAt_eq, bind_eq_ok_iff] at hread
      obtain ⟨u, hu, hread⟩ := hread
      obtain ⟨huv, hcount⟩ := (hv.refs hs).vec hold hu
      exact ih s hs u hu huv hj (by omega) hread
    cases v with
    | chunk items =>
      unfold chunkAt at h
      split at h
      · next hfull =>
        cases h
        exact ⟨Ref.valid_of hv, Ref.holdsVec_of hfull.2⟩
      · cases h
    | tailed n front items =>
      obtain ⟨hn, -, hlen, hold⟩ := hv.shaped
      unfold chunkAt at h
      split at h
      · next hlt =>
        refine hnode front front_mem_refs _ _ hold hmod ?_ h
        simp only [chunkSize] at *
        omega
      · cases h
    | tree n children =>
      obtain ⟨hn, hn32, htiles⟩ := hv.shaped
      have hle : offset + chunkSize ≤ n := hle
      unfold chunkAt at h
      simp only at h
      split at h
      · next hsize =>
        split at h
        · next s hs =>
          cases h
          obtain ⟨hold, hlt⟩ := htiles.getElem? hs
          refine ⟨hv.refs (List.mem_of_getElem? hs), ?_⟩
          rw [hsize] at hold hlt
          rwa [Nat.min_eq_right] at hold
          have := Nat.div_add_mod offset chunkSize
          omega
        · cases h
      · rw [refsChunkAt_eq] at h
        split at h
        · next s hs =>
          obtain ⟨hold, hlt⟩ := htiles.getElem? hs
          have hsize := childSize_mod n
          have hpos := childSize_pos n
          have hdiv := Nat.div_add_mod offset (childSize n)
          have hrem := Nat.mod_lt offset hpos
          have hmod' : offset % childSize n % chunkSize = 0 := by
            rw [Nat.mod_mod_of_dvd _ (Nat.dvd_of_mod_eq_zero hsize), hmod]
          refine hnode s (List.mem_of_getElem? hs) _ _ hold hmod' ?_ h
          -- both the position and the size of a child are multiples of 32
          simp only [chunkSize] at *
          omega
        · cases h

end Vec

end Valid

end CellMachine
