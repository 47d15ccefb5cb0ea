import CellMachine.Proofs.Built
import CellMachine.Proofs.Vec.Reading
import CellMachine.Vec.Cursor

/-!
# Walking a vector is reading it

A cursor reads chunk by chunk, and the tail of a vector is no chunk of the nodes below it. Whichever items it
keeps, they are those of some run of elements (`Vec.Keeps`), so that what it finds at its position is what
reading the vector at that position finds, node or item missing or not (`Cursor.Follows.next`).

Main statement: `Built.walk_eq_get`.
-/

namespace CellMachine

variable {w : Nat}

namespace Vec

variable {v : Vec}

/-! ## Chunks -/

/-- An element is read off the full chunk that it is in. -/
theorem getIn_add_eq (hv : v.Valid w) {offset k : Nat} (hmod : offset % chunkSize = 0)
    (hle : offset + chunkSize ≤ v.count) (hk : k < chunkSize) :
    getIn v (offset + k) = (chunkAt v offset >>= Ref.vec) >>= fun u => getIn u k := by
  induction v using Vec.induction generalizing offset with
  | step v ih =>
    have hnode : ∀ s ∈ v.refs, ∀ m j, s.HoldsVec m → j % chunkSize = 0 → j + chunkSize ≤ m →
        refGetIn s (j + k) = (refChunkAt s j >>= Ref.vec) >>= fun u => getIn u k := by
      intro s hs m j hold hj hjm
      rw [refGetIn_eq, refChunkAt_eq]
      cases hu : s.vec with
      | error e => rfl
      | ok u =>
        obtain ⟨huv, hcount⟩ := (hv.refs hs).vec hold hu
        exact ih s hs u hu huv hj (by omega)
    cases v with
    | chunk items =>
      have hlen : items.length ≤ chunkSize := hv.shaped
      have hle : offset + chunkSize ≤ items.length := hle
      obtain rfl : offset = 0 := by omega
      rw [chunkAt, if_pos ⟨rfl, by omega⟩, ok_bind, Ref.vec_of, ok_bind, Nat.zero_add]
    | tailed n front items =>
      obtain ⟨hn, -, hlen, hold⟩ := hv.shaped
      have hle : offset + chunkSize ≤ n := hle
      have hfront : offset + chunkSize ≤ n - items.length := by
        simp only [chunkSize] at *
        omega
      rw [getIn_tailed_of_lt (by omega), chunkAt, if_pos (by simp only [chunkSize] at hfront; omega)]
      exact hnode front front_mem_refs _ _ hold hmod hfront
    | tree n children =>
      have hle : offset + chunkSize ≤ n := hle
      have hn32 : n % chunkSize = 0 := hv.shaped.2.1
      obtain ⟨s, m, hs, hmem, hold, hm, hlt⟩ := hv.exists_child (i := offset)
        (by simp only [chunkSize] at hle; omega)
      have hpos := childSize_pos n
      have hsize := childSize_mod n
      have hsplit := Nat.div_add_mod offset (childSize n)
      have hmod' : offset % childSize n % chunkSize = 0 := by
        rw [Nat.mod_mod_of_dvd _ (Nat.dvd_of_mod_eq_zero hsize), hmod]
      -- the size of a child is a multiple of 32, so that the chunk lies within one child
      have hfit : offset % childSize n + chunkSize ≤ m := by
        simp only [chunkSize] at *
        omega
      have hbelow : offset % childSize n + k < childSize n := by omega
      have hsum : offset + k = childSize n * (offset / childSize n) + (offset % childSize n + k) := by omega
      have hdiv : (offset + k) / childSize n = offset / childSize n := by
        rw [hsum, Nat.mul_add_div hpos, Nat.div_eq_of_lt hbelow, Nat.add_zero]
      have hrem : (offset + k) % childSize n = offset % childSize n + k := by
        rw [hsum, Nat.mul_add_mod, Nat.mod_eq_of_lt hbelow]
      rw [getIn_tree (r := s) (by rw [hdiv]; exact hs), hrem]
      by_cases hchunk : childSize n = chunkSize
      · rw [chunkAt]
        simp only [if_pos hchunk, hs]
        have hzero : offset % childSize n = 0 := by rw [hchunk, hmod]
        rw [hzero, Nat.zero_add, refGetIn_eq, ok_bind]
      · rw [chunkAt]
        simp only [if_neg hchunk]
        rw [refsChunkAt_eq, hs]
        exact hnode s hmem m _ hold hmod' hfit

/-- A run of elements that are those of a list of references. -/
structure Keeps (v : Vec) (first : Nat) (items : List Ref) : Prop where
  le : first + items.length ≤ v.count
  get : ∀ k r, items[k]? = some r → v.get (first + k) = r.cell

/-- A full chunk keeps the elements from its position on. -/
theorem keeps_of_chunkAt (hv : v.Valid w) {offset : Nat} (hmod : offset % chunkSize = 0)
    (hle : offset + chunkSize ≤ v.count) {u : Vec} (hu : (chunkAt v offset >>= Ref.vec) = .ok u) :
    ∃ items, u = .chunk items ∧ items.length = chunkSize ∧ v.Keeps offset items := by
  -- an element of the run is read in the chunk
  have hget : ∀ k < chunkSize, v.get (offset + k) = getIn u k := by
    intro k hk
    rw [get_of_lt (by omega), getIn_add_eq hv hmod hle hk, hu, ok_bind]
  obtain ⟨r, hr, hread⟩ := bind_eq_ok_iff.1 hu
  obtain ⟨hrv, hold⟩ := valid_of_chunkAt hv hmod hle hr
  obtain ⟨huv, hcount⟩ := hrv.vec hold hread
  cases u with
  | chunk items =>
    have hlen : items.length = chunkSize := hcount
    refine ⟨items, rfl, hlen, by omega, fun k r hr => ?_⟩
    have hk : k < items.length := (List.getElem?_eq_some_iff.1 hr).1
    rw [hget k (by omega), getIn, itemAt, hr]
  | tailed n front items =>
    have hn : chunkSize < n := huv.shaped.1
    exact absurd hcount (Nat.ne_of_gt hn)
  | tree n children =>
    have hn : chunkSize < n := huv.shaped.1
    exact absurd hcount (Nat.ne_of_gt hn)

/-- Behind the last full chunk come the items of the vector itself. -/
theorem keeps_of_last (hv : v.Valid w) {i : Nat} (hi : i < v.count)
    (hlast : v.count < i - i % chunkSize + chunkSize) :
    ∃ items, v.chunkItems = .ok items ∧ v.Keeps (i - i % chunkSize) items ∧
      i < i - i % chunkSize + items.length := by
  cases v with
  | chunk items =>
    have hlen : items.length ≤ chunkSize := hv.shaped
    have hi : i < items.length := hi
    have hzero : i - i % chunkSize = 0 := by
      rw [Nat.mod_eq_of_lt (by omega), Nat.sub_self]
    rw [hzero]
    refine ⟨items, rfl, ⟨Nat.le_of_eq (Nat.zero_add _), fun k r hr => ?_⟩, by omega⟩
    have hk : k < items.length := (List.getElem?_eq_some_iff.1 hr).1
    rw [Nat.zero_add, get_of_lt hk, getIn, itemAt, hr]
  | tailed n front items =>
    obtain ⟨hn, -, hlen, -⟩ := hv.shaped
    have hi : i < n := hi
    have hlast : n < i - i % chunkSize + chunkSize := hlast
    have hstart : i - i % chunkSize = n - items.length := by
      simp only [chunkSize] at *
      omega
    have hle : items.length ≤ n := by
      rw [hlen]
      exact Nat.mod_le n chunkSize
    rw [hstart]
    refine ⟨items, rfl, ⟨Nat.le_of_eq (Nat.sub_add_cancel hle), fun k r hr => ?_⟩, by omega⟩
    have hk : k < items.length := (List.getElem?_eq_some_iff.1 hr).1
    rw [get_of_lt (show n - items.length + k < n by omega), getIn_tailed_of_le (by omega),
      Nat.add_sub_cancel_left, itemAt, hr]
  | tree n children =>
    -- a tree is made of full chunks
    obtain ⟨-, hmod, -⟩ := hv.shaped
    have hi : i < n := hi
    have hlast : n < i - i % chunkSize + chunkSize := hlast
    simp only [chunkSize] at *
    omega

/-- The items of the chunk around a position are those of a run of elements around it; or the chunk cannot be
read, and neither can the element. -/
theorem chunkAround_spec (hv : v.Valid w) {i : Nat} (hi : i < v.count) :
    (∃ e, v.chunkAround i = .error e ∧ v.get i = .error e) ∨
      ∃ first items, v.chunkAround i = .ok (first, items) ∧ v.Keeps first items ∧ first ≤ i ∧
        i < first + items.length := by
  have hstart : (i - i % chunkSize) % chunkSize = 0 := by
    simp only [chunkSize]
    omega
  have hmod := Nat.mod_lt i (show 0 < chunkSize by decide)
  by_cases hfull : i - i % chunkSize + chunkSize ≤ v.count
  · have haround : v.chunkAround i = (chunkAt v (i - i % chunkSize) >>= Ref.vec) >>= fun node =>
        node.chunkItems >>= fun items => .ok (i - i % chunkSize, items) := by
      rw [chunkAround, bind_assoc]
      simp only [if_pos hfull]
    -- in a full chunk both go the same way down
    have hget := getIn_add_eq hv hstart hfull hmod
    rw [Nat.sub_add_cancel (Nat.mod_le i chunkSize), ← get_of_lt hi] at hget
    cases hu : chunkAt v (i - i % chunkSize) >>= Ref.vec with
    | error e =>
      rw [hu] at haround hget
      exact .inl ⟨e, haround, hget⟩
    | ok u =>
      obtain ⟨items, rfl, hlen, hkeeps⟩ := keeps_of_chunkAt hv hstart hfull hu
      rw [hu] at haround
      exact .inr ⟨_, items, haround, hkeeps, Nat.sub_le i _, by omega⟩
  -- behind the last full chunk there is the tail
  · obtain ⟨items, hitems, hkeeps, hlt⟩ := keeps_of_last hv hi (Nat.lt_of_not_le hfull)
    refine .inr ⟨_, items, ?_, hkeeps, Nat.sub_le i _, hlt⟩
    rw [chunkAround]
    simp only [if_neg hfull]
    rw [ok_bind, hitems]
    rfl

/-! ## Cursors -/

namespace Cursor

variable {c : Cursor}

/-- A cursor in a vector that keeps items of the vector. -/
structure Follows (c : Cursor) (v : Vec) : Prop where
  vector : c.vector = v
  keeps : v.Keeps c.chunkStart c.items

theorem follows_start (v : Vec) : (start v).Follows v :=
  ⟨rfl, Nat.zero_le v.count, fun _ _ hr => by cases hr⟩

theorem Follows.finish (h : c.Follows v) : c.finish.Follows v := ⟨h.vector, h.keeps⟩

/-- With the chunk around its position read, a cursor keeps the item at its position. -/
theorem Follows.fill (h : c.Follows v) (hv : v.Valid w) (hi : c.index < v.count) :
    (∃ e, c.fill = .error e ∧ v.get c.index = .error e) ∨
      ∃ d r, c.fill = .ok d ∧ d.Follows v ∧ d.index = c.index ∧
        d.items[c.index - d.chunkStart]? = some r ∧ v.get c.index = r.cell := by
  -- an index within the chunk has an item, which is the element
  have hitem : ∀ {d : Cursor}, d.Follows v → d.chunkStart ≤ c.index →
      c.index < d.chunkStart + d.items.length →
      ∃ r, d.items[c.index - d.chunkStart]? = some r ∧ v.get c.index = r.cell := by
    intro d hd hle hlt
    have hr := List.getElem?_eq_getElem (l := d.items) (i := c.index - d.chunkStart) (by omega)
    refine ⟨_, hr, ?_⟩
    rw [← hd.keeps.get _ _ hr, Nat.add_sub_cancel' hle]
  cases hin : c.inChunk with
  | true =>
    have hbounds : c.chunkStart ≤ c.index ∧ c.index < c.chunkStart + c.items.length := by
      simpa [inChunk] using hin
    obtain ⟨r, hr, hget⟩ := hitem h hbounds.1 hbounds.2
    exact .inr ⟨c, r, if_pos hin, h, rfl, hr, hget⟩
  | false =>
    have hfill : c.fill = v.chunkAround c.index >>= fun x =>
        .ok { c with chunkStart := x.1, items := x.2 } := by
      rw [Cursor.fill, if_neg (by rw [hin]; decide), h.vector]
    rcases chunkAround_spec hv hi with ⟨e, haround, hget⟩ | ⟨first, items, haround, hkeeps, hle, hlt⟩
    · rw [haround] at hfill
      exact .inl ⟨e, hfill, hget⟩
    · rw [haround] at hfill
      have hd : (Cursor.mk c.vector c.index first items).Follows v := ⟨h.vector, hkeeps⟩
      obtain ⟨r, hr, hget⟩ := hitem hd hle hlt
      exact .inr ⟨_, r, hfill, hd, rfl, hr, hget⟩

/-- The next element is the one at the position of the cursor. If it can be read, the cursor moves on by one. -/
theorem Follows.next (h : c.Follows v) (hv : v.Valid w) (hi : c.index < v.count) :
    ∃ d, c.next = some (v.get c.index, d) ∧ d.Follows v ∧
      ∀ x, v.get c.index = .ok x → d.index = c.index + 1 := by
  rw [Cursor.next, if_neg (by rw [h.vector]; omega)]
  rcases h.fill hv hi with ⟨e, hfill, hget⟩ | ⟨d, r, hfill, hd, hindex, hr, hget⟩
  · rw [hfill, hget]
    exact ⟨c.finish, rfl, h.finish, fun x hx => by cases hx⟩
  · rw [hfill]
    simp only [hindex, hr, hget]
    exact ⟨_, rfl, ⟨hd.vector, hd.keeps⟩, fun _ _ => rfl⟩

theorem Follows.next_eq_none (h : c.Follows v) (hi : v.count ≤ c.index) : c.next = none := by
  rw [Cursor.next, if_pos (by rw [h.vector]; exact hi)]

/-- The cursor after a number of steps; at the end it stays. -/
def walk (c : Cursor) : Nat → Cursor
  | 0 => c
  | n + 1 =>
    match (c.walk n).next with
    | some (_, d) => d
    | none => c.walk n

/-- As long as all elements can be read, a cursor moves on by one with every step. -/
theorem follows_walk (hv : v.Valid w) {i : Nat} (hi : i ≤ v.count)
    (hread : ∀ j < i, ∃ x, v.get j = .ok x) :
    ((start v).walk i).Follows v ∧ ((start v).walk i).index = i := by
  induction i with
  | zero => exact ⟨follows_start v, rfl⟩
  | succ i ih =>
    obtain ⟨hfollows, hindex⟩ := ih (Nat.le_of_succ_le hi) fun j hj => hread j (Nat.lt_succ_of_lt hj)
    obtain ⟨x, hx⟩ := hread i (Nat.lt_succ_self i)
    obtain ⟨d, hnext, hd, hmove⟩ := hfollows.next hv (by omega)
    rw [hindex] at hmove
    rw [walk, hnext]
    exact ⟨hd, hmove x hx⟩

theorem same_of_fill {d : Cursor} (h : c.fill = .ok d) : d.vector = c.vector ∧ d.index = c.index := by
  unfold fill at h
  split at h
  · cases h
    exact ⟨rfl, rfl⟩
  · obtain ⟨x, -, hd⟩ := bind_eq_ok_iff.1 h
    cases hd
    exact ⟨rfl, rfl⟩

/-- A step brings the end nearer. -/
theorem left_of_next {x : Except DataError Cell} {d : Cursor} (h : c.next = some (x, d)) : d.left < c.left := by
  unfold next at h
  split at h
  · cases h
  · next hlt =>
    have hleft : 0 < c.left := Nat.sub_pos_of_lt (Nat.lt_of_not_le hlt)
    split at h
    · cases h
      -- after an error the cursor is at its end
      show c.vector.count - c.vector.count < c.left
      rwa [Nat.sub_self]
    · next b hfill =>
      obtain ⟨hvector, hindex⟩ := same_of_fill hfill
      split at h
      · cases h
        show b.vector.count - (b.index + 1) < c.left
        rw [hvector, hindex]
        exact Nat.sub_succ_lt_self _ _ (Nat.lt_of_not_le hlt)
      · cases h

/-- The elements that lie ahead, step by step and up to the first failure. -/
def collect (c : Cursor) : Except DataError (List Cell) :=
  match _h : c.next with
  | none => .ok []
  | some (.error e, _) => .error e
  | some (.ok x, d) => do .ok (x :: (← d.collect))
termination_by c.left
decreasing_by exact left_of_next ‹_›

theorem collect_of_none (h : c.next = none) : c.collect = .ok [] := by
  rw [collect]
  split <;> simp_all

theorem collect_of_error {e : DataError} {d : Cursor} (h : c.next = some (.error e, d)) :
    c.collect = .error e := by
  rw [collect]
  split <;> simp_all

theorem collect_of_ok {x : Cell} {d : Cursor} (h : c.next = some (.ok x, d)) :
    c.collect = d.collect >>= fun xs => .ok (x :: xs) := by
  rw [collect]
  split <;> simp_all

/-- What a cursor collects is read element by element. -/
theorem Follows.collect (h : c.Follows v) (hv : v.Valid w) :
    c.collect = (List.range' c.index c.left).mapM v.get := by
  have hleft : ∀ {d : Cursor}, d.Follows v → d.left = v.count - d.index := fun hd => by
    rw [left, hd.vector]
  induction hn : c.left generalizing c with
  | zero =>
    rw [hleft h] at hn
    exact collect_of_none (h.next_eq_none (Nat.le_of_sub_eq_zero hn))
  | succ n ih =>
    rw [hleft h] at hn
    obtain ⟨d, hnext, hd, hmove⟩ := h.next hv (by omega)
    rw [List.range'_succ, List.mapM_cons]
    cases hget : v.get c.index with
    | error e =>
      rw [hget] at hnext
      exact collect_of_error hnext
    | ok x =>
      rw [hget] at hnext
      have hindex := hmove x hget
      -- the first element, then what is left of the cursor
      rw [collect_of_ok hnext, ih hd (by rw [hleft hd]; omega), hindex]
      rfl

end Cursor

end Vec

/-! ## Vectors that can be built -/

open Vec

/-- Walking a vector agrees with reading it by position, whichever nodes and items are missing. For every
vector that can be built, decoded or loaded:

* the step after `i` steps yields the element at `i`, or what keeps it from being read, as long as the elements
  before it can be read; and so many elements lie ahead as there are behind `i`;
* when all elements have been read, there is no further one;
* the element at `i` cannot be read exactly if a reference on the way to it is missing, and then it is that
  which is reported;
* listing the vector, and collecting what a cursor finds, is reading the elements in order. -/
theorem Built.walk_eq_get {stores : List Store} {v : Vec} (h : Built stores w v.cell) :
    (∀ i < v.count, (∀ j < i, ∃ x, v.get j = .ok x) →
      ((Cursor.start v).walk i).left = v.count - i ∧
        ((Cursor.start v).walk i).next.map Prod.fst = some (v.get i)) ∧
      ((∀ j < v.count, ∃ x, v.get j = .ok x) → ((Cursor.start v).walk v.count).next = none) ∧
      (∀ i < v.count, ∀ e, v.get i = .error e ↔ ∃ h, e = .missing h ∧ v.Passes i (.remote h)) ∧
      v.toList = (List.range v.count).mapM v.get ∧ (Cursor.start v).collect = v.toList := by
  have hv : v.Valid (w + 2 ^ 59) := h.valid (.inr (Nat.le_refl _))
  refine ⟨fun i hi hread => ?_, fun hread => ?_, fun i hi e => ?_, Vec.toList_eq_mapM_get hv, ?_⟩
  -- after as many steps as there are readable elements the cursor is at the index
  · obtain ⟨hfollows, hindex⟩ := Cursor.follows_walk hv (Nat.le_of_lt hi) hread
    obtain ⟨d, hnext, -⟩ := hfollows.next hv (by rwa [hindex])
    rw [hindex] at hnext
    rw [Cursor.left, hfollows.vector, hindex, hnext]
    exact ⟨rfl, rfl⟩
  · obtain ⟨hfollows, hindex⟩ := Cursor.follows_walk hv (Nat.le_refl _) hread
    exact hfollows.next_eq_none (Nat.le_of_eq hindex.symm)
  · rw [Vec.get_of_lt hi]
    exact Vec.getIn_eq_error_iff hv hi
  · rw [(Cursor.follows_start v).collect hv, Vec.toList_eq_mapM_get hv, List.range_eq_range']
    rfl

/-- A hash of which nothing is known. -/
def Hash.sevens : Hash := ⟨List.replicate 32 7, rfl⟩

/-- Three elements of which the second is known by its hash only. -/
def Vec.gapped : Vec := .chunk [.of (.long 5), .remote Hash.sevens, .of .nil]

/-- The first element is read, and then the missing one is reported. -/
theorem Built.walk_eq_get_gapped :
    decode ([0x80, 0x03, 0x09, 0x05, 0x20] ++ List.replicate 32 7 ++ [0x00]) = .ok gapped.cell ∧
      ((Cursor.start gapped).walk 0).next.map Prod.fst = some (.ok (.long 5)) ∧
      ((Cursor.start gapped).walk 1).next.map Prod.fst = some (.error (.missing Hash.sevens)) ∧
      ((Cursor.start gapped).walk 1).left = 2 ∧ gapped.Passes 1 (.remote Hash.sevens) ∧
      (Cursor.start gapped).collect = .error (.missing Hash.sevens) := by
  have hdecode : decode ([0x80, 0x03, 0x09, 0x05, 0x20] ++ List.replicate 32 7 ++ [0x00]) =
      .ok gapped.cell := by
    set_option maxRecDepth 4000 in rfl
  have hbuilt : Built [] 0 gapped.cell := .decoded hdecode
  obtain ⟨hwalk, -, herror, -, hcollect⟩ := Built.walk_eq_get hbuilt
  obtain ⟨-, hzero⟩ := hwalk 0 (by decide) fun j hj => absurd hj (Nat.not_lt_zero j)
  obtain ⟨hleft, hone⟩ := hwalk 1 (by decide) fun j hj => by
    obtain rfl : j = 0 := by omega
    exact ⟨_, rfl⟩
  obtain ⟨_, ⟨⟩, hpasses⟩ := (herror 1 (by decide) (.missing Hash.sevens)).1 rfl
  exact ⟨hdecode, hzero, hone, hleft, hpasses, hcollect.trans rfl⟩

end CellMachine
