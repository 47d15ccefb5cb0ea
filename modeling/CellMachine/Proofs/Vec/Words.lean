import CellMachine.Proofs.Vec.Division

/-!
# Shapes in words of 64 bits

The arithmetic of shapes as a machine does it: counts are words, and every sum, difference and product is checked,
so that a computation which would leave the range of a word has no result. The size of a child comes out of a loop
that multiplies by 32, and its last product may well leave the range, for a count that only a decoder can meet: then
the loop ends there (`growSize`). All other results exist, for a tree of every count, and are the numbers of
`CellMachine.childSize`, `CellMachine.childCount`, `Vec.check` and `Vec.pack` (`Exact`).

Main statement: `division_exact`.
-/

namespace CellMachine.Word

/-! ## Checked arithmetic -/

/-- A number as a word, if it is in range. -/
def ofNat? (n : Nat) : Option UInt64 := if n < UInt64.size then some (.ofNat n) else none

/-- The sum of two words, if it is a word. -/
def add? (a b : UInt64) : Option UInt64 := ofNat? (a.toNat + b.toNat)

/-- The difference of two words, if it is a word. -/
def sub? (a b : UInt64) : Option UInt64 := if b ≤ a then some (a - b) else none

/-- The product of two words, if it is a word. -/
def mul? (a b : UInt64) : Option UInt64 := ofNat? (a.toNat * b.toNat)

/-- The quotient of two words, rounded up: one more than the whole quotient if something is left. -/
def divCeil? (a b : UInt64) : Option UInt64 :=
  if b = 0 then none else if a % b = 0 then some (a / b) else add? (a / b) 1

/-- A word stands for a number if the number is the word's. -/
theorem ofNat?_eq_some_iff {n : Nat} {w : UInt64} : ofNat? n = some w ↔ w.toNat = n := by
  unfold ofNat?
  constructor
  · intro h
    split at h
    · next hn =>
      cases h
      exact UInt64.toNat_ofNat_of_lt' hn
    · cases h
  · rintro rfl
    rw [if_pos w.toNat_lt_size, UInt64.ofNat_toNat]

/-- A product of words is exact or there is none. -/
theorem mul?_eq_some_iff {a b c : UInt64} : mul? a b = some c ↔ c.toNat = a.toNat * b.toNat :=
  ofNat?_eq_some_iff

theorem sub?_eq_some_iff {a b c : UInt64} : sub? a b = some c ↔ c.toNat + b.toNat = a.toNat := by
  unfold sub?
  constructor
  · intro h
    split at h
    · next hle =>
      cases h
      have := UInt64.le_iff_toNat_le.1 hle
      rw [UInt64.toNat_sub_of_le _ _ hle]
      omega
    · cases h
  · intro h
    have hle : b ≤ a := UInt64.le_iff_toNat_le.2 (by omega)
    rw [if_pos hle]
    refine congrArg some (UInt64.toNat_inj.1 ?_)
    rw [UInt64.toNat_sub_of_le _ _ hle]
    omega

/-- Only numbers beyond the largest word have no word. -/
theorem ofNat?_eq_none_iff {n : Nat} : ofNat? n = none ↔ UInt64.size ≤ n := by
  unfold ofNat?
  split <;> simp <;> omega

theorem exists_ofNat? {n : Nat} (h : n < UInt64.size) : ∃ w, ofNat? n = some w ∧ w.toNat = n :=
  ⟨_, if_pos h, UInt64.toNat_ofNat_of_lt' h⟩

/-- Rounding up adds one just if something is left. -/
theorem ceil_div {n s : Nat} (hs : 0 < s) : (n + s - 1) / s = n / s + if n % s = 0 then 0 else 1 := by
  have hn := Nat.div_add_mod n s
  have hlt := Nat.mod_lt n hs
  split
  · have hlast : (s - 1) / s = 0 := Nat.div_eq_of_lt (by omega)
    rw [show n + s - 1 = s * (n / s) + (s - 1) by omega, Nat.mul_add_div hs, hlast]
  · have hlast : (n % s - 1) / s = 0 := Nat.div_eq_of_lt (by omega)
    rw [show n + s - 1 = s * (n / s + 1) + (n % s - 1) by rw [Nat.mul_succ]; omega, Nat.mul_add_div hs, hlast]

/-- Rounding up cannot leave the range of a word. -/
theorem exists_divCeil? (a : UInt64) {b : UInt64} (hb : 0 < b.toNat) :
    ∃ c, divCeil? a b = some c ∧ c.toNat = (a.toNat + b.toNat - 1) / b.toNat := by
  have hmod : (a % b = 0) ↔ a.toNat % b.toNat = 0 := by
    rw [← UInt64.toNat_inj, UInt64.toNat_mod]
    rfl
  have hne : b ≠ 0 := fun h => by
    rw [h] at hb
    exact absurd hb (by decide)
  rw [divCeil?, if_neg hne, ceil_div hb]
  by_cases hrest : a % b = 0
  · rw [if_pos hrest, if_pos (hmod.1 hrest)]
    exact ⟨_, rfl, UInt64.toNat_div a b⟩
  · rw [if_neg hrest, if_neg (mt hmod.2 hrest)]
    -- a rest that is not zero means that the divisor is not one, so that the quotient is smaller than the word
    have hsmall : a.toNat / b.toNat + 1 ≤ a.toNat := by
      have hlt := Nat.mod_lt a.toNat hb
      have hpos := mt hmod.2 hrest
      refine Nat.div_lt_self ?_ ?_
      · exact Nat.pos_of_ne_zero fun h => hpos (by rw [h, Nat.zero_mod])
      · omega
    obtain ⟨c, hc, hsum⟩ := exists_ofNat? (Nat.lt_of_le_of_lt hsmall a.toNat_lt_size)
    refine ⟨c, ?_, hsum⟩
    rwa [add?, UInt64.toNat_div]

/-! ## The size and the number of children -/

/-- Goes on to the next power of 32 as long as it is a word and stays below the count. -/
def growSize (count size : UInt64) (hsize : 0 < size.toNat) : UInt64 :=
  match hnext : mul? size 32 with
  | none => size
  | some next =>
    if count ≤ next then size
    else growSize count next (by rw [mul?_eq_some_iff.1 hnext]; exact Nat.mul_pos hsize (by decide))
termination_by UInt64.size - size.toNat
decreasing_by
  have hlt := next.toNat_lt_size
  have hgrow : next.toNat = size.toNat * 32 := mul?_eq_some_iff.1 hnext
  omega

/-- The size of the full children of a tree. -/
def childSize (count : UInt64) : UInt64 := growSize count 32 (by decide)

/-- The number of children of a tree. -/
def childCount? (count : UInt64) : Option UInt64 := divCeil? count (childSize count)

/-- The loop ends at the greatest power of 32 below the count: before each turn the size is such a power, and the
next one is not below the count if it is no word. -/
theorem toNat_growSize {count size : UInt64} {hsize : 0 < size.toNat} {k : Nat} (hk : 1 ≤ k)
    (hpow : size.toNat = chunkSize ^ k) (hlo : chunkSize ^ k < count.toNat) :
    (growSize count size hsize).toNat = CellMachine.childSize count.toNat := by
  fun_induction growSize count size hsize generalizing k with
  | case1 size hsize hnext =>
    -- the next size does not fit a word, and so is above the count
    have hover : UInt64.size ≤ size.toNat * 32 := ofNat?_eq_none_iff.1 hnext
    have hcount := count.toNat_lt_size
    rw [hpow] at hover ⊢
    exact (childSize_eq hk hlo (by rw [Nat.pow_succ, chunkSize] at *; omega)).symm
  | case2 size hsize next hnext hle =>
    have hgrow : next.toNat = size.toNat * 32 := mul?_eq_some_iff.1 hnext
    rw [UInt64.le_iff_toNat_le, hgrow, hpow] at hle
    rw [hpow]
    exact (childSize_eq hk hlo (by rwa [Nat.pow_succ])).symm
  | case3 size hsize next hnext hlt ih =>
    have hgrow : next.toNat = chunkSize ^ (k + 1) := by
      rw [mul?_eq_some_iff.1 hnext, hpow, Nat.pow_succ]
      rfl
    refine ih (Nat.le_add_left 1 k) hgrow ?_
    rw [UInt64.le_iff_toNat_le, hgrow] at hlt
    exact Nat.lt_of_not_le hlt

/-- From the first count beyond one chunk on, the loop over words finds the size of a child. -/
theorem toNat_childSize {count : UInt64} (h : chunkSize < count.toNat) :
    (childSize count).toNat = CellMachine.childSize count.toNat :=
  toNat_growSize (k := 1) (Nat.le_refl 1) rfl h

/-- The number of children does not overflow either. -/
theorem exists_childCount? {count : UInt64} (h : chunkSize < count.toNat) :
    ∃ n, childCount? count = some n ∧ n.toNat = CellMachine.childCount count.toNat := by
  have hsize := toNat_childSize h
  have hpos := childSize_pos count.toNat
  rw [← hsize] at hpos
  rw [CellMachine.childCount, ← hsize]
  exact exists_divCeil? count hpos

/-! ## The check of a node -/

/-- What child number `i` of a tree has to hold. -/
def share? (count size : UInt64) (i : Nat) : Option UInt64 := do
  let before ← mul? size (← ofNat? i)
  let left ← sub? count before
  some (if left ≤ size then left else size)

/-- Refuses children, from number `i` on, that do not hold their shares. -/
def requireChildren? (count size : UInt64) : Nat → List Ref → Option (Except FormatError Unit)
  | _, [] => some (.ok ())
  | i, r :: rs => do
    let share ← share? count size i
    match r.requireCount share.toNat with
    | .ok () => requireChildren? count size (i + 1) rs
    | .error e => some (.error e)

/-- A node as it comes in, with nothing known of its parts. -/
inductive Node where
  /-- Items, and perhaps a front before them. -/
  | leaf (count : UInt64) (front : Option Ref) (items : List Ref)
  /-- Subvectors. -/
  | tree (count : UInt64) (children : List Ref)

/-- Why a node is refused. -/
inductive Misfit where
  /-- The node does not have the parts that its count wants. -/
  | parts (count : UInt64)
  /-- A part does not fit. -/
  | part (e : FormatError)

/-- Refuses a node without the shape of its count. -/
def Node.check? : Node → Option (Except Misfit Unit)
  | .leaf count front items =>
    if isTreeCount count.toNat || items.length != tailLength count.toNat then some (.error (.parts count))
    else
      match front with
      | some r =>
        if count ≤ 32 then some (.error (.parts count))
        else do
          let before ← sub? count (← ofNat? items.length)
          some ((r.requireCount before.toNat).mapError .part)
      | none => if count.toNat = items.length then some (.ok ()) else some (.error (.parts count))
  | .tree count children =>
    if isTreeCount count.toNat then do
      let n ← childCount? count
      if children.length = n.toNat then
        let r ← requireChildren? count (childSize count) 0 children
        some (r.mapError .part)
      else some (.error (.parts count))
    else some (.error (.parts count))

/-- The vector that a node is if it has the shape of its count. -/
def Node.vec : Node → Vec
  | .leaf _ none items => .chunk items
  | .leaf count (some front) items => .tailed count.toNat front items
  | .tree count children => .tree count.toNat children

/-- The share of a child is computed without overflow as long as the children in front of it fit. -/
theorem exists_share? {count size : UInt64} {i : Nat} (hs : 0 < size.toNat)
    (h : size.toNat * i ≤ count.toNat) :
    ∃ n, share? count size i = some n ∧ n.toNat = min (count.toNat - size.toNat * i) size.toNat := by
  have hcount := count.toNat_lt_size
  -- the index fits a word since the elements in front of the child do
  have hi : i ≤ size.toNat * i := Nat.le_mul_of_pos_left i hs
  obtain ⟨j, hj, hji⟩ := exists_ofNat? (n := i) (by omega)
  obtain ⟨before, hbefore, hprod⟩ := exists_ofNat? (n := size.toNat * j.toNat) (by rw [hji]; omega)
  rw [hji] at hprod
  have hsub : sub? count before = some (count - before) := by
    rw [sub?, if_pos (UInt64.le_iff_toNat_le.2 (by omega))]
  have hleft := sub?_eq_some_iff.1 hsub
  refine ⟨if count - before ≤ size then count - before else size, ?_, ?_⟩
  · rw [share?, hj, Option.bind_eq_bind, Option.bind_some, mul?, hbefore]
    show (sub? count before).bind _ = _
    rw [hsub]
    rfl
  · split
    · next hle =>
      rw [UInt64.le_iff_toNat_le] at hle
      omega
    · next hle =>
      rw [UInt64.le_iff_toNat_le] at hle
      omega

/-- The check of the children in words is the check in numbers. -/
theorem requireChildren?_eq {count size : UInt64} {i : Nat} {rs : List Ref} (hs : 0 < size.toNat)
    (h : ∀ j < rs.length, size.toNat * (i + j) ≤ count.toNat) :
    requireChildren? count size i rs = some (requireChildren count.toNat size.toNat i rs) := by
  induction rs generalizing i with
  | nil => rfl
  | cons r rs ih =>
    obtain ⟨n, hn, hshare⟩ := exists_share? hs (h 0 (Nat.succ_pos _))
    have hrest : requireChildren? count size (i + 1) rs =
        some (requireChildren count.toNat size.toNat (i + 1) rs) := by
      refine ih fun j hj => ?_
      rw [Nat.add_assoc, Nat.add_comm 1 j]
      exact h (j + 1) (Nat.succ_lt_succ hj)
    rw [Nat.add_zero] at hn hshare
    rw [requireChildren?, hn, Option.bind_eq_bind, Option.bind_some, hshare, requireChildren, hrest]
    cases r.requireCount (min (count.toNat - size.toNat * i) size.toNat) with
    | error e => rfl
    | ok u => rfl

/-- The check of a tree is the check of numbers, behind that of the number of children. -/
theorem check?_tree (count : UInt64) (children : List Ref) :
    (Node.tree count children).check? =
      some (if isTreeCount count.toNat = true ∧ children.length = CellMachine.childCount count.toNat then
          (Vec.tree count.toNat children).check.mapError .part
        else .error (.parts count)) := by
  rw [Node.check?]
  by_cases htree : isTreeCount count.toNat = true
  · have hmany := (isTreeCount_iff.1 htree).1
    obtain ⟨n, hn, hcount⟩ := exists_childCount? hmany
    have hsize := toNat_childSize hmany
    rw [if_pos htree, hn, Option.bind_eq_bind, Option.bind_some, hcount]
    by_cases hlen : children.length = CellMachine.childCount count.toNat
    -- the elements in front of each child fit, for there are as many children as there should be
    · have hchildren : requireChildren? count (childSize count) 0 children =
          some (Vec.tree count.toNat children).check := by
        rw [Vec.check, ← hsize]
        refine requireChildren?_eq (by rw [hsize]; exact childSize_pos _) fun j hj => ?_
        rw [Nat.zero_add, hsize]
        exact Nat.le_of_lt (childSize_mul_lt (by omega))
      rw [if_pos hlen, if_pos ⟨htree, hlen⟩, hchildren]
      rfl
    · rw [if_neg hlen, if_neg fun h => hlen h.2]
  · rw [if_neg htree, if_neg fun h => htree h.1]

/-- A vector has something in front of its tail if it is longer than a chunk. -/
theorem tailLength_lt_iff {n : Nat} : tailLength n < n ↔ chunkSize < n := by
  rcases Nat.lt_or_ge chunkSize n with h | h
  · rw [tailLength_of_lt h]
    simp only [chunkSize] at *
    omega
  · rw [tailLength_of_le h]
    omega

/-- The check of a node with a front is the check of numbers, behind that of the number of items. -/
theorem check?_front (count : UInt64) (front : Ref) (items : List Ref) :
    (Node.leaf count (some front) items).check? =
      some (if isTreeCount count.toNat = false ∧ tailLength count.toNat < count.toNat ∧
          items.length = tailLength count.toNat then
          (Vec.tailed count.toNat front items).check.mapError .part
        else .error (.parts count)) := by
  -- being one chunk at most and having nothing in front of the tail is the same
  have hsmall : count ≤ 32 ↔ ¬ tailLength count.toNat < count.toNat := by
    rw [tailLength_lt_iff, UInt64.le_iff_toNat_le, Nat.not_lt]
    rfl
  rw [Node.check?]
  by_cases hparts : isTreeCount count.toNat = false ∧ items.length = tailLength count.toNat
  · obtain ⟨htree, hlen⟩ := hparts
    rw [if_neg (by simp [htree, hlen])]
    by_cases hle : count ≤ 32
    · rw [if_pos hle, if_neg fun h => hsmall.1 hle h.2.1]
    · have hlt := Classical.not_not.1 (mt hsmall.2 hle)
      obtain ⟨n, hn, hitems⟩ := exists_ofNat? (n := items.length) (by have := count.toNat_lt_size; omega)
      have hsub : sub? count n = some (count - n) := by
        rw [sub?, if_pos (UInt64.le_iff_toNat_le.2 (by omega))]
      have hbefore := sub?_eq_some_iff.1 hsub
      rw [if_neg hle, if_pos ⟨htree, hlt, hlen⟩, hn, Option.bind_eq_bind, Option.bind_some, hsub, Vec.check,
        show count.toNat - items.length = (count - n).toNat by omega]
      rfl
  · rw [if_pos, if_neg fun h => hparts ⟨h.1, h.2.2⟩]
    simpa [or_iff_not_imp_left] using hparts

/-- The check of a node without a front. -/
theorem check?_items (count : UInt64) (items : List Ref) :
    (Node.leaf count none items).check? =
      some (if count.toNat = items.length ∧ items.length ≤ chunkSize then .ok () else .error (.parts count)) := by
  rw [Node.check?]
  by_cases hall : count.toNat = items.length ∧ items.length ≤ chunkSize
  · obtain ⟨hcount, hfew⟩ := hall
    have htree : isTreeCount items.length = false :=
      isTreeCount_eq_false_iff.2 fun h => absurd h (Nat.not_lt.2 hfew)
    rw [hcount, if_neg (by simp [htree, tailLength_of_le hfew]), if_pos rfl, if_pos ⟨rfl, hfew⟩]
  · rw [if_neg hall]
    split
    · rfl
    · next hparts =>
      have hlen : items.length = tailLength count.toNat := by
        simp only [Bool.or_eq_true, bne_iff_ne, ne_eq, not_or, Classical.not_not] at hparts
        exact hparts.2
      -- a count with as many items as its tail asks for is one chunk, or has items missing in front
      have hne : count.toNat ≠ items.length := by
        intro hcount
        refine hall ⟨hcount, Nat.le_of_not_lt fun hmany => ?_⟩
        have := tailLength_lt_iff.2 (hcount ▸ hmany)
        omega
      exact if_neg hne

/-- A node is accepted if it has the right number of parts and each part is right. -/
theorem accepts_iff {p : Prop} [Decidable p] {x : Except FormatError Unit} {m : Misfit} :
    (if p then x.mapError .part else .error m) = .ok () ↔ p ∧ x = .ok () := by
  split
  · next hp => rw [mapError_eq_ok_iff, and_iff_right hp]
  · next hp =>
    constructor
    · intro h
      cases h
    · rintro ⟨h, -⟩
      exact absurd h hp

/-- The number of elements of a node. -/
def Node.count : Node → UInt64
  | .leaf count _ _ | .tree count _ => count

/-- In words the check of a node comes to an end, and it accepts the nodes that have the shape of their count. -/
theorem exists_check? (node : Node) :
    ∃ r, node.check? = some r ∧ (r = .ok () ↔ node.vec.Shaped ∧ node.vec.count = node.count.toNat) := by
  cases node with
  | tree count children =>
    refine ⟨_, check?_tree count children, ?_⟩
    rw [accepts_iff, Node.vec, Vec.shaped_tree_iff, and_assoc]
    exact ⟨fun h => ⟨h, rfl⟩, fun h => h.1⟩
  | leaf count front items =>
    cases front with
    | some front =>
      refine ⟨_, check?_front count front items, ?_⟩
      rw [accepts_iff, Node.vec, Vec.shaped_tailed_iff, and_assoc, and_assoc]
      exact ⟨fun h => ⟨h, rfl⟩, fun h => h.1⟩
    | none =>
      refine ⟨_, check?_items count items, ?_⟩
      split
      -- a single chunk is right by its number of items alone
      · next hall => exact ⟨fun _ => ⟨hall.2, hall.1.symm⟩, fun _ => rfl⟩
      · next hall =>
        constructor
        · intro h
          cases h
        · rintro ⟨hfew, hcount⟩
          exact absurd ⟨hcount.symm, hfew⟩ hall

/-! ## Packing -/

/-- The number of elements of full chunks. -/
def total? (chunks : List Vec) : Option UInt64 := do mul? (← ofNat? chunks.length) 32

/-- The number of chunks that a full child of a tree takes. -/
def chunksPerChild (count : UInt64) : Nat := (childSize count / 32).toNat

/-- The total of full chunks is their number times the chunk size. -/
theorem toNat_of_total? {chunks : List Vec} {count : UInt64} (h : total? chunks = some count) :
    count.toNat = chunkSize * chunks.length := by
  obtain ⟨n, hn, hcount⟩ := Option.bind_eq_some_iff.1 h
  rw [mul?_eq_some_iff.1 hcount, ofNat?_eq_some_iff.1 hn, Nat.mul_comm]
  rfl

theorem exists_total? {chunks : List Vec} (h : chunkSize * chunks.length < UInt64.size) :
    ∃ count, total? chunks = some count := by
  simp only [chunkSize] at h
  obtain ⟨n, hn, hlen⟩ := exists_ofNat? (n := chunks.length) (by omega)
  obtain ⟨count, hcount, -⟩ := exists_ofNat? (n := n.toNat * 32) (by omega)
  exact ⟨count, Option.bind_eq_some_iff.2 ⟨n, hn, hcount⟩⟩

/-- A child of a tree over full chunks takes a power of the chunk size of them. -/
theorem chunksPerChild_eq {count : UInt64} {m k : Nat} (hm : 2 ≤ m) (hcount : count.toNat = chunkSize * m)
    (hsize : CellMachine.childSize (chunkSize * m) = chunkSize * chunkSize ^ k) :
    chunksPerChild count = chunkSize ^ k := by
  have hmany : chunkSize < count.toNat := by
    rw [hcount]
    simp only [chunkSize]
    omega
  rw [chunksPerChild, UInt64.toNat_div, toNat_childSize hmany, hcount, hsize]
  exact Nat.mul_div_cancel_left _ (by decide)

/-- The pieces into which several chunks are cut are smaller. -/
theorem length_piece_lt {chunks piece : List Vec} {count : UInt64} (hseveral : chunks.length ≠ 1)
    (htotal : total? chunks = some count) (hp : piece ∈ Vec.pieces (chunksPerChild count - 1) chunks) :
    piece.length < chunks.length := by
  obtain ⟨hne, hlen, hmem⟩ := Vec.mem_pieces hp
  obtain ⟨v, hv⟩ := List.exists_mem_of_ne_nil piece hne
  have hpos := List.length_pos_of_mem (hmem v hv)
  obtain ⟨k, hsize, hlo, -⟩ := Vec.exists_childSize_mul (m := chunks.length) (by omega)
  have hpow : 0 < chunkSize ^ k := Nat.pow_pos (by decide)
  rw [chunksPerChild_eq (by omega) (toNat_of_total? htotal) hsize] at hlen
  omega

/-- The vector of full chunks. -/
def pack? (chunks : List Vec) : Option Vec :=
  if _hone : chunks.length = 1 then chunks.head?
  else
    match _htotal : total? chunks with
    | none => none
    | some count => do
      let children ← (Vec.pieces (chunksPerChild count - 1) chunks).attach.mapM fun piece => pack? piece.1
      some (.tree count.toNat (children.map fun v => Ref.of v.cell))
termination_by chunks.length
decreasing_by exact length_piece_lt _hone _htotal piece.2

/-- Packing the pieces one by one succeeds if packing each of them does. -/
theorem mapM_attach_eq_some {α β : Type} {xs : List α} {f : α → Option β} {g : α → β}
    (h : ∀ x ∈ xs, f x = some (g x)) : (xs.attach.mapM fun x => f x.1) = some (xs.map g) := by
  have hf : (fun x : { x // x ∈ xs } => f x.1) = fun x => pure (g x.1) := funext fun x => h x.1 x.2
  rw [hf, List.mapM_pure, List.attach_map_val]
  rfl

/-- In words the chunks are packed as they are in numbers. -/
theorem pack?_eq {height : Nat} {chunks : List Vec} (hne : chunks ≠ [])
    (hword : chunkSize * chunks.length < UInt64.size) (hlen : chunks.length ≤ chunkSize ^ height) :
    pack? chunks = some (Vec.pack height chunks) := by
  induction hm : chunks.length using Nat.strongRecOn generalizing height chunks with
  | ind m ih =>
    have hpos := List.length_pos_iff.2 hne
    rw [pack?]
    split
    · next hone =>
      obtain ⟨v, rfl⟩ := List.length_eq_one_iff.1 hone
      rw [Vec.pack_singleton]
      rfl
    · next hseveral =>
      obtain ⟨k, hsize, hlo, hhi⟩ := Vec.exists_childSize_mul (m := chunks.length) (by omega)
      have hpow : 0 < chunkSize ^ k := Nat.pow_pos (by decide)
      split
      · next hnone =>
        obtain ⟨count, htotal⟩ := exists_total? hword
        rw [hnone] at htotal
        cases htotal
      · next count htotal =>
        have hcount := toNat_of_total? htotal
        have hper := chunksPerChild_eq (by omega) hcount hsize
        -- a piece is shorter than the whole, so it packs as it should
        have hpieces : ∀ piece ∈ Vec.pieces (chunksPerChild count - 1) chunks,
            pack? piece = some (Vec.pack k piece) := by
          intro piece hp
          have hlt := length_piece_lt hseveral htotal hp
          obtain ⟨hne', hlen', -⟩ := Vec.mem_pieces hp
          rw [hper] at hlen'
          refine ih piece.length (by omega) hne' ?_ (by omega) rfl
          exact Nat.lt_of_le_of_lt (Nat.mul_le_mul_left _ (Nat.le_of_lt hlt)) hword
        rw [mapM_attach_eq_some hpieces, Vec.pack_eq_tree hlo hhi hlen, hper, ← hcount]
        show some (Vec.tree _ (List.map _ (List.map _ _))) = _
        rw [List.map_map]
        rfl

/-! ## Every count -/

/-- In words the arithmetic on a count stays in range and comes to what it comes to in numbers. -/
structure Exact (n : UInt64) : Prop where
  childSize : (childSize n).toNat = CellMachine.childSize n.toNat
  childCount : ∃ c, childCount? n = some c ∧ c.toNat = CellMachine.childCount n.toNat
  /-- The check of a node of that count comes to an end, and accepts the nodes that have the shape of the count. -/
  check (node : Node) (h : node.count = n) :
    ∃ r, node.check? = some r ∧ (r = .ok () ↔ node.vec.Shaped ∧ node.vec.count = n.toNat)
  pack (chunks : List Vec) (h : chunkSize * chunks.length = n.toNat) :
    pack? chunks = some (Vec.ofChunks chunks)

/-- All of it is exact for every count beyond one chunk. -/
theorem exact_of_lt {n : UInt64} (h : chunkSize < n.toNat) : Exact n where
  childSize := toNat_childSize h
  childCount := exists_childCount? h
  check := by
    rintro node rfl
    exact exists_check? node
  pack chunks hchunks := by
    refine pack?_eq ?_ (hchunks ▸ n.toNat_lt_size) (Vec.le_chunkSize_pow _)
    rintro rfl
    rw [← hchunks] at h
    exact absurd h (by decide)

/-- A tree grows a level just if its children are all full. -/
theorem childSize_add_ne_iff {n : UInt64} (h : chunkSize < n.toNat) (hmod : n.toNat % chunkSize = 0)
    (hfits : n.toNat + chunkSize < UInt64.size) :
    childSize (n + 32) ≠ childSize n ↔ n.toNat = chunkSize * (childSize n).toNat := by
  have hsum : (n + 32).toNat = n.toNat + chunkSize := by
    rw [UInt64.toNat_add]
    exact Nat.mod_eq_of_lt hfits
  rw [ne_eq, ← UInt64.toNat_inj, toNat_childSize h, toNat_childSize (by omega), hsum]
  exact childSize_add_chunk_ne_iff h hmod

/-- **The arithmetic of shapes is sound for every count.** A tree divides a 64-bit count soundly: the size of a child
is the greatest power of 32 below the count, there are two to 32 children, all but the last are full, the last holds
full chunks, and together they hold the count. The checks demand this division of the children of a node, and packing
makes it. In words all of it stays in range. With one more chunk the size of the children changes exactly if the tree
is full. -/
theorem division_exact (n : UInt64) (h : chunkSize < n.toNat) (hmod : n.toNat % chunkSize = 0) :
    Division n.toNat ∧
    (∀ children : List Ref, (Vec.tree n.toNat children).Shaped ↔
      List.Forall₂ Ref.HoldsVec children (childCounts n.toNat)) ∧
    (∀ chunks : List Vec, chunkSize * chunks.length = n.toNat → (∀ v ∈ chunks, v.count = chunkSize) →
      ∃ children, Vec.ofChunks chunks = .tree n.toNat children ∧
        List.Forall₂ Ref.HoldsVec children (childCounts n.toNat)) ∧
    Exact n ∧
    (n.toNat + chunkSize < UInt64.size →
      (childSize (n + 32) ≠ childSize n ↔ n.toNat = chunkSize * (childSize n).toNat)) := by
  refine ⟨division h hmod, fun children => ?_, fun chunks hcount hchunks => ?_, exact_of_lt h,
    childSize_add_ne_iff h hmod⟩
  · rw [Vec.shaped_tree_iff_childCounts, isTreeCount_iff]
    exact and_iff_right ⟨h, hmod⟩
  -- packing full chunks makes the children that the count asks for
  · rw [← hcount] at h ⊢
    refine Vec.exists_children_ofChunks ?_ hchunks
    simp only [chunkSize] at h
    omega

/-- A full tree of 1024 elements grows into one with a child of 1024 elements and a child of a single chunk, and the
greatest count of all has sixteen children. -/
theorem division_exact_full :
    chunkSize < (1024 : UInt64).toNat ∧ (1024 : UInt64).toNat % chunkSize = 0 ∧
      childSize (1024 + 32) ≠ childSize 1024 ∧ childCounts 1056 = [1024, 32] ∧
      Division (2 ^ 64 - 32) ∧ Exact (0 - 32) ∧ CellMachine.childCount (2 ^ 64 - 32) = 16 := by
  obtain ⟨-, -, -, hfull, hgrown⟩ := division_exact 1024 (by decide) (by decide)
  obtain ⟨hdivision, -, -, hexact, -⟩ := division_exact (0 - 32) (by decide) (by decide)
  refine ⟨by decide, by decide, (hgrown (by decide)).2 ?_, by decide, hdivision, hexact, by decide⟩
  rw [hfull.childSize]
  decide

end CellMachine.Word
