import Mathlib.Algebra.GroupWithZero.Nat
import CellMachine.Proofs.Vec.Building

/-!
# How a tree divides its elements

A tree cuts its elements into parts of one size, the last part possibly smaller (`shares`). The size of a part is
the greatest power of 32 below the count, so that there are at least two parts and at most 32, and a whole number of
chunks is left for the last one (`division`). These are the counts that the checks demand of the children of a node
(`Vec.shaped_tree_iff_childCounts`), and those of the children that packing makes (`Vec.exists_children_ofChunks`).

Main statement: `division`.
-/

namespace CellMachine

/-! ## Parts of one size -/

/-- The sizes of the parts into which `n` elements are cut, `size` elements each as long as they last. -/
def shares (size n : Nat) : List Nat :=
  (List.range ((n + size - 1) / size)).map fun i => min (n - size * i) size

/-- The numbers of elements of the children of a tree. -/
def childCounts (count : Nat) : List Nat := shares (childSize count) count

section Shares
variable {size n : Nat}

theorem shares_zero (hs : 0 < size) : shares size 0 = [] := by
  rw [shares, parts_zero hs]
  rfl

theorem shares_of_pos (hs : 0 < size) (hn : 0 < n) :
    shares size n = min n size :: shares size (n - size) := by
  rw [shares, shares, parts_of_pos hn hs, List.range_succ_eq_map, List.map_cons, List.map_map]
  congr 1
  refine List.map_congr_left fun i _ => ?_
  rw [Function.comp_apply, Nat.succ_eq_add_one, Nat.mul_succ, Nat.add_comm, Nat.sub_add_eq]

theorem length_shares : (shares size n).length = (n + size - 1) / size := by
  rw [shares, List.length_map, List.length_range]

/-- Nothing is lost or counted twice. -/
theorem sum_shares (hs : 0 < size) : (shares size n).sum = n := by
  induction n using Nat.strongRecOn with
  | ind n ih =>
    rcases Nat.eq_zero_or_pos n with rfl | hn
    · rw [shares_zero hs]
      rfl
    · rw [shares_of_pos hs hn, List.sum_cons, ih (n - size) (by omega)]
      omega

/-- Every part but the last is full, and the last is not empty. -/
theorem exists_shares (hs : 0 < size) (hn : 0 < n) :
    ∃ k rest, shares size n = List.replicate k size ++ [rest] ∧ n = size * k + rest ∧
      0 < rest ∧ rest ≤ size := by
  induction n using Nat.strongRecOn with
  | ind n ih =>
    rw [shares_of_pos hs hn]
    by_cases hlast : n ≤ size
    · refine ⟨0, n, ?_, by omega, hn, hlast⟩
      rw [Nat.min_eq_left hlast, Nat.sub_eq_zero_of_le hlast, shares_zero hs]
      rfl
    · obtain ⟨k, rest, hparts, hsum, hpos, hle⟩ := ih (n - size) (by omega) (by omega)
      refine ⟨k + 1, rest, ?_, ?_, hpos, hle⟩
      · rw [Nat.min_eq_right (by omega), hparts, List.replicate_succ, List.cons_append]
      · rw [Nat.mul_succ]
        omega

end Shares

/-! ## The children of a tree -/

/-- A sound division of `n` elements among the children of a tree. -/
structure Division (n : Nat) : Prop where
  /-- The size of a child is a power of 32 and at least 32. -/
  size_eq_pow : ∃ k, 1 ≤ k ∧ childSize n = chunkSize ^ k
  size_lt : childSize n < n
  /-- No greater power of 32 is below the count. -/
  size_greatest (k : Nat) (h : chunkSize ^ k < n) : chunkSize ^ k ≤ childSize n
  two_le_count : 2 ≤ childCount n
  count_le : childCount n ≤ chunkSize
  /-- All children but the last are full, and the last holds full chunks, as many as are left. -/
  parts : ∃ rest, childCounts n = List.replicate (childCount n - 1) (childSize n) ++ [rest] ∧
    0 < rest ∧ rest % chunkSize = 0 ∧ rest ≤ childSize n
  sum_eq : (childCounts n).sum = n

theorem childSize_greatest {n k : Nat} (h : chunkSize < n) (hk : chunkSize ^ k < n) :
    chunkSize ^ k ≤ childSize n := by
  obtain ⟨j, -, hsize, -, hhi⟩ := exists_childSize h
  have hlt : chunkSize ^ k < chunkSize ^ (j + 1) := Nat.lt_of_lt_of_le hk hhi
  rw [hsize]
  exact Nat.pow_le_pow_right (by decide) (Nat.le_of_lt_succ ((Nat.pow_lt_pow_iff_right (by decide)).1 hlt))

/-- **A tree divides its elements soundly.** -/
theorem division {n : Nat} (h : chunkSize < n) (hmod : n % chunkSize = 0) : Division n := by
  have hpos := childSize_pos n
  have hlt := childSize_lt h
  obtain ⟨j, hj, hsize, -, -⟩ := exists_childSize h
  obtain ⟨k, rest, hparts, hsum, hrest, hle⟩ := exists_shares (n := n) hpos (by omega)
  have hcount : childCount n = k + 1 := by
    have hlen := congrArg List.length hparts
    rw [length_shares, List.length_append, List.length_replicate] at hlen
    exact hlen
  -- a single child would have to hold everything, and it is smaller than that
  have htwo : 2 ≤ childCount n := by
    rcases Nat.eq_zero_or_pos k with rfl | hk
    · rw [Nat.mul_zero] at hsum
      omega
    · omega
  -- whole chunks are left when whole chunks are taken away
  have hchunks : rest % chunkSize = 0 := by
    have := childRest_mod (k := k) hmod
    rwa [show n - childSize n * k = rest by omega] at this
  exact ⟨⟨j, hj, hsize⟩, hlt, fun _ => childSize_greatest h, htwo, childCount_le n,
    ⟨rest, by rw [hcount]; exact hparts, hrest, hchunks, hle⟩, sum_shares hpos⟩

/-- Full children in front of a child leave something for it. -/
theorem childSize_mul_lt {n i : Nat} (hi : i < childCount n) : childSize n * i < n := by
  have hpos := childSize_pos n
  have hle : (i + 1) * childSize n ≤ n + childSize n - 1 := (Nat.le_div_iff_mul_le hpos).1 hi
  rw [Nat.succ_mul, Nat.mul_comm i] at hle
  omega

/-- One more chunk changes the size of the children exactly if the tree is full. -/
theorem childSize_add_chunk_ne_iff {n : Nat} (h : chunkSize < n) (hmod : n % chunkSize = 0) :
    childSize (n + chunkSize) ≠ childSize n ↔ n = chunkSize * childSize n := by
  constructor
  · intro hne
    refine Nat.le_antisymm (le_childSize_mul n) (Nat.le_of_not_lt fun hroom => hne ?_)
    exact childSize_add_chunk h hmod hroom
  · intro hfull
    rw [childSize_of_full h hfull]
    have := childSize_lt h
    omega

/-! ## Where the division is met -/

theorem tiles_iff_forall₂ {size n : Nat} {rs : List Ref} (hs : 0 < size) :
    Tiles size n rs ↔ List.Forall₂ Ref.HoldsVec rs (shares size n) := by
  induction rs generalizing n with
  | nil =>
    rw [Tiles, List.forall₂_nil_left_iff]
    constructor
    · rintro rfl
      exact shares_zero hs
    -- without elements there is no share, so there is no child to hold one
    · intro h
      rw [← sum_shares (n := n) hs, h]
      rfl
  | cons r rs ih =>
    rw [Tiles, ih]
    constructor
    · rintro ⟨hn, hr, hrs⟩
      rw [shares_of_pos hs hn]
      exact .cons hr hrs
    · intro h
      rcases Nat.eq_zero_or_pos n with rfl | hn
      · rw [shares_zero hs] at h
        cases h
      · rw [shares_of_pos hs hn] at h
        cases h with
        | cons hr hrs => exact ⟨hn, hr, hrs⟩

/-- The checks demand of the children of a node that they hold what the division gives them. -/
theorem Vec.shaped_tree_iff_childCounts {n : Nat} {children : List Ref} :
    (Vec.tree n children).Shaped ↔
      isTreeCount n = true ∧ List.Forall₂ Ref.HoldsVec children (childCounts n) := by
  rw [Shaped, tiles_iff_forall₂ (childSize_pos n), isTreeCount_iff, and_assoc]
  rfl

namespace Vec

/-- Packed chunks hold all elements of the chunks. -/
theorem count_pack {height : Nat} {chunks : List Vec} (hne : chunks ≠ [])
    (hlen : chunks.length ≤ chunkSize ^ height) (hchunks : ∀ v ∈ chunks, v.count = chunkSize) :
    (pack height chunks).count = chunkSize * chunks.length := by
  induction height with
  | zero =>
    have hpos := List.length_pos_iff.2 hne
    obtain ⟨v, rfl⟩ := List.length_eq_one_iff.1 (Nat.le_antisymm hlen hpos)
    exact hchunks v List.mem_cons_self
  | succ height ih =>
    rw [pack, capacity_eq]
    split
    · next hfew => exact ih hfew
    · rfl

theorem pack_singleton (height : Nat) (v : Vec) : pack height [v] = v := by
  induction height with
  | zero => rfl
  | succ height ih =>
    have hfits : [v].length ≤ capacity height := by
      rw [capacity_eq]
      exact Nat.pow_pos (by decide)
    rw [pack, if_pos hfits, ih]

/-- Chunks are cut by the greatest power of 32 below their number, however high the tree may become. -/
theorem pack_eq_tree {height k : Nat} {chunks : List Vec} (hlo : chunkSize ^ k < chunks.length)
    (hhi : chunks.length ≤ chunkSize ^ (k + 1)) (hlen : chunks.length ≤ chunkSize ^ height) :
    pack height chunks =
      .tree (chunkSize * chunks.length)
        ((pieces (chunkSize ^ k - 1) chunks).map fun piece => Ref.of (pack k piece).cell) := by
  induction height with
  | zero =>
    have hpow : 0 < chunkSize ^ k := Nat.pow_pos (by decide)
    rw [Nat.pow_zero] at hlen
    omega
  | succ height ih =>
    rw [pack, capacity_eq]
    split
    · next hfew => exact ih hfew
    · next hmany =>
      -- this is the first level that the chunks need, so that it cuts by the power below their number
      have hle : k < height + 1 := (Nat.pow_lt_pow_iff_right (by decide)).1 (Nat.lt_of_lt_of_le hlo hlen)
      have hge : height < k + 1 :=
        (Nat.pow_lt_pow_iff_right (by decide)).1 (Nat.lt_of_lt_of_le (Nat.lt_of_not_le hmany) hhi)
      rw [show height = k by omega]

/-- The greatest power of 32 below the number of chunks is a thirty-second of the size of a child. -/
theorem exists_childSize_mul {m : Nat} (hm : 2 ≤ m) :
    ∃ k, childSize (chunkSize * m) = chunkSize * chunkSize ^ k ∧ chunkSize ^ k < m ∧
      m ≤ chunkSize ^ (k + 1) := by
  have hmany : chunkSize < chunkSize * m := by
    simp only [chunkSize]
    omega
  obtain ⟨j, hj, hsize, hlo, hhi⟩ := exists_childSize hmany
  obtain ⟨k, rfl⟩ : ∃ k, j = k + 1 := ⟨j - 1, by omega⟩
  rw [Nat.pow_succ'] at hsize hlo
  rw [Nat.pow_succ'] at hhi
  exact ⟨k, hsize, Nat.lt_of_mul_lt_mul_left hlo, Nat.le_of_mul_le_mul_left hhi (by decide)⟩

/-- The children that packing makes hold what the division gives them. -/
theorem exists_children_ofChunks {chunks : List Vec} (hmany : 2 ≤ chunks.length)
    (hchunks : ∀ v ∈ chunks, v.count = chunkSize) :
    ∃ children, ofChunks chunks = .tree (chunkSize * chunks.length) children ∧
      List.Forall₂ Ref.HoldsVec children (childCounts (chunkSize * chunks.length)) := by
  obtain ⟨k, hsize, hlo, hhi⟩ := exists_childSize_mul hmany
  have hpow : 0 < chunkSize ^ k := Nat.pow_pos (by decide)
  refine ⟨_, pack_eq_tree hlo hhi (le_chunkSize_pow _), ?_⟩
  rw [childCounts, ← tiles_iff_forall₂ (childSize_pos _), hsize]
  have htiles : Tiles (chunkSize * (chunkSize ^ k - 1 + 1)) (chunkSize * chunks.length)
      ((pieces (chunkSize ^ k - 1) chunks).map fun piece => Ref.of (pack k piece).cell) := by
    refine tiles_map_pieces (by decide) fun piece hp => ?_
    obtain ⟨hne, hlen, hmem⟩ := mem_pieces hp
    exact Ref.holdsVec_of (count_pack hne (by omega) fun v hv => hchunks v (hmem v hv))
  rwa [Nat.sub_add_cancel hpow] at htiles

end Vec

end CellMachine
