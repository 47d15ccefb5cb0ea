import CellMachine.Vec.Shape
import Mathlib.Algebra.Group.Nat.Defs

/-!
# Arithmetic of shapes

The size of a child lies between the count and a thirty-second of it (`childSize_lt`,
`le_childSize_mul`). It is the one power of 32 that a count lies above by at most one more power
(`childSize_eq`). Adding a chunk therefore changes it only when the tree is full
(`childSize_add_chunk`, `childSize_of_full`), and removing a chunk only when a single full child
remains (`childSize_sub_chunk`).
-/

namespace CellMachine

/-- Trees are for multiples of the chunk size beyond the first. -/
theorem isTreeCount_iff {n : Nat} : isTreeCount n = true ↔ chunkSize < n ∧ n % chunkSize = 0 := by
  simp [isTreeCount]

/-- All other counts have a tail, or are a single chunk. -/
theorem isTreeCount_eq_false_iff {n : Nat} :
    isTreeCount n = false ↔ (chunkSize < n → n % chunkSize ≠ 0) := by
  rw [← Bool.not_eq_true, isTreeCount_iff]
  exact not_and

theorem tailLength_of_le {n : Nat} (h : n ≤ chunkSize) : tailLength n = n := if_pos h

/-- Behind the first chunk the tail is the rest. -/
theorem tailLength_of_lt {n : Nat} (h : chunkSize < n) : tailLength n = n % chunkSize :=
  if_neg (Nat.not_le.2 h)

/-! ## The size of a child -/

/-- Each level multiplies what fits by the chunk size. -/
theorem capacity_eq (height : Nat) : capacity height = chunkSize ^ height := by
  induction height with
  | zero => rfl
  | succ height ih => rw [capacity, ih, Nat.pow_succ']

theorem chunkSize_pow (k : Nat) : chunkSize ^ k = 2 ^ (5 * k) := by
  rw [Nat.pow_mul]
  rfl

theorem childSize_pos (count : Nat) : 0 < childSize count := by
  rw [childSize, capacity_eq]
  exact Nat.pow_pos (by decide)

/-- A child of a tree is smaller than the tree. -/
theorem childSize_lt {count : Nat} (h : chunkSize < count) : childSize count < count := by
  have hc : count - 1 ≠ 0 := by simp only [chunkSize] at h; omega
  have hl : 2 ^ Nat.log2 (count - 1) ≤ count - 1 := Nat.log2_self_le hc
  have h5 : 5 ≤ Nat.log2 (count - 1) := by
    rw [Nat.le_log2 hc]; simp only [chunkSize] at h; omega
  rw [childSize, capacity_eq, chunkSize_pow]
  have : 2 ^ (5 * max 1 (Nat.log2 (count - 1) / 5)) ≤ 2 ^ Nat.log2 (count - 1) :=
    Nat.pow_le_pow_right (by decide) (by omega)
  omega

/-- Thirty-two children of full size are enough. -/
theorem le_childSize_mul (count : Nat) : count ≤ chunkSize * childSize count := by
  rw [childSize, capacity_eq, ← Nat.pow_succ', chunkSize_pow, Nat.succ_eq_add_one]
  have h : count - 1 < 2 ^ (Nat.log2 (count - 1) + 1) := Nat.lt_log2_self
  have : 2 ^ (Nat.log2 (count - 1) + 1) ≤
      2 ^ (5 * (max 1 (Nat.log2 (count - 1) / 5) + 1)) :=
    Nat.pow_le_pow_right (by decide) (by omega)
  omega

/-- The height of a tree is read off the binary length, five bits for a level. -/
theorem log2_div_eq {k m : Nat} (hlo : chunkSize ^ k ≤ m) (hhi : m < chunkSize ^ (k + 1)) :
    Nat.log2 m / 5 = k := by
  have hm : m ≠ 0 := by
    have : 0 < chunkSize ^ k := Nat.pow_pos (by decide)
    omega
  rw [chunkSize_pow] at hlo hhi
  have h1 : 5 * k ≤ Nat.log2 m := (Nat.le_log2 hm).2 hlo
  have h2 : Nat.log2 m < 5 * (k + 1) := (Nat.log2_lt hm).2 hhi
  omega

/-- So the size of a child is the largest power of the chunk size below the count. -/
theorem childSize_eq {k n : Nat} (hk : 1 ≤ k) (hlo : chunkSize ^ k < n)
    (hhi : n ≤ chunkSize ^ (k + 1)) : childSize n = chunkSize ^ k := by
  rw [childSize, log2_div_eq (k := k) (by omega) (by omega), Nat.max_eq_right hk, capacity_eq]

/-- Every count of a tree lies above the size of its children by at most one power of 32. -/
theorem exists_childSize {n : Nat} (h : chunkSize < n) :
    ∃ k, 1 ≤ k ∧ childSize n = chunkSize ^ k ∧ chunkSize ^ k < n ∧ n ≤ chunkSize ^ (k + 1) := by
  have hsize : childSize n = chunkSize ^ max 1 (Nat.log2 (n - 1) / 5) := capacity_eq _
  refine ⟨_, Nat.le_max_left _ _, hsize, hsize ▸ childSize_lt h, ?_⟩
  rw [Nat.pow_succ', ← hsize]
  exact le_childSize_mul n

theorem chunkSize_pow_mod {k : Nat} (hk : 1 ≤ k) : chunkSize ^ k % chunkSize = 0 := by
  obtain ⟨j, rfl⟩ : ∃ j, k = j + 1 := ⟨k - 1, by omega⟩
  rw [Nat.pow_succ, Nat.mul_mod_left]

theorem childSize_mod (n : Nat) : childSize n % chunkSize = 0 := by
  rw [childSize, capacity_eq]
  exact chunkSize_pow_mod (by omega)

theorem childSize_mul_mod (n k : Nat) : childSize n * k % chunkSize = 0 := by
  rw [Nat.mul_mod, childSize_mod, Nat.zero_mul, Nat.zero_mod]

/-- What full children leave of a packed vector is packed. -/
theorem childRest_mod {n k : Nat} (hn : n % chunkSize = 0) :
    (n - childSize n * k) % chunkSize = 0 := by
  have := childSize_mul_mod n k
  simp only [chunkSize] at *
  omega

theorem chunkSize_le_childSize (n : Nat) : chunkSize ≤ childSize n :=
  Nat.le_of_dvd (childSize_pos n) (Nat.dvd_of_mod_eq_zero (childSize_mod n))

/-- A tree that is not full has children of the same size after one more chunk. -/
theorem childSize_add_chunk {n : Nat} (h : chunkSize < n) (hn : n % chunkSize = 0)
    (hroom : n < chunkSize * childSize n) : childSize (n + chunkSize) = childSize n := by
  obtain ⟨k, hk, hsize, hlo, hhi⟩ := exists_childSize h
  rw [hsize] at hroom ⊢
  rw [← Nat.pow_succ'] at hroom
  refine childSize_eq hk (by omega) ?_
  -- both the count and the power are multiples of 32
  have hdvd : chunkSize ^ (k + 1) % chunkSize = 0 := chunkSize_pow_mod (by omega)
  simp only [chunkSize, Nat.succ_eq_add_one] at *
  omega

/-- A full tree becomes the first child of a taller one. -/
theorem childSize_of_full {n : Nat} (h : chunkSize < n) (hfull : n = chunkSize * childSize n) :
    childSize (n + chunkSize) = n := by
  obtain ⟨k, hk, hsize, hlo, hhi⟩ := exists_childSize h
  rw [hsize, ← Nat.pow_succ'] at hfull
  have hgrow : chunkSize ^ (k + 1 + 1) = chunkSize * n := by rw [Nat.pow_succ', hfull]
  have := childSize_eq (k := k + 1) (n := n + chunkSize) (by omega)
    (by simp only [chunkSize] at *; omega) (by simp only [chunkSize] at *; omega)
  rw [this, ← Nat.succ_eq_add_one, ← hfull]

/-- One chunk less changes the size of the children only if a single full child remains. -/
theorem childSize_sub_chunk {n : Nat} (h : childSize n + chunkSize < n) :
    childSize (n - chunkSize) = childSize n := by
  obtain ⟨k, hk, hsize, hlo, hhi⟩ := exists_childSize (n := n) (by omega)
  rw [hsize] at h ⊢
  exact childSize_eq hk (by omega) (by omega)

/-! ## The number of children -/

/-- The number of parts of size `s` that `n` elements need. -/
theorem parts_of_pos {n s : Nat} (hn : 0 < n) (hs : 0 < s) :
    (n + s - 1) / s = (n - s + s - 1) / s + 1 := by
  by_cases h : n ≤ s
  · have hlast : (n - 1) / s = 0 := Nat.div_eq_of_lt (by omega)
    have hrest : (n - s + s - 1) / s = 0 := Nat.div_eq_of_lt (by omega)
    rw [hrest, show n + s - 1 = (n - 1) + s by omega, Nat.add_div_right _ hs, hlast]
  · rw [show n - s + s - 1 = n - 1 by omega, show n + s - 1 = (n - 1) + s by omega,
      Nat.add_div_right _ hs]

theorem parts_zero {s : Nat} (hs : 0 < s) : (0 + s - 1) / s = 0 := Nat.div_eq_of_lt (by omega)

/-- There are never more children than fit a node. -/
theorem childCount_le (n : Nat) : childCount n ≤ chunkSize := by
  have hpos := childSize_pos n
  have hle := le_childSize_mul n
  rw [childCount]
  refine Nat.le_of_lt_succ ((Nat.div_lt_iff_lt_mul hpos).2 ?_)
  rw [Nat.succ_mul]
  omega

end CellMachine
