import CellMachine.Vlc
import Mathlib.Algebra.Group.Int.Defs
import Mathlib.Algebra.Group.Nat.Defs

/-!
# Integers have one spelling

Writing an integer and reading it back are inverse to each other. The reader takes a code word off
the front of a byte string for every integer that was written there (`readInt_encodeInt`), and
whatever it takes off is the code word of the integer it yields (`eq_encodeInt_of_readInt`).

The reader looks for redundancy only at the first two bytes. That is enough, since a group that is
appended to an integer outside the range of one group never brings it back into that range
(`not_short_append`).
-/

namespace CellMachine.Vlc

/-! ## Groups -/

/-- The highest bit of a byte says whether more bytes follow. -/
theorem continues_iff {b : UInt8} : continues b = true ↔ 128 ≤ b.toNat := by
  simp only [continues, decide_eq_true_eq]
  exact UInt8.le_iff_toNat_le

theorem not_continues_iff {b : UInt8} : continues b = false ↔ b.toNat < 128 := by
  rw [← Bool.not_eq_true, continues_iff]
  omega

/-- The low bits are the remainder, also of negative integers. -/
theorem toNat_lowBits (x : Int) : (lowBits x).toNat = (x % 128).toNat := by
  rw [lowBits, UInt8.toNat_ofNat']
  omega

theorem toNat_marked (x : Int) : (0x80 ||| lowBits x).toNat = 128 + (x % 128).toNat := by
  rw [UInt8.toNat_or, toNat_lowBits]
  -- the mark and the low bits have no bit in common, so the union is the sum
  have h := Nat.two_pow_add_eq_or_of_lt (i := 7) (b := (x % 128).toNat) (by omega) 1
  rw [Nat.mul_one] at h
  exact h.symm

theorem continues_lowBits (x : Int) : continues (lowBits x) = false := by
  rw [not_continues_iff, toNat_lowBits]
  omega

theorem continues_marked (x : Int) : continues (0x80 ||| lowBits x) = true := by
  rw [continues_iff, toNat_marked]
  omega

/-- A byte that ends a code word is the last group of the integer. -/
theorem lowBits_append {b : UInt8} (hb : continues b = false) (acc : Int) :
    lowBits (acc * 128 + (b.toNat % 128 : Nat)) = b := by
  rw [not_continues_iff] at hb
  apply UInt8.toNat_inj.1
  rw [toNat_lowBits]
  omega

/-- A byte that another one follows is a marked group of the integer. -/
theorem marked_append {b : UInt8} (hb : continues b = true) (acc : Int) :
    0x80 ||| lowBits (acc * 128 + (b.toNat % 128 : Nat)) = b := by
  rw [continues_iff] at hb
  have hlt := b.toNat_lt
  apply UInt8.toNat_inj.1
  rw [toNat_marked]
  omega

/-- Dividing takes away the group that was put behind. -/
theorem append_div (acc : Int) (b : UInt8) : (acc * 128 + (b.toNat % 128 : Nat)) / 128 = acc := by
  omega

/-- A group added to an integer that needs a group of its own leaves it outside one group. -/
theorem not_short_append {acc : Int} (h : ¬ Short acc) (b : UInt8) :
    ¬ Short (acc * 128 + (b.toNat % 128 : Nat)) := by
  simp only [Short] at *
  omega

/-- A short integer is the value of a single byte. -/
theorem leadValue_lowBits {x : Int} (h : Short x) : leadValue (lowBits x) = x := by
  simp only [leadValue, toNat_lowBits]
  simp only [Short] at h
  split <;> omega

theorem leadValue_marked {x : Int} (h : Short x) : leadValue (0x80 ||| lowBits x) = x := by
  simp only [leadValue, toNat_marked]
  simp only [Short] at h
  split <;> omega

theorem short_leadValue (b : UInt8) : Short (leadValue b) := by
  simp only [leadValue, Short]
  split <;> omega

/-- A last byte that comes first is the one that its value is written as. -/
theorem lowBits_leadValue {b : UInt8} (hb : continues b = false) : lowBits (leadValue b) = b := by
  rw [not_continues_iff] at hb
  apply UInt8.toNat_inj.1
  rw [toNat_lowBits, leadValue]
  split <;> omega

theorem marked_leadValue {b : UInt8} (hb : continues b = true) :
    0x80 ||| lowBits (leadValue b) = b := by
  rw [continues_iff] at hb
  have hlt := b.toNat_lt
  apply UInt8.toNat_inj.1
  rw [toNat_marked, leadValue]
  split <;> omega

/-- The check on the first two bytes is the question whether the first one could be left out. -/
theorem redundant_iff (first second : UInt8) :
    redundant first second = true ↔ Short (leadValue first * 128 + (second.toNat % 128 : Nat)) := by
  simp only [redundant, Bool.or_eq_true, Bool.and_eq_true, beq_iff_eq, decide_eq_true_eq, Short,
    leadValue]
  split <;> omega

/-! ## Reading the first bytes -/

/-- One byte without a mark is the whole integer. -/
theorem readInt_of_last {first : UInt8} {bs : Bytes} (h : continues first = false) :
    readInt (first :: bs) = .ok (leadValue first, bs) := by
  simp only [readInt, h, Bool.false_eq_true, if_false]

/-- A mark on the first byte leads on to the groups, unless the second makes it redundant. -/
theorem readInt_of_more {first second : UInt8} {bs : Bytes} (h : continues first = true)
    (hred : redundant first second = false) :
    readInt (first :: second :: bs) =
      readGroups (maxLength - 1) (leadValue first) (second :: bs) := by
  simp only [readInt, h, hred, Bool.false_eq_true, if_true, if_false]

/-! ## What is read has been written -/

theorem leading_of_short {x : Int} (h : Short x) : leading x = [0x80 ||| lowBits x] := by
  rw [leading, if_pos h]

/-- The leading bytes are those of the quotient, and one for the remainder. -/
theorem leading_of_not_short {x : Int} (h : ¬ Short x) :
    leading x = leading (x / 128) ++ [0x80 ||| lowBits x] := by
  rw [leading, if_neg h]

theorem encodeInt_of_short {x : Int} (h : Short x) : encodeInt x = [lowBits x] := by
  rw [encodeInt, if_pos h]

theorem encodeInt_of_not_short {x : Int} (h : ¬ Short x) :
    encodeInt x = leading (x / 128) ++ [lowBits x] := by
  rw [encodeInt, if_neg h]

/-- Reading on after the groups of `acc` completes a code word, provided that the next group does
not make the leading one redundant. -/
theorem leading_append_of_readGroups {left : Nat} {acc x : Int} {bs rest : Bytes}
    (h : readGroups left acc bs = .ok (x, rest))
    (hnext : ∀ b, bs.head? = some b → ¬ Short (acc * 128 + (b.toNat % 128 : Nat))) :
    leading acc ++ bs = encodeInt x ++ rest := by
  -- on the groups that may follow: what has been read so far is a prefix of the code word
  induction left generalizing acc bs with
  | zero => simp only [readGroups] at h; cases h
  | succ left ih =>
    cases bs with
    | nil => simp only [readGroups] at h; cases h
    | cons b bs =>
      have hlong := hnext b rfl
      simp only [readGroups] at h
      cases hb : continues b with
      | false =>
        rw [hb, if_neg Bool.false_ne_true] at h
        cases h
        rw [encodeInt_of_not_short hlong, append_div, lowBits_append hb, List.append_assoc,
          List.singleton_append]
      | true =>
        rw [hb, if_pos rfl] at h
        have hgroup := leading_of_not_short hlong
        rw [append_div, marked_append hb] at hgroup
        have := ih h fun b' _ => not_short_append hlong b'
        rw [hgroup, List.append_assoc, List.singleton_append] at this
        exact this

/-- What the reader takes off is the code word of what it yields. -/
theorem eq_encodeInt_of_readInt {bs rest : Bytes} {x : Int} (h : readInt bs = .ok (x, rest)) :
    bs = encodeInt x ++ rest := by
  cases bs with
  | nil => cases h
  | cons first bs =>
    simp only [readInt] at h
    cases hfirst : continues first with
    | false =>
      rw [hfirst, if_neg Bool.false_ne_true] at h
      cases h
      rw [encodeInt_of_short (short_leadValue first), lowBits_leadValue hfirst]
      rfl
    | true =>
      rw [hfirst, if_pos rfl] at h
      cases bs with
      | nil => cases h
      | cons second bs =>
        simp only at h
        by_cases hred : redundant first second = true
        · rw [if_pos hred] at h
          cases h
        -- the second byte is not redundant, so the leading group is not either
        · rw [if_neg hred] at h
          have := leading_append_of_readGroups h fun b hb => by
            cases hb
            rwa [← redundant_iff]
          rw [leading_of_short (short_leadValue first), marked_leadValue hfirst] at this
          exact this

/-! ## What was written is read -/

/-- The leading groups of an integer take the reader to that integer. -/
theorem readGroups_leading (x : Int) : ∃ first tail, leading x = first :: tail ∧
    continues first = true ∧ ∀ left more, tail.length ≤ left →
      readGroups left (leadValue first) (tail ++ more) =
        readGroups (left - tail.length) x more := by
  induction x using leading.induct with
  | case1 x h =>
    refine ⟨0x80 ||| lowBits x, [], leading_of_short h, continues_marked x, fun left more _ => ?_⟩
    rw [leadValue_marked h]
    rfl
  | case2 x h ih =>
    obtain ⟨first, tail, hlead, hfirst, hread⟩ := ih
    refine ⟨first, tail ++ [0x80 ||| lowBits x], ?_, hfirst, fun left more hle => ?_⟩
    · rw [leading_of_not_short h, hlead]
      rfl
    · rw [List.length_append, List.length_singleton] at hle ⊢
      rw [List.append_assoc, hread left _ (by omega)]
      -- one more group is left, and it completes the integer
      obtain ⟨k, hk⟩ : ∃ k, left - tail.length = k + 1 := ⟨left - tail.length - 1, by omega⟩
      have hval : x / 128 * 128 + ((0x80 ||| lowBits x).toNat % 128 : Nat) = x := by
        rw [toNat_marked]
        omega
      rw [hk, List.singleton_append, readGroups]
      simp only [hval]
      rw [if_pos (continues_marked x)]
      congr 1
      omega

/-- The last group completes the integer. -/
theorem readGroups_last {left : Nat} (x : Int) (rest : Bytes) (hleft : 0 < left) :
    readGroups left (x / 128) (lowBits x :: rest) = .ok (x, rest) := by
  obtain ⟨k, rfl⟩ : ∃ k, left = k + 1 := ⟨left - 1, by omega⟩
  have hval : x / 128 * 128 + ((lowBits x).toNat % 128 : Nat) = x := by
    rw [toNat_lowBits]
    omega
  rw [readGroups]
  simp only [hval]
  rw [continues_lowBits, if_neg Bool.false_ne_true]

/-- The first two bytes of a code word are not redundant. -/
theorem not_redundant_leading {x : Int} {last : UInt8} (hx : ¬ Short x)
    (hlast : last.toNat % 128 = (x % 128).toNat) {first second : UInt8} {tail : Bytes}
    (h : leading (x / 128) ++ [last] = first :: second :: tail) :
    redundant first second = false := by
  have hval : x / 128 * 128 + (last.toNat % 128 : Nat) = x := by omega
  rw [← Bool.not_eq_true, redundant_iff]
  induction hy : x / 128 using leading.induct generalizing x last tail with
  | case1 y hshort =>
    rw [hy, leading_of_short hshort] at h
    cases h
    rwa [leadValue_marked hshort, ← hy, hval]
  | case2 y hlong ih =>
    rw [hy, leading_of_not_short hlong, List.append_assoc] at h
    -- the first two bytes stand before the last one already
    have hlen : 2 ≤ (leading (y / 128) ++ [0x80 ||| lowBits y]).length := by
      obtain ⟨f, t, hf, -⟩ := readGroups_leading (y / 128)
      rw [hf]
      simp
    obtain ⟨tail', htail⟩ : ∃ tail', leading (y / 128) ++ [0x80 ||| lowBits y] =
        first :: second :: tail' := by
      rw [← List.append_assoc] at h
      match hl : leading (y / 128) ++ [0x80 ||| lowBits y], hlen with
      | a :: b :: t, _ =>
        rw [hl] at h
        cases h
        exact ⟨t, rfl⟩
    refine ih hlong ?_ htail ?_ rfl
    · rw [toNat_marked]
      omega
    · rw [toNat_marked]
      omega

/-- Each leading group takes in seven bits more, the first of them with the sign. -/
theorem length_leading_le_iff {k : Nat} {x : Int} :
    (leading x).length ≤ k + 1 ↔ -(64 * 128 ^ k) ≤ x ∧ x < 64 * 128 ^ k := by
  induction k generalizing x with
  | zero =>
    by_cases h : Short x
    · rw [leading_of_short h, List.length_singleton]
      simp only [Short] at h
      omega
    · obtain ⟨first, tail, hlead, -⟩ := readGroups_leading (x / 128)
      rw [leading_of_not_short h, hlead]
      simp only [Short] at h
      simp only [List.length_append, List.length_cons]
      omega
  -- one group more multiplies the range by 128
  | succ k ih =>
    have hpos : (0 : Int) < 128 ^ k := Int.pow_pos (by decide)
    by_cases h : Short x
    · rw [leading_of_short h, List.length_singleton, Int.pow_succ]
      simp only [Short] at h
      omega
    · rw [leading_of_not_short h, List.length_append, List.length_singleton,
        Nat.add_le_add_iff_right, ih, Int.pow_succ]
      omega

/-- The bytes behind the first one lead from its value to the integer, however many there are. -/
theorem readGroups_encodeInt {x : Int} (h : ¬ Short x) : ∃ first tail,
    encodeInt x = first :: tail ∧ tail ≠ [] ∧ continues first = true ∧
      ∀ left rest, tail.length ≤ left →
        readGroups left (leadValue first) (tail ++ rest) = .ok (x, rest) := by
  obtain ⟨first, tail, hlead, hfirst, hread⟩ := readGroups_leading (x / 128)
  refine ⟨first, tail ++ [lowBits x], ?_, by simp, hfirst, fun left rest hle => ?_⟩
  · rw [encodeInt_of_not_short h, hlead, List.cons_append]
  · rw [List.length_append, List.length_singleton] at hle
    rw [List.append_assoc, hread left _ (by omega)]
    exact readGroups_last x rest (by omega)

/-- How many groups an integer needs, the first of which holds its sign as well. -/
theorem length_encodeInt_le_iff {k : Nat} {x : Int} :
    (encodeInt x).length ≤ k + 1 ↔ -(64 * 128 ^ k) ≤ x ∧ x < 64 * 128 ^ k := by
  -- a code word is as long as the leading groups of its integer would be
  rw [← length_leading_le_iff]
  by_cases h : Short x
  · rw [encodeInt_of_short h, leading_of_short h, List.length_singleton, List.length_singleton]
  · rw [encodeInt_of_not_short h, leading_of_not_short h, List.length_append, List.length_append,
      List.length_singleton, List.length_singleton]

/-- The reader takes the code word of a 64-bit integer off the front of a byte string. -/
theorem readInt_encodeInt {x : Int} (hlo : -2 ^ 63 ≤ x) (hhi : x < 2 ^ 63) (rest : Bytes) :
    readInt (encodeInt x ++ rest) = .ok (x, rest) := by
  by_cases h : Short x
  · rw [encodeInt_of_short h, List.singleton_append, readInt_of_last (continues_lowBits x),
      leadValue_lowBits h]
  · obtain ⟨first, tail, hcode, hmore, hfirst, hread⟩ := readGroups_encodeInt h
    have hlen := (length_encodeInt_le_iff (k := 9) (x := x)).2 ⟨by omega, by omega⟩
    rw [hcode, List.length_cons] at hlen
    have hgroups := hread (maxLength - 1) rest (by simp only [maxLength]; omega)
    -- what follows the first byte is not empty
    obtain ⟨second, tail, rfl⟩ := List.exists_cons_of_ne_nil hmore
    have hred : redundant first second = false := by
      rw [encodeInt_of_not_short h] at hcode
      exact not_redundant_leading h (by rw [toNat_lowBits]; omega) hcode
    rw [hcode, List.cons_append, List.cons_append, readInt_of_more hfirst hred]
    exact hgroups

/-- An integer can be told from the bytes that start with its code word. -/
theorem encodeInt_append_inj {x y : Int} {bs cs : Bytes}
    (h : encodeInt x ++ bs = encodeInt y ++ cs) : x = y ∧ bs = cs := by
  by_cases hx : Short x
  · by_cases hy : Short y
    · rw [encodeInt_of_short hx, encodeInt_of_short hy] at h
      obtain ⟨hbyte, hrest⟩ := List.cons.inj h
      exact ⟨by rw [← leadValue_lowBits hx, hbyte, leadValue_lowBits hy], hrest⟩
    · -- one code word is a single byte, and the other one goes on behind its first byte
      obtain ⟨first, tail, hcode, -, hfirst, -⟩ := readGroups_encodeInt hy
      rw [encodeInt_of_short hx, hcode] at h
      rw [← (List.cons.inj h).1, continues_lowBits] at hfirst
      cases hfirst
  · obtain ⟨first, tail, hcode, -, hfirst, hread⟩ := readGroups_encodeInt hx
    by_cases hy : Short y
    · rw [encodeInt_of_short hy, hcode] at h
      rw [(List.cons.inj h).1, continues_lowBits] at hfirst
      cases hfirst
    · obtain ⟨first', tail', hcode', -, -, hread'⟩ := readGroups_encodeInt hy
      rw [hcode, hcode', List.cons_append, List.cons_append] at h
      obtain ⟨rfl, hrest⟩ := List.cons.inj h
      have hsame := hread (tail.length + tail'.length) bs (Nat.le_add_right _ _)
      rw [hrest, hread' _ cs (Nat.le_add_left _ _)] at hsame
      cases hsame
      exact ⟨rfl, rfl⟩

/-! ## 64-bit integers and counts -/

/-- The code word of a 64-bit integer has at most ten bytes. -/
theorem length_encodeInt_le {x : Int} (hlo : -2 ^ 63 ≤ x) (hhi : x < 2 ^ 63) :
    (encodeInt x).length ≤ maxLength :=
  (length_encodeInt_le_iff (k := 9)).2 ⟨by omega, by omega⟩

theorem length_encode_le (x : Int64) : (encode x).length ≤ maxLength :=
  length_encodeInt_le x.minValue_le_toInt x.toInt_lt

theorem length_encodeInt_pos (x : Int) : 0 < (encodeInt x).length := by
  by_cases h : Short x
  · rw [encodeInt_of_short h]
    exact Nat.one_pos
  · rw [encodeInt_of_not_short h, List.length_append]
    exact Nat.succ_pos _

/-- Greater counts have no shorter code words. -/
theorem length_encodeNat_mono {n m : Nat} (h : n ≤ m) :
    (encodeNat n).length ≤ (encodeNat m).length := by
  obtain ⟨k, hk⟩ : ∃ k, (encodeNat m).length = k + 1 :=
    ⟨_, (Nat.succ_pred_eq_of_pos (length_encodeInt_pos m)).symm⟩
  obtain ⟨-, hm⟩ := length_encodeInt_le_iff.1 (Nat.le_of_eq hk)
  have hpos : (0 : Int) < 128 ^ k := Int.pow_pos (by decide)
  rw [hk]
  exact length_encodeInt_le_iff.2 ⟨by omega, by omega⟩

/-- So has that of a count without a sign. -/
theorem length_encodeNat_le {n : Nat} (h : n < 2 ^ 64) : (encodeNat n).length ≤ maxLength :=
  (length_encodeInt_le_iff (k := 9)).2 ⟨by omega, by omega⟩

theorem read_encode (x : Int64) (rest : Bytes) : read (encode x ++ rest) = .ok (x, rest) := by
  have hlo := x.minValue_le_toInt
  have hhi := x.toInt_lt
  rw [read, encode, readInt_encodeInt hlo hhi]
  show (if _ then _ else _) = _
  rw [if_pos ⟨hlo, Int64.le_iff_toInt_le.1 x.le_maxValue⟩, Int64.ofInt_toInt]

theorem eq_encode_of_read {bs rest : Bytes} {x : Int64} (h : read bs = .ok (x, rest)) :
    bs = encode x ++ rest := by
  unfold read at h
  cases hr : readInt bs with
  | error e => rw [hr] at h; cases h
  | ok p =>
    obtain ⟨y, tail⟩ := p
    rw [hr] at h
    change (if _ then _ else _) = _ at h
    by_cases hy : Int64.minValue.toInt ≤ y ∧ y ≤ Int64.maxValue.toInt
    · rw [if_pos hy] at h
      cases h
      have : (Int64.ofInt y).toInt = y := Int64.toInt_ofInt_of_le hy.1 (by
        have := hy.2
        rw [Int64.toInt_maxValue] at this
        omega)
      rw [encode, this]
      exact eq_encodeInt_of_readInt hr
    · rw [if_neg hy] at h
      cases h

/-- The code word of a count is that of a 64-bit integer. -/
theorem exists_read_encodeNat {n : Nat} (h : n < 2 ^ 63) :
    ∃ x : Int64, x.toInt = n ∧ ∀ rest, read (encodeNat n ++ rest) = .ok (x, rest) := by
  have hval : (Int64.ofInt n).toInt = n := Int64.toInt_ofInt_of_le (by omega) (by omega)
  refine ⟨Int64.ofInt n, hval, fun rest => ?_⟩
  have hread := read_encode (Int64.ofInt n) rest
  rwa [encode, hval] at hread

/-- The reader of counts takes off the code word of every count within its limit. -/
theorem readCount_encodeNat {n max : Nat} (hmax : n ≤ max) (h : n < 2 ^ 63) (rest : Bytes) :
    readCount max (encodeNat n ++ rest) = .ok (n, rest) := by
  obtain ⟨x, hval, hread⟩ := exists_read_encodeNat h
  rw [readCount, hread]
  show (if _ then _ else _) = _
  rw [hval, if_neg (by omega), Int.toNat_natCast, if_neg (by omega)]

/-- A count can be told from the bytes that start with it. -/
theorem encodeNat_append_inj {n m : Nat} {bs cs : Bytes}
    (h : encodeNat n ++ bs = encodeNat m ++ cs) : n = m ∧ bs = cs := by
  obtain ⟨hcount, hrest⟩ := encodeInt_append_inj h
  exact ⟨Int.ofNat.inj hcount, hrest⟩

/-- A 64-bit integer can be told from the bytes that start with it. -/
theorem encode_append_inj {x y : Int64} {bs cs : Bytes} (h : encode x ++ bs = encode y ++ cs) :
    x = y ∧ bs = cs := by
  obtain ⟨hvalue, hrest⟩ := encodeInt_append_inj h
  exact ⟨Int64.toInt_inj.1 hvalue, hrest⟩

theorem eq_encodeNat_of_readCount {max n : Nat} {bs rest : Bytes}
    (h : readCount max bs = .ok (n, rest)) :
    bs = encodeNat n ++ rest ∧ n ≤ max ∧ n < 2 ^ 63 := by
  unfold readCount at h
  cases hr : read bs with
  | error e => rw [hr] at h; cases h
  | ok p =>
    obtain ⟨x, tail⟩ := p
    rw [hr] at h
    change (if _ then _ else _) = _ at h
    by_cases hneg : x.toInt < 0
    · rw [if_pos hneg] at h
      cases h
    · rw [if_neg hneg] at h
      by_cases hmax : max < x.toInt.toNat
      · rw [if_pos hmax] at h
        cases h
      · rw [if_neg hmax] at h
        cases h
        have hhi := x.toInt_lt
        refine ⟨?_, by omega, by omega⟩
        rw [encodeNat, Int.toNat_of_nonneg (by omega)]
        exact eq_encode_of_read hr

end CellMachine.Vlc
