import CellMachine.Proofs.Codec.Vlc

/-!
# Integers in place

The writer and the reader of integers as they work in a buffer. `write` appends to the bytes that are there
already, group by group: how many groups there will be is known in advance, and each of them is cut out of the
integer by a shift. `readAt` goes through the buffer by index. It begins at a position that it is given, and
moves the position only when it has an integer.

Both agree with the pair that takes the front off a byte string (`write_eq`, `run_readAt`). For `write` this
means that the length foreseen by `length` is the number of groups before the recursion of `encode` comes to
an integer in the range of one group.

Main statement: `exact_in_place`.
-/

namespace CellMachine.Vlc

/-! ## Writing behind what is there -/

/-- The seven bits of an integer that have `i` groups below them. -/
def group (x : Int64) (i : Nat) : UInt8 := (x >>> Int64.ofNat (7 * i)).toUInt64.toUInt8 &&& 0x7f

/-- Appends the groups with `n` to one groups below them, each marked as followed by another. -/
def writeGroups (x : Int64) : Nat → Bytes → Bytes
  | 0, out => out
  | n + 1, out => writeGroups x n (out ++ [0x80 ||| group x (n + 1)])

/-- Appends the code word of an integer. -/
def write (x : Int64) (out : Bytes) : Bytes := writeGroups x (length x - 1) out ++ [group x 0]

/-! ## Reading at a position -/

/-- The byte at a position. -/
def byteAt (bs : Bytes) (i : Nat) : Except FormatError UInt8 :=
  match bs[i]? with
  | some b => .ok b
  | none => .error .truncated

/-- Goes on in a code word that begins with `first` at `start`. So far `len` bytes are read, the last of which
is `byte`, and their groups make `acc`. Yields what all groups make, and the position behind them. -/
def scan (bs : Bytes) (start : Nat) (first byte : UInt8) (acc : Int) (len : Nat) :
    Except FormatError (Int × Nat) :=
  if continues byte then
    if maxLength ≤ len then .error .vlcTooLong
    else do
      let next ← byteAt bs (start + len)
      if len = 1 ∧ redundant first next then .error (.nonCanonical .redundantLead)
      else scan bs start first next (acc * 128 + (next.toNat % 128 : Nat)) (len + 1)
  else .ok (acc, start + len)
termination_by maxLength - len

/-- What the groups of the code word at `start` make, and the position behind them. -/
def scanAt (bs : Bytes) (start : Nat) : Except FormatError (Int × Nat) := do
  let first ← byteAt bs start
  scan bs start first first (leadValue first) 1

/-- Reads the integer at the current position and moves behind it. -/
def readAt (bs : Bytes) : ExceptT FormatError (StateM Nat) Int64 := do
  let start ← get
  let (x, stop) ← MonadExcept.ofExcept (scanAt bs start)
  if Int64.minValue.toInt ≤ x ∧ x ≤ Int64.maxValue.toInt then
    set stop
    return Int64.ofInt x
  else throw .vlcOverflow

/-! ## The length is known in advance -/

/-- A number has at most `k` bits if it is below `2 ^ k`. -/
theorem bitLength_le_iff {m k : Nat} : bitLength m ≤ k ↔ m < 2 ^ k := by
  unfold bitLength
  by_cases h : m = 0
  · have := Nat.two_pow_pos k
    rw [if_pos h]
    omega
  · rw [if_neg h, ← Nat.log2_lt h]
    omega

/-- A length is enough if the integer is in the range of so many groups. -/
theorem length_le_iff {x : Int64} {k : Nat} :
    length x ≤ k + 1 ↔ -(64 * 128 ^ k) ≤ x.toInt ∧ x.toInt < 64 * 128 ^ k := by
  have hbits : ∀ m : Nat, (bitLength m + 1 + 6) / 7 ≤ k + 1 ↔ (m : Int) < 64 * 128 ^ k := by
    intro m
    have hpow : 2 ^ (7 * k + 6) = 128 ^ k * 64 := by rw [Nat.pow_add, Nat.pow_mul]
    rw [show (bitLength m + 1 + 6) / 7 ≤ k + 1 ↔ bitLength m ≤ 7 * k + 6 by omega, bitLength_le_iff,
      hpow]
    norm_cast
    omega
  unfold length
  rw [hbits]
  split <;> omega

theorem one_le_length (x : Int64) : 1 ≤ length x := by
  show 1 ≤ (_ + 1 + 6) / 7
  omega

/-- The writer knows how long a code word will be: both lengths pass a bound at the same integers. -/
theorem length_encode (x : Int64) : (encode x).length = length x := by
  have hle : ∀ k, (encode x).length ≤ k + 1 ↔ length x ≤ k + 1 := fun k =>
    length_encodeInt_le_iff.trans length_le_iff.symm
  have hlength := one_le_length x
  have hwritten := length_encodeInt_pos x.toInt
  have hle₁ := (hle (length x - 1)).2 (by omega)
  have hle₂ := (hle ((encode x).length - 1)).1 (by omega)
  rw [encode] at hle₁ hle₂ ⊢
  omega

/-- No integer takes more than the longest encoding. -/
theorem length_le (x : Int64) : length x ≤ maxLength :=
  length_encode x ▸ length_encode_le x

/-- What stands above the last `k` groups is in the range of one group as soon as the writer says so. -/
theorem short_div_pow_iff {x : Int64} {k : Nat} : Short (x.toInt / 128 ^ k) ↔ length x ≤ k + 1 := by
  have hpos : (0 : Int) < 128 ^ k := Int.pow_pos (by decide)
  rw [length_le_iff, Short, Int.le_ediv_iff_mul_le hpos, Int.ediv_lt_iff_lt_mul hpos, Int.neg_mul]

/-! ## Groups cut out by shifts -/

theorem toInt_shiftRight {x : Int64} {k : Nat} (hk : k < 64) :
    (x >>> Int64.ofNat k).toInt = x.toInt / 2 ^ k := by
  have hshift : (BitVec.ofNat 64 k).smod 64 = BitVec.ofNat 64 k := by decide +revert
  rw [← Int64.toInt_toBitVec, Int64.toBitVec_shiftRight, Int64.toBitVec_ofNat', hshift,
    BitVec.toInt_sshiftRight', Int64.toInt_toBitVec, BitVec.toNat_ofNat, Int.shiftRight_eq_div_pow,
    Nat.mod_eq_of_lt (by omega)]
  norm_cast

/-- An integer and its machine word have the same low bits. -/
theorem toNat_toUInt64_mod (x : Int64) : (x.toUInt64.toNat : Int) % 128 = x.toInt % 128 := by
  have h := x.toBitVec.toInt_eq_toNat_cond
  rw [Int64.toInt_toBitVec] at h
  rw [h]
  show (x.toBitVec.toNat : Int) % 128 = _
  split <;> omega

/-- The group cut out by a shift is the last one of the integer divided. -/
theorem group_eq {x : Int64} {i : Nat} (hi : i < maxLength) :
    group x i = lowBits (x.toInt / 128 ^ i) := by
  simp only [maxLength] at hi
  have hpow : (2 : Int) ^ (7 * i) = 128 ^ i := by
    rw [Int.pow_mul]
    rfl
  have hlow := toNat_toUInt64_mod (x >>> Int64.ofNat (7 * i))
  rw [toInt_shiftRight (by omega), hpow] at hlow
  apply UInt8.toNat_inj.1
  rw [toNat_lowBits, group, UInt8.toNat_and, UInt64.toNat_toUInt8,
    show (0x7f : UInt8).toNat = 2 ^ 7 - 1 from rfl, Nat.and_two_pow_sub_one_eq_mod]
  omega

/-- The loop of the writer. Before each turn the leading groups of what stands above the groups that are left
have been written, and at the end all leading groups of the integer. -/
theorem writeGroups_leading {x : Int64} {n : Nat} (hn : n + 1 < length x) (before : Bytes) :
    writeGroups x n (before ++ leading (x.toInt / 128 ^ (n + 1))) =
      before ++ leading (x.toInt / 128) := by
  have hmax := length_le x
  induction n with
  | zero =>
    rw [Int.pow_succ, Int.pow_zero, Int.one_mul]
    rfl
  | succ n ih =>
    -- there is a group in front, so what is left is not in the range of one
    have hlong : ¬ Short (x.toInt / 128 ^ (n + 1)) := by
      rw [short_div_pow_iff]
      omega
    have hnext := leading_of_not_short hlong
    rw [Int.ediv_ediv_of_nonneg (Int.pow_nonneg (by decide)), ← Int.pow_succ,
      ← group_eq (by omega)] at hnext
    rw [writeGroups, List.append_assoc, ← hnext]
    exact ih (by omega)

/-- Shifts and the length known in advance write the same code word as the recursion does. -/
theorem write_eq (x : Int64) (out : Bytes) : write x out = out ++ encode x := by
  have hone := one_le_length x
  have hmax := length_le x
  have hlast : group x 0 = lowBits x.toInt := by
    rw [group_eq (by decide), Int.pow_zero, Int.ediv_one]
  have hshort := short_div_pow_iff (x := x) (k := 0)
  rw [Int.pow_zero, Int.ediv_one] at hshort
  rw [write, hlast, encode]
  by_cases h : Short x.toInt
  · rw [encodeInt_of_short h, show length x - 1 = 0 by have := hshort.1 h; omega]
    rfl
  · obtain ⟨n, hn⟩ : ∃ n, length x = n + 2 := ⟨length x - 2, by
      have := mt hshort.2 h
      omega⟩
    -- the first group is in the range of one group, so it makes up the leading groups alone
    have hfirst : [0x80 ||| group x (n + 1)] = leading (x.toInt / 128 ^ (n + 1)) := by
      rw [group_eq (by omega), leading_of_short (short_div_pow_iff.2 (by omega))]
    rw [encodeInt_of_not_short h, hn, show n + 2 - 1 = n + 1 by omega, writeGroups, hfirst,
      writeGroups_leading (by omega), List.append_assoc]

/-! ## Reading by index -/

theorem byteAt_of_drop_nil {bs : Bytes} {i : Nat} (h : bs.drop i = []) :
    byteAt bs i = .error .truncated := by
  rw [byteAt, ← List.head?_drop, h]
  rfl

/-- Reading by index takes the first byte of what is left. -/
theorem byteAt_of_drop_cons {bs tail : Bytes} {b : UInt8} {i : Nat} (h : bs.drop i = b :: tail) :
    byteAt bs i = .ok b ∧ bs.drop (i + 1) = tail ∧ i + 1 = bs.length - tail.length := by
  refine ⟨?_, ?_, ?_⟩
  · rw [byteAt, ← List.head?_drop, h]
    rfl
  · rw [← List.tail_drop, h]
    rfl
  · have := congrArg List.length h
    rw [List.length_drop, List.length_cons] at this
    omega

/-- What a reader leaves of a byte string, as the position where that begins. -/
def endOf (bs : Bytes) (p : Int × Bytes) : Int × Nat := (p.1, bs.length - p.2.length)

/-- The loop of the reader is the reader of groups, once the check of the second byte is passed. -/
theorem scan_eq {bs : Bytes} {start : Nat} {first byte : UInt8} {acc : Int} {len : Nat} (hlen : 1 ≤ len)
    (hcheck : len = 1 → ∀ second, (bs.drop (start + len)).head? = some second →
      redundant first second = false) :
    scan bs start first byte acc len =
      if continues byte then
        (readGroups (maxLength - len) acc (bs.drop (start + len))).map (endOf bs)
      else .ok (acc, start + len) := by
  induction hleft : maxLength - len generalizing byte acc len with
  | zero =>
    rw [scan, if_pos (show maxLength ≤ len by omega)]
    rfl
  | succ left ih =>
    rw [scan, if_neg (show ¬ maxLength ≤ len by omega)]
    cases hmore : continues byte with
    | false => rfl
    | true =>
      rw [if_pos rfl, if_pos rfl]
      cases hdrop : bs.drop (start + len) with
      | nil =>
        rw [byteAt_of_drop_nil hdrop]
        rfl
      | cons next tail =>
        obtain ⟨hbyte, htail, hstop⟩ := byteAt_of_drop_cons hdrop
        -- the second byte has been looked at, and it is not redundant
        have hpassed : ¬ (len = 1 ∧ redundant first next = true) := by
          rintro ⟨hfirst, hred⟩
          rw [hcheck hfirst next (by rw [hdrop]; rfl)] at hred
          cases hred
        rw [hbyte]
        show (if _ then _ else _) = _
        rw [if_neg hpassed, ih (by omega) (fun h => by omega) (by omega), readGroups, ← Nat.add_assoc,
          htail, hstop]
        show _ = Except.map _ (if _ then _ else _)
        cases continues next <;> rfl

/-- Walking through a buffer by index comes to what taking the front off its rest comes to. -/
theorem scanAt_eq (bs : Bytes) (pos : Nat) :
    scanAt bs pos = (readInt (bs.drop pos)).map (endOf bs) := by
  unfold scanAt
  cases hdrop : bs.drop pos with
  | nil =>
    rw [byteAt_of_drop_nil hdrop]
    rfl
  | cons first tail =>
    obtain ⟨hbyte, htail, hstop⟩ := byteAt_of_drop_cons hdrop
    rw [hbyte]
    show scan bs pos first first (leadValue first) 1 = _
    cases hmore : continues first with
    | false =>
      rw [scan, hmore, if_neg Bool.false_ne_true, readInt_of_last hmore, hstop]
      rfl
    | true =>
      cases tail with
      | nil =>
        rw [scan, if_pos hmore, if_neg (by decide), byteAt_of_drop_nil htail]
        simp only [readInt, if_pos hmore]
        rfl
      | cons second tail =>
        -- redundancy is looked at with the second byte, in the loop here and in front of it there
        by_cases hred : redundant first second = true
        · rw [scan, if_pos hmore, if_neg (by decide), (byteAt_of_drop_cons htail).1]
          show (if _ then _ else _) = _
          rw [if_pos ⟨rfl, hred⟩]
          simp only [readInt, if_pos hmore, if_pos hred]
          rfl
        · rw [Bool.not_eq_true] at hred
          have hcheck : ∀ b, (bs.drop (pos + 1)).head? = some b → redundant first b = false := by
            intro b hb
            rw [htail] at hb
            cases hb
            exact hred
          rw [scan_eq (Nat.le_refl 1) fun _ => hcheck, if_pos hmore, htail, readInt_of_more hmore hred]

/-- The reader in a buffer yields what the reader at the front of the rest yields. It moves behind what that
takes off, and stays where it is if that fails. -/
theorem run_readAt (bs : Bytes) (pos : Nat) :
    (readAt bs).run.run pos =
      match read (bs.drop pos) with
      | .ok (x, rest) => (.ok x, bs.length - rest.length)
      | .error e => (.error e, pos) := by
  -- the position is moved only behind the check of the range
  have hget : (readAt bs).run.run pos =
      (MonadExcept.ofExcept (scanAt bs pos) >>= fun p =>
        if Int64.minValue.toInt ≤ p.1 ∧ p.1 ≤ Int64.maxValue.toInt then do
          set p.2
          return Int64.ofInt p.1
        else throw .vlcOverflow : ExceptT FormatError (StateM Nat) Int64).run.run pos := rfl
  rw [hget, scanAt_eq, read]
  cases readInt (bs.drop pos) with
  | error e => rfl
  | ok p =>
    show (if Int64.minValue.toInt ≤ p.1 ∧ p.1 ≤ Int64.maxValue.toInt then _ else _ :
        ExceptT FormatError (StateM Nat) Int64) pos =
      match (if Int64.minValue.toInt ≤ p.1 ∧ p.1 ≤ Int64.maxValue.toInt then _ else _ :
        Except FormatError (Int64 × Bytes)) with
      | .ok (x, rest) => _
      | .error e => _
    split <;> rfl

/-- Reading in place gives back what was written in place. -/
theorem readAt_encode (x : Int64) (before after : Bytes) :
    (readAt (before ++ encode x ++ after)).run.run before.length =
      (.ok x, before.length + length x) := by
  rw [run_readAt, List.append_assoc, List.drop_left, read_encode]
  show (Except.ok x, _ - _) = _
  simp only [List.length_append, length_encode, Prod.mk.injEq, true_and]
  omega

/-- What the position moves past is the code word of the integer, and the rest is left to be read. -/
theorem slice?_of_readAt {bs : Bytes} {pos stop : Nat} {x : Int64}
    (h : (readAt bs).run.run pos = (.ok x, stop)) :
    read (bs.drop pos) = .ok (x, bs.drop stop) ∧ bs.slice? pos stop = some (encode x) := by
  rw [run_readAt] at h
  cases hread : read (bs.drop pos) with
  | error e =>
    rw [hread] at h
    cases h
  | ok p =>
    obtain ⟨y, rest⟩ := p
    rw [hread] at h
    cases h
    -- what was read is in front, written the only way it can be
    have hfront := eq_encode_of_read hread
    have hlength := congrArg List.length hfront
    have hone := one_le_length x
    rw [List.length_drop, List.length_append, length_encode] at hlength
    have hstop : bs.length - rest.length = pos + length x := by omega
    rw [hstop, ← List.drop_drop, Bytes.slice?, if_pos (by omega), Nat.add_sub_cancel_left, hfront,
      ← length_encode, List.drop_left, List.take_left]
    exact ⟨rfl, rfl⟩

theorem readAt_error {bs : Bytes} {pos stop : Nat} {e : FormatError}
    (h : (readAt bs).run.run pos = (.error e, stop)) :
    read (bs.drop pos) = .error e ∧ stop = pos := by
  rw [run_readAt] at h
  cases hread : read (bs.drop pos) with
  | error e =>
    rw [hread] at h
    cases h
    exact ⟨rfl, rfl⟩
  | ok p =>
    rw [hread] at h
    cases h

/-- **Integers are an exact code.** The code word of a 64-bit integer has the length that is known in advance,
between one byte and ten, and is what the writer appends. Whatever stands before and after it, the reader
yields the integer and moves behind the code word, no further. Conversely, the bytes that the reader moves
past are the code word of the integer that it yields, and where it yields none, it does not move. -/
theorem exact_in_place :
    (∀ (x : Int64) (before after : Bytes),
      write x before = before ++ encode x ∧ (encode x).length = length x ∧
        1 ≤ length x ∧ length x ≤ 10 ∧
        (readAt (before ++ encode x ++ after)).run.run before.length =
          (.ok x, before.length + length x)) ∧
    (∀ (bs : Bytes) (pos stop : Nat) (x : Int64), (readAt bs).run.run pos = (.ok x, stop) →
      read (bs.drop pos) = .ok (x, bs.drop stop) ∧ bs.slice? pos stop = some (encode x)) ∧
    (∀ (bs : Bytes) (pos stop : Nat) (e : FormatError), (readAt bs).run.run pos = (.error e, stop) →
      read (bs.drop pos) = .error e ∧ stop = pos) := by
  refine ⟨fun x before after => ?_, fun _ _ _ _ => slice?_of_readAt, fun _ _ _ _ => readAt_error⟩
  exact ⟨write_eq x before, length_encode x, one_le_length x, length_le x, readAt_encode x before after⟩

/-- A hundred is read between other bytes, and a spelling that only repeats a sign is refused there. -/
theorem exact_in_place_hundred :
    (readAt [0x07, 0x80, 0x64, 0x07]).run.run 1 = (.ok 100, 3) ∧
      Bytes.slice? [0x07, 0x80, 0x64, 0x07] 1 3 = some (encode 100) ∧
      (readAt [0x07, 0x80, 0x24]).run.run 1 = (.error (.nonCanonical .redundantLead), 1) ∧
      read [0x80, 0x24] = .error (.nonCanonical .redundantLead) := by
  have hread : (readAt [0x07, 0x80, 0x64, 0x07]).run.run 1 = (.ok 100, 3) := by
    rw [run_readAt]
    rfl
  have hrefused : (readAt [0x07, 0x80, 0x24]).run.run 1 =
      (.error (.nonCanonical .redundantLead), 1) := by
    rw [run_readAt]
    rfl
  exact ⟨hread, (exact_in_place.2.1 _ _ _ _ hread).2, hrefused,
    (exact_in_place.2.2 _ _ _ _ hrefused).1⟩

end CellMachine.Vlc
