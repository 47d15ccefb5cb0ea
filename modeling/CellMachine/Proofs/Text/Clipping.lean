import CellMachine.Proofs.Cell.Describing
import CellMachine.Proofs.Codec.RoundTrip

/-!
# Clipping keeps the longest beginning that fits

`Text.clip` goes forward through the characters of a string and keeps them as long as they fit. A string that is
cut in place is cut the other way: from the last position that fits, a scan goes back through the bytes until it
stands between two characters. Both end at the same position (`Bytes.retreat_eq`), because every byte of a character
but its first one is marked as going on. A character has four bytes at most, so that three steps back are enough, and
the scan is at a boundary before it could leave the string.

Main statement: `Text.clip_longest`.
-/

namespace CellMachine

namespace Bytes

/-! ## Going back to a boundary -/

/-- True of a byte that goes on with a character which an earlier byte begins. -/
def isTrailing (b : UInt8) : Bool := 0x80 ≤ b && b < 0xc0

/-- True of the positions between two characters, and of the first and the last position. -/
def isBoundary (bs : Bytes) (i : Nat) : Bool :=
  i == 0 || i == bs.length || bs[i]?.any fun b => !isTrailing b

/-- Goes back from a position, byte by byte, until it stands at a boundary. Yields the boundary and the number
of steps, unless a step would lead before the first position. -/
def retreat (bs : Bytes) : Nat → Option (Nat × Nat)
  | 0 => if isBoundary bs 0 then some (0, 0) else none
  | i + 1 =>
    if isBoundary bs (i + 1) then some (i + 1, 0)
    else (retreat bs i).map fun (stop, steps) => (stop, steps + 1)

theorem retreat_of_isBoundary {bs : Bytes} {i : Nat} (h : isBoundary bs i = true) :
    retreat bs i = some (i, 0) := by
  cases i <;> exact if_pos h

/-! ## The bytes of a character -/

/-- The bytes that go on are the ones from 128 to 191. -/
theorem isTrailing_iff {b : UInt8} : isTrailing b = true ↔ 128 ≤ b.toNat ∧ b.toNat < 192 := by
  simp [isTrailing, UInt8.le_iff_toNat_le, UInt8.lt_iff_toNat_lt]

theorem isTrailing_eq_false_iff {b : UInt8} :
    isTrailing b = false ↔ b.toNat < 128 ∨ 192 ≤ b.toNat := by
  rw [← Bool.not_eq_true, isTrailing_iff]
  omega

/-- A byte that carries six bits of a character goes on with it. -/
theorem isTrailing_ofNat (n : Nat) : isTrailing (UInt8.ofNat (n % 64 + 128)) = true := by
  rw [isTrailing_iff, UInt8.toNat_ofNat']
  omega

theorem isTrailing_ofNat_eq_false {n : Nat} (h : n < 128 ∨ 192 ≤ n) (hn : n < 256) :
    isTrailing (UInt8.ofNat n) = false := by
  rw [isTrailing_eq_false_iff, UInt8.toNat_ofNat']
  omega

/-- The first byte of a character begins it, and the others go on with it. -/
theorem exists_utf8EncodeChar (c : Char) :
    ∃ first more, String.utf8EncodeChar c = first :: more ∧ isTrailing first = false ∧
      ∀ b ∈ more, isTrailing b = true := by
  fun_cases String.utf8EncodeChar c with
  | case1 v hv =>
    exact ⟨_, [], rfl, isTrailing_ofNat_eq_false (by omega) (by omega), by simp⟩
  | case2 v =>
    refine ⟨_, _, rfl, isTrailing_ofNat_eq_false (by omega) (by omega), ?_⟩
    simp only [List.mem_singleton, forall_eq, isTrailing_ofNat]
  | case3 v =>
    refine ⟨_, _, rfl, isTrailing_ofNat_eq_false (by omega) (by omega), ?_⟩
    simp only [List.mem_cons, List.not_mem_nil, or_false, forall_eq_or_imp, forall_eq, isTrailing_ofNat,
      and_self]
  | case4 v =>
    refine ⟨_, _, rfl, isTrailing_ofNat_eq_false (by omega) (by omega), ?_⟩
    simp only [List.mem_cons, List.not_mem_nil, or_false, forall_eq_or_imp, forall_eq, isTrailing_ofNat,
      and_self]

/-- The bytes of a text are those of its characters, one after another. -/
theorem ofText_cons (c : Char) (cs : List Char) :
    ofText (String.ofList (c :: cs)) = String.utf8EncodeChar c ++ ofText (String.ofList cs) := by
  simp only [ofText, String.toByteArray_ofList]
  rw [List.utf8Encode_cons, List.utf8Encode_singleton, ByteArray.data_append, Array.toList_append,
    List.toList_data_toByteArray]

/-- A text does not begin in the middle of a character. -/
theorem isTrailing_head {s : String} {b : UInt8} (h : (ofText s).head? = some b) : isTrailing b = false := by
  obtain ⟨cs, rfl⟩ : ∃ cs, s = String.ofList cs := ⟨s.toList, String.ofList_toList.symm⟩
  cases cs with
  | nil => cases h
  | cons c cs =>
    obtain ⟨first, more, hc, hfirst, -⟩ := exists_utf8EncodeChar c
    rw [ofText_cons, hc] at h
    cases h
    exact hfirst

/-! ## The scan on text -/

/-- Inside a character the scan goes back to its first byte. -/
theorem retreat_inside {first : UInt8} {more tail : Bytes} (hmore : ∀ b ∈ more, isTrailing b = true) {i : Nat}
    (hi : i ≤ more.length) : retreat (first :: more ++ tail) i = some (0, i) := by
  induction i with
  | zero => rfl
  | succ i ih =>
    have hbyte : (first :: more ++ tail)[i + 1]? = some more[i] := by
      rw [List.cons_append, List.getElem?_cons_succ, List.getElem?_append_left hi, List.getElem?_eq_getElem hi]
    have hinside : isBoundary (first :: more ++ tail) (i + 1) = false := by
      have hlast : i + 1 ≠ (first :: more ++ tail).length := by
        simp only [List.length_append, List.length_cons]
        omega
      rw [isBoundary, hbyte, Option.any_some, hmore _ (List.getElem_mem hi)]
      simpa using hlast
    rw [retreat, hinside, if_neg Bool.false_ne_true, ih (by omega)]
    rfl

/-- The boundaries of text stay where they are behind other bytes. -/
theorem isBoundary_append (front : Bytes) (s : String) (i : Nat) :
    isBoundary (front ++ ofText s) (front.length + i) = isBoundary (ofText s) i := by
  have hbyte : (front ++ ofText s)[front.length + i]? = (ofText s)[i]? := by
    rw [List.getElem?_append_right (Nat.le_add_right _ _), Nat.add_sub_cancel_left]
  cases i with
  | zero =>
    -- where the text begins, there is a byte that begins a character, or no byte at all
    show isBoundary (front ++ ofText s) (front.length + 0) = true
    rw [isBoundary, hbyte, ← List.head?_eq_getElem?]
    cases hhead : (ofText s).head? with
    | none => simp [List.head?_eq_none_iff.1 hhead]
    | some b => simp [isTrailing_head hhead]
  | succ i =>
    rw [isBoundary, isBoundary, hbyte, List.length_append]
    have hlast : (front.length + (i + 1) == front.length + (ofText s).length) =
        (i + 1 == (ofText s).length) := by
      rw [Bool.eq_iff_iff, beq_iff_eq, beq_iff_eq]
      omega
    rw [hlast]
    rfl

/-- Behind other bytes the scan on text stops where it stops on that text alone. -/
theorem retreat_append {s : String} {i stop steps : Nat} (front : Bytes)
    (h : retreat (ofText s) i = some (stop, steps)) :
    retreat (front ++ ofText s) (front.length + i) = some (front.length + stop, steps) := by
  induction i generalizing stop steps with
  | zero =>
    cases h
    exact retreat_of_isBoundary (isBoundary_append front s 0)
  | succ i ih =>
    have hsame := isBoundary_append front s (i + 1)
    rw [retreat] at h
    -- both scans look at the same boundary and go on in the same way
    rw [← Nat.add_assoc] at hsame ⊢
    rw [retreat, hsame]
    split
    · next hi =>
      rw [if_pos hi] at h
      cases h
      rfl
    · next hi =>
      rw [if_neg hi] at h
      obtain ⟨⟨stop', steps'⟩, hback, heq⟩ := Option.map_eq_some_iff.1 h
      cases heq
      rw [ih hback]
      rfl

/-- The scan on the bytes of characters stops behind those that come first and fit, after three steps at
most. -/
theorem retreat_eq (cs : List Char) {i : Nat} (hi : i ≤ (String.ofList cs).utf8ByteSize) :
    ∃ steps, retreat (ofText (String.ofList cs)) i =
        some ((String.ofList (Text.firstWithin i cs)).utf8ByteSize, steps) ∧
      steps ≤ 3 ∧ (String.ofList (Text.firstWithin i cs)).utf8ByteSize + steps = i := by
  induction cs generalizing i with
  | nil =>
    obtain rfl : i = 0 := Nat.le_zero.1 hi
    exact ⟨0, rfl, Nat.zero_le 3, rfl⟩
  | cons c cs ih =>
    obtain ⟨first, more, hc, -, hmore⟩ := exists_utf8EncodeChar c
    have hsize : (String.utf8EncodeChar c).length = c.utf8Size := String.length_utf8EncodeChar c
    rw [Text.utf8ByteSize_cons] at hi
    rw [ofText_cons, Text.firstWithin]
    split
    -- the character fits: the scan stops somewhere behind it
    · next hfits =>
      obtain ⟨steps, hscan, hsteps, hsum⟩ := ih (i := i - c.utf8Size) (by omega)
      have hbehind := retreat_append (String.utf8EncodeChar c) hscan
      rw [hsize, Nat.add_sub_cancel' hfits] at hbehind
      refine ⟨steps, ?_, hsteps, ?_⟩
      · rw [hbehind, Text.utf8ByteSize_cons]
      · rw [Text.utf8ByteSize_cons]
        omega
    -- it does not fit: the scan goes back to its first byte, at most three steps away
    · next hlong =>
      have hfour := c.utf8Size_le_four
      rw [hc, List.length_cons] at hsize
      rw [hc]
      exact ⟨i, retreat_inside hmore (by omega), by omega, Nat.zero_add i⟩

end Bytes

namespace Text

/-! ## The longest beginning -/

/-- The longest beginning of a string that is made of whole characters and fits `budget` bytes. -/
structure LongestWithin (budget : Nat) (s p : String) : Prop where
  isPrefix : p.toList <+: s.toList
  fits : p.utf8ByteSize ≤ budget
  longest (q : String) (hq : q.toList <+: s.toList) (hfits : q.utf8ByteSize ≤ budget) :
    q.toList <+: p.toList

theorem firstWithin_prefix (budget : Nat) (cs : List Char) : firstWithin budget cs <+: cs := by
  induction cs generalizing budget with
  | nil => exact List.nil_prefix
  | cons c cs ih =>
    rw [firstWithin]
    split
    · exact List.cons_prefix_cons.2 ⟨rfl, ih _⟩
    · exact List.nil_prefix

/-- Any beginning that fits is a beginning of what is kept. -/
theorem prefix_firstWithin {budget : Nat} {cs ds : List Char} (h : ds <+: cs)
    (hfits : (String.ofList ds).utf8ByteSize ≤ budget) : ds <+: firstWithin budget cs := by
  induction cs generalizing budget ds with
  | nil => exact h
  | cons c cs ih =>
    cases ds with
    | nil => exact List.nil_prefix
    | cons d ds =>
      -- the first character is shared, and it fits since the beginning does
      obtain ⟨rfl, hds⟩ := List.cons_prefix_cons.1 h
      rw [utf8ByteSize_cons] at hfits
      rw [firstWithin, if_pos (by omega)]
      exact List.cons_prefix_cons.2 ⟨rfl, ih hds (by omega)⟩

theorem longestWithin_clip (s : String) : LongestWithin maxPayloadSize s (clip s).val where
  isPrefix := by
    rw [clip, String.toList_ofList]
    exact firstWithin_prefix _ _
  fits := (clip s).fits
  longest q hq hfits := by
    rw [clip, String.toList_ofList]
    exact prefix_firstWithin hq (by rwa [String.ofList_toList])

/-- A budget beyond the whole text is as good as the text's own size. -/
theorem firstWithin_min (budget : Nat) (cs : List Char) :
    firstWithin (min (String.ofList cs).utf8ByteSize budget) cs = firstWithin budget cs := by
  rcases Nat.le_total (String.ofList cs).utf8ByteSize budget with h | h
  · rw [Nat.min_eq_left h, firstWithin_eq_self h, firstWithin_eq_self (Nat.le_refl _)]
  · rw [Nat.min_eq_right h]

/-- The scan back from the last position that fits stops behind what clipping keeps. -/
theorem retreat_clip (s : String) :
    ∃ steps, (Bytes.ofText s).retreat (min s.utf8ByteSize maxPayloadSize) =
        some ((clip s).val.utf8ByteSize, steps) ∧
      steps ≤ 3 ∧ (clip s).val.utf8ByteSize + steps = min s.utf8ByteSize maxPayloadSize := by
  have hscan := Bytes.retreat_eq s.toList (i := min s.utf8ByteSize maxPayloadSize)
    (by rw [String.ofList_toList]; exact Nat.min_le_left _ _)
  have hkept := firstWithin_min maxPayloadSize s.toList
  rw [String.ofList_toList] at hscan hkept
  rwa [hkept] at hscan

/-- The bytes of a beginning are the first bytes of the text. -/
theorem take_ofText {s p : String} (h : p.toList <+: s.toList) :
    (Bytes.ofText s).take p.utf8ByteSize = Bytes.ofText p := by
  obtain ⟨rest, hrest⟩ := h
  have hs : s = p ++ String.ofList rest := by
    apply String.toList_inj.1
    rw [String.toList_append, String.toList_ofList, hrest]
  have hbytes : Bytes.ofText s = Bytes.ofText p ++ Bytes.ofText (String.ofList rest) := by
    rw [hs, Bytes.ofText, String.toByteArray_append, ByteArray.data_append, Array.toList_append]
    rfl
  rw [hbytes, ← Bytes.length_ofText p, List.take_left]

/-- A string that is a value is read back. -/
theorem decode_encode_text (t : Text) : decode (Cell.text t).encode = .ok (.text t) := by
  obtain ⟨d, hd, halike⟩ :=
    decode_encode (w := 0) (Cell.valid_of_no_refs (c := .text t) rfl trivial rfl) (by decide)
  cases halike
  exact hd

/-- **Clipping keeps the longest beginning that fits.** Of the beginnings that are made of whole characters and
fit a value, a clipped string is the longest: all of the string if that fits, and otherwise less than a value can
hold by three bytes at most. It is what lies before the position to which a scan for a boundary goes back from the
last byte that fits. The scan stops after three steps at most and never before the first byte. What is kept makes
a value which is read back from its encoding. -/
theorem clip_longest (s : String) :
    LongestWithin maxPayloadSize s (clip s).val ∧
    (s.utf8ByteSize ≤ maxPayloadSize → (clip s).val = s) ∧
    (maxPayloadSize < s.utf8ByteSize → maxPayloadSize - 3 ≤ (clip s).val.utf8ByteSize) ∧
    (∃ stop steps,
      (Bytes.ofText s).retreat (min s.utf8ByteSize maxPayloadSize) = some (stop, steps) ∧ steps ≤ 3 ∧
        (Bytes.ofText s).take stop = Bytes.ofText (clip s).val) ∧
    decode (Cell.text (clip s)).encode = .ok (.text (clip s)) := by
  have hlongest := longestWithin_clip s
  obtain ⟨steps, hscan, hsteps, hsum⟩ := retreat_clip s
  refine ⟨hlongest, fun hfits => ?_, fun hlong => ?_, ?_, decode_encode_text _⟩
  · exact congrArg val (clip_eq_self ⟨s, hfits⟩)
  · rw [Nat.min_eq_right (Nat.le_of_lt hlong)] at hsum
    omega
  · exact ⟨_, steps, hscan, hsteps, take_ofText hlongest.isPrefix⟩

/-- Letters with a character of three bytes behind them. -/
def lettersThenWide (n : Nat) : String := String.ofList (List.replicate n 'x' ++ ['€'])

theorem utf8ByteSize_letters (n : Nat) : (String.ofList (List.replicate n 'x')).utf8ByteSize = n := by
  have hletter : ∀ c ∈ List.replicate n 'x', c.utf8Size = 1 := by
    intro c hc
    rw [List.eq_of_mem_replicate hc]
    rfl
  rw [utf8ByteSize_ascii hletter, List.length_replicate]

theorem utf8ByteSize_lettersThenWide (n : Nat) : (lettersThenWide n).utf8ByteSize = n + 3 := by
  rw [lettersThenWide, String.ofList_append, String.utf8ByteSize_append, utf8ByteSize_letters]
  rfl

/-- What is kept if the letters fit and the wide character does not. -/
theorem LongestWithin.eq_letters {budget n : Nat} {p : String} (h : LongestWithin budget (lettersThenWide n) p)
    (hn : n ≤ budget) (hwide : budget < n + 3) : p = String.ofList (List.replicate n 'x') := by
  obtain ⟨hbefore, hfits, hlongest⟩ := h
  have hletters := hlongest (String.ofList (List.replicate n 'x'))
    (by rw [lettersThenWide, String.toList_ofList, String.toList_ofList]; exact List.prefix_append _ _)
    (by rwa [utf8ByteSize_letters])
  rw [lettersThenWide, String.toList_ofList, List.prefix_concat_iff] at hbefore
  apply String.toList_inj.1
  -- either the wide character is in, which is too long, or there are letters only
  rcases hbefore with hall | hbefore
  · have hsame : p = lettersThenWide n := by
      rw [← String.ofList_toList (s := p), hall, lettersThenWide]
    rw [hsame, utf8ByteSize_lettersThenWide] at hfits
    omega
  · rw [String.toList_ofList] at hletters ⊢
    exact hbefore.eq_of_length_le hletters.length_le

/-- Nothing is kept of a character that straddles the limit, and everything before it. -/
theorem clip_longest_straddling :
    maxPayloadSize < (lettersThenWide 4095).utf8ByteSize ∧
      maxPayloadSize - 3 ≤ (clip (lettersThenWide 4095)).val.utf8ByteSize ∧
      (clip (lettersThenWide 4095)).val = String.ofList (List.replicate 4095 'x') := by
  have hlong : maxPayloadSize < (lettersThenWide 4095).utf8ByteSize := by
    rw [utf8ByteSize_lettersThenWide]
    decide
  obtain ⟨hlongest, -, hmost, -, -⟩ := clip_longest (lettersThenWide 4095)
  exact ⟨hlong, hmost hlong, hlongest.eq_letters (by decide) (by decide)⟩

end Text

end CellMachine
