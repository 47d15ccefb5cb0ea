import CellMachine.Proofs.Codec.Cut
import CellMachine.Proofs.Codec.Reading

/-!
# Encodings that are cut short or followed by more

The decoder goes through its bytes from front to back, and whatever it finds wrong with them it finds out
before it looks any further. Two readers of which the second may go deeper are compared on a byte string and
on a longer one: the second *outreads* the first if the first either runs out of bytes, or ends on the shorter
string as the second does on the longer one. This is kept by sequencing, so that it holds of the reader of
cells at any number of levels (`Reader.outreads_cell`).

A byte string that is accepted is therefore the beginning of no other one (`decode_exact_end`): of its own
beginnings the decoder says that they are truncated, and of what goes on behind it how many bytes are left.
-/

namespace CellMachine

namespace Reader

variable {α β : Type}

/-- Where the first reader does not run out of bytes, the second ends likewise on a longer byte string, and
leaves the further bytes in place. -/
def Outreads (r r' : Reader α) : Prop :=
  ∀ bs more, r bs = .error (.format .truncated) ∨ r' (bs ++ more) = (r bs).map fun x => (x.1, x.2 ++ more)

/-! ## Rules -/

theorem outreads_pure (a : α) : Outreads (pure a) (pure a) := fun _ _ => .inr rfl

/-- A reader that gives up does so whatever follows. -/
theorem outreads_fail (e : FormatError) : Outreads (fail e : Reader α) (fail e) := fun _ _ => .inr rfl

/-- What can be built from what has been read does not depend on what follows. -/
theorem outreads_ofData (x : Except DataError α) : Outreads (ofData x) (ofData x) := by
  intro bs more
  right
  cases x <;> rfl

/-- If the first reader is cut short, so are both together. -/
theorem Outreads.bind {r r' : Reader α} {f f' : α → Reader β} (hr : Outreads r r')
    (hf : ∀ a, Outreads (f a) (f' a)) : Outreads (r >>= f) (r' >>= f') := by
  intro bs more
  rw [bind_apply, bind_apply]
  -- the first reader is cut short, or it leaves what follows to the second
  rcases hr bs more with hcut | hmore
  · left
    rw [hcut]
    rfl
  · rw [hmore]
    cases r bs with
    | error e => exact .inr rfl
    | ok x => exact hf x.1 x.2 more

theorem Outreads.ite {c : Prop} [Decidable c] {r r' s s' : Reader α} (hr : Outreads r r')
    (hs : Outreads s s') : Outreads (if c then r else s) (if c then r' else s') := by
  by_cases h : c
  · rw [if_pos h, if_pos h]
    exact hr
  · rw [if_neg h, if_neg h]
    exact hs

/-- A steady reader outreads itself. -/
theorem outreads_mapError {p : Bytes → Except FormatError (α × Bytes)}
    (h : Steady FormatError.truncated p) :
    Outreads (fun bs => (p bs).mapError .format) (fun bs => (p bs).mapError .format) := by
  intro bs more
  dsimp only
  rcases h bs more with hcut | hmore
  · left
    rw [hcut]
    rfl
  · right
    rw [hmore]
    cases p bs <;> rfl

/-! ## Bytes, numbers and texts -/

theorem outreads_byte : Outreads byte byte := by
  intro bs more
  cases bs with
  | nil => exact .inl rfl
  | cons b bs => exact .inr rfl

theorem outreads_take (n : Nat) : Outreads (take n) (take n) := by
  intro bs more
  unfold take
  by_cases hle : n ≤ bs.length
  · right
    rw [if_pos hle, if_pos (by rw [List.length_append]; omega), List.take_append_of_le_length hle,
      List.drop_append_of_le_length hle]
    rfl
  · exact .inl (if_neg hle)

theorem outreads_hash : Outreads hash hash := by
  intro bs more
  unfold hash
  by_cases hle : hashSize ≤ bs.length
  · right
    rw [dif_pos hle, dif_pos (by rw [List.length_append]; omega)]
    simp only [List.take_append_of_le_length hle, List.drop_append_of_le_length hle]
    rfl
  · exact .inl (dif_neg hle)

theorem outreads_long : Outreads long long := outreads_mapError Vlc.steady_read

theorem outreads_count (max : Nat) : Outreads (count max) (count max) := by
  refine outreads_mapError (Vlc.steady_read.bind fun x rest more => ?_)
  dsimp only
  split
  · rfl
  · split <;> rfl

theorem outreads_text (n : Nat) : Outreads (text n) (text n) := by
  refine (outreads_take n).bind fun bs => ?_
  cases bs.toText? with
  | none => exact outreads_fail _
  | some s => exact outreads_pure s

theorem outreads_name : Outreads name name :=
  outreads_byte.bind fun _ => (outreads_fail _).ite (outreads_text _)

theorem outreads_nameOf (kind : String) :
    Outreads (do ofData (Name.ofString kind (← name))) (do ofData (Name.ofString kind (← name))) :=
  outreads_name.bind fun _ => outreads_ofData _

theorem outreads_symbol : Outreads symbol symbol :=
  outreads_byte.bind fun _ => (outreads_nameOf "symbol").ite (outreads_fail _)

theorem outreads_closureName : Outreads closureName closureName := by
  refine outreads_byte.bind fun _ => (outreads_pure none).ite (Outreads.ite ?_ (outreads_fail _))
  exact outreads_name.bind fun _ => (outreads_ofData _).bind fun n => outreads_pure (some n)

theorem outreads_stringCell : Outreads stringCell stringCell :=
  (outreads_count _).bind fun n => (outreads_text n).bind fun _ =>
    (outreads_ofData _).bind fun _ => outreads_pure _

theorem outreads_blobCell : Outreads blobCell blobCell :=
  (outreads_count _).bind fun n => (outreads_take n).bind fun _ =>
    (outreads_ofData _).bind fun _ => outreads_pure _

theorem outreads_coreCell : Outreads coreCell coreCell := by
  refine outreads_byte.bind fun id => ?_
  cases CoreFn.ofId? id with
  | none => exact outreads_fail _
  | some f => exact outreads_pure _

/-! ## Parts -/

section Parts
variable {readCell readCell' : Reader Cell}

/-- Which kind of part comes next shows from the first byte, so that nothing can be said before it is there. -/
theorem outreads_child (hnil : readCell [] = .error (.format .truncated))
    (h : Outreads readCell readCell') : Outreads (child readCell) (child readCell') := by
  intro bs more
  cases bs with
  | nil =>
    left
    rw [child_apply, if_neg (by simp), bind_apply, hnil]
    rfl
  | cons b bs =>
    rw [child_apply, child_apply, List.cons_append, List.head?_cons, List.head?_cons]
    by_cases hb : some b = some refTag
    · rw [if_pos hb, if_pos hb]
      exact (outreads_byte.bind fun _ => outreads_hash.bind fun _ => outreads_pure _) (b :: bs) more
    · rw [if_neg hb, if_neg hb]
      exact (h.bind fun _ => (outreads_pure _).ite (outreads_fail _)) (b :: bs) more

variable (h : Outreads (child readCell) (child readCell'))
include h

theorem outreads_children (n : Nat) : Outreads (children readCell n) (children readCell' n) := by
  induction n with
  | zero => exact outreads_pure []
  | succ n ih => exact h.bind fun _ => ih.bind fun _ => outreads_pure _

/-- The count decides which parts are read, so both readers read the same. -/
theorem outreads_vec : Outreads (vec readCell) (vec readCell') := by
  refine (outreads_count _).bind fun n => Outreads.ite ?_ ?_
  · exact (outreads_children h _).bind fun _ => outreads_pure _
  · refine (outreads_children h _).bind fun _ => Outreads.ite ?_ (outreads_pure _)
    exact h.bind fun _ => outreads_pure _

/-- Each key is compared with the one before it, which is the same for both. -/
theorem outreads_entries (n : Nat) (last : Option Hash) :
    Outreads (entries readCell n last) (entries readCell' n last) := by
  induction n generalizing last with
  | zero => exact outreads_pure []
  | succ n ih =>
    refine h.bind fun k => (outreads_fail _).ite ?_
    exact h.bind fun _ => (ih _).bind fun _ => outreads_pure _

theorem outreads_map : Outreads (map readCell) (map readCell') :=
  (outreads_count _).bind fun n => (outreads_entries h n none).bind fun _ => outreads_pure _

theorem outreads_record (format : RecordFormat) :
    Outreads (record readCell format) (record readCell' format) := by
  refine (outreads_count _).bind fun n => Outreads.ite ?_ (outreads_fail _)
  exact (outreads_children h n).bind fun _ => outreads_pure _

/-- The first byte decides which parts an op has. -/
theorem outreads_op : Outreads (op readCell) (op readCell') := by
  refine outreads_byte.bind fun type => ?_
  -- ops differ in their number of parts only
  have hone : ∀ f : Ref → Op,
      Outreads (do pure (f (← child readCell))) (do pure (f (← child readCell'))) :=
    fun f => h.bind fun _ => outreads_pure _
  have htwo : ∀ f : Ref → Ref → Op,
      Outreads (do let r ← child readCell; pure (f r (← child readCell)))
        (do let r ← child readCell'; pure (f r (← child readCell'))) :=
    fun f => h.bind fun _ => hone _
  split
  · exact hone _
  · exact hone _
  · exact hone _
  · exact outreads_symbol.bind fun _ => hone _
  · exact hone _
  · exact htwo _
  · exact htwo _
  · exact outreads_symbol.bind fun _ => outreads_pure _
  · exact outreads_fail _

theorem outreads_closure : Outreads (closure readCell) (closure readCell') :=
  h.bind fun _ => h.bind fun _ => h.bind fun _ => outreads_closureName.bind fun _ => outreads_pure _

theorem outreads_body (tag : UInt8) : Outreads (body readCell tag) (body readCell' tag) := by
  unfold body
  split
  -- nil and the two Booleans have nothing behind the tag
  · exact outreads_pure _
  · exact outreads_pure _
  · exact outreads_pure _
  · exact outreads_long.bind fun _ => outreads_pure _
  · exact outreads_stringCell
  · exact outreads_blobCell
  · exact outreads_name.bind fun _ => (outreads_ofData _).bind fun _ => outreads_pure _
  · exact outreads_name.bind fun _ => (outreads_ofData _).bind fun _ => outreads_pure _
  · exact (outreads_vec h).bind fun _ => outreads_pure _
  · exact outreads_map h
  · exact (outreads_op h).bind fun _ => outreads_pure _
  · exact outreads_coreCell
  · exact (outreads_closure h).bind fun _ => outreads_pure _
  · exact outreads_fail _
  -- the remaining tags are those of records, or of nothing
  · split
    · exact outreads_record h _
    · exact outreads_fail _

/-- A cell that has been read whole is checked alike. -/
theorem outreads_cellWith : Outreads (cellWith readCell) (cellWith readCell') := by
  refine outreads_byte.bind fun tag => (outreads_body h tag).bind fun c => ?_
  cases c.check with
  | error e => exact outreads_fail e
  | ok u => exact outreads_pure c

end Parts

/-- Without a byte there is no cell, however many levels there are. -/
theorem cell_nil (levels : Nat) : cell levels [] = .error (.format .truncated) := by
  cases levels <;> rfl

/-- More levels and more bytes make no difference to a reader of cells that has had enough of both. -/
theorem outreads_cell {levels levels' : Nat} (hle : levels ≤ levels') :
    Outreads (cell levels) (cell levels') := by
  induction levels generalizing levels' with
  | zero => exact fun _ _ => .inl rfl
  | succ levels ih =>
    cases levels' with
    | zero => exact absurd hle (Nat.not_succ_le_zero levels)
    | succ levels' =>
      exact outreads_cellWith (outreads_child (cell_nil levels) (ih (Nat.le_of_succ_le_succ hle)))

end Reader

/-! ## Whole byte strings -/

/-- A proper beginning of what is accepted is reported as cut short. -/
theorem decode_cut {bs more : Bytes} {c : Cell} (h : decode (bs ++ more) = .ok c)
    (hmore : more ≠ []) : decode bs = .error (.format .truncated) := by
  obtain ⟨hlen, hhead, hread⟩ := decode_eq_ok h
  rw [List.length_append] at hlen hread
  have hcut : Reader.cell bs.length bs = .error (.format .truncated) := by
    refine (Reader.outreads_cell (Nat.le_add_right bs.length more.length) bs more).resolve_right
      fun hsame => ?_
    rw [hread] at hsame
    cases hshort : Reader.cell bs.length bs with
    | error e =>
      rw [hshort] at hsame
      cases hsame
    | ok x =>
      -- whatever was read from the beginning would leave the bytes behind it
      rw [hshort] at hsame
      have hrest : [] = x.2 ++ more := congrArg Prod.snd (Except.ok.inj hsame)
      exact hmore (List.append_eq_nil_iff.1 hrest.symm).2
  have hbare : bs.head? ≠ some refTag := by
    intro hbs
    rw [List.head?_append, hbs] at hhead
    exact hhead rfl
  rw [decode, if_neg (by omega), if_neg hbare, hcut]

/-- Bytes behind what is accepted are left over. -/
theorem decode_append {bs more : Bytes} {c : Cell} (h : decode bs = .ok c) (hmore : more ≠ [])
    (hfits : (bs ++ more).length ≤ maxEncoding) :
    decode (bs ++ more) = .error (.format (.trailingBytes more.length)) := by
  obtain ⟨-, hhead, hread⟩ := decode_eq_ok h
  have hmoreRead : Reader.cell (bs ++ more).length (bs ++ more) = .ok (c, more) := by
    have hle : bs.length ≤ (bs ++ more).length := by
      rw [List.length_append]
      omega
    -- the longer reader cannot run out of bytes where the shorter one did not
    rcases Reader.outreads_cell hle bs more with hcut | hsame
    · rw [hread] at hcut
      cases hcut
    · rw [hsame, hread]
      rfl
  have hbs : bs ≠ [] := by
    rintro rfl
    cases h
  have hbare : (bs ++ more).head? ≠ some refTag := by
    rwa [List.head?_append_of_ne_nil bs hbs]
  rw [decode, if_neg (Nat.not_lt.2 hfits), if_neg hbare, hmoreRead]
  cases more with
  | nil => exact absurd rfl hmore
  | cons b more => rfl

/-- What the decoder accepts ends exactly where it does. Of every proper beginning of an accepted byte string
the decoder says that it is truncated, and of every continuation that keeps within the limit how many bytes are
left over; so that no accepted byte string is the beginning of another one. -/
theorem decode_exact_end {bs : Bytes} {c : Cell} (h : decode bs = .ok c) :
    (∀ n < bs.length, decode (bs.take n) = .error (.format .truncated)) ∧
      (∀ more, more ≠ [] → (bs ++ more).length ≤ maxEncoding →
        decode (bs ++ more) = .error (.format (.trailingBytes more.length))) ∧
        ∀ bs' c', decode bs' = .ok c' → bs <+: bs' → bs' = bs := by
  refine ⟨fun n hn => ?_, fun more hmore hfits => decode_append h hmore hfits, ?_⟩
  · rw [← List.take_append_drop n bs] at h
    refine decode_cut h fun hnil => ?_
    have := List.drop_eq_nil_iff.1 hnil
    omega
  · rintro _ c' h' ⟨more, rfl⟩
    cases more with
    | nil => exact List.append_nil bs
    | cons b more =>
      rw [decode_cut h' (List.cons_ne_nil b more)] at h
      cases h

/-- A vector with a vector inside, cut in the middle of its number and followed by another number. -/
theorem decode_exact_end_nested :
    ∃ c, decode [0x80, 0x02, 0x80, 0x01, 0x09, 0x05, 0x00] = .ok c ∧
      decode [0x80, 0x02, 0x80, 0x01, 0x09] = .error (.format .truncated) ∧
        decode [0x80, 0x02, 0x80, 0x01, 0x09, 0x05, 0x00, 0x09, 0x05] =
          .error (.format (.trailingBytes 2)) := by
  have h : ∃ c, decode [0x80, 0x02, 0x80, 0x01, 0x09, 0x05, 0x00] = .ok c := ⟨_, rfl⟩
  obtain ⟨c, hc⟩ := h
  obtain ⟨hcut, hmore, -⟩ := decode_exact_end hc
  exact ⟨c, hc, hcut 5 (by decide), hmore [0x09, 0x05] (by decide) (by decide)⟩

end CellMachine
