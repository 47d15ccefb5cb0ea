import CellMachine.Proofs.Cell.Alike
import CellMachine.Proofs.Codec.Reading

/-!
# What has been written is read

The decoder accepts the encoding of every valid cell whose counts the format can write. What comes
back is the same cell, held differently: a part that was written inside its parent is held there
again, and a part that was written as a hash is missing.

That a reader takes certain bytes off the front of any byte string and yields a certain value is
`Reader.Takes`, which is kept by sequencing. The lemmas about the single readers mirror those on what
is read; the one about cells goes by induction over held parts.

Main statement: `decode_encode`.
-/

namespace CellMachine

namespace Reader

variable {α β : Type}

/-- The reader takes these bytes off the front of any byte string and yields `a` for them. -/
def Takes (r : Reader α) (bs : Bytes) (a : α) : Prop := ∀ rest, r (bs ++ rest) = .ok (a, rest)

theorem takes_pure (a : α) : Takes (pure a) [] a := fun _ => rfl

theorem Takes.bind {r : Reader α} {f : α → Reader β} {bs more : Bytes} {a : α} {b : β}
    (hr : Takes r bs a) (hf : Takes (f a) more b) : Takes (r >>= f) (bs ++ more) b := by
  intro rest
  rw [bind_apply, List.append_assoc, hr, ok_bind]
  exact hf rest

/-- A reader behind which nothing is read. -/
theorem Takes.bind_pure {r : Reader α} {f : α → Reader β} {bs : Bytes} {a : α} {b : β}
    (hr : Takes r bs a) (hf : Takes (f a) [] b) : Takes (r >>= f) bs b := by
  have := hr.bind hf
  rwa [List.append_nil] at this

theorem takes_ofData {x : Except DataError α} {a : α} (hx : x = .ok a) :
    Takes (ofData x) [] a := by
  rw [hx]
  exact takes_pure a

/-! ## Bytes, numbers and texts -/

theorem takes_byte (b : UInt8) : Takes byte [b] b := fun _ => rfl

theorem takes_take (bs : Bytes) : Takes (take bs.length) bs bs := by
  intro rest
  rw [take, if_pos (by rw [List.length_append]; omega), List.take_left, List.drop_left]

/-- A hash is read from its bytes, and nothing else has them. -/
theorem takes_hash (h : Hash) : Takes hash h.bytes h := by
  intro rest
  have hlen : hashSize ≤ (h.bytes ++ rest).length := by
    rw [List.length_append, h.size_eq]
    omega
  -- the bytes taken are exactly the hash's, and these determine it
  have htake : (h.bytes ++ rest).take hashSize = h.bytes := List.take_left' h.size_eq
  have hdrop : (h.bytes ++ rest).drop hashSize = rest := List.drop_left' h.size_eq
  rw [hash, dif_pos hlen, hdrop]
  exact congrArg (fun x => Except.ok (x, rest)) (Hash.bytes_injective htake)

theorem takes_long (x : Int64) : Takes long (Vlc.encode x) x := by
  intro rest
  rw [long, Vlc.read_encode]
  rfl

/-- A count that is within the limit is read from its shortest spelling. -/
theorem takes_count {n max : Nat} (hmax : n ≤ max) (h : n < 2 ^ 63) :
    Takes (count max) (Vlc.encodeNat n) n := by
  intro rest
  rw [count, Vlc.readCount_encodeNat hmax h]
  rfl

theorem takes_text (s : String) : Takes (text s.utf8ByteSize) (Bytes.ofText s) s := by
  refine (takes_take (Bytes.ofText s)).bind_pure ?_
  rw [Bytes.toText?_ofText]
  exact takes_pure s

/-- The length of a name fits in the byte before it. -/
theorem takes_name (n : Name) :
    Takes name (UInt8.ofNat n.val.utf8ByteSize :: Bytes.ofText n.val) n.val := by
  -- names are at most as long as one byte can say
  have hsize : (UInt8.ofNat n.val.utf8ByteSize).toNat = n.val.utf8ByteSize := by
    have := n.fits
    rw [UInt8.toNat_ofNat', Nat.mod_eq_of_lt]
    simp only [maxNameSize] at this
    omega
  have hpos := n.nonempty
  have hfits := n.fits
  show Takes name ([_] ++ Bytes.ofText n.val) n.val
  refine (takes_byte _).bind ?_
  rw [hsize, if_neg (by omega)]
  exact takes_text n.val

/-- A name that was written is one that may be read. -/
theorem takes_nameOf (kind : String) (n : Name) :
    Takes (do ofData (Name.ofString kind (← name)))
      (UInt8.ofNat n.val.utf8ByteSize :: Bytes.ofText n.val) n := by
  refine (takes_name n).bind_pure (takes_ofData ?_)
  rw [Name.ofString, Name.ofString?_val]

theorem takes_symbol (n : Name) : Takes symbol (encodeName symbolTag n) n := by
  refine (takes_byte symbolTag).bind ?_
  rw [if_pos rfl]
  exact takes_nameOf "symbol" n

/-- The name of a closure is read, and so is its absence. -/
theorem takes_closureName (name : Option Name) :
    Takes closureName (encodeClosureName name) name := by
  cases name with
  | none => exact (takes_byte absentTag).bind_pure (takes_pure none)
  | some n =>
    refine (takes_byte symbolTag).bind ?_
    rw [if_neg (by decide), if_pos rfl, ← bind_assoc]
    exact (takes_nameOf "symbol" n).bind_pure (takes_pure (some n))

end Reader

/-! ## Parts -/

/-- A reference and what it is read back as: one of the same hash, which holds the same content if
it stood inside its parent, and holds nothing if it stood there as a hash. -/
structure Ref.Reread (r r' : Ref) : Prop where
  hash : r'.hash = r.hash
  embedded : r'.isEmbedded = r.isEmbedded
  held : r.isEmbedded = true →
    ∃ c d, r.held? = some c ∧ r'.held? = some d ∧ d.encode = c.encode
  missing : r.isEmbedded = false → r' = .remote r.hash

/-- A cell as the decoder makes it: at any depth, what it holds is embedded. -/
inductive Cell.Written : Cell → Prop where
  /-- The references themselves hold nothing else, nor do the cells that they hold. -/
  | intro {c : Cell} (refs : ∀ r ∈ c.refs, r.Written)
      (parts : ∀ r ∈ c.refs, ∀ d, r.held? = some d → Cell.Written d) : Cell.Written c

theorem Cell.Written.refs {c : Cell} (h : c.Written) {r : Ref} (hr : r ∈ c.refs) : r.Written := by
  cases h with
  | intro refs _ => exact refs r hr

/-- What is held in a written cell is written itself. -/
theorem Cell.Written.part {c d : Cell} (h : c.Written) {r : Ref} (hr : r ∈ c.refs)
    (hd : r.held? = some d) : d.Written := by
  cases h with
  | intro _ parts => exact parts r hr d hd

/-- A part that is not written in place has left only its hash behind. -/
theorem Ref.Written.exists_remote {r : Ref} (h : r.Written) (hemb : r.isEmbedded = false) :
    ∃ hash, r = .remote hash := by
  cases r with
  | remote hash => exact ⟨hash, rfl⟩
  | embedded => cases hemb
  | direct _ _ c | cached _ _ c => exact absurd (h c rfl) Bool.false_ne_true

/-- A reference that has been read back, and is valid again. -/
def Ref.Kept (r r' : Ref) : Prop :=
  r.Reread r' ∧ r'.Valid 0 ∧ ∀ d, r'.held? = some d → d.Written

/-- What has been read holds only what was written in place. -/
theorem Ref.Reread.written {r r' : Ref} (h : r.Reread r') : r'.Written := by
  intro d hd
  cases hemb : r.isEmbedded with
  | false =>
    rw [h.missing hemb] at hd
    cases hd
  | true => rw [h.embedded, hemb]

/-- What has been read back holds what is embedded in it. -/
theorem Cell.Alike.written {c d : Cell} (h : c.Alike Ref.Kept d) : d.Written := by
  have hrefs : ∀ r' ∈ d.refs, ∃ r : Ref, r.Kept r' := fun r' hr' =>
    let ⟨r, _, hr⟩ := exists_of_forall₂_right h.refs hr'
    ⟨r, hr⟩
  refine .intro (fun r' hr' => ?_) fun r' hr' e he => ?_
  · obtain ⟨r, hr⟩ := hrefs r' hr'
    exact hr.1.written
  · obtain ⟨r, hr⟩ := hrefs r' hr'
    exact hr.2.2 e he

/-- No cell begins with the tag of a reference, so that a reader can tell parts apart by their first
byte. -/
theorem Cell.tag_ne_refTag (c : Cell) : c.tag ≠ refTag := by
  cases c with
  | bool b => cases b <;> decide
  | record format fields =>
    cases format
    exact (by decide : RecordFormat.result.tag ≠ refTag)
  | _ =>
    rw [tag]
    decide

namespace Reader

section Parts
variable {readCell : Reader Cell}

/-- A reference whose bytes the reader of parts takes for a kept reference. -/
def Readable (readCell : Reader Cell) (r : Ref) : Prop :=
  ∃ r', Takes (child readCell) r.encode r' ∧ r.Kept r'

/-- A part that was written as a hash is read as one. -/
theorem takes_child_remote (readCell : Reader Cell) (h : Hash) :
    Takes (child readCell) (refTag :: h.bytes) (.remote h) := by
  intro rest
  have hhead : (refTag :: h.bytes ++ rest).head? = some refTag := rfl
  rw [child_apply, if_pos hhead]
  have hread : Takes (do let _ ← byte; pure (Ref.remote (← hash))) ([refTag] ++ h.bytes)
      (.remote h) :=
    (takes_byte refTag).bind ((takes_hash h).bind_pure (takes_pure _))
  exact hread rest

/-- A part that was written in place is read again, and held by a new parent. -/
theorem takes_child_inline {c d : Cell} (h : Takes readCell c.encode d) (hd : d.isEmbeddable) :
    Takes (child readCell) c.encode (.of d) := by
  intro rest
  have hhead : (c.encode ++ rest).head? ≠ some refTag := by
    rw [List.head?_append, c.head?_encode]
    exact fun h => c.tag_ne_refTag (Option.some.inj h)
  rw [child_apply, if_neg hhead]
  have hread : Takes (do
      let c ← readCell
      if c.isEmbeddable then pure (Ref.of c) else fail (.nonCanonical .oversizedChild))
      c.encode (Ref.of d) := by
    refine h.bind_pure ?_
    rw [if_pos hd]
    exact takes_pure _
  exact hread rest

/-- A valid reference can be read back if the cells that it writes inside its parent can. -/
theorem readable_of_valid {w : Nat} {r : Ref} (hyields : Yields readCell Canonical)
    (hr : r.Valid w)
    (h : ∀ c, r.held? = some c → c.encode.length ≤ r.encode.length →
      ∃ d, Takes readCell c.encode d ∧ d.Written) : Readable readCell r := by
  cases r with
  | embedded hash loaded c =>
    obtain ⟨d, hd, hwritten⟩ := h c rfl (Nat.le_of_eq (by rw [Ref.encode]))
    -- whatever the reader makes of these bytes has them as its encoding
    obtain ⟨taken, hbytes, rfl, hvalid⟩ := hyields.ok _ _ _ (hd [])
    have hsame : d.encode = c.encode := by
      rw [List.append_nil, List.append_nil] at hbytes
      exact hbytes.symm
    obtain ⟨hdescribes, -⟩ := hr c rfl
    have hsmall : d.isEmbeddable = true := by
      rw [Cell.isEmbeddable, hsame]
      exact hdescribes.embedded.symm
    have hlen : d.encode.length ≤ maxEmbedded := of_decide_eq_true hsmall
    have hhash : d.hash = hash := by
      rw [Cell.hash, hsame]
      exact hdescribes.hash.symm
    refine ⟨.of d, by rw [Ref.encode]; exact takes_child_inline hd hsmall, ⟨?_, ?_, ?_, ?_⟩, ?_, ?_⟩
    · rw [Ref.hash_of]
      exact hhash
    · rw [Ref.isEmbedded_of]
      exact hsmall
    · exact fun _ => ⟨c, d, rfl, Ref.held?_of d, hsame⟩
    · exact fun hf => by cases hf
    · exact Ref.valid_of (hvalid (Nat.le_trans hlen (by decide)))
    · intro e he
      rw [Ref.held?_of] at he
      cases he
      exact hwritten
  | direct hash _ _ | cached hash _ _ | remote hash =>
    refine ⟨.remote hash, ?_, ⟨rfl, rfl, ?_, fun _ => rfl⟩, Ref.valid_remote 0 hash, ?_⟩
    · rw [Ref.encode]
      exact takes_child_remote readCell hash
    · exact fun hf => by cases hf
    · exact fun e he => by cases he

theorem takes_children {rs : List Ref} (h : ∀ r ∈ rs, Readable readCell r) :
    ∃ rs', Takes (children readCell rs.length) (encodeRefs rs) rs' ∧
      List.Forall₂ Ref.Kept rs rs' := by
  induction rs with
  | nil => exact ⟨[], takes_pure [], .nil⟩
  | cons r rs ih =>
    obtain ⟨r', hr, hkept⟩ := h r List.mem_cons_self
    obtain ⟨rs', hrs, hall⟩ := ih fun s hs => h s (List.mem_cons_of_mem r hs)
    refine ⟨r' :: rs', ?_, .cons hkept hall⟩
    rw [encodeRefs]
    exact hr.bind (hrs.bind_pure (takes_pure _))

/-- The count tells the reader which parts to expect, and a shaped vector has exactly these. -/
theorem takes_vec {v : Vec} (hshaped : v.Shaped) (hcount : v.count < 2 ^ 63)
    (h : ∀ r ∈ v.refs, Readable readCell r) :
    ∃ v', Takes (vec readCell) v.encode v' ∧ v.Alike Ref.Kept v' := by
  have hmax : v.count ≤ maxCount := Nat.le_pred_of_lt hcount
  cases v with
  | chunk items =>
    have hsmall : items.length ≤ chunkSize := hshaped
    obtain ⟨items', hitems, hall⟩ := takes_children h
    refine ⟨.chunk items', ?_, .chunk hall⟩
    -- the reader computes from the count what the encoder wrote for this form
    rw [Vec.encode]
    refine (takes_count hmax hcount).bind ?_
    have htree : ¬ isTreeCount items.length = true := by
      rw [isTreeCount_iff]
      omega
    have htail := tailLength_of_le hsmall
    rw [Vec.count, if_neg htree, htail]
    refine hitems.bind_pure ?_
    rw [if_neg (Nat.lt_irrefl _)]
    exact takes_pure _
  | tailed n front items =>
    obtain ⟨htree, htail, hlen, -⟩ := Vec.shaped_tailed_iff.1 hshaped
    obtain ⟨items', hitems, hall⟩ :=
      takes_children fun r hr => h r (List.mem_append_left [front] hr)
    obtain ⟨front', hfront, hkept⟩ := h front (List.mem_append_right items List.mem_cons_self)
    refine ⟨.tailed n front' items', ?_, .tailed hkept hall⟩
    rw [Vec.encode]
    refine (takes_count hmax hcount).bind ?_
    rw [Vec.count, if_neg (by rw [htree]; exact Bool.false_ne_true), ← hlen]
    refine hitems.bind ?_
    rw [if_pos (by rw [hlen]; exact htail)]
    exact hfront.bind_pure (takes_pure _)
  | tree n children =>
    obtain ⟨htree, hlen, -⟩ := Vec.shaped_tree_iff.1 hshaped
    obtain ⟨children', hchildren, hall⟩ := takes_children h
    refine ⟨.tree n children', ?_, .tree hall⟩
    rw [Vec.encode]
    refine (takes_count hmax hcount).bind ?_
    rw [Vec.count, if_pos htree, ← hlen]
    exact hchildren.bind_pure (takes_pure _)

/-- Entries that increase from the key hash `last` on are read back in the same order. -/
theorem takes_entries {es : List (Ref × Ref)} {last : Option Hash} (hinc : Increasing es)
    (hlast : ∀ hash ∈ last, ∀ e ∈ es.head?, hash < e.1.hash)
    (h : ∀ e ∈ es, Readable readCell e.1 ∧ Readable readCell e.2) :
    ∃ es', Takes (entries readCell es.length last) (encodeEntries es) es' ∧
      List.Forall₂ (fun e e' => e.1.Kept e'.1 ∧ e.2.Kept e'.2) es es' := by
  induction es generalizing last with
  | nil => exact ⟨[], takes_pure [], .nil⟩
  | cons e es ih =>
    obtain ⟨k, v⟩ := e
    obtain ⟨⟨k', hk, hkey⟩, v', hv, hvalue⟩ := h (k, v) List.mem_cons_self
    obtain ⟨habove, hinc⟩ := List.pairwise_cons.1 hinc
    have hnext : ∀ hash ∈ some k'.hash, ∀ e ∈ es.head?, hash < e.1.hash := by
      intro hash hmem e he
      cases hmem
      rw [hkey.1.hash]
      exact habove e (List.mem_of_mem_head? he)
    obtain ⟨es', hes, hall⟩ := ih hinc hnext fun e he => h e (List.mem_cons_of_mem _ he)
    refine ⟨(k', v') :: es', ?_, .cons ⟨hkey, hvalue⟩ hall⟩
    -- the reader's comparison passes: the keys increase, and reading keeps their hashes
    have horder : ¬ (last.any fun h => !decide (h < k'.hash)) = true := by
      cases last with
      | none => exact Bool.false_ne_true
      | some hash =>
        have := hlast hash rfl (k, v) rfl
        rw [← hkey.1.hash] at this
        simp [this]
    rw [encodeEntries]
    refine hk.bind ?_
    rw [if_neg horder]
    exact hv.bind (hes.bind_pure (takes_pure _))

/-- A map that fits has no more associations than a count may say. -/
theorem takes_map {es : List (Ref × Ref)} (hshaped : (Cell.map es).Shaped)
    (h : ∀ r ∈ (Cell.map es).refs, Readable readCell r) :
    ∃ d, Takes (map readCell) (Vlc.encodeNat es.length ++ encodeEntries es) d ∧
      (Cell.map es).Alike Ref.Kept d := by
  obtain ⟨hinc, hfits⟩ := hshaped
  -- each association takes room in an encoding that is within the limit
  have hcount : es.length ≤ maxEncoding := by
    have := length_le_length_encodeEntries es
    rw [Cell.encode, List.length_cons, List.length_append] at hfits
    omega
  have hread : ∀ e ∈ es, Readable readCell e.1 ∧ Readable readCell e.2 := fun e he =>
    ⟨h _ (Cell.key_mem_refs he), h _ (Cell.value_mem_refs he)⟩
  have hnone : ∀ hash ∈ (none : Option Hash), ∀ e ∈ es.head?, hash < e.1.hash :=
    fun _ hmem => by cases hmem
  obtain ⟨es', hes, hall⟩ := takes_entries hinc hnone hread
  refine ⟨.map es', ?_, .map hall⟩
  refine (takes_count hcount (Nat.lt_of_le_of_lt hcount (by decide))).bind ?_
  exact hes.bind_pure (takes_pure _)

/-- A record has as many fields as its format wants. -/
theorem takes_record {format : RecordFormat} {fields : List Ref}
    (harity : fields.length = format.arity) (h : ∀ r ∈ fields, Readable readCell r) :
    ∃ d, Takes (record readCell format) (Vlc.encodeNat fields.length ++ encodeRefs fields) d ∧
      (Cell.record format fields).Alike Ref.Kept d := by
  obtain ⟨fields', hfields, hall⟩ := takes_children h
  have hfour : format.arity ≤ 4 := by cases format; decide
  have hcount : fields.length ≤ maxEncoding := Nat.le_trans (by omega) (by decide : 4 ≤ _)
  refine ⟨.record format fields', ?_, .record hall⟩
  refine (takes_count hcount (by omega)).bind ?_
  rw [if_pos harity]
  exact hfields.bind_pure (takes_pure _)

theorem takes_op {o : Op} (h : ∀ r ∈ o.refs, Readable readCell r) :
    ∃ o', Takes (op readCell) o.encode o' ∧ o.Alike Ref.Kept o' := by
  have hone : ∀ (type : UInt8) (bs : Bytes), type :: bs = [type] ++ bs := fun _ _ => rfl
  cases o with
  | invoke r =>
    obtain ⟨r', hr, hkept⟩ := h r List.mem_cons_self
    refine ⟨.invoke r', ?_, .invoke hkept⟩
    rw [Op.encode, hone]
    exact (takes_byte 0).bind (hr.bind_pure (takes_pure _))
  | choose r =>
    obtain ⟨r', hr, hkept⟩ := h r List.mem_cons_self
    refine ⟨.choose r', ?_, .choose hkept⟩
    rw [Op.encode, hone]
    exact (takes_byte 1).bind (hr.bind_pure (takes_pure _))
  | constant r =>
    obtain ⟨r', hr, hkept⟩ := h r List.mem_cons_self
    refine ⟨.constant r', ?_, .constant hkept⟩
    rw [Op.encode, hone]
    exact (takes_byte 2).bind (hr.bind_pure (takes_pure _))
  | define symbol r =>
    obtain ⟨r', hr, hkept⟩ := h r List.mem_cons_self
    refine ⟨.define symbol r', ?_, .define hkept⟩
    rw [Op.encode, hone]
    exact (takes_byte 3).bind ((takes_symbol symbol).bind (hr.bind_pure (takes_pure _)))
  | sequence r =>
    obtain ⟨r', hr, hkept⟩ := h r List.mem_cons_self
    refine ⟨.sequence r', ?_, .sequence hkept⟩
    rw [Op.encode, hone]
    exact (takes_byte 4).bind (hr.bind_pure (takes_pure _))
  -- the parts of a function are read in the order they are written
  | lambda r s =>
    obtain ⟨r', hr, hkept⟩ := h r List.mem_cons_self
    obtain ⟨s', hs, hkept'⟩ := h s (List.mem_cons_of_mem r List.mem_cons_self)
    refine ⟨.lambda r' s', ?_, .lambda hkept hkept'⟩
    rw [Op.encode, hone]
    exact (takes_byte 5).bind (hr.bind (hs.bind_pure (takes_pure _)))
  | bind r s =>
    obtain ⟨r', hr, hkept⟩ := h r List.mem_cons_self
    obtain ⟨s', hs, hkept'⟩ := h s (List.mem_cons_of_mem r List.mem_cons_self)
    refine ⟨.bind r' s', ?_, .bind hkept hkept'⟩
    rw [Op.encode, hone]
    exact (takes_byte 6).bind (hr.bind (hs.bind_pure (takes_pure _)))
  | lookup symbol =>
    refine ⟨.lookup symbol, ?_, .lookup symbol⟩
    rw [Op.encode, hone]
    exact (takes_byte 7).bind ((takes_symbol symbol).bind_pure (takes_pure _))

/-- The parts of a closure are read in the order in which they were written. -/
theorem takes_closure {c : Closure} (h : ∀ r ∈ c.refs, Readable readCell r) :
    ∃ c', Takes (closure readCell) c.encode c' ∧ c.Alike Ref.Kept c' := by
  obtain ⟨params, body, env, name⟩ := c
  obtain ⟨params', hparams, hkept⟩ := h params (by simp [Closure.refs])
  obtain ⟨body', hbody, hkept'⟩ := h body (by simp [Closure.refs])
  obtain ⟨env', henv, hkept''⟩ := h env (by simp [Closure.refs])
  refine ⟨⟨params', body', env', name⟩, ?_, ⟨hkept, hkept', hkept'', rfl⟩⟩
  rw [Closure.encode]
  exact hparams.bind (hbody.bind (henv.bind ((takes_closureName name).bind_pure (takes_pure _))))

/-- Behind the tag of a cell, the reader of values finds a cell that is alike. -/
theorem takes_body {w : Nat} {c : Cell} (hvalid : c.Valid w) (hw : w < 2 ^ 59)
    (h : ∀ r ∈ c.refs, Readable readCell r) :
    ∃ bs d, c.encode = c.tag :: bs ∧ Takes (body readCell c.tag) bs d ∧ c.Alike Ref.Kept d := by
  cases c with
  | nil => exact ⟨_, .nil, by rw [Cell.encode]; rfl, takes_pure _, .nil⟩
  | bool b =>
    cases b with
    | true => exact ⟨_, .bool true, by rw [Cell.encode]; rfl, takes_pure _, .bool true⟩
    | false => exact ⟨_, .bool false, by rw [Cell.encode]; rfl, takes_pure _, .bool false⟩
  | long n =>
    refine ⟨_, .long n, by rw [Cell.encode]; rfl, ?_, .long n⟩
    exact (takes_long n).bind_pure (takes_pure _)
  | text s =>
    refine ⟨_, .text s, by rw [Cell.encode]; rfl, ?_, .text s⟩
    refine (takes_count s.fits (Nat.lt_of_le_of_lt s.fits (by decide))).bind ?_
    refine (takes_text s.val).bind_pure ?_
    exact (takes_ofData (Text.ofString_eq_ok_iff.2 rfl)).bind_pure (takes_pure _)
  | blob b =>
    refine ⟨_, .blob b, by rw [Cell.encode]; rfl, ?_, .blob b⟩
    refine (takes_count b.fits (Nat.lt_of_le_of_lt b.fits (by decide))).bind ?_
    refine (takes_take b.bytes).bind_pure ?_
    exact (takes_ofData (Blob.ofBytes_eq_ok_iff.2 rfl)).bind_pure (takes_pure _)
  -- the reader checks the name it has read, which was a name before
  | symbol n =>
    refine ⟨_, .symbol n, by rw [Cell.encode]; rfl, ?_, .symbol n⟩
    show Takes (do pure (Cell.symbol (← ofData (Name.ofString "symbol" (← name))))) _ _
    rw [← bind_assoc]
    exact (takes_nameOf "symbol" n).bind_pure (takes_pure _)
  | keyword n =>
    refine ⟨_, .keyword n, by rw [Cell.encode]; rfl, ?_, .keyword n⟩
    show Takes (do pure (Cell.keyword (← ofData (Name.ofString "keyword" (← name))))) _ _
    rw [← bind_assoc]
    exact (takes_nameOf "keyword" n).bind_pure (takes_pure _)
  -- compound cells: their parts are read back by assumption
  | vector v =>
    obtain ⟨v', hv, halike⟩ := takes_vec hvalid.shaped (Vec.Room.count_lt hvalid.room hw) h
    refine ⟨_, .vector v', by rw [Cell.encode]; rfl, ?_, .vector halike⟩
    exact hv.bind_pure (takes_pure _)
  | map entries =>
    obtain ⟨d, hd, halike⟩ := takes_map hvalid.shaped h
    exact ⟨_, d, by rw [Cell.encode]; rfl, hd, halike⟩
  | record format fields =>
    obtain ⟨d, hd, halike⟩ := takes_record hvalid.shaped h
    refine ⟨_, d, by rw [Cell.encode]; rfl, ?_, halike⟩
    cases format
    exact hd
  | op o =>
    obtain ⟨o', ho, halike⟩ := takes_op h
    refine ⟨_, .op o', by rw [Cell.encode]; rfl, ?_, .op halike⟩
    exact ho.bind_pure (takes_pure _)
  | core f =>
    refine ⟨_, .core f, by rw [Cell.encode]; rfl, ?_, .core f⟩
    refine (takes_byte f.id).bind_pure ?_
    rw [CoreFn.ofId?_id]
    exact takes_pure _
  | fn f =>
    obtain ⟨f', hf, halike⟩ := takes_closure h
    refine ⟨_, .fn f', by rw [Cell.encode]; rfl, ?_, .fn halike⟩
    exact hf.bind_pure (takes_pure _)

end Parts

end Reader

/-! ## What has the same encoding fits the same parent -/

theorem Cell.tag_eq_of_encode {c d : Cell} (h : d.encode = c.encode) : d.tag = c.tag := by
  have hhead := d.head?_encode
  rw [h, c.head?_encode] at hhead
  exact (Option.some.inj hhead).symm

theorem Cell.isVector_eq (c : Cell) : c.isVector = (c.tag == 0x80) := by
  cases c with
  | bool b => cases b <;> rfl
  | record format fields => cases format; rfl
  | _ => rfl

theorem Cell.isMap_eq (c : Cell) : c.isMap = (c.tag == 0x82) := by
  cases c with
  | bool b => cases b <;> rfl
  | record format fields => cases format; rfl
  | _ => rfl

theorem Cell.isOp_eq (c : Cell) : c.isOp = (c.tag == 0xc0) := by
  cases c with
  | bool b => cases b <;> rfl
  | record format fields => cases format; rfl
  | _ => rfl

theorem Cell.exists_vec {c : Cell} (h : c.isVector = true) : ∃ v, c = .vector v := by
  cases c with
  | vector v => exact ⟨v, rfl⟩
  | _ => cases h

/-- An encoding tells the number of elements of a vector. -/
theorem Cell.vector_of_encode {v : Vec} {d : Cell} (h : d.encode = (Cell.vector v).encode) :
    ∃ u, d = .vector u ∧ u.count = v.count := by
  have hkind : d.isVector = true := by
    rw [isVector_eq, tag_eq_of_encode h]
    rfl
  obtain ⟨u, rfl⟩ := exists_vec hkind
  rw [encode, encode, Vec.encode_eq, Vec.encode_eq] at h
  exact ⟨u, rfl, (Vlc.encodeNat_append_inj (List.cons.inj h).2).1⟩

/-- The second reference holds a cell only if the first one does, and then one of the same
encoding. -/
def Ref.Echoes (r r' : Ref) : Prop :=
  ∀ d, r'.held? = some d → ∃ c, r.held? = some c ∧ d.encode = c.encode

/-- What a part holds after it was read has the encoding of what it held before. -/
theorem Ref.Kept.echoes {r r' : Ref} (h : r.Kept r') : r.Echoes r' := by
  intro d hd
  cases hemb : r.isEmbedded with
  | false =>
    rw [h.1.missing hemb] at hd
    cases hd
  | true =>
    obtain ⟨c, d', hc, hd', hsame⟩ := h.1.held hemb
    rw [hd] at hd'
    cases hd'
    exact ⟨c, hc, hsame⟩

namespace Ref.Echoes
variable {r r' : Ref}

/-- Count and all, a vector is known by its encoding. -/
theorem holdsVec (h : r.Echoes r') {n : Nat} (hold : r.HoldsVec n) : r'.HoldsVec n := by
  intro d hd
  obtain ⟨c, hc, hsame⟩ := h d hd
  obtain ⟨v, rfl, rfl⟩ := hold c hc
  exact Cell.vector_of_encode hsame

theorem requireKind (h : r.Echoes r') {expected : String} {ok : Cell → Bool}
    (htag : ∀ c d : Cell, d.tag = c.tag → ok d = ok c)
    (hok : r.requireKind expected ok = .ok ()) : r'.requireKind expected ok = .ok () := by
  rw [Ref.requireKind_eq_ok_iff] at hok ⊢
  intro d hd
  obtain ⟨c, hc, hsame⟩ := h d hd
  rw [htag c d (Cell.tag_eq_of_encode hsame)]
  exact hok c hc

theorem requireVector (h : r.Echoes r') {expected : String}
    (hok : r.requireKind expected Cell.isVector = .ok ()) :
    r'.requireKind expected Cell.isVector = .ok () :=
  h.requireKind (fun c d htag => by rw [Cell.isVector_eq, Cell.isVector_eq, htag]) hok

theorem requireMap (h : r.Echoes r') {expected : String}
    (hok : r.requireKind expected Cell.isMap = .ok ()) :
    r'.requireKind expected Cell.isMap = .ok () :=
  h.requireKind (fun c d htag => by rw [Cell.isMap_eq, Cell.isMap_eq, htag]) hok

theorem requireOp (h : r.Echoes r') {expected : String}
    (hok : r.requireKind expected Cell.isOp = .ok ()) :
    r'.requireKind expected Cell.isOp = .ok () :=
  h.requireKind (fun c d htag => by rw [Cell.isOp_eq, Cell.isOp_eq, htag]) hok

end Ref.Echoes

/-- The counts that a tree wants of its children are those of their encodings. -/
theorem requireChildren_of_echoes {count size i : Nat} {rs rs' : List Ref}
    (h : List.Forall₂ Ref.Echoes rs rs') (hok : requireChildren count size i rs = .ok ()) :
    requireChildren count size i rs' = .ok () := by
  induction h generalizing i with
  | nil => rfl
  | cons hr _ ih =>
    rw [requireChildren_cons_eq_ok_iff] at hok ⊢
    exact ⟨hr.holdsVec hok.1, ih hok.2⟩

/-- The parts of an op are of the same kinds as before. -/
theorem Op.check_of_echoes {o o' : Op} (h : o.Alike Ref.Echoes o') (hok : o.check = .ok ()) :
    o'.check = .ok () := by
  cases h with
  | constant h => rfl
  | lookup symbol => rfl
  | define h => exact h.requireOp hok
  | sequence h | choose h | invoke h => exact h.requireVector hok
  | bind h hs =>
    obtain ⟨u, hsymbols, hops⟩ := bind_eq_ok_iff.1 hok
    exact bind_eq_ok_iff.2 ⟨u, h.requireVector hsymbols, hs.requireVector hops⟩
  | lambda h hs =>
    obtain ⟨u, hparams, hbody⟩ := bind_eq_ok_iff.1 hok
    exact bind_eq_ok_iff.2 ⟨u, h.requireVector hparams, hs.requireOp hbody⟩

theorem Closure.check_of_echoes {c c' : Closure} (h : c.Alike Ref.Echoes c')
    (hok : c.check = .ok ()) : c'.check = .ok () := by
  obtain ⟨u, hparams, hok⟩ := bind_eq_ok_iff.1 hok
  obtain ⟨u', hbody, henv⟩ := bind_eq_ok_iff.1 hok
  exact bind_eq_ok_iff.2 ⟨u, h.params.requireVector hparams,
    bind_eq_ok_iff.2 ⟨u', h.body.requireOp hbody, h.env.requireMap henv⟩⟩

/-- A cell passes the checks if an alike cell does whose references hold the same content. -/
theorem Cell.check_of_echoes {c d : Cell} (h : c.Alike Ref.Echoes d) (hok : c.check = .ok ()) :
    d.check = .ok () := by
  cases h with
  | vector h =>
    cases h with
    | chunk hitems => rfl
    | tailed hfront hitems =>
      have hold := Ref.requireCount_eq_ok_iff.1 hok
      rw [hitems.length_eq] at hold
      exact Ref.requireCount_eq_ok_iff.2 (hfront.holdsVec hold)
    | tree hchildren => exact requireChildren_of_echoes hchildren hok
  | op h => exact Op.check_of_echoes h hok
  | fn h => exact Closure.check_of_echoes h hok
  | _ => rfl

/-! ## Whole cells -/

/-- The reader of cells takes the encoding of a valid cell off the front of any byte string. -/
theorem Reader.takes_cell {w : Nat} {c : Cell} (h : c.Valid w) (hw : w < 2 ^ 59) (levels : Nat)
    (hlevels : c.encode.length ≤ levels) :
    ∃ d, Takes (cell levels) c.encode d ∧ c.Alike Ref.Kept d := by
  induction c using Cell.induction generalizing levels with
  | step c ih =>
    have hrefs := c.length_encodeRefs_lt
    cases levels with
    | zero => omega
    | succ levels =>
      -- a part is shorter than the whole, so that one level less is enough for it
      have hparts : ∀ r ∈ c.refs, Readable (cell levels) r := by
        intro r hr
        refine readable_of_valid (yields_cell levels) (h.refs hr) fun d hd hle => ?_
        have hlen := Ref.length_encode_le_of_mem hr
        obtain ⟨d', hd', halike⟩ := ih r hr d hd (h.refs hr d hd).2 levels (by omega)
        exact ⟨d', hd', halike.written⟩
      obtain ⟨bs, d, hbytes, hbody, halike⟩ := takes_body h hw hparts
      refine ⟨d, ?_, halike⟩
      have hcheck := Cell.check_of_echoes (halike.mono fun _ _ _ hr => hr.echoes) h.shaped.check
      rw [hbytes]
      show Takes (cellWith (cell levels)) ([c.tag] ++ bs) d
      refine (takes_byte c.tag).bind (hbody.bind_pure ?_)
      rw [hcheck]
      exact takes_pure d

/-- The decoder accepts the encoding of a valid cell, and yields the cell as it is read back. -/
theorem decode_encode {w : Nat} {c : Cell} (h : c.Valid w) (hw : w < 2 ^ 59) :
    ∃ d, decode c.encode = .ok d ∧ c.Alike Ref.Kept d := by
  obtain ⟨d, hd, halike⟩ := Reader.takes_cell h hw c.encode.length (Nat.le_refl _)
  refine ⟨d, ?_, halike⟩
  have hfits := h.length_encode_le hw
  have hhead : c.encode.head? ≠ some refTag := by
    rw [c.head?_encode]
    exact fun htag => c.tag_ne_refTag (Option.some.inj htag)
  have hread := hd []
  rw [List.append_nil] at hread
  rw [decode, if_neg (Nat.not_lt.2 hfits), if_neg hhead, hread]

/-- What the decoder yields holds what is embedded in it and nothing else. -/
theorem written_of_decode {bs : Bytes} {c : Cell} (h : decode bs = .ok c) : c.Written := by
  obtain ⟨d, hd, halike⟩ := decode_encode (valid_of_decode h) (by decide)
  rw [encode_of_decode h, h] at hd
  cases hd
  exact halike.written

end CellMachine
