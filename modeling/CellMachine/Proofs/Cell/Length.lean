import CellMachine.Proofs.Cell.Valid
import CellMachine.Proofs.Codec.Vlc

/-!
# How long encodings are

A valid cell fits one encoding (`Cell.Valid.length_encode_le`): a part takes at most 140 bytes in its
parent, and the shape of a vector leaves it at most 32 parts. In the other direction, the encoding of
a vector with a full chunk is longer than 32 bytes (`Cell.Valid.lt_length_encode`), so that only few
nodes of large vectors are written inside their parents.
-/

namespace CellMachine

/-! ## Names and payloads -/

theorem Name.length_bytes_le (n : Name) : (Bytes.ofText n.val).length ≤ maxNameSize := n.fits

/-- A name takes its tag, its length and its bytes. -/
theorem length_encodeName_le (tag : UInt8) (n : Name) :
    (encodeName tag n).length ≤ 2 + maxNameSize := by
  have := n.length_bytes_le
  simp only [encodeName, List.length_cons]
  omega

theorem length_encodeClosureName_le (name : Option Name) :
    (encodeClosureName name).length ≤ 2 + maxNameSize := by
  cases name with
  | none =>
    show 1 ≤ 2 + maxNameSize
    decide
  | some n => exact length_encodeName_le symbolTag n

/-- A payload takes its tag, its count and its bytes. -/
theorem length_encodeBytes_le {bs : Bytes} (tag : UInt8) (h : bs.length ≤ maxPayloadSize) :
    (encodeBytes tag bs).length ≤ 11 + maxPayloadSize := by
  have hcount : (Vlc.encodeNat bs.length).length ≤ Vlc.maxLength :=
    Vlc.length_encodeNat_le (by simp only [maxPayloadSize] at h; omega)
  simp only [encodeBytes, List.length_cons, List.length_append, Vlc.maxLength] at *
  omega

/-! ## References -/

/-- A new parent writes small cells in place and larger ones as hashes. -/
theorem Ref.encode_of (c : Cell) :
    (Ref.of c).encode = if c.isEmbeddable then c.encode else refTag :: c.hash.bytes := by
  by_cases h : c.encode.length ≤ maxEmbedded
  · have hsmall : c.isEmbeddable = true := decide_eq_true h
    rw [of, if_pos h, if_pos hsmall, encode]
  · have hlarge : ¬ c.isEmbeddable = true := fun hsmall => h (of_decide_eq_true hsmall)
    rw [of, if_neg h, if_neg hlarge, encode]
    rfl

/-- A new reference takes at most the room of a small cell, whatever it refers to. -/
theorem Ref.length_encode_of_le (c : Cell) : (Ref.of c).encode.length ≤ maxEmbedded := by
  rw [encode_of]
  by_cases hsmall : c.isEmbeddable = true
  · rw [if_pos hsmall]
    exact of_decide_eq_true hsmall
  · rw [if_neg hsmall, List.length_cons, c.hash.size_eq]
    decide

/-- A part takes at most the room of a small cell in its parent. -/
theorem Ref.Valid.length_encode_le {w : Nat} {r : Ref} (h : r.Valid w) :
    r.encode.length ≤ maxEmbedded := by
  cases r with
  | embedded hash loaded c =>
    have hsmall : true = c.isEmbeddable := (h c rfl).1.embedded
    rw [Ref.encode]
    exact of_decide_eq_true hsmall.symm
  | direct hash _ _ | cached hash _ _ | remote hash =>
    simp only [Ref.encode, List.length_cons, hash.size_eq, hashSize, maxEmbedded]
    omega

/-- Parts that are short one by one are short together. -/
theorem length_encodeRefs_le {rs : List Ref} (h : ∀ r ∈ rs, r.encode.length ≤ maxEmbedded) :
    (encodeRefs rs).length ≤ maxEmbedded * rs.length := by
  induction rs with
  | nil => simp [encodeRefs]
  | cons r rs ih =>
    have hr := h r List.mem_cons_self
    have hrs := ih fun r' hr' => h r' (List.mem_cons_of_mem r hr')
    rw [encodeRefs, List.length_append, List.length_cons, Nat.mul_succ]
    omega

/-! ## Cells -/

/-- The number of references that a node of a vector has. -/
theorem Vec.Shaped.length_refs_le {v : Vec} (h : v.Shaped) : v.refs.length ≤ chunkSize := by
  cases v with
  | chunk items => exact h
  | tailed count front items =>
    obtain ⟨-, -, hlen, -⟩ := h
    have : count % chunkSize < chunkSize := Nat.mod_lt _ (by decide)
    rw [refs, List.length_append, List.length_singleton]
    omega
  | tree count children =>
    rw [shaped_tree_iff] at h
    rw [refs, h.2.1]
    exact childCount_le count

/-- An op has at most two parts and a name. -/
theorem Op.length_encode_le (o : Op) (h : ∀ r ∈ o.refs, r.encode.length ≤ maxEmbedded) :
    o.encode.length ≤ 3 + maxNameSize + 2 * maxEmbedded := by
  cases o with
  | lookup symbol =>
    have := length_encodeName_le symbolTag symbol
    simp only [encode, List.length_cons, maxNameSize, maxEmbedded] at *
    omega
  | define symbol value =>
    have := length_encodeName_le symbolTag symbol
    have := h value List.mem_cons_self
    simp only [encode, List.length_cons, List.length_append] at *
    omega
  -- the ops with two parts are the ones that the bound is for
  | bind symbols ops =>
    have := h symbols List.mem_cons_self
    have := h ops (List.mem_cons_of_mem _ List.mem_cons_self)
    simp only [encode, List.length_cons, List.length_append] at *
    omega
  | lambda params body =>
    have := h params List.mem_cons_self
    have := h body (List.mem_cons_of_mem _ List.mem_cons_self)
    simp only [encode, List.length_cons, List.length_append] at *
    omega
  | constant r | sequence r | choose r | invoke r =>
    have := h r List.mem_cons_self
    simp only [encode, List.length_cons] at *
    omega

/-- A closure has three parts and a name. -/
theorem Closure.length_encode_le (c : Closure) (h : ∀ r ∈ c.refs, r.encode.length ≤ maxEmbedded) :
    c.encode.length ≤ 2 + maxNameSize + 3 * maxEmbedded := by
  obtain ⟨params, body, env, name⟩ := c
  have hparams := h params List.mem_cons_self
  have hbody := h body (List.mem_cons_of_mem _ List.mem_cons_self)
  have henv := h env (List.mem_cons_of_mem _ (List.mem_cons_of_mem _ List.mem_cons_self))
  have hname := length_encodeClosureName_le name
  clear h
  simp only [encode, List.length_append] at *
  omega

theorem encodeRefs_append (as bs : List Ref) :
    encodeRefs (as ++ bs) = encodeRefs as ++ encodeRefs bs := by
  induction as with
  | nil => rfl
  | cons r as ih => rw [List.cons_append, encodeRefs, encodeRefs, ih, List.append_assoc]

/-- The encoding of a vector is its count and its references, whatever its shape. -/
theorem Vec.encode_eq (v : Vec) : v.encode = Vlc.encodeNat v.count ++ encodeRefs v.refs := by
  cases v with
  | chunk items => rw [encode]; rfl
  | tree n children => rw [encode]; rfl
  | tailed n front items =>
    have hfront : encodeRefs [front] = front.encode := by
      rw [encodeRefs, encodeRefs, List.append_nil]
    rw [encode, refs, encodeRefs_append, hfront]
    rfl

/-- A node of a vector has its count and at most 32 parts. -/
theorem Vec.length_encode_le {w : Nat} {v : Vec} (hshaped : v.Shaped) (hcount : v.count < 2 ^ 64)
    (hrefs : ∀ r ∈ v.refs, r.Valid w) :
    v.encode.length ≤ Vlc.maxLength + maxEmbedded * chunkSize := by
  have hnumber := Nat.mul_le_mul_left maxEmbedded hshaped.length_refs_le
  have hparts := length_encodeRefs_le fun r hr => (hrefs r hr).length_encode_le
  have hlength := Vlc.length_encodeNat_le hcount
  rw [encode_eq, List.length_append]
  omega

/-- A map has two references for each entry. -/
theorem Cell.length_map_refs (es : List (Ref × Ref)) : (Cell.map es).refs.length = 2 * es.length := by
  induction es with
  | nil => rfl
  | cons e es ih =>
    show (Cell.map es).refs.length + 1 + 1 = 2 * (es.length + 1)
    rw [ih, Nat.mul_succ]

/-- Associations are written as the references of their map. -/
theorem encodeEntries_eq (es : List (Ref × Ref)) :
    encodeEntries es = encodeRefs (Cell.map es).refs := by
  induction es with
  | nil => rfl
  | cons e es ih =>
    obtain ⟨k, v⟩ := e
    have hrefs : (Cell.map ((k, v) :: es)).refs = k :: v :: (Cell.map es).refs := rfl
    rw [encodeEntries, ih, hrefs, encodeRefs, encodeRefs]

theorem Op.length_encodeRefs_lt (o : Op) : (encodeRefs o.refs).length < o.encode.length := by
  cases o with
  | lookup symbol => exact Nat.succ_pos _
  | _ =>
    simp only [refs, encode, encodeRefs, List.length_cons, List.length_append, List.length_nil]
    omega

/-- The references of a cell are written inside its encoding. -/
theorem Cell.length_encodeRefs_lt (c : Cell) : (encodeRefs c.refs).length < c.encode.length := by
  cases c with
  | vector v =>
    rw [refs, encode, Vec.encode_eq, List.length_cons, List.length_append]
    omega
  | map entries =>
    rw [encode, encodeEntries_eq, List.length_cons, List.length_append]
    omega
  | record format fields =>
    rw [refs, encode, List.length_cons, List.length_append]
    omega
  | op o =>
    have := o.length_encodeRefs_lt
    rw [refs, encode, List.length_cons]
    omega
  | fn c =>
    obtain ⟨params, body, env, name⟩ := c
    simp only [refs, Closure.refs, encode, Closure.encode, encodeRefs, List.length_cons,
      List.length_append, List.length_nil]
    omega
  -- the other cells have no parts, and their encoding is not empty
  | _ => exact List.length_pos_iff.2 (encode_ne_nil _)

/-- A part is no longer than all parts together. -/
theorem Ref.length_encode_le_of_mem {r : Ref} {rs : List Ref} (h : r ∈ rs) :
    r.encode.length ≤ (encodeRefs rs).length := by
  induction rs with
  | nil => cases h
  | cons r' rs ih =>
    rw [encodeRefs, List.length_append]
    rcases List.mem_cons.1 h with rfl | h
    · omega
    · have := ih h
      omega

/-- A valid cell fits one encoding, if its count is a number of 64 bits in case it is a vector. -/
theorem Cell.Valid.length_encode_le_of_count {w : Nat} {c : Cell} (h : c.Valid w)
    (hcount : ∀ v, c = .vector v → v.count < 2 ^ 64) : c.encode.length ≤ maxEncoding := by
  cases c with
  | nil => decide
  | bool b => cases b <;> decide
  | long n =>
    have := Vlc.length_encode_le n
    simp only [encode, List.length_cons, Vlc.maxLength, maxEncoding] at *
    omega
  | text s =>
    have hbytes : (Bytes.ofText s.val).length ≤ maxPayloadSize := s.fits
    have := length_encodeBytes_le 0x30 hbytes
    simp only [encode, maxPayloadSize, maxEncoding] at *
    omega
  | blob b =>
    have := length_encodeBytes_le 0x31 b.fits
    simp only [encode, maxPayloadSize, maxEncoding] at *
    omega
  | symbol n =>
    have := length_encodeName_le symbolTag n
    simp only [encode, maxNameSize, maxEncoding] at *
    omega
  | keyword n =>
    have := length_encodeName_le keywordTag n
    simp only [encode, maxNameSize, maxEncoding] at *
    omega
  -- a node holds a chunk of references at most
  | vector v =>
    have hnode := Vec.length_encode_le h.shaped (hcount v rfl) fun r hr => h.refs hr
    simp only [encode, List.length_cons, Vlc.maxLength, maxEmbedded, chunkSize, maxEncoding] at *
    omega
  -- a map is checked against the limit itself, since nothing else bounds its entries
  | map entries => exact h.shaped.2
  | record format fields =>
    have harity : fields.length = format.arity := h.shaped
    have hfour : format.arity ≤ 4 := by cases format; decide
    have hcount := Vlc.length_encodeNat_le (n := fields.length) (by omega)
    have hrefs : (encodeRefs fields).length ≤ maxEmbedded * fields.length :=
      length_encodeRefs_le fun r hr => (h.refs hr).length_encode_le
    have hsum : maxEmbedded * fields.length ≤ maxEmbedded * 4 :=
      Nat.mul_le_mul_left _ (by omega)
    simp only [encode, List.length_cons, List.length_append, Vlc.maxLength, maxEmbedded,
      maxEncoding] at *
    omega
  | op o =>
    have hrefs : ∀ r ∈ o.refs, r.encode.length ≤ maxEmbedded :=
      fun r hr => (h.refs hr).length_encode_le
    have hop := o.length_encode_le hrefs
    simp only [encode, List.length_cons, maxEmbedded, maxNameSize, maxEncoding] at *
    omega
  | core f => exact (by decide : 2 ≤ maxEncoding)
  | fn f =>
    have hclosure := f.length_encode_le fun r hr => (h.refs hr).length_encode_le
    simp only [encode, List.length_cons, maxEmbedded, maxNameSize, maxEncoding] at *
    omega

/-- A valid cell with room for less work than the limit leaves fits one encoding. -/
theorem Cell.Valid.length_encode_le {w : Nat} {c : Cell} (h : c.Valid w) (hw : w < 2 ^ 59) :
    c.encode.length ≤ maxEncoding := by
  refine h.length_encode_le_of_count fun v hv => ?_
  subst hv
  exact Nat.lt_trans (Vec.Room.count_lt h.room hw) (by decide)

/-! ## Full chunks are not tiny -/

theorem Ref.length_encode_pos (r : Ref) : 0 < r.encode.length := by
  cases r with
  | embedded hash loaded c => exact List.length_pos_iff.2 c.encode_ne_nil
  | direct hash _ _ | cached hash _ _ | remote hash => exact Nat.succ_pos _

theorem length_le_length_encodeRefs (rs : List Ref) : rs.length ≤ (encodeRefs rs).length := by
  induction rs with
  | nil => exact Nat.le_refl _
  | cons r rs ih =>
    have := r.length_encode_pos
    rw [encodeRefs, List.length_append, List.length_cons]
    omega

theorem length_le_length_encodeEntries (es : List (Ref × Ref)) :
    es.length ≤ (encodeEntries es).length := by
  have hrefs := length_le_length_encodeRefs (Cell.map es).refs
  rw [Cell.length_map_refs, ← encodeEntries_eq] at hrefs
  omega

/-- A part that holds a vector is written as a hash, or as a vector that is long enough itself. -/
theorem Ref.lt_length_encode {r : Ref} {n : Nat} (hold : r.HoldsVec n)
    (h : ∀ v, r.held? = some (.vector v) → v.count = n → chunkSize < (Cell.vector v).encode.length) :
    chunkSize < r.encode.length := by
  cases r with
  | embedded hash loaded d =>
    obtain ⟨v, rfl, hv⟩ := hold d rfl
    exact h v rfl hv
  | direct hash _ _ | cached hash _ _ | remote hash =>
    rw [Ref.encode, List.length_cons, hash.size_eq]
    decide

/-- A vector with a full chunk is never shorter than the hash of one. -/
theorem Cell.Valid.lt_length_encode {w : Nat} {c : Cell} (h : c.Valid w) {v : Vec}
    (hv : c = .vector v) (hcount : chunkSize ≤ v.count) : chunkSize < c.encode.length := by
  induction c using Cell.induction generalizing v with
  | step c ih =>
    subst hv
    have hpart : ∀ r ∈ v.refs, ∀ n, r.HoldsVec n → chunkSize ≤ n → chunkSize < r.encode.length := by
      intro r hr n hold hn
      refine Ref.lt_length_encode hold fun u hu hcount => ?_
      exact ih r hr _ hu (h.refs hr _ hu).2 rfl (by omega)
    have hrefs := length_le_length_encodeRefs v.refs
    rw [encode, Vec.encode_eq, List.length_cons, List.length_append]
    have hshaped : v.Shaped := h.shaped
    -- a chunk has an item for each byte wanted, the other forms have a full chunk in them
    cases v with
    | chunk items =>
      have : items.length = (Vec.chunk items).count := rfl
      have : (Vec.chunk items).refs.length = items.length := rfl
      omega
    | tailed n front items =>
      obtain ⟨hn, -, hlen, hold⟩ := hshaped
      have hfront := hpart front Vec.front_mem_refs _ hold (by
        simp only [chunkSize] at *
        omega)
      simp only [Vec.refs, encodeRefs_append, encodeRefs, List.length_append, List.append_nil]
      omega
    | tree n children =>
      obtain ⟨hn, hmod, htiles⟩ := hshaped
      cases children with
      | nil =>
        have : n = 0 := htiles
        omega
      | cons r rs =>
        obtain ⟨hpos, hold, -⟩ := htiles
        have := chunkSize_le_childSize n
        have := hpart r List.mem_cons_self _ hold (by omega)
        simp only [Vec.refs, encodeRefs, List.length_append]
        omega

/-- Nodes with a full chunk each are not tiny together. -/
theorem Tiles.le_length_encodeRefs {w size n : Nat} {rs : List Ref} (htiles : Tiles size n rs)
    (hsize : size % chunkSize = 0) (hpos : 0 < size) (hn : n % chunkSize = 0)
    (h : ∀ r ∈ rs, r.Valid w) :
    (chunkSize + 1) * rs.length ≤ (encodeRefs rs).length := by
  induction rs generalizing n with
  | nil => exact Nat.zero_le _
  | cons r rs ih =>
    obtain ⟨hleft, hold, hrest⟩ := htiles
    have hrs := ih hrest (by simp only [chunkSize] at *; omega) fun r' hr' =>
      h r' (List.mem_cons_of_mem r hr')
    have hr : chunkSize < r.encode.length := by
      refine Ref.lt_length_encode hold fun v hv hcount => ?_
      refine (h r List.mem_cons_self _ hv).2.lt_length_encode rfl ?_
      simp only [chunkSize] at *
      omega
    rw [encodeRefs, List.length_append, List.length_cons, Nat.mul_succ]
    omega

end CellMachine
