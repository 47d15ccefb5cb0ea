import CellMachine.Proofs.Cell.Length

/-!
# What is read has been written

The decoder takes nothing but canonical bytes: whatever it takes off the front of a byte string is
the encoding of what it yields, at every depth, and the only reason for it to give up is that the
bytes have the wrong format.

Both facts are said of readers by `Reader.Yields`, which is kept by sequencing. Each reader of the
decoder then has one lemma that says what it yields and what it has taken off; the lemma about cells
goes by induction on the levels.

Main statement: `decode_canonical`. On the way, what is decoded turns out to be valid
(`valid_of_decode`).
-/

namespace CellMachine

/-! ## Counts that bytes may claim -/

/-- A reference as the decoder makes it: it holds a cell only if it is embedded. -/
def Ref.Written (r : Ref) : Prop := ∀ d, r.held? = some d → r.isEmbedded = true

/-- A tree with five children is too large to be written inside a parent. -/
theorem not_isEmbeddable_tree {w n : Nat} {children : List Ref}
    (h : (Cell.vector (.tree n children)).Valid w) (hn : 4 * childSize n < n) :
    (Cell.vector (.tree n children)).isEmbeddable = false := by
  obtain ⟨hcount, hmod, htiles⟩ := h.shaped
  obtain ⟨-, -, -, -, hle⟩ := htiles.getLast? (by omega)
  have hfive : 5 ≤ children.length := by
    refine Nat.lt_of_not_le fun hlen => ?_
    have := Nat.mul_le_mul_left (childSize n) hlen
    omega
  have hlong := htiles.le_length_encodeRefs (childSize_mod n) (childSize_pos n) hmod
    fun r hr => h.refs (c := .vector (.tree n children)) hr
  have hrefs : (Vec.tree n children).refs = children := rfl
  rw [Cell.isEmbeddable, decide_eq_false_iff_not, Cell.encode, Vec.encode_eq, hrefs]
  simp only [List.length_cons, List.length_append, chunkSize, maxEmbedded] at *
  omega

/-- A front that bytes write inside its parent cannot be large. -/
theorem Ref.Written.held?_eq_none {w n : Nat} {r : Ref} (h : r.Written) (hr : r.Valid w)
    (hold : r.HoldsVec n) (hmod : n % chunkSize = 0) (hlarge : 4 * childSize n < n) :
    r.held? = none := by
  cases hheld : r.held? with
  | none => rfl
  | some d =>
    obtain ⟨hdescribes, hvalid⟩ := hr d hheld
    obtain ⟨v, rfl, hv⟩ := hold d hheld
    have hsmall : (Cell.vector v).isEmbeddable = true := by
      rw [← hdescribes.embedded]
      exact h _ hheld
    have hshaped : v.Shaped := hvalid.shaped
    -- more than one chunk, and no rest: the vector is a tree
    have hchunks : chunkSize < n := by
      have := chunkSize_le_childSize n
      omega
    obtain ⟨children, rfl⟩ := hshaped.exists_tree hv hchunks hmod
    rw [not_isEmbeddable_tree hvalid hlarge] at hsmall
    cases hsmall

/-- Whatever count bytes claim, the vector has room: near the limit, nodes that could take another
chunk are too large to be written inside their parents, so that they are missing. -/
theorem Vec.room_of_written {v : Vec} (shaped : v.Shaped) (refs : ∀ r ∈ v.refs, r.Valid 0)
    (written : ∀ r ∈ v.refs, r.Written) (hmax : v.count ≤ Reader.maxCount) : v.Room 0 := by
  by_cases hfree : v.count ≤ freeCount
  · exact .inl hfree
  refine .inr ⟨hmax, ?_⟩
  have hsize : ∀ n, 2 ^ 60 < n → n < 2 ^ 63 → childSize n = 2 ^ 60 := fun n hlo hhi =>
    childSize_eq (k := 12) (by omega) hlo (Nat.le_trans (Nat.le_of_lt hhi) (by decide))
  simp only [freeCount, Reader.maxCount] at hfree hmax
  cases v with
  | chunk items =>
    have hchunk : items.length ≤ chunkSize := shaped
    simp only [count, chunkSize] at *
    omega
  | tailed n front items =>
    obtain ⟨hn, -, hlen, hold⟩ := shaped
    have hcount : (tailed n front items).count = n := rfl
    have hmissing : front.held? = none := by
      refine (written front front_mem_refs).held?_eq_none (refs front front_mem_refs) hold ?_ ?_
      · simp only [chunkSize] at *
        omega
      · rw [hsize _ (by simp only [chunkSize] at *; omega) (by omega)]
        simp only [chunkSize] at *
        omega
    intro d hd
    rw [hmissing] at hd
    cases hd
  | tree n children =>
    obtain ⟨hn, hmod, htiles⟩ := shaped
    have hcount : (tree n children).count = n := rfl
    rw [hcount] at hfree hmax
    rw [hsize n (by omega) (by omega)] at htiles
    obtain ⟨r, hlast, hold, hlt, hle⟩ := htiles.getLast? (by omega)
    -- there are eight children, and the last one holds more than half of its size
    have height : children.length = 8 := by omega
    have hmem : r ∈ children := List.mem_of_getLast? hlast
    rw [height] at hold hlt hle
    refine ⟨by rw [hsize n (by omega) (by omega)]; omega, r, hlast, ?_⟩
    refine (written r hmem).held?_eq_none (refs r hmem) hold ?_ ?_
    · simp only [chunkSize] at *
      omega
    · rw [childSize_eq (k := 11) (by omega)]
      · simp only [chunkSize]
        omega
      · simp only [chunkSize]
        omega
      · simp only [chunkSize]
        omega

namespace Reader

variable {α β : Type}

/-- What the reader yields and the bytes that it takes off for it stand in the relation `R`, and
where it yields nothing the format is to blame. -/
structure Yields (r : Reader α) (R : α → Bytes → Prop) : Prop where
  ok : ∀ bs a rest, r bs = .ok (a, rest) → ∃ taken, bs = taken ++ rest ∧ R a taken
  error : ∀ bs e, r bs = .error e → ∃ f, e = .format f

section Rules
variable {R : α → Bytes → Prop} {S : β → Bytes → Prop}

theorem Yields.weaken {R' : α → Bytes → Prop} {r : Reader α} (h : Yields r R)
    (himp : ∀ a taken, R a taken → R' a taken) : Yields r R' := by
  refine ⟨fun bs a rest hr => ?_, h.error⟩
  obtain ⟨taken, hbs, ha⟩ := h.ok bs a rest hr
  exact ⟨taken, hbs, himp a taken ha⟩

/-- Reading nothing yields a value from no bytes. -/
theorem yields_pure {a : α} (h : R a []) : Yields (pure a) R := by
  constructor
  · intro bs a' rest hr
    cases hr
    exact ⟨[], rfl, h⟩
  · intro bs e hr
    cases hr

/-- A reader that gives up does so with an error of format. -/
theorem yields_fail (e : FormatError) : Yields (fail e) R := by
  constructor
  · intro bs a rest hr
    cases hr
  · intro bs e' hr
    cases hr
    exact ⟨e, rfl⟩

theorem bind_apply (r : Reader α) (f : α → Reader β) (bs : Bytes) :
    (r >>= f) bs = (r bs >>= fun p => f p.1 p.2) := rfl

/-- The second of two readers is taken at its word for what the first has yielded. -/
theorem Yields.bind {r : Reader α} {f : α → Reader β} (hr : Yields r R)
    (hf : ∀ a taken, R a taken → Yields (f a) fun b more => S b (taken ++ more)) :
    Yields (r >>= f) S := by
  constructor
  · intro bs b rest h
    rw [bind_apply, bind_eq_ok_iff] at h
    obtain ⟨⟨a, mid⟩, ha, hb⟩ := h
    obtain ⟨taken, rfl, hR⟩ := hr.ok bs a mid ha
    obtain ⟨more, rfl, hS⟩ := (hf a taken hR).ok mid b rest hb
    exact ⟨taken ++ more, (List.append_assoc ..).symm, hS⟩
  · intro bs e h
    rw [bind_apply] at h
    -- an error comes from the first reader, or from the second one on what the first has left
    cases hrun : r bs with
    | error e' =>
      rw [hrun] at h
      cases h
      exact hr.error bs e hrun
    | ok p =>
      obtain ⟨a, mid⟩ := p
      obtain ⟨taken, -, hR⟩ := hr.ok bs a mid hrun
      rw [hrun] at h
      exact (hf a taken hR).error mid e h

/-- A reader may choose by a condition that it has worked out. -/
theorem Yields.ite {c : Prop} [Decidable c] {r s : Reader α} (hr : c → Yields r R)
    (hs : ¬ c → Yields s R) : Yields (if c then r else s) R := by
  by_cases h : c
  · rw [if_pos h]
    exact hr h
  · rw [if_neg h]
    exact hs h

/-- A value that can be built from what has been read takes no bytes. -/
theorem yields_ofData {x : Except DataError α} {a : α} (hx : x = .ok a) (h : R a []) :
    Yields (ofData x) R := by
  rw [hx]
  exact yields_pure h

end Rules

/-! ## Bytes, numbers and texts -/

theorem yields_byte : Yields byte fun b taken => taken = [b] := by
  constructor
  · intro bs b rest h
    cases bs with
    | nil => cases h
    | cons b' bs =>
      cases h
      exact ⟨[b], rfl, rfl⟩
  · intro bs e h
    cases bs with
    | nil =>
      cases h
      exact ⟨_, rfl⟩
    | cons b' bs => cases h

theorem yields_take (n : Nat) : Yields (take n) fun bs taken => taken = bs ∧ bs.length = n := by
  constructor
  · intro bs a rest h
    -- the bytes in front are the ones that were taken off
    unfold take at h
    split at h
    · next hle =>
      cases h
      exact ⟨bs.take n, (List.take_append_drop n bs).symm, rfl, List.length_take_of_le hle⟩
    · cases h
  · intro bs e h
    unfold take at h
    split at h <;> cases h
    exact ⟨_, rfl⟩

theorem yields_hash : Yields hash fun h taken => taken = h.bytes := by
  constructor
  · intro bs a rest h
    unfold hash at h
    split at h
    · cases h
      exact ⟨bs.take hashSize, (List.take_append_drop hashSize bs).symm, rfl⟩
    · cases h
  · intro bs e h
    unfold hash at h
    split at h <;> cases h
    exact ⟨_, rfl⟩

/-- Readers of numbers come with errors of their own, and are told what they may take in terms of
these. -/
theorem yields_mapError {R : α → Bytes → Prop} {p : Bytes → Except FormatError (α × Bytes)}
    (h : ∀ bs a rest, p bs = .ok (a, rest) → ∃ taken, bs = taken ++ rest ∧ R a taken) :
    Yields (fun bs => (p bs).mapError .format) R := by
  constructor
  · intro bs a rest hr
    cases hp : p bs with
    | error e =>
      rw [hp] at hr
      cases hr
    | ok q =>
      rw [hp] at hr
      cases hr
      exact h bs a rest hp
  · intro bs e hr
    cases hp : p bs with
    | error f =>
      rw [hp] at hr
      cases hr
      exact ⟨f, rfl⟩
    | ok q =>
      rw [hp] at hr
      cases hr

/-- A number is read from its shortest spelling. -/
theorem yields_long : Yields long fun x taken => taken = Vlc.encode x :=
  yields_mapError fun _ _ _ h => ⟨_, Vlc.eq_encode_of_read h, rfl⟩

/-- A count is a number without a sign, within the limit. -/
theorem yields_count (max : Nat) :
    Yields (count max) fun n taken => taken = Vlc.encodeNat n ∧ n ≤ max := by
  refine yields_mapError fun bs n rest h => ?_
  obtain ⟨hbs, hmax, -⟩ := Vlc.eq_encodeNat_of_readCount h
  exact ⟨_, hbs, rfl, hmax⟩

/-- A text is read from its UTF-8 form, which is as long as was announced. -/
theorem yields_text (n : Nat) :
    Yields (text n) fun s taken => taken = Bytes.ofText s ∧ s.utf8ByteSize = n := by
  refine (yields_take n).bind fun bs taken h => ?_
  obtain ⟨rfl, hlen⟩ := h
  -- bytes that are no text are refused; those of a text are its only spelling
  cases hs : Bytes.toText? taken with
  | none => exact yields_fail _
  | some s =>
    have hbs := Bytes.toText?_eq_some_iff.1 hs
    refine yields_pure ⟨by rw [List.append_nil, hbs], ?_⟩
    rw [← Bytes.length_ofText, ← hbs, hlen]

/-- A name is a text with its length in one byte before it. -/
theorem yields_name :
    Yields name fun s taken => taken = UInt8.ofNat s.utf8ByteSize :: Bytes.ofText s ∧
      0 < s.utf8ByteSize ∧ s.utf8ByteSize ≤ maxNameSize := by
  refine yields_byte.bind fun b taken hb => ?_
  subst hb
  refine Yields.ite (fun _ => yields_fail _) fun hsize => ?_
  refine (yields_text b.toNat).weaken fun s taken hs => ?_
  obtain ⟨rfl, hlen⟩ := hs
  refine ⟨?_, by omega, by omega⟩
  rw [hlen, UInt8.ofNat_toNat]
  rfl

/-- The text of a name is long enough and short enough to make one. -/
theorem yields_nameOf (kind : String) :
    Yields (do ofData (Name.ofString kind (← name))) fun n taken =>
      taken = UInt8.ofNat n.val.utf8ByteSize :: Bytes.ofText n.val := by
  refine yields_name.bind fun s taken hs => ?_
  obtain ⟨rfl, hpos, hfits⟩ := hs
  have hn : Name.ofString? s = some ⟨s, hpos, hfits⟩ := Name.ofString?_eq_some_iff.2 rfl
  refine yields_ofData (a := ⟨s, hpos, hfits⟩) ?_ (List.append_nil _)
  rw [Name.ofString, hn]

/-- What is read under a name is read behind the name. -/
theorem yields_named {S : β → Bytes → Prop} (kind : String) {f : Name → Reader β}
    (hf : ∀ n, Yields (f n) fun b more =>
      S b (UInt8.ofNat n.val.utf8ByteSize :: Bytes.ofText n.val ++ more)) :
    Yields (do f (← ofData (Name.ofString kind (← name)))) S := by
  rw [← bind_assoc]
  refine (yields_nameOf kind).bind fun n taken hn => ?_
  subst hn
  exact hf n

theorem yields_symbol : Yields symbol fun n taken => taken = encodeName symbolTag n := by
  refine yields_byte.bind fun tag taken htag => ?_
  subst htag
  refine Yields.ite (fun htag => ?_) fun _ => yields_fail _
  subst htag
  refine (yields_nameOf "symbol").weaken fun n taken hn => ?_
  subst hn
  rfl

/-- The name of a closure is a symbol, or one byte if it has none. -/
theorem yields_closureName :
    Yields closureName fun n taken => taken = encodeClosureName n := by
  refine yields_byte.bind fun tag taken htag => ?_
  subst htag
  refine Yields.ite (fun htag => ?_) fun _ => Yields.ite (fun htag => ?_) fun _ => yields_fail _
  · subst htag
    exact yields_pure rfl
  · subst htag
    refine yields_named "symbol" fun n => yields_pure ?_
    rw [List.append_nil]
    rfl

/-! ## Parts -/

/-- A cell and the bytes that it was read from: its encoding. It is valid unless it is too long. -/
def Canonical (c : Cell) (taken : Bytes) : Prop :=
  taken = c.encode ∧ (c.encode.length ≤ maxEncoding → c.Valid 0)

/-- A part and the bytes that it was read from. -/
def CanonicalPart (r : Ref) (taken : Bytes) : Prop :=
  taken = r.encode ∧ r.Valid 0 ∧ r.Written

/-- A cell without its tag, which is still to be checked, and the bytes that it was read from. -/
def CanonicalBody (tag : UInt8) (c : Cell) (taken : Bytes) : Prop :=
  tag :: taken = c.encode ∧ (c.check = .ok () → c.encode.length ≤ maxEncoding → c.Valid 0)

section Parts
variable {readCell : Reader Cell}

/-- The first byte decides whether a part is written as a hash or in place. -/
theorem child_apply (readCell : Reader Cell) (bs : Bytes) :
    child readCell bs =
      if bs.head? = some refTag then (do let _ ← byte; pure (Ref.remote (← hash))) bs
      else (do
        let c ← readCell
        if c.isEmbeddable then pure (Ref.of c) else fail (.nonCanonical .oversizedChild)) bs := by
  unfold child
  rw [bind_apply, peek, ok_bind]
  split <;> rfl

theorem yields_remote : Yields (do let _ ← byte; pure (Ref.remote (← hash))) fun r taken =>
    ∃ b h, r = .remote h ∧ taken = b :: h.bytes := by
  refine yields_byte.bind fun b taken hb => yields_hash.bind fun h more hh => yields_pure ?_
  subst hb hh
  exact ⟨b, h, rfl, by rw [List.append_nil]; rfl⟩

/-- A part that is written in place is small enough for it, or refused. -/
theorem yields_inline (h : Yields readCell Canonical) :
    Yields (do
      let c ← readCell
      if c.isEmbeddable then pure (Ref.of c) else fail (.nonCanonical .oversizedChild))
      CanonicalPart := by
  refine h.bind fun c taken hc => Yields.ite (fun hsmall => yields_pure ?_) fun _ => yields_fail _
  obtain ⟨rfl, hvalid⟩ := hc
  have hlen : c.encode.length ≤ maxEmbedded := of_decide_eq_true hsmall
  refine ⟨?_, Ref.valid_of (hvalid (Nat.le_trans hlen (by decide))), fun d hd => ?_⟩
  · rw [List.append_nil, Ref.encode_of, if_pos hsmall]
  · rw [Ref.isEmbedded_of]
    exact hsmall

/-- Either way the bytes are those that the part is written as. -/
theorem yields_child (h : Yields readCell Canonical) :
    Yields (child readCell) CanonicalPart := by
  constructor
  · intro bs r rest hr
    rw [child_apply] at hr
    by_cases hhead : bs.head? = some refTag
    · rw [if_pos hhead] at hr
      -- whichever byte stood there, a hash follows
      obtain ⟨taken, rfl, b, hash, rfl, rfl⟩ := yields_remote.ok bs r rest hr
      -- the first byte is the reference tag, as the reader has seen
      cases hhead
      exact ⟨_, rfl, rfl, Ref.valid_remote 0 hash, fun d hd => by cases hd⟩
    · rw [if_neg hhead] at hr
      exact (yields_inline h).ok bs r rest hr
  · intro bs e he
    rw [child_apply] at he
    by_cases hhead : bs.head? = some refTag
    · rw [if_pos hhead] at he
      exact yields_remote.error bs e he
    · rw [if_neg hhead] at he
      exact (yields_inline h).error bs e he

/-- Parts one after another, as many as were asked for. -/
theorem yields_children (h : Yields readCell Canonical) (n : Nat) :
    Yields (children readCell n) fun rs taken =>
      taken = encodeRefs rs ∧ rs.length = n ∧ ∀ r ∈ rs, r.Valid 0 ∧ r.Written := by
  induction n with
  | zero => exact yields_pure ⟨rfl, rfl, fun r hr => by cases hr⟩
  | succ n ih =>
    refine (yields_child h).bind fun r taken hr => ih.bind fun rs more hrs => yields_pure ?_
    obtain ⟨rfl, hvalid, hwritten⟩ := hr
    obtain ⟨rfl, hlen, hall⟩ := hrs
    refine ⟨by rw [List.append_nil, encodeRefs], by rw [List.length_cons, hlen], ?_⟩
    intro r' hr'
    rcases List.mem_cons.1 hr' with rfl | hr'
    · exact ⟨hvalid, hwritten⟩
    · exact hall r' hr'

/-- A vector of the right form, made of parts that have been read, is valid. -/
theorem valid_vector {v : Vec} (shaped : v.Shaped) (hmax : v.count ≤ maxCount)
    (h : ∀ r ∈ v.refs, r.Valid 0 ∧ r.Written) : (Cell.vector v).Valid 0 :=
  Cell.valid_iff.2 ⟨shaped,
    Vec.room_of_written shaped (fun r hr => (h r hr).1) (fun r hr => (h r hr).2) hmax,
    fun r hr => (h r hr).1⟩

/-- The count comes first and says how many parts follow, and of which kinds. -/
theorem yields_vec (h : Yields readCell Canonical) :
    Yields (vec readCell) fun v taken =>
      taken = v.encode ∧ (v.check = .ok () → (Cell.vector v).Valid 0) := by
  refine (yields_count maxCount).bind fun n taken hn => ?_
  obtain ⟨rfl, hmax⟩ := hn
  refine Yields.ite (fun htree => ?_) fun htree => ?_
  · -- the count is that of a tree
    refine (yields_children h (childCount n)).bind fun rs more hrs => yields_pure ?_
    obtain ⟨rfl, hlen, hall⟩ := hrs
    refine ⟨by rw [List.append_nil, Vec.encode], fun hcheck => ?_⟩
    exact valid_vector (Vec.shaped_tree_iff.2 ⟨htree, hlen, hcheck⟩) hmax hall
  · -- otherwise the items come first, and the front of a tail behind them
    refine (yields_children h (tailLength n)).bind fun items more hitems => ?_
    obtain ⟨rfl, hlen, hall⟩ := hitems
    have htree : isTreeCount n = false := Bool.eq_false_iff.2 htree
    refine Yields.ite (fun htail => ?_) fun htail => yields_pure ?_
    · refine (yields_child h).bind fun front more hfront => yields_pure ?_
      obtain ⟨rfl, hvalid, hwritten⟩ := hfront
      refine ⟨by rw [List.append_nil, Vec.encode], fun hcheck => ?_⟩
      refine valid_vector (Vec.shaped_tailed_iff.2 ⟨htree, htail, hlen, hcheck⟩) hmax ?_
      intro r hr
      rcases List.mem_append.1 hr with hr | hr
      · exact hall r hr
      · cases List.mem_singleton.1 hr
        exact ⟨hvalid, hwritten⟩
    -- nothing in front of the tail means that the tail is all, so this is a single chunk
    · have hsmall : n ≤ chunkSize := by
        refine Nat.le_of_not_lt fun hlt => ?_
        have : n % chunkSize < chunkSize := Nat.mod_lt _ (by decide)
        rw [tailLength_of_lt hlt] at htail
        omega
      rw [tailLength_of_le hsmall] at hlen
      refine ⟨by rw [List.append_nil, Vec.encode, hlen], fun _ => ?_⟩
      refine valid_vector (v := .chunk items) ?_ ?_ hall
      · exact Nat.le_trans (Nat.le_of_eq hlen) hsmall
      · exact Nat.le_trans (Nat.le_of_eq hlen) hmax

/-- Entries read behind the key hash `last` increase, from that hash on. -/
theorem yields_entries (h : Yields readCell Canonical) (n : Nat) (last : Option Hash) :
    Yields (entries readCell n last) fun es taken =>
      taken = encodeEntries es ∧ es.length = n ∧ Increasing es ∧
        (∀ hash ∈ last, ∀ e ∈ es, hash < e.1.hash) ∧
          ∀ e ∈ es, e.1.Valid 0 ∧ e.2.Valid 0 := by
  induction n generalizing last with
  | zero =>
    exact yields_pure ⟨rfl, rfl, List.Pairwise.nil,
      fun _ _ _ he => absurd he List.not_mem_nil, fun _ he => absurd he List.not_mem_nil⟩
  | succ n ih =>
    refine (yields_child h).bind fun k taken hk => ?_
    obtain ⟨rfl, hkey, -⟩ := hk
    refine Yields.ite (fun _ => yields_fail _) fun horder => ?_
    -- the check against the key before; without one there is nothing to compare
    have hlast : ∀ hash ∈ last, hash < k.hash := by
      intro hash hmem
      cases hmem
      simpa using horder
    refine (yields_child h).bind fun v more hv => ?_
    obtain ⟨rfl, hvalue, -⟩ := hv
    refine (ih (some k.hash)).bind fun es more hes => yields_pure ?_
    obtain ⟨rfl, hlen, hinc, habove, hall⟩ := hes
    refine ⟨by rw [List.append_nil, encodeEntries], by rw [List.length_cons, hlen], ?_, ?_, ?_⟩
    -- the keys behind are above this one since each was compared with the one before it
    · exact List.pairwise_cons.2 ⟨habove k.hash rfl, hinc⟩
    · intro hash hmem e he
      have hlt := hlast hash hmem
      rcases List.mem_cons.1 he with rfl | he
      · exact hlt
      · exact Hash.lt_trans hlt (habove k.hash rfl e he)
    · intro e he
      rcases List.mem_cons.1 he with rfl | he
      · exact ⟨hkey, hvalue⟩
      · exact hall e he

/-- The associations of a map increase, which makes it shaped. -/
theorem yields_map (h : Yields readCell Canonical) :
    Yields (map readCell) (CanonicalBody 0x82) := by
  refine (yields_count maxEncoding).bind fun n taken hn => ?_
  obtain ⟨rfl, -⟩ := hn
  refine (yields_entries h n none).bind fun es more hes => yields_pure ?_
  obtain ⟨rfl, rfl, hinc, -, hall⟩ := hes
  refine ⟨by rw [List.append_nil, Cell.encode], fun _ hfits => ?_⟩
  refine Cell.valid_iff.2 ⟨⟨hinc, hfits⟩, trivial, fun r hr => ?_⟩
  -- every reference of a map is the key or the value of an association
  obtain ⟨e, he, hr⟩ := List.mem_flatMap.1 hr
  rcases List.mem_cons.1 hr with rfl | hr
  · exact (hall e he).1
  · cases List.mem_singleton.1 hr
    exact (hall e he).2

/-- A record has as many fields as its format wants, or is refused. -/
theorem yields_record (h : Yields readCell Canonical) (format : RecordFormat) :
    Yields (record readCell format) (CanonicalBody format.tag) := by
  refine (yields_count maxEncoding).bind fun n taken hn => ?_
  obtain ⟨rfl, -⟩ := hn
  refine Yields.ite (fun harity => ?_) fun _ => yields_fail _
  refine (yields_children h n).bind fun fields more hfields => yields_pure ?_
  obtain ⟨rfl, rfl, hall⟩ := hfields
  refine ⟨by rw [List.append_nil, Cell.encode], fun _ _ => ?_⟩
  exact Cell.valid_iff.2 ⟨harity, trivial, fun r hr => (hall r hr).1⟩

/-- What the reader of ops has read: an op, its type among it, and valid parts. -/
def CanonicalOp (o : Op) (taken : Bytes) : Prop :=
  taken = o.encode ∧ ∀ r ∈ o.refs, r.Valid 0

/-- Ops with one part differ in nothing but a byte before it. -/
theorem yields_op_of_child (h : Yields readCell Canonical) {make : Ref → Op} {type : UInt8}
    (encode : ∀ r, (make r).encode = type :: r.encode) (refs : ∀ r, (make r).refs = [r]) :
    Yields (do pure (make (← child readCell))) fun o more => CanonicalOp o ([type] ++ more) := by
  refine (yields_child h).bind fun r taken hr => yields_pure ?_
  obtain ⟨rfl, hvalid, -⟩ := hr
  refine ⟨by rw [List.append_nil, encode]; rfl, fun r' hr' => ?_⟩
  rw [refs] at hr'
  cases List.mem_singleton.1 hr'
  exact hvalid

theorem yields_op_of_children (h : Yields readCell Canonical) {make : Ref → Ref → Op}
    {type : UInt8} (encode : ∀ r s, (make r s).encode = type :: (r.encode ++ s.encode))
    (refs : ∀ r s, (make r s).refs = [r, s]) :
    Yields (do let r ← child readCell; pure (make r (← child readCell))) fun o more =>
      CanonicalOp o ([type] ++ more) := by
  refine (yields_child h).bind fun r taken hr => ?_
  refine (yields_child h).bind fun s more hs => yields_pure ?_
  obtain ⟨rfl, hfirst, -⟩ := hr
  obtain ⟨rfl, hsecond, -⟩ := hs
  refine ⟨by rw [List.append_nil, encode]; rfl, fun r' hr' => ?_⟩
  rw [refs] at hr'
  rcases List.mem_cons.1 hr' with rfl | hr'
  · exact hfirst
  · cases List.mem_singleton.1 hr'
    exact hsecond

/-- The first byte of an op says which one it is. -/
theorem yields_op (h : Yields readCell Canonical) : Yields (op readCell) CanonicalOp := by
  refine yields_byte.bind fun type taken htype => ?_
  subst htype
  split
  · exact yields_op_of_child h (fun r => by rw [Op.encode]) fun r => rfl
  · exact yields_op_of_child h (fun r => by rw [Op.encode]) fun r => rfl
  · exact yields_op_of_child h (fun r => by rw [Op.encode]) fun r => rfl
  · -- a definition has a name in front of its part
    refine yields_symbol.bind fun n taken hn => (yields_child h).bind fun r more hr => ?_
    obtain ⟨rfl, hvalid, -⟩ := hr
    subst hn
    refine yields_pure ⟨by rw [List.append_nil, Op.encode]; rfl, fun r' hr' => ?_⟩
    cases List.mem_singleton.1 hr'
    exact hvalid
  · exact yields_op_of_child h (fun r => by rw [Op.encode]) fun r => rfl
  · exact yields_op_of_children h (fun r s => by rw [Op.encode]) fun r s => rfl
  · exact yields_op_of_children h (fun r s => by rw [Op.encode]) fun r s => rfl
  · refine yields_symbol.bind fun n taken hn => yields_pure ?_
    subst hn
    exact ⟨by rw [List.append_nil, Op.encode]; rfl, fun r hr => absurd hr List.not_mem_nil⟩
  · exact yields_fail _

theorem yields_closure (h : Yields readCell Canonical) :
    Yields (closure readCell) fun c taken => taken = c.encode ∧ ∀ r ∈ c.refs, r.Valid 0 := by
  refine (yields_child h).bind fun params taken hparams => ?_
  refine (yields_child h).bind fun body more hbody => ?_
  refine (yields_child h).bind fun env more henv => ?_
  refine yields_closureName.bind fun name more hname => yields_pure ?_
  obtain ⟨rfl, hp, -⟩ := hparams
  obtain ⟨rfl, hb, -⟩ := hbody
  obtain ⟨rfl, he, -⟩ := henv
  subst hname
  refine ⟨by rw [List.append_nil, Closure.encode], fun r hr => ?_⟩
  simp only [Closure.refs, List.mem_cons, List.not_mem_nil, or_false] at hr
  rcases hr with rfl | rfl | rfl
  · exact hp
  · exact hb
  · exact he

/-! ## Cells -/

/-- A cell without parts is valid as soon as it passes the checks, which ask for nothing. -/
theorem canonicalBody_of_no_refs {tag : UInt8} {c : Cell} {taken : Bytes} (hrefs : c.refs = [])
    (hshaped : c.Shaped) (hroom : c.Room 0) (h : tag :: taken = c.encode) :
    CanonicalBody tag c taken :=
  ⟨h, fun _ _ => Cell.valid_of_no_refs hshaped hroom hrefs⟩

/-- The bytes of a string are no more than fit, so it can be built. -/
theorem yields_stringCell : Yields stringCell (CanonicalBody 0x30) := by
  refine (yields_count maxPayloadSize).bind fun n taken hn => ?_
  obtain ⟨rfl, hmax⟩ := hn
  refine (yields_text n).bind fun s more hs => ?_
  obtain ⟨rfl, rfl⟩ := hs
  have ht : Text.ofString s = .ok ⟨s, hmax⟩ := Text.ofString_eq_ok_iff.2 rfl
  have hread := yields_ofData (R := fun t more => t = ⟨s, hmax⟩ ∧ more = []) ht ⟨rfl, rfl⟩
  refine hread.bind fun t more ht => yields_pure ?_
  obtain ⟨rfl, rfl⟩ := ht
  refine canonicalBody_of_no_refs rfl rfl trivial ?_
  rw [Cell.encode, encodeBytes, Bytes.length_ofText, List.append_nil, List.append_nil]

theorem yields_blobCell : Yields blobCell (CanonicalBody 0x31) := by
  refine (yields_count maxPayloadSize).bind fun n taken hn => ?_
  obtain ⟨rfl, hmax⟩ := hn
  refine (yields_take n).bind fun bs more hbs => ?_
  obtain ⟨rfl, rfl⟩ := hbs
  have hb : Blob.ofBytes more = .ok ⟨more, hmax⟩ := Blob.ofBytes_eq_ok_iff.2 rfl
  have hread := yields_ofData (R := fun b rest => b = ⟨more, hmax⟩ ∧ rest = []) hb ⟨rfl, rfl⟩
  refine hread.bind fun b rest hb => yields_pure ?_
  obtain ⟨rfl, rfl⟩ := hb
  refine canonicalBody_of_no_refs rfl rfl trivial ?_
  rw [Cell.encode, encodeBytes, List.append_nil, List.append_nil]

theorem coreFn_of_ofId? {b : UInt8} {f : CoreFn} (h : CoreFn.ofId? b = some f) : f.id = b := by
  have := List.find?_some h
  exact beq_iff_eq.1 this

theorem yields_coreCell : Yields coreCell (CanonicalBody 0xcd) := by
  refine yields_byte.bind fun b taken hb => ?_
  subst hb
  cases hf : CoreFn.ofId? b with
  | none => exact yields_fail _
  | some f =>
    refine yields_pure (canonicalBody_of_no_refs rfl rfl trivial ?_)
    rw [Cell.encode, coreFn_of_ofId? hf]
    rfl

theorem recordFormat_of_ofTag? {tag : UInt8} {format : RecordFormat}
    (h : RecordFormat.ofTag? tag = some format) : format.tag = tag := by
  have := List.find?_some h
  exact beq_iff_eq.1 this

theorem yields_body (h : Yields readCell Canonical) (tag : UInt8) :
    Yields (body readCell tag) (CanonicalBody tag) := by
  unfold body
  split
  -- the cases come in the order in which the reader lists the tags
  · exact yields_pure (canonicalBody_of_no_refs rfl rfl trivial (by rw [Cell.encode]))
  · exact yields_pure (canonicalBody_of_no_refs rfl rfl trivial (by rw [Cell.encode]))
  · exact yields_pure (canonicalBody_of_no_refs rfl rfl trivial (by rw [Cell.encode]))
  · refine yields_long.bind fun x taken hx => yields_pure ?_
    subst hx
    refine canonicalBody_of_no_refs rfl rfl trivial ?_
    rw [List.append_nil, Cell.encode]
  · exact yields_stringCell
  · exact yields_blobCell
  · refine yields_named "symbol" fun n => yields_pure ?_
    refine canonicalBody_of_no_refs rfl rfl trivial ?_
    rw [List.append_nil, Cell.encode]
    rfl
  · refine yields_named "keyword" fun n => yields_pure ?_
    refine canonicalBody_of_no_refs rfl rfl trivial ?_
    rw [List.append_nil, Cell.encode]
    rfl
  · refine (yields_vec h).bind fun v taken hv => yields_pure ?_
    obtain ⟨rfl, hvalid⟩ := hv
    exact ⟨by rw [List.append_nil, Cell.encode], fun hcheck _ => hvalid hcheck⟩
  · exact yields_map h
  · refine (yields_op h).bind fun o taken ho => yields_pure ?_
    obtain ⟨rfl, hall⟩ := ho
    refine ⟨by rw [List.append_nil, Cell.encode], fun hcheck _ => ?_⟩
    exact Cell.valid_iff.2 ⟨hcheck, trivial, hall⟩
  · exact yields_coreCell
  · refine (yields_closure h).bind fun c taken hc => yields_pure ?_
    obtain ⟨rfl, hall⟩ := hc
    refine ⟨by rw [List.append_nil, Cell.encode], fun hcheck _ => ?_⟩
    exact Cell.valid_iff.2 ⟨hcheck, trivial, hall⟩
  · exact yields_fail _
  · split
    · next format hformat =>
      have htag := recordFormat_of_ofTag? hformat
      subst htag
      exact yields_record h format
    · exact yields_fail _

/-- What has been read is checked, so only shaped cells come back. -/
theorem yields_cellWith (h : Yields readCell Canonical) :
    Yields (cellWith readCell) Canonical := by
  refine yields_byte.bind fun tag taken htag => (yields_body h tag).bind fun c more hc => ?_
  subst htag
  obtain ⟨hbytes, hvalid⟩ := hc
  cases hcheck : c.check with
  | error e => exact yields_fail e
  | ok u => exact yields_pure ⟨by rw [List.append_nil]; exact hbytes, hvalid hcheck⟩

end Parts

/-- Whatever the number of levels, what is read is canonical. -/
theorem yields_cell (levels : Nat) : Yields (cell levels) Canonical := by
  -- on the levels: what is nested in a cell is read with one level less
  induction levels with
  | zero => exact yields_fail _
  | succ levels ih => exact yields_cellWith ih

end Reader

/-! ## Whole byte strings -/

/-- Decoding succeeds if a cell is read and nothing is left. -/
theorem decode_eq_ok {bs : Bytes} {c : Cell} (h : decode bs = .ok c) :
    bs.length ≤ maxEncoding ∧ bs.head? ≠ some refTag ∧ Reader.cell bs.length bs = .ok (c, []) := by
  unfold decode at h
  by_cases hlen : maxEncoding < bs.length
  · rw [if_pos hlen] at h
    cases h
  rw [if_neg hlen] at h
  by_cases href : bs.head? = some refTag
  · rw [if_pos href] at h
    cases h
  rw [if_neg href] at h
  refine ⟨Nat.le_of_not_lt hlen, href, ?_⟩
  -- what is left over would have been refused
  split at h
  · cases h
  · next c' hread =>
    cases h
    exact hread
  · cases h

/-- What is decoded is in the one form that its contents allow. -/
theorem valid_of_decode {bs : Bytes} {c : Cell} (h : decode bs = .ok c) : c.Valid 0 := by
  obtain ⟨hlen, -, hread⟩ := decode_eq_ok h
  obtain ⟨taken, hbs, rfl, hvalid⟩ := (Reader.yields_cell bs.length).ok bs c [] hread
  rw [List.append_nil] at hbs
  exact hvalid (hbs ▸ hlen)

/-- The bytes are the encoding of what was decoded from them. -/
theorem encode_of_decode {bs : Bytes} {c : Cell} (h : decode bs = .ok c) : c.encode = bs := by
  obtain ⟨-, -, hread⟩ := decode_eq_ok h
  obtain ⟨taken, hbs, rfl, -⟩ := (Reader.yields_cell bs.length).ok bs c [] hread
  rw [hbs, List.append_nil]

/-- Decoding never reports that something is missing, since it looks into no store. -/
theorem format_of_decode {bs : Bytes} {e : DataError} (h : decode bs = .error e) :
    ∃ f, e = .format f := by
  unfold decode at h
  split at h
  · cases h
    exact ⟨_, rfl⟩
  split at h
  · cases h
    exact ⟨_, rfl⟩
  split at h
  · next e' hread =>
    cases h
    exact (Reader.yields_cell bs.length).error bs e hread
  · cases h
  · cases h
    exact ⟨_, rfl⟩

/-- The decoder accepts canonical bytes only. What is decoded is encoded by the very bytes that it
was decoded from, every cell that is read from within a byte string is encoded by the bytes that are
taken off for it, and bytes are refused for no other reason than their format. -/
theorem decode_canonical (bs : Bytes) :
    (∀ c, decode bs = .ok c → c.encode = bs) ∧
      (∀ levels c rest, Reader.cell levels bs = .ok (c, rest) → c.encode ++ rest = bs) ∧
        ∀ e, decode bs = .error e → ∃ f, e = .format f := by
  refine ⟨fun c h => encode_of_decode h, fun levels c rest h => ?_, fun e h => format_of_decode h⟩
  obtain ⟨taken, hbs, rfl, -⟩ := (Reader.yields_cell levels).ok bs c rest h
  exact hbs.symm

/-- A vector with a vector inside is encoded by the bytes that it was decoded from. -/
theorem encode_decode_nested : ∃ c, decode [0x80, 0x02, 0x80, 0x01, 0x09, 0x05, 0x00] = .ok c ∧
    c.encode = [0x80, 0x02, 0x80, 0x01, 0x09, 0x05, 0x00] := by
  have h : ∃ c, decode [0x80, 0x02, 0x80, 0x01, 0x09, 0x05, 0x00] = .ok c := ⟨_, rfl⟩
  obtain ⟨c, hc⟩ := h
  exact ⟨c, hc, (decode_canonical _).1 c hc⟩

end CellMachine
