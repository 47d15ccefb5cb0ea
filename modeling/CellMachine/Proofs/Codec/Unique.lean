import CellMachine.Proofs.Codec.RoundTrip

/-!
# An encoding has one reading

Two valid cells with the same encoding differ in nothing that is written: they are of the same kind,
agree in their payload, and have in the same places references of the same hash that are embedded in
one cell exactly if they are in the other. No bound on counts is needed, and nothing is asked of
hashes.

What is proved by induction over held parts is more: two valid cells cannot be told apart by the bytes
that start with their encodings (`Cell.Told`). So no encoding is the beginning of another one.

Main statement: `Cell.Valid.alike_of_encode`.
-/

namespace CellMachine

/-! ## Texts and numbers -/

/-- A string has one UTF-8 form, which reads back as that string. -/
theorem Bytes.ofText_injective {s t : String} (h : ofText s = ofText t) : s = t := by
  have hread := toText?_ofText s
  rw [h, toText?_ofText] at hread
  exact (Option.some.inj hread).symm

theorem Text.val_injective {s t : Text} (h : s.val = t.val) : s = t := by
  cases s; cases t; cases h; rfl

theorem Blob.bytes_injective {a b : Blob} (h : a.bytes = b.bytes) : a = b := by
  cases a; cases b; cases h; rfl

/-- Bytes with their number in front of them show where they end. -/
theorem append_inj_of_counted {as as' bs cs : Bytes}
    (h : Vlc.encodeNat as.length ++ (as ++ bs) = Vlc.encodeNat as'.length ++ (as' ++ cs)) :
    as = as' ∧ bs = cs := by
  obtain ⟨hlen, hrest⟩ := Vlc.encodeNat_append_inj h
  exact List.append_inj hrest hlen

theorem encodeName_append_inj {tag : UInt8} {n m : Name} {bs cs : Bytes}
    (h : encodeName tag n ++ bs = encodeName tag m ++ cs) : n = m ∧ bs = cs := by
  simp only [encodeName, List.cons_append, List.cons.injEq, true_and] at h
  obtain ⟨hsize, hrest⟩ := h
  -- the byte in front determines the length, since names are short
  have hbyte : ∀ k : Name, (UInt8.ofNat k.val.utf8ByteSize).toNat = k.val.utf8ByteSize := by
    intro k
    have := k.fits
    rw [UInt8.toNat_ofNat', Nat.mod_eq_of_lt]
    simp only [maxNameSize] at this
    omega
  have hlen : (Bytes.ofText n.val).length = (Bytes.ofText m.val).length := by
    rw [Bytes.length_ofText, Bytes.length_ofText, ← hbyte n, hsize, hbyte m]
  obtain ⟨htext, hrest⟩ := List.append_inj hrest hlen
  exact ⟨Name.val_injective (Bytes.ofText_injective htext), hrest⟩

/-- A closure with a name and one without differ in the first byte. -/
theorem encodeClosureName_append_inj {n m : Option Name} {bs cs : Bytes}
    (h : encodeClosureName n ++ bs = encodeClosureName m ++ cs) : n = m ∧ bs = cs := by
  have htag : absentTag ≠ symbolTag := by decide
  cases n with
  | none =>
    cases m with
    | none => exact ⟨rfl, (List.cons.inj h).2⟩
    | some m => exact absurd (List.cons.inj h).1 htag
  | some n =>
    cases m with
    | none => exact absurd (List.cons.inj h).1 htag.symm
    | some m =>
      obtain ⟨rfl, hrest⟩ := encodeName_append_inj h
      exact ⟨rfl, hrest⟩

theorem CoreFn.id_injective {f g : CoreFn} (h : f.id = g.id) : f = g := by
  have hf := CoreFn.ofId?_id f
  rw [h, CoreFn.ofId?_id] at hf
  exact (Option.some.inj hf).symm

theorem RecordFormat.tag_injective {f g : RecordFormat} (h : f.tag = g.tag) : f = g := by
  refine Option.some.inj ?_
  rw [← RecordFormat.ofTag?_tag f, h, RecordFormat.ofTag?_tag]

/-! ## References -/

/-- References of the same hash that are written in the same way. -/
structure Ref.Spelled (r s : Ref) : Prop where
  hash : s.hash = r.hash
  embedded : s.isEmbedded = r.isEmbedded
  encode : s.encode = r.encode

section Parts
variable {w : Nat}

/-- A reference that is told from other valid references by the bytes that start with it. -/
def Ref.Told (w : Nat) (r : Ref) : Prop :=
  ∀ (s : Ref) (bs cs : Bytes), s.Valid w → r.encode ++ bs = s.encode ++ cs → r.Spelled s ∧ bs = cs

/-- A cell that is told from other valid cells, but for the way in which references hold their
cells, by the bytes that start with it. -/
def Cell.Told (w : Nat) (c : Cell) : Prop :=
  ∀ (d : Cell) (bs cs : Bytes), d.Valid w → c.encode ++ bs = d.encode ++ cs →
    c.Alike Ref.Spelled d ∧ bs = cs

/-- The first byte of a reference shows whether it is embedded. -/
theorem Ref.head?_encode_eq_iff (r : Ref) : r.encode.head? = some refTag ↔ r.isEmbedded = false := by
  constructor
  · intro h
    refine Bool.eq_false_iff.2 fun hemb => ?_
    obtain ⟨c, -, hc⟩ := Ref.encode_of_embedded hemb
    rw [hc, c.head?_encode] at h
    exact c.tag_ne_refTag (Option.some.inj h)
  · intro h
    rw [Ref.encode_of_not_embedded h]
    rfl

/-- A part that is written as a hash is told by the hash, one that is written in place by what it
holds. -/
theorem Ref.Valid.told {r : Ref} (hr : r.Valid w) (h : ∀ c, r.held? = some c → c.Told w) :
    r.Told w := by
  intro s bs cs hs heq
  -- the first byte says of both parts how they are written
  have hhead : r.encode.head? = s.encode.head? := by
    have := congrArg List.head? heq
    rwa [List.head?_append_of_ne_nil, List.head?_append_of_ne_nil] at this
    · exact List.ne_nil_of_length_pos s.length_encode_pos
    · exact List.ne_nil_of_length_pos r.length_encode_pos
  cases hremb : r.isEmbedded with
  | false =>
    have hsemb : s.isEmbedded = false := by
      rw [← s.head?_encode_eq_iff, ← hhead, r.head?_encode_eq_iff]
      exact hremb
    rw [Ref.encode_of_not_embedded hremb, Ref.encode_of_not_embedded hsemb] at heq
    obtain ⟨hbytes, hrest⟩ := List.append_inj (List.cons.inj heq).2 (by
      rw [r.hash.size_eq, s.hash.size_eq])
    have hhash := Hash.bytes_injective hbytes
    refine ⟨⟨hhash.symm, by rw [hremb, hsemb], ?_⟩, hrest⟩
    rw [Ref.encode_of_not_embedded hremb, Ref.encode_of_not_embedded hsemb, hhash]
  | true =>
    have hsemb : s.isEmbedded = true := by
      rw [← Bool.not_eq_false, ← s.head?_encode_eq_iff, ← hhead, r.head?_encode_eq_iff, hremb]
      exact Bool.noConfusion
    obtain ⟨c, hc, hrc⟩ := Ref.encode_of_embedded hremb
    obtain ⟨d, hd, hsd⟩ := Ref.encode_of_embedded hsemb
    rw [hrc, hsd] at heq
    obtain ⟨halike, hrest⟩ := h c hc d bs cs (hs d hd).2 heq
    have hsame : d.encode = c.encode := halike.encode_eq fun _ _ hspelled => hspelled.encode
    refine ⟨⟨?_, by rw [hremb, hsemb], by rw [hrc, hsd, hsame]⟩, hrest⟩
    rw [(hr c hc).1.hash, (hs d hd).1.hash, Cell.hash, Cell.hash, hsame]

/-- Parts one after another are told apart one after another. -/
theorem encodeRefs_append_inj {rs ss : List Ref} {bs cs : Bytes} (h : ∀ r ∈ rs, r.Told w)
    (hs : ∀ s ∈ ss, s.Valid w) (hlen : rs.length = ss.length)
    (heq : encodeRefs rs ++ bs = encodeRefs ss ++ cs) :
    List.Forall₂ Ref.Spelled rs ss ∧ bs = cs := by
  induction rs generalizing ss with
  | nil =>
    cases List.length_eq_zero_iff.1 hlen.symm
    exact ⟨.nil, heq⟩
  | cons r rs ih =>
    obtain ⟨s, ss, rfl⟩ := List.exists_cons_of_length_eq_add_one hlen.symm
    rw [encodeRefs, encodeRefs, List.append_assoc, List.append_assoc] at heq
    obtain ⟨hr, hrest⟩ := h r List.mem_cons_self s _ _ (hs s List.mem_cons_self) heq
    obtain ⟨hrs, hend⟩ := ih (fun r hr => h r (List.mem_cons_of_mem _ hr))
      (fun s hs' => hs s (List.mem_cons_of_mem _ hs')) (Nat.succ.inj hlen) hrest
    exact ⟨.cons hr hrs, hend⟩

theorem encodeEntries_append_inj {es fs : List (Ref × Ref)} {bs cs : Bytes}
    (h : ∀ e ∈ es, e.1.Told w ∧ e.2.Told w) (hf : ∀ f ∈ fs, f.1.Valid w ∧ f.2.Valid w)
    (hlen : es.length = fs.length) (heq : encodeEntries es ++ bs = encodeEntries fs ++ cs) :
    List.Forall₂ (fun e f => e.1.Spelled f.1 ∧ e.2.Spelled f.2) es fs ∧ bs = cs := by
  induction es generalizing fs with
  | nil =>
    cases List.length_eq_zero_iff.1 hlen.symm
    exact ⟨.nil, heq⟩
  | cons e es ih =>
    obtain ⟨f, fs, rfl⟩ := List.exists_cons_of_length_eq_add_one hlen.symm
    obtain ⟨k, v⟩ := e
    obtain ⟨k', v'⟩ := f
    obtain ⟨hk, hv⟩ := h (k, v) List.mem_cons_self
    obtain ⟨hk', hv'⟩ := hf (k', v') List.mem_cons_self
    rw [encodeEntries, encodeEntries] at heq
    simp only [List.append_assoc] at heq
    -- each reference tells where it ends, so the two lists come apart in the same places
    obtain ⟨hkey, hrest⟩ := hk k' _ _ hk' heq
    obtain ⟨hvalue, hrest⟩ := hv v' _ _ hv' hrest
    obtain ⟨hes, hend⟩ := ih (fun e he => h e (List.mem_cons_of_mem _ he))
      (fun f hf' => hf f (List.mem_cons_of_mem _ hf')) (Nat.succ.inj hlen) hrest
    exact ⟨.cons ⟨hkey, hvalue⟩ hes, hend⟩

/-! ## Values -/

/-- The count settles the shape, and the shape how many references there are. -/
theorem Vec.encode_append_inj {v u : Vec} {bs cs : Bytes} (hv : v.Shaped) (hu : u.Shaped)
    (h : ∀ r ∈ v.refs, r.Told w) (hs : ∀ s ∈ u.refs, s.Valid w)
    (heq : v.encode ++ bs = u.encode ++ cs) : v.Alike Ref.Spelled u ∧ bs = cs := by
  rw [Vec.encode_eq, Vec.encode_eq, List.append_assoc, List.append_assoc] at heq
  obtain ⟨hcount, heq⟩ := Vlc.encodeNat_append_inj heq
  cases v with
  -- the count decides the shape, so both vectors are of the same one
  | chunk items =>
    obtain ⟨items', rfl⟩ := hu.exists_chunk hcount.symm hv
    obtain ⟨hitems, hend⟩ := encodeRefs_append_inj h hs hcount heq
    exact ⟨.chunk hitems, hend⟩
  | tailed n front items =>
    obtain ⟨front', items', rfl⟩ := hu.exists_tailed hcount.symm hv.1 hv.mod_ne_zero
    have hlen : items.length = items'.length := by
      rw [hv.2.2.1, hu.2.2.1]
      rfl
    rw [Vec.refs, Vec.refs, encodeRefs_append, encodeRefs_append, List.append_assoc,
      List.append_assoc] at heq
    obtain ⟨hitems, heq⟩ := encodeRefs_append_inj (fun r hr => h r (Vec.item_mem_refs hr))
      (fun s hs' => hs s (Vec.item_mem_refs hs')) hlen heq
    have hone : ∀ r : Ref, encodeRefs [r] = r.encode := fun r => List.append_nil r.encode
    rw [hone, hone] at heq
    obtain ⟨hfront, hend⟩ := h front Vec.front_mem_refs front' _ _ (hs _ Vec.front_mem_refs) heq
    exact ⟨.tailed hfront hitems, hend⟩
  | tree n children =>
    obtain ⟨children', rfl⟩ := hu.exists_tree hcount.symm hv.1 hv.2.1
    have hlen : children.length = children'.length := by
      rw [(Vec.shaped_tree_iff.1 hv).2.1, (Vec.shaped_tree_iff.1 hu).2.1]
      rfl
    obtain ⟨hchildren, hend⟩ := encodeRefs_append_inj h hs hlen heq
    exact ⟨.tree hchildren, hend⟩

theorem Op.head?_encode (o : Op) : o.encode.head? = some o.typeByte := by
  cases o <;> simp [encode, typeByte]

/-- The number of the type of ops that have a byte behind their tag. -/
def typeOfByte : UInt8 → Nat
  | 2 => 0
  | 3 => 1
  | 4 => 2
  | 6 => 3
  | 1 => 4
  | 7 => 5
  | 0 => 6
  | _ => 7

theorem Op.ctorIdx_eq (o : Op) : o.ctorIdx = typeOfByte o.typeByte := by
  cases o <;> rfl

/-- Ops that begin alike are of one type, and their parts are told in order. -/
theorem Op.encode_append_inj {o p : Op} {bs cs : Bytes} (h : ∀ r ∈ o.refs, r.Told w)
    (hs : ∀ s ∈ p.refs, s.Valid w) (heq : o.encode ++ bs = p.encode ++ cs) :
    o.Alike Ref.Spelled p ∧ bs = cs := by
  have hfirst : ∀ {r : Ref} {rs : List Ref}, r ∈ r :: rs := List.mem_cons_self
  have hsecond : ∀ {r s : Ref}, s ∈ [r, s] := List.mem_cons_of_mem _ List.mem_cons_self
  have htype : o.ctorIdx = p.ctorIdx := by
    have hhead := congrArg List.head? heq
    rw [List.head?_append, List.head?_append, o.head?_encode, p.head?_encode] at hhead
    rw [o.ctorIdx_eq, p.ctorIdx_eq, Option.some.inj hhead]
  -- what remains are the pairs of ops of one type
  cases o <;> cases p <;> cases htype <;>
    simp only [Op.encode, List.cons_append, List.cons.injEq, List.append_assoc, true_and] at heq
  case constant.constant.refl r s =>
    obtain ⟨hr, hend⟩ := h r hfirst s _ _ (hs s hfirst) heq
    exact ⟨.constant hr, hend⟩
  case sequence.sequence.refl r s =>
    obtain ⟨hr, hend⟩ := h r hfirst s _ _ (hs s hfirst) heq
    exact ⟨.sequence hr, hend⟩
  case choose.choose.refl r s =>
    obtain ⟨hr, hend⟩ := h r hfirst s _ _ (hs s hfirst) heq
    exact ⟨.choose hr, hend⟩
  case invoke.invoke.refl r s =>
    obtain ⟨hr, hend⟩ := h r hfirst s _ _ (hs s hfirst) heq
    exact ⟨.invoke hr, hend⟩
  case define.define.refl symbol r symbol' s =>
    obtain ⟨rfl, hrest⟩ := encodeName_append_inj heq
    obtain ⟨hr, hend⟩ := h r hfirst s _ _ (hs s hfirst) hrest
    exact ⟨.define hr, hend⟩
  case bind.bind.refl r r' s s' =>
    obtain ⟨hr, heq⟩ := h r hfirst s _ _ (hs s hfirst) heq
    obtain ⟨hr', hend⟩ := h r' hsecond s' _ _ (hs s' hsecond) heq
    exact ⟨.bind hr hr', hend⟩
  case lambda.lambda.refl r r' s s' =>
    obtain ⟨hr, heq⟩ := h r hfirst s _ _ (hs s hfirst) heq
    obtain ⟨hr', hend⟩ := h r' hsecond s' _ _ (hs s' hsecond) heq
    exact ⟨.lambda hr hr', hend⟩
  case lookup.lookup.refl symbol symbol' =>
    obtain ⟨rfl, hend⟩ := encodeName_append_inj heq
    exact ⟨.lookup symbol, hend⟩

/-- The parts of a closure and its name come one after another. -/
theorem Closure.encode_append_inj {c d : Closure} {bs cs : Bytes} (h : ∀ r ∈ c.refs, r.Told w)
    (hs : ∀ s ∈ d.refs, s.Valid w) (heq : c.encode ++ bs = d.encode ++ cs) :
    c.Alike Ref.Spelled d ∧ bs = cs := by
  obtain ⟨params, body, env, name⟩ := c
  obtain ⟨params', body', env', name'⟩ := d
  simp only [Closure.refs, List.forall_mem_cons] at h hs
  obtain ⟨hp, hb, he, -⟩ := h
  obtain ⟨hp', hb', he', -⟩ := hs
  rw [Closure.encode, Closure.encode] at heq
  simp only [List.append_assoc] at heq
  obtain ⟨hparams, heq⟩ := hp params' _ _ hp' heq
  obtain ⟨hbody, heq⟩ := hb body' _ _ hb' heq
  obtain ⟨henv, heq⟩ := he env' _ _ he' heq
  obtain ⟨hname, hend⟩ := encodeClosureName_append_inj heq
  exact ⟨⟨hparams, hbody, henv, hname⟩, hend⟩

/-- The number of the kind whose cells start with a tag. -/
def kindOfTag : UInt8 → Nat
  | 0x00 => 0
  | 0xb0 | 0xb1 => 1
  | 0x09 => 2
  | 0x30 => 3
  | 0x31 => 4
  | 0x32 => 5
  | 0x33 => 6
  | 0x80 => 7
  | 0x82 => 8
  | 0xad => 9
  | 0xc0 => 10
  | 0xcd => 11
  | _ => 12

theorem Cell.ctorIdx_eq (c : Cell) : c.ctorIdx = kindOfTag c.tag := by
  cases c with
  | bool b => cases b <;> rfl
  | record format fields => cases format; rfl
  | _ => rfl

/-- Cells that begin alike are of one kind, and then alike part by part. -/
theorem Cell.Valid.told {c : Cell} (hc : c.Valid w) : c.Told w := by
  -- on the cell, since a part that is written in place is told by the cell in it
  induction c using Cell.induction with
  | step c ih =>
    intro d bs cs hd heq
    have hrefs : ∀ r ∈ c.refs, r.Told w := fun r hr =>
      (hc.refs hr).told fun e he => ih r hr e he (hc.refs hr e he).2
    have hrefs' : ∀ s ∈ d.refs, s.Valid w := fun s hs => hd.refs hs
    have htag : c.tag = d.tag := by
      have hhead := congrArg List.head? heq
      rw [List.head?_append, List.head?_append, c.head?_encode, d.head?_encode] at hhead
      exact Option.some.inj hhead
    have hkind : c.ctorIdx = d.ctorIdx := by rw [c.ctorIdx_eq, d.ctorIdx_eq, htag]
    -- what remains are the pairs of cells of one kind
    cases c <;> cases d <;> cases hkind
    case nil.nil.refl => exact ⟨.nil, (List.cons.inj heq).2⟩
    case bool.bool.refl a b =>
      cases a <;> cases b <;> cases htag
      · exact ⟨.bool false, (List.cons.inj heq).2⟩
      · exact ⟨.bool true, (List.cons.inj heq).2⟩
    case long.long.refl n m =>
      rw [Cell.encode, Cell.encode] at heq
      obtain ⟨rfl, hend⟩ := Vlc.encode_append_inj (List.cons.inj heq).2
      exact ⟨.long n, hend⟩
    case text.text.refl s t =>
      rw [Cell.encode, Cell.encode, encodeBytes, encodeBytes, List.cons_append, List.cons_append,
        List.append_assoc, List.append_assoc] at heq
      obtain ⟨hbytes, hend⟩ := append_inj_of_counted (List.cons.inj heq).2
      cases Text.val_injective (Bytes.ofText_injective hbytes)
      exact ⟨.text s, hend⟩
    case blob.blob.refl a b =>
      rw [Cell.encode, Cell.encode, encodeBytes, encodeBytes, List.cons_append, List.cons_append,
        List.append_assoc, List.append_assoc] at heq
      obtain ⟨hbytes, hend⟩ := append_inj_of_counted (List.cons.inj heq).2
      cases Blob.bytes_injective hbytes
      exact ⟨.blob a, hend⟩
    case symbol.symbol.refl n m =>
      rw [Cell.encode, Cell.encode] at heq
      obtain ⟨rfl, hend⟩ := encodeName_append_inj heq
      exact ⟨.symbol n, hend⟩
    case keyword.keyword.refl n m =>
      rw [Cell.encode, Cell.encode] at heq
      obtain ⟨rfl, hend⟩ := encodeName_append_inj heq
      exact ⟨.keyword n, hend⟩
    case vector.vector.refl v u =>
      rw [Cell.encode, Cell.encode] at heq
      obtain ⟨halike, hend⟩ :=
        Vec.encode_append_inj hc.shaped hd.shaped hrefs hrefs' (List.cons.inj heq).2
      exact ⟨.vector halike, hend⟩
    case map.map.refl es fs =>
      rw [Cell.encode, Cell.encode, List.cons_append, List.cons_append, List.append_assoc,
        List.append_assoc] at heq
      obtain ⟨hlen, hrest⟩ := Vlc.encodeNat_append_inj (List.cons.inj heq).2
      obtain ⟨hall, hend⟩ := encodeEntries_append_inj
        (fun e he => ⟨hrefs _ (Cell.key_mem_refs he), hrefs _ (Cell.value_mem_refs he)⟩)
        (fun f hf => ⟨hrefs' _ (Cell.key_mem_refs hf), hrefs' _ (Cell.value_mem_refs hf)⟩) hlen hrest
      exact ⟨.map hall, hend⟩
    case record.record.refl format rs format' ss =>
      cases RecordFormat.tag_injective (f := format) (g := format') htag
      rw [Cell.encode, Cell.encode, List.cons_append, List.cons_append, List.append_assoc,
        List.append_assoc] at heq
      obtain ⟨hlen, hrest⟩ := Vlc.encodeNat_append_inj (List.cons.inj heq).2
      obtain ⟨hall, hend⟩ := encodeRefs_append_inj hrefs hrefs' hlen hrest
      exact ⟨.record hall, hend⟩
    case op.op.refl o p =>
      rw [Cell.encode, Cell.encode] at heq
      obtain ⟨halike, hend⟩ := Op.encode_append_inj hrefs hrefs' (List.cons.inj heq).2
      exact ⟨.op halike, hend⟩
    case core.core.refl f g =>
      rw [Cell.encode, Cell.encode] at heq
      obtain ⟨hid, hend⟩ := List.cons.inj (List.cons.inj heq).2
      cases CoreFn.id_injective hid
      exact ⟨.core f, hend⟩
    case fn.fn.refl f g =>
      rw [Cell.encode, Cell.encode] at heq
      obtain ⟨halike, hend⟩ := Closure.encode_append_inj hrefs hrefs' (List.cons.inj heq).2
      exact ⟨.fn halike, hend⟩

end Parts

/-- Valid cells with the same encoding are alike: references in the same places have the same hash,
and are embedded in both cells or in neither. -/
theorem Cell.Valid.alike_of_encode {w w' : Nat} {c d : Cell} (hc : c.Valid w) (hd : d.Valid w')
    (h : c.encode = d.encode) : c.Alike Ref.Spelled d := by
  have hc := hc.mono (Nat.le_max_left w w')
  have hd := hd.mono (Nat.le_max_right w w')
  have heq : c.encode ++ [] = d.encode ++ [] := by rw [h]
  exact (hc.told d [] [] hd heq).1

end CellMachine
