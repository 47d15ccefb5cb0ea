import CellMachine.Proofs.Vec.Nodes

/-!
# Vectors built from their elements are valid

A list of references is cut into full chunks and a rest, and the chunks are packed under as many
levels as their number needs. The tree over `c` chunks has the shape of its count because the cut is
by the largest power of 32 below `c`, which is a thirty-second of the size of a child
(`Vec.valid_pack`).

Main statement: `Vec.valid_of`.
-/

namespace CellMachine.Vec

variable {w : Nat} {α : Type}

/-! ## Pieces of a list -/

/-- Pieces are not empty, not longer than allowed, and made of the elements of the list. -/
theorem mem_pieces {n : Nat} {xs piece : List α} (h : piece ∈ pieces n xs) :
    piece ≠ [] ∧ piece.length ≤ n + 1 ∧ ∀ x ∈ piece, x ∈ xs := by
  induction xs using pieces.induct n with
  | case1 =>
    rw [pieces] at h
    cases h
  | case2 x xs ih =>
    rw [pieces] at h
    rcases List.mem_cons.1 h with rfl | h
    · refine ⟨List.cons_ne_nil _ _, ?_, fun y hy => ?_⟩
      · rw [List.length_cons, List.length_take]
        omega
      · exact List.take_subset (n + 1) (x :: xs) hy
    · obtain ⟨hne, hlen, hmem⟩ := ih h
      exact ⟨hne, hlen, fun y hy => List.mem_cons_of_mem x (List.drop_subset n xs (hmem y hy))⟩

theorem flatten_pieces (n : Nat) (xs : List α) : (pieces n xs).flatten = xs := by
  induction xs using pieces.induct n with
  | case1 =>
    rw [pieces]
    rfl
  | case2 x xs ih => rw [pieces, List.flatten_cons, ih, List.cons_append, List.take_append_drop]

/-- A list whose length is a multiple of the size of a piece falls into full pieces. -/
theorem pieces_of_mod {n : Nat} {xs : List α} (h : xs.length % (n + 1) = 0) :
    (∀ piece ∈ pieces n xs, piece.length = n + 1) ∧
      (n + 1) * (pieces n xs).length = xs.length := by
  induction xs using pieces.induct n with
  | case1 =>
    rw [pieces]
    exact ⟨fun piece hp => absurd hp List.not_mem_nil, rfl⟩
  | case2 x xs ih =>
    have hle : n ≤ xs.length := by
      have := Nat.le_of_dvd (Nat.succ_pos xs.length) (Nat.dvd_of_mod_eq_zero h)
      omega
    -- a whole piece is taken off, so a multiple is left
    have hrest : (xs.drop n).length % (n + 1) = 0 := by
      rw [List.length_cons, Nat.mod_eq_sub_mod (by omega), Nat.add_sub_add_right] at h
      rwa [List.length_drop]
    obtain ⟨hall, hsum⟩ := ih hrest
    rw [pieces]
    refine ⟨List.forall_mem_cons.2 ⟨?_, hall⟩, ?_⟩
    · rw [List.length_cons, List.length_take, Nat.min_eq_left hle]
    · rw [List.length_cons, Nat.mul_succ, hsum, List.length_drop, List.length_cons]
      omega

/-- References to the pieces of a list tile as many elements as the items of the list stand for. -/
theorem tiles_map_pieces {unit m : Nat} {f : List α → Ref} {xs : List α} (hunit : 0 < unit)
    (h : ∀ piece ∈ pieces m xs, (f piece).HoldsVec (unit * piece.length)) :
    Tiles (unit * (m + 1)) (unit * xs.length) ((pieces m xs).map f) := by
  induction xs using pieces.induct m with
  | case1 =>
    rw [pieces]
    exact Nat.mul_zero unit
  | case2 x xs ih =>
    rw [pieces] at h ⊢
    obtain ⟨hfirst, hrest⟩ := List.forall_mem_cons.1 h
    -- only the last piece may be shorter
    have hlen : (x :: xs.take m).length = min (xs.length + 1) (m + 1) := by
      rw [List.length_cons, List.length_take]
      omega
    rw [hlen] at hfirst
    refine ⟨Nat.mul_pos hunit (Nat.succ_pos _), ?_, ?_⟩
    · rwa [Nat.mul_min_mul_left, List.length_cons]
    · have := ih hrest
      rwa [List.length_drop, ← Nat.add_sub_add_right xs.length 1 m, Nat.mul_sub] at this

/-! ## Trees of full chunks -/

/-- Packed chunks form a valid vector. -/
theorem valid_pack {height : Nat} {chunks : List Vec} (hne : chunks ≠ [])
    (hlen : chunks.length ≤ chunkSize ^ height)
    (hchunks : ∀ v ∈ chunks, v.Valid w ∧ v.count = chunkSize)
    (hbound : chunkSize * chunks.length ≤ freeCount + w) :
    (pack height chunks).Valid w ∧ (pack height chunks).count = chunkSize * chunks.length := by
  induction height generalizing chunks with
  | zero =>
    have hpos := List.length_pos_iff.2 hne
    rw [Nat.pow_zero] at hlen
    obtain ⟨v, rfl⟩ := List.length_eq_one_iff.1 (Nat.le_antisymm hlen hpos)
    obtain ⟨hv, hcount⟩ := hchunks v List.mem_cons_self
    exact ⟨hv, hcount⟩
  | succ height ih =>
    rw [pack, capacity_eq]
    by_cases hfew : chunks.length ≤ chunkSize ^ height
    · rw [if_pos hfew]
      exact ih hne hfew hchunks hbound
    · rw [if_neg hfew]
      have hpow : 0 < chunkSize ^ height := Nat.pow_pos (by decide)
      -- the cut is by the largest power of 32 below the number of chunks
      have hsize : childSize (chunkSize * chunks.length) = chunkSize ^ (height + 1) := by
        refine childSize_eq (Nat.succ_pos height) ?_ ?_
        · rw [Nat.pow_succ']
          exact Nat.mul_lt_mul_of_pos_left (Nat.lt_of_not_le hfew) (by decide)
        · rw [Nat.pow_succ' (n := height + 1)]
          exact Nat.mul_le_mul_left chunkSize hlen
      have hpiece : ∀ piece ∈ pieces (chunkSize ^ height - 1) chunks,
          (pack height piece).Valid w ∧
            (pack height piece).count = chunkSize * piece.length := by
        intro piece hp
        obtain ⟨hpne, hplen, hmem⟩ := mem_pieces hp
        refine ih hpne (by omega) (fun v hv => hchunks v (hmem v hv)) ?_
        refine Nat.le_trans (Nat.mul_le_mul_left chunkSize ?_) hbound
        omega
      have htiles : Tiles (chunkSize * (chunkSize ^ height - 1 + 1)) (chunkSize * chunks.length)
          ((pieces (chunkSize ^ height - 1) chunks).map fun piece =>
            Ref.of (pack height piece).cell) :=
        tiles_map_pieces (by decide) fun piece hp => Ref.holdsVec_of (hpiece piece hp).2
      rw [Nat.sub_add_cancel hpow, ← Nat.pow_succ', Nat.succ_eq_add_one, ← hsize] at htiles
      refine ⟨valid_tree ?_ (Nat.mul_mod_right ..) htiles (.inl hbound) fun r hr => ?_, rfl⟩
      · have : 1 * 1 ≤ chunkSize ^ height := hpow
        exact Nat.lt_of_lt_of_le (by decide) (Nat.mul_le_mul_left chunkSize (by omega : 2 ≤ _))
      · obtain ⟨piece, hp, rfl⟩ := List.mem_map.1 hr
        exact Ref.valid_of (hpiece piece hp).1

/-- There are enough levels for all chunks. -/
theorem le_chunkSize_pow (n : Nat) : n ≤ chunkSize ^ (Nat.log2 n / 5 + 1) := by
  rw [chunkSize_pow]
  have hlog : n < 2 ^ (Nat.log2 n + 1) := Nat.lt_log2_self
  have hpow : 2 ^ (Nat.log2 n + 1) ≤ 2 ^ (5 * (Nat.log2 n / 5 + 1)) :=
    Nat.pow_le_pow_right (by decide) (by omega)
  omega

theorem valid_ofChunks {chunks : List Vec} (hne : chunks ≠ [])
    (hchunks : ∀ v ∈ chunks, v.Valid w ∧ v.count = chunkSize)
    (hbound : chunkSize * chunks.length ≤ freeCount + w) :
    (ofChunks chunks).Valid w ∧ (ofChunks chunks).count = chunkSize * chunks.length :=
  valid_pack hne (le_chunkSize_pow chunks.length) hchunks hbound

/-- The full chunks of a list of references, and the rest behind them. -/
theorem valid_ofRefs_of_lt {refs : List Ref} (hrefs : ∀ r ∈ refs, r.Valid w)
    (hbound : refs.length ≤ freeCount + w) (hmany : chunkSize < refs.length) :
    let full := refs.length - refs.length % chunkSize
    let front := ofChunks ((pieces (chunkSize - 1) (refs.take full)).map .chunk)
    front.Valid w ∧ front.count = full := by
  intro full front
  have hfull : full = refs.length - refs.length % chunkSize := rfl
  have hlen : (refs.take full).length = full := by
    rw [List.length_take]
    omega
  have hmod : (refs.take full).length % (chunkSize - 1 + 1) = 0 := by
    rw [hlen, hfull]
    simp only [chunkSize]
    omega
  obtain ⟨hpieces, hsum⟩ := pieces_of_mod hmod
  -- the pieces are chunks, and full ones since their number divides what is cut
  have hchunks : ∀ v ∈ (pieces (chunkSize - 1) (refs.take full)).map chunk,
      v.Valid w ∧ v.count = chunkSize := by
    intro v hv
    obtain ⟨piece, hp, rfl⟩ := List.mem_map.1 hv
    have hplen := hpieces piece hp
    refine ⟨valid_chunk (Nat.le_of_eq hplen) fun r hr => hrefs r ?_, hplen⟩
    exact List.take_subset _ _ ((mem_pieces hp).2.2 r hr)
  have hcount : chunkSize * ((pieces (chunkSize - 1) (refs.take full)).map chunk).length = full := by
    rw [List.length_map]
    exact hsum.trans hlen
  have hne : (pieces (chunkSize - 1) (refs.take full)).map chunk ≠ [] := by
    intro hnil
    rw [hnil, List.length_nil, Nat.mul_zero] at hcount
    simp only [chunkSize] at *
    omega
  obtain ⟨hvalid, hfrontcount⟩ := valid_ofChunks hne hchunks (by omega)
  exact ⟨hvalid, hfrontcount.trans hcount⟩

/-- The vector of a list of valid references is valid. -/
theorem valid_ofRefs {refs : List Ref} (hrefs : ∀ r ∈ refs, r.Valid w)
    (hbound : refs.length ≤ freeCount + w) :
    (ofRefs refs).Valid w ∧ (ofRefs refs).count = refs.length := by
  unfold ofRefs
  simp only
  split
  · next hfew => exact ⟨valid_chunk hfew hrefs, rfl⟩
  · next hmany =>
    have hmany : chunkSize < refs.length := Nat.lt_of_not_le hmany
    obtain ⟨hfront, hcount⟩ := valid_ofRefs_of_lt hrefs hbound hmany
    split
    · next hwhole => exact ⟨hfront, hcount.trans hwhole⟩
    -- the rest is the tail behind the tree
    · next hrest =>
      have hlen : (refs.drop (refs.length - refs.length % chunkSize)).length =
          refs.length % chunkSize := by
        have := Nat.mod_le refs.length chunkSize
        rw [List.length_drop]
        omega
      refine ⟨valid_tailed ⟨hmany, ?_, hlen, ?_⟩ (.inl hbound) (Ref.valid_of hfront) ?_, rfl⟩
      · refine List.length_pos_iff.1 ?_
        omega
      · rw [hlen]
        exact Ref.holdsVec_of hcount
      · exact fun r hr => hrefs r (List.drop_subset _ _ hr)

/-- The vector of a list of valid cells is valid. -/
theorem valid_of {items : List Cell} (hitems : ∀ c ∈ items, c.Valid w)
    (hbound : items.length ≤ w) : (Vec.of items).Valid w ∧ (Vec.of items).count = items.length := by
  have hrefs : ∀ r ∈ items.map Ref.of, r.Valid w := by
    intro r hr
    obtain ⟨c, hc, rfl⟩ := List.mem_map.1 hr
    exact Ref.valid_of (hitems c hc)
  have hlen : (items.map Ref.of).length = items.length := List.length_map _
  obtain ⟨hvalid, hcount⟩ := valid_ofRefs hrefs (by omega)
  exact ⟨hvalid, hcount.trans hlen⟩

end CellMachine.Vec
