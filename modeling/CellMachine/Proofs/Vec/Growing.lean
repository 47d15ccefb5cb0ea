import CellMachine.Proofs.Vec.Nodes

/-!
# Appending keeps vectors valid

A packed vector takes one more full chunk in one of three ways: its last child takes it, it becomes
the last child, or the whole vector becomes the first child of a taller one. Which of them applies
is decided by the size of a child before and after, and each of them leads to the shape of the new
count (`Vec.valid_of_pushChunk`). A vector that is stuck takes no chunk, so that what grows has room.

Main statements: `Vec.valid_of_push` and `Vec.valid_of_append`.
-/

namespace CellMachine.Vec

variable {w : Nat}

/-! ## One more chunk -/

/-- A chunk goes into the last child. -/
theorem refsPushChunk_concat (init : List Ref) (last : Ref) (full : Vec) :
    refsPushChunk (init ++ [last]) full =
      last.vec >>= fun v => pushChunk v full >>= fun u => .ok (init ++ [Ref.of u.cell]) := by
  induction init with
  | nil =>
    rw [List.nil_append, refsPushChunk, refPushChunk_eq, bind_assoc]
    rfl
  | cons r init ih =>
    have hne : init ++ [last] = [] → False :=
      List.append_ne_nil_of_right_ne_nil init (List.cons_ne_nil last [])
    rw [List.cons_append, refsPushChunk, ih, bind_assoc]
    · refine congrArg (last.vec >>= ·) (funext fun v => ?_)
      rw [bind_assoc]
      rfl
    · exact hne

/-- What a packed tree does with one more chunk. -/
theorem pushChunk_tree_eq_ok {n : Nat} {children : List Ref} {full u : Vec}
    (hn : chunkSize < n) (hmod : n % chunkSize = 0) (htiles : Tiles (childSize n) n children)
    (h : pushChunk (.tree n children) full = .ok u) :
    (n = chunkSize * childSize n ∧ u = taller n (.tree n children) full) ∨
      (childSize (n + chunkSize) = childSize n ∧
        ((∃ init last v v', children = init ++ [last] ∧ n < childSize n * init.length + childSize n ∧
          last.vec = .ok v ∧ pushChunk v full = .ok v' ∧
          u = .tree (n + chunkSize) (init ++ [Ref.of v'.cell])) ∨
        (n = childSize n * children.length ∧
          u = .tree (n + chunkSize) (children ++ [Ref.of full.cell])))) := by
  obtain ⟨init, last, rfl⟩ := htiles.exists_concat (by omega)
  obtain ⟨-, hlt, hle, -⟩ := tiles_concat_iff.1 htiles
  have hlen : (init ++ [last]).length = init.length + 1 := by
    rw [List.length_append, List.length_singleton]
  unfold pushChunk at h
  simp only [hlen, Nat.add_sub_cancel] at h
  by_cases hsize : childSize (n + chunkSize) = childSize n
  · rw [if_neg (not_not_intro hsize)] at h
    refine .inr ⟨hsize, ?_⟩
    by_cases hroom : n - childSize n * init.length < childSize n
    · rw [if_pos hroom, bind_eq_ok_iff] at h
      obtain ⟨children', hchildren, h⟩ := h
      rw [refsPushChunk_concat, bind_eq_ok_iff] at hchildren
      obtain ⟨v, hv, hchildren⟩ := hchildren
      obtain ⟨v', hpush, hchildren⟩ := bind_eq_ok_iff.1 hchildren
      cases hchildren
      cases h
      exact .inl ⟨init, last, v, v', rfl, by omega, hv, hpush, rfl⟩
    · rw [if_neg hroom] at h
      cases h
      refine .inr ⟨?_, rfl⟩
      rw [hlen, Nat.mul_succ]
      omega
  · rw [if_pos hsize] at h
    cases h
    refine .inl ⟨?_, rfl⟩
    -- only a full tree has children of another size after one more chunk
    have hfull := le_childSize_mul n
    by_cases hroom : n < chunkSize * childSize n
    · exact absurd (childSize_add_chunk hn hmod hroom) hsize
    · omega

/-- A jammed tree takes no chunk. -/
theorem not_jammed_of_pushChunk {v full u : Vec} (hshaped : v.Shaped)
    (h : pushChunk v full = .ok u) : ¬ v.Jammed := by
  cases v with
  | chunk items => exact id
  | tailed n front items => exact id
  | tree n children =>
    intro hjammed
    obtain ⟨hn, hmod, htiles⟩ := hshaped
    rcases pushChunk_tree_eq_ok hn hmod htiles h with
      ⟨hfull, -⟩ | ⟨-, ⟨init, last, v, v', rfl, -, hv, -⟩ | ⟨hfull, -⟩⟩
    · exact hjammed.1 (Nat.mod_eq_zero_of_dvd ⟨chunkSize, hfull.trans (Nat.mul_comm ..)⟩)
    · rw [Ref.vec_eq_ok_iff, hjammed.held?_eq_none] at hv
      cases hv
    · exact hjammed.1 (Nat.mod_eq_zero_of_dvd ⟨children.length, hfull⟩)

/-- The count of a vector that takes a chunk is far from the limit of the format. -/
theorem Room.count_le_of_pushChunk {v full u : Vec} (hroom : v.Room w) (hshaped : v.Shaped)
    (hmod : v.count % chunkSize = 0) (h : pushChunk v full = .ok u) :
    v.count ≤ freeCount + w := by
  rcases hroom with hfree | ⟨-, hstuck⟩
  · exact hfree
  · have hjammed := not_jammed_of_pushChunk hshaped h
    rcases hshaped.count_eq_of_packed hmod with ⟨items, rfl, -⟩ | ⟨n, children, rfl⟩
    · exact absurd hstuck id
    · exact absurd hstuck hjammed

theorem valid_taller {v full : Vec} (hv : v.Valid w) (hfull : full.Valid w)
    (hcount : full.count = chunkSize) (hpos : 0 < v.count) (hmod : v.count % chunkSize = 0)
    (hsize : childSize (v.count + chunkSize) = v.count)
    (hbound : v.count + chunkSize ≤ freeCount + w) : (taller v.count v full).Valid w := by
  -- the old root is the first child, full by assumption, and the chunk is the second
  have htiles : Tiles v.count (v.count + chunkSize) ([Ref.of v.cell] ++ [Ref.of full.cell]) := by
    have hle := Nat.le_of_dvd hpos (Nat.dvd_of_mod_eq_zero hmod)
    refine tiles_concat_iff.2 ⟨fun s hs => ?_, ?_, ?_, ?_⟩
    · cases List.mem_singleton.1 hs
      exact Ref.holdsVec_of rfl
    · rw [List.length_singleton]
      simp only [chunkSize]
      omega
    · rw [List.length_singleton]
      omega
    · rw [List.length_singleton, Nat.mul_one, Nat.add_sub_cancel_left]
      exact Ref.holdsVec_of hcount
  refine valid_tree (by omega) (by rw [Nat.add_mod_right, hmod]) (by rw [hsize]; exact htiles)
    (.inl hbound) fun r hr => ?_
  rcases List.mem_cons.1 hr with rfl | hr
  · exact Ref.valid_of hv
  · cases List.mem_singleton.1 hr
    exact Ref.valid_of hfull

/-- A tree whose last child has taken a chunk. -/
theorem valid_filled {n : Nat} {init : List Ref} {last : Ref} {t : Vec}
    (hv : (tree n (init ++ [last])).Valid w) (hbound : n + chunkSize ≤ freeCount + w)
    (hsize : childSize (n + chunkSize) = childSize n)
    (hroom : n < childSize n * init.length + childSize n) (ht : t.Valid w)
    (hcount : t.count = n - childSize n * init.length + chunkSize) :
    (tree (n + chunkSize) (init ++ [Ref.of t.cell])).Valid w := by
  obtain ⟨hn, hn32, htiles⟩ := hv.shaped
  obtain ⟨hinit, hlt, hle, hold⟩ := tiles_concat_iff.1 htiles
  have hmul := childSize_mul_mod n init.length
  have hsize32 := childSize_mod n
  refine valid_tree (by omega) (by rw [Nat.add_mod_right, hn32]) ?_ (.inl hbound) fun r hr => ?_
  -- the children in front are as full as before, and the last one has taken the chunk
  · rw [hsize]
    refine tiles_concat_iff.2 ⟨hinit, by omega, ?_, Ref.holdsVec_of (by omega)⟩
    simp only [chunkSize] at *
    omega
  · rcases List.mem_append.1 hr with hr | hr
    · exact hv.refs (List.mem_append_left _ hr)
    · cases List.mem_singleton.1 hr
      exact Ref.valid_of ht

/-- A tree of full children with a chunk as one more child. -/
theorem valid_extended {n : Nat} {children : List Ref} {full : Vec}
    (hv : (tree n children).Valid w) (hbound : n + chunkSize ≤ freeCount + w)
    (hsize : childSize (n + chunkSize) = childSize n)
    (hwhole : n = childSize n * children.length) (hfull : full.Valid w)
    (hcount : full.count = chunkSize) :
    (tree (n + chunkSize) (children ++ [Ref.of full.cell])).Valid w := by
  obtain ⟨hn, hn32, htiles⟩ := hv.shaped
  refine valid_tree (by omega) (by rw [Nat.add_mod_right, hn32]) ?_ (.inl hbound) fun r hr => ?_
  · rw [hsize]
    have hle := chunkSize_le_childSize n
    refine tiles_concat_iff.2 ⟨htiles.holdsVec_of_full hwhole, ?_, by omega, ?_⟩
    · simp only [chunkSize]
      omega
    · rw [← hwhole, Nat.add_sub_cancel_left]
      exact Ref.holdsVec_of hcount
  · rcases List.mem_append.1 hr with hr | hr
    · exact hv.refs hr
    · cases List.mem_singleton.1 hr
      exact Ref.valid_of hfull

/-- A packed vector with one more full chunk is valid, as long as that leaves it room. -/
theorem valid_of_pushChunk {v full u : Vec} (hv : v.Valid w) (hpos : 0 < v.count)
    (hmod : v.count % chunkSize = 0) (hfull : full.Valid w) (hcount : full.count = chunkSize)
    (hbound : v.count + chunkSize ≤ freeCount + w) (h : pushChunk v full = .ok u) :
    u.Valid w ∧ u.count = v.count + chunkSize := by
  induction v using Vec.induction generalizing u with
  | step v ih =>
    rcases hv.shaped.count_eq_of_packed hmod with ⟨items, rfl, hitems⟩ | ⟨n, children, rfl⟩
    · have hlen : items.length = chunkSize := by
        refine hitems.resolve_left fun hnil => ?_
        subst hnil
        exact absurd hpos (Nat.lt_irrefl 0)
      cases h
      have hsize : childSize (chunkSize + chunkSize) = chunkSize :=
        childSize_eq (k := 1) (by decide) (by decide) (by decide)
      have htaller := valid_taller hv hfull hcount hpos hmod (by rw [count, hlen, hsize]) hbound
      rw [count, hlen] at htaller ⊢
      exact ⟨htaller, rfl⟩
    · obtain ⟨hn, hn32, htiles⟩ := hv.shaped
      rcases pushChunk_tree_eq_ok hn hn32 htiles h with
        ⟨hwhole, rfl⟩ | ⟨hsize, ⟨init, last, t, t', rfl, hroom, ht, hpush, rfl⟩ | ⟨hwhole, rfl⟩⟩
      · exact ⟨valid_taller hv hfull hcount hpos hmod (childSize_of_full hn hwhole) hbound, rfl⟩
      · obtain ⟨-, hlt, -, hold⟩ := tiles_concat_iff.1 htiles
        have hmem : last ∈ (tree n (init ++ [last])).refs :=
          List.mem_append_right _ List.mem_cons_self
        obtain ⟨htv, htcount⟩ := (hv.refs hmem).vec hold ht
        have htmod : t.count % chunkSize = 0 := by
          rw [htcount]
          exact childRest_mod hn32
        have htbound : t.count + chunkSize ≤ freeCount + w :=
          Nat.le_trans (Nat.add_le_add_right (htcount ▸ Nat.sub_le _ _) _) hbound
        -- the last child grows by the chunk, which is the same question one level down
        obtain ⟨htv', htcount'⟩ := ih last hmem t ht htv (by omega) htmod htbound hpush
        rw [htcount] at htcount'
        exact ⟨valid_filled hv hbound hsize hroom htv' htcount', rfl⟩
      · exact ⟨valid_extended hv hbound hsize hwhole hfull hcount, rfl⟩

/-! ## One more element -/

/-- A vector with a full chunk and a first element behind it. -/
theorem valid_tailed_one {v : Vec} {r : Ref} (hv : v.Valid w) (hpos : 0 < v.count)
    (hmod : v.count % chunkSize = 0)
    (hroom : (tailed (v.count + 1) (Ref.of v.cell) [r]).Room w) (hr : r.Valid w) :
    (tailed (v.count + 1) (Ref.of v.cell) [r]).Valid w := by
  refine valid_tailed ⟨?_, List.cons_ne_nil _ _, ?_, ?_⟩ hroom (Ref.valid_of hv) fun s hs => ?_
  · simp only [chunkSize] at *
    omega
  · rw [List.length_singleton]
    simp only [chunkSize] at *
    omega
  · exact Ref.holdsVec_of rfl
  · cases List.mem_singleton.1 hs
    exact hr

/-- A full chunk in front of a new tail takes up a vector that is not a tree yet. -/
theorem valid_push_chunk {items : List Ref} {c : Cell} {u : Vec} (hv : (chunk items).Valid w)
    (hc : c.Valid w) (h : (chunk items).push c = .ok u) :
    u.Valid w ∧ u.count = items.length + 1 := by
  have hlen : items.length ≤ chunkSize := hv.shaped
  have hlen' : (items ++ [Ref.of c]).length = items.length + 1 := by
    rw [List.length_append, List.length_singleton]
  unfold push at h
  simp only at h
  split at h
  · next hroom =>
    cases h
    refine ⟨valid_chunk (by omega) (List.forall_mem_append.2 ⟨fun r hr => hv.refs hr, ?_⟩), hlen'⟩
    exact List.forall_mem_singleton.2 (Ref.valid_of hc)
  · next hfull =>
    cases h
    have heq : items.length = chunkSize := by omega
    refine ⟨valid_tailed_one hv ?_ ?_ (.inl ?_) (Ref.valid_of hc), rfl⟩
    · rw [count, heq]
      decide
    · rw [count, heq]
      decide
    · show items.length + 1 ≤ _
      rw [heq]
      exact Nat.le_trans (by decide) (Nat.le_add_right freeCount _)

/-- A tail that does not fill up has room for one more element. -/
theorem Room.tailed_succ {n : Nat} {front : Ref} {items items' : List Ref}
    (h : (tailed n front items).Room w) (hroom : n % chunkSize + 1 < chunkSize) :
    (tailed (n + 1) front items').Room (w + 1) := by
  rcases h with hfree | ⟨hmax, hstuck⟩
  · refine .inl ?_
    show n + 1 ≤ _
    have : n ≤ freeCount + w := hfree
    omega
  · -- the greatest count of all leaves no place in the last chunk
    refine .inr ⟨?_, hstuck⟩
    show n + 1 ≤ Reader.maxCount
    have : n ≤ Reader.maxCount := hmax
    simp only [Reader.maxCount, chunkSize] at *
    omega

theorem valid_push_tailed {n : Nat} {front : Ref} {items : List Ref} {c : Cell} {u : Vec}
    (hv : (tailed n front items).Valid w) (hc : c.Valid w)
    (h : (tailed n front items).push c = .ok u) : u.Valid (w + 1) ∧ u.count = n + 1 := by
  obtain ⟨hn, hne, hlen, hold⟩ := hv.shaped
  have hv' := hv.mono (Nat.le_add_right w 1)
  have hall : ∀ r ∈ items ++ [Ref.of c], r.Valid (w + 1) :=
    List.forall_mem_append.2 ⟨hv'.items,
      List.forall_mem_singleton.2 ((Ref.valid_of hc).mono (Nat.le_add_right w 1))⟩
  have hlen' : (items ++ [Ref.of c]).length = items.length + 1 := by
    rw [List.length_append, List.length_singleton]
  unfold push at h
  simp only at h
  split at h
  · next hfull =>
    rw [refPushChunk_eq, bind_eq_ok_iff] at h
    obtain ⟨t, ht, hpush⟩ := h
    obtain ⟨htv, htcount⟩ := hv.front.vec hold ht
    -- the front takes a chunk, so the vector is not stuck
    have hfree : n ≤ freeCount + w := by
      rcases hv.room with hfree | ⟨-, hstuck⟩
      · exact hfree
      · obtain ⟨t', ht', hjammed⟩ := hstuck _ (Ref.vec_eq_ok_iff.1 ht)
        cases ht'
        exact absurd hjammed (not_jammed_of_pushChunk htv.shaped hpush)
    simp only [chunkSize] at *
    obtain ⟨huv, hucount⟩ := valid_of_pushChunk (htv.mono (Nat.le_add_right w 1)) (by omega)
      (by simp only [chunkSize]; omega) (valid_chunk (by simp only [chunkSize]; omega) hall)
      (hlen'.trans hfull) (by simp only [chunkSize]; omega) hpush
    simp only [chunkSize] at hucount
    exact ⟨huv, by omega⟩
  · next hroom =>
    cases h
    have hroom' : n % chunkSize + 1 < chunkSize := by
      have : n % chunkSize < chunkSize := Nat.mod_lt _ (by decide)
      omega
    refine ⟨valid_tailed ⟨by omega, ?_, ?_, ?_⟩ (hv.room.tailed_succ hroom')
      (hv.front.mono (Nat.le_add_right w 1)) hall, rfl⟩
    · exact List.append_ne_nil_of_right_ne_nil _ (List.cons_ne_nil _ _)
    · rw [hlen']
      simp only [chunkSize] at *
      omega
    · rw [hlen', Nat.add_sub_add_right]
      exact hold

theorem valid_push_tree {n : Nat} {children : List Ref} {c : Cell} {u : Vec}
    (hv : (tree n children).Valid w) (hc : c.Valid w) (h : (tree n children).push c = .ok u) :
    u.Valid (w + 1) ∧ u.count = n + 1 := by
  obtain ⟨hn, hn32, -⟩ := hv.shaped
  have hmono := Nat.le_add_right w 1
  cases h
  refine ⟨valid_tailed_one (hv.mono hmono) (Nat.lt_trans (by decide) hn) hn32 ?_
    ((Ref.valid_of hc).mono hmono), rfl⟩
  rcases hv.room with hfree | ⟨hmax, hstuck⟩
  · refine .inl ?_
    show n + 1 ≤ _
    have : n ≤ freeCount + w := hfree
    omega
  · refine .inr ⟨?_, fun d hd => ?_⟩
    · show n + 1 ≤ Reader.maxCount
      have : n ≤ Reader.maxCount := hmax
      simp only [Reader.maxCount, chunkSize] at *
      omega
    · rw [Ref.held?_of] at hd
      cases hd
      exact ⟨_, rfl, hstuck⟩

/-- A vector with one more element at the end is valid. -/
theorem valid_of_push {v u : Vec} {c : Cell} (hv : v.Valid w) (hc : c.Valid w)
    (h : v.push c = .ok u) : u.Valid (w + 1) ∧ u.count = v.count + 1 := by
  cases v with
  | chunk items =>
    obtain ⟨hu, hcount⟩ := valid_push_chunk hv hc h
    exact ⟨hu.mono (Nat.le_add_right w 1), hcount⟩
  | tailed n front items => exact valid_push_tailed hv hc h
  | tree n children => exact valid_push_tree hv hc h

/-! ## Many more elements -/

/-- Appending elements of a valid vector, one by one or by whole chunks, keeps a vector valid. -/
theorem valid_of_extend {src out u : Vec} {stop left i : Nat} (hsrc : src.Valid w)
    (hstop : stop ≤ src.count) (hi : i ≤ stop) (hout : out.Valid w)
    (h : extend src stop left out i = .ok u) : u.Valid (w + (stop - i)) := by
  induction left generalizing w out i with
  | zero =>
    cases h
    exact hout.mono (Nat.le_add_right w _)
  | succ left ih =>
    unfold extend at h
    split at h
    · cases h
      exact hout.mono (Nat.le_add_right w _)
    · next hlt =>
      split at h
      · next hborder =>
        -- a chunk is taken over whole, which spends as many elements of the bound
        simp only [Bool.and_eq_true, beq_iff_eq, decide_eq_true_eq, isPacked] at hborder
        obtain ⟨⟨hpacked, hmod⟩, hwhole⟩ := hborder
        obtain ⟨r, hr, h⟩ := bind_eq_ok_iff.1 h
        obtain ⟨full, hfull, h⟩ := bind_eq_ok_iff.1 h
        obtain ⟨hrv, hold⟩ := valid_of_chunkAt hsrc hmod (Nat.le_trans hwhole hstop) hr
        obtain ⟨hfv, hfcount⟩ := hrv.vec hold hfull
        have hmono := Nat.le_add_right w chunkSize
        rw [show w + (stop - i) = w + chunkSize + (stop - (i + chunkSize)) by omega]
        simp only at h
        split at h
        · exact ih (hsrc.mono hmono) hwhole (hfv.mono hmono) h
        · next hne =>
          obtain ⟨out', hout', h⟩ := bind_eq_ok_iff.1 h
          have hfree := hout.room.count_le_of_pushChunk hout.shaped hpacked hout'
          have hstep := (valid_of_pushChunk (hout.mono hmono) (Nat.pos_of_ne_zero hne) hpacked
            (hfv.mono hmono) hfcount (by omega) hout').1
          exact ih (hsrc.mono hmono) hwhole hstep h
      · -- elsewhere the next element is pushed
        obtain ⟨c, hc, h⟩ := bind_eq_ok_iff.1 h
        obtain ⟨out', hout', h⟩ := bind_eq_ok_iff.1 h
        have hmono := Nat.le_add_right w 1
        have hstep := (valid_of_push hout (valid_of_get hsrc hc) hout').1
        have hrest := ih (hsrc.mono hmono) (by omega) hstep h
        rwa [show w + (stop - i) = w + 1 + (stop - (i + 1)) by omega]

theorem valid_empty (w : Nat) : empty.Valid w :=
  valid_chunk (Nat.zero_le _) fun _ hr => by cases hr

/-- A run of elements of a valid vector is a valid vector. -/
theorem valid_of_slice {v u : Vec} {start length : Nat} (hv : v.Valid w)
    (h : v.slice start length = .ok u) : u.Valid (w + length) := by
  unfold slice at h
  simp only at h
  split at h
  · next hstop =>
    have hu := valid_of_extend hv hstop (Nat.le_add_right start length) (valid_empty w) h
    rwa [Nat.add_sub_cancel_left] at hu
  · cases h

/-- One valid vector after another is a valid vector. -/
theorem valid_of_append {v u t : Vec} (hv : v.Valid w) (hu : u.Valid w)
    (h : v.append u = .ok t) : t.Valid (w + u.count) :=
  valid_of_extend hu (Nat.le_refl _) (Nat.zero_le _) hv h

end CellMachine.Vec
