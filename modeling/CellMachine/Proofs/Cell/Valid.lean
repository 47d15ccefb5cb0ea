import CellMachine.Cell.Decode
import CellMachine.Proofs.Outcome
import CellMachine.Proofs.Vec.Shape

/-!
# Valid cells

A cell is *valid* if it is in the one form that its contents allow: a vector has the shape of its
count, the keys of a map increase, a record has as many fields as its format wants, the parts that
ops and closures hold are of the right kinds, and every reference that holds a cell states its hash
and whether it is loaded, and is embedded exactly if the cell is small. All of this holds of the
cells that references hold too, at any depth.

Counts need room. The format can write counts below `2 ^ 63`, and bytes may claim any of them for a
vector whose nodes are missing. A vector has *room* for the work `w` if its count is far enough from
the limit that `w` more elements do not reach it, or if it is *stuck*: the last node on the way to a
new chunk is missing, so that no chunk can be added before the limit.

Main statements: `Cell.valid_iff` (a cell is valid if it is shaped and its references are valid),
`Ref.valid_of` (so is the reference by which a new parent holds it) and `Cell.Shaped.check` (the
structural checks ask for no more).
-/

namespace CellMachine

/-! ## Shapes -/

/-- A reference which, if it holds a cell, holds a vector of `n` elements. -/
def Ref.HoldsVec (r : Ref) (n : Nat) : Prop :=
  ∀ d, r.held? = some d → ∃ v, d = .vector v ∧ v.count = n

/-- References to vectors that cut `n` elements into parts of `size`, the last possibly smaller. -/
def Tiles (size : Nat) : Nat → List Ref → Prop
  | n, [] => n = 0
  | n, r :: rs => 0 < n ∧ r.HoldsVec (min n size) ∧ Tiles size (n - size) rs

/-- A node that has the shape of its count, as have the nodes that it holds. -/
def Vec.Shaped : Vec → Prop
  | .chunk items => items.length ≤ chunkSize
  | .tailed count front items =>
    chunkSize < count ∧ items ≠ [] ∧ items.length = count % chunkSize ∧
      front.HoldsVec (count - items.length)
  | .tree count children =>
    chunkSize < count ∧ count % chunkSize = 0 ∧ Tiles (childSize count) count children

theorem Vec.front_mem_refs {count : Nat} {front : Ref} {items : List Ref} :
    front ∈ (Vec.tailed count front items).refs :=
  List.mem_append_right items List.mem_cons_self

theorem Vec.item_mem_refs {count : Nat} {front r : Ref} {items : List Ref} (hr : r ∈ items) :
    r ∈ (Vec.tailed count front items).refs :=
  List.mem_append_left [front] hr

theorem Cell.key_mem_refs {entries : List (Ref × Ref)} {e : Ref × Ref} (he : e ∈ entries) :
    e.1 ∈ (Cell.map entries).refs :=
  List.mem_flatMap.2 ⟨e, he, List.mem_cons_self⟩

theorem Cell.value_mem_refs {entries : List (Ref × Ref)} {e : Ref × Ref} (he : e ∈ entries) :
    e.2 ∈ (Cell.map entries).refs :=
  List.mem_flatMap.2 ⟨e, he, List.mem_cons_of_mem _ List.mem_cons_self⟩

/-- The references of a map are its keys and values. -/
theorem Cell.mem_map_refs_iff {entries : List (Ref × Ref)} {r : Ref} :
    r ∈ (Cell.map entries).refs ↔ ∃ e ∈ entries, r = e.1 ∨ r = e.2 := by
  simp only [Cell.refs, List.mem_flatMap, List.mem_cons, List.not_mem_nil, or_false]

/-- Entries whose key hashes increase. -/
def Increasing (entries : List (Ref × Ref)) : Prop :=
  entries.Pairwise fun a b => a.1.hash < b.1.hash

/-- A cell of the form that its contents allow, as far as its own references show. -/
def Cell.Shaped : Cell → Prop
  | .vector v => v.Shaped
  | .map entries => Increasing entries ∧ (Cell.map entries).encode.length ≤ maxEncoding
  | .record format fields => fields.length = format.arity
  | c => c.check = .ok ()

/-! ### What the checks establish -/

/-- The check of a count passes if the vector that is held has this count, or if nothing is held. -/
theorem Ref.requireCount_eq_ok_iff {r : Ref} {n : Nat} :
    r.requireCount n = .ok () ↔ r.HoldsVec n := by
  unfold requireCount HoldsVec
  constructor
  · intro h d hd
    rw [hd] at h
    cases d with
    | vector v =>
      refine ⟨v, rfl, Decidable.byContradiction fun hv => ?_⟩
      simp only [if_neg hv] at h
      cases h
    | _ => cases h
  · intro h
    -- a reference that holds nothing cannot be checked, and passes
    cases hr : r.held? with
    | none => rfl
    | some d =>
      obtain ⟨v, rfl, hv⟩ := h d hr
      exact if_pos hv

theorem Ref.requireKind_eq_ok_iff {r : Ref} {expected : String} {ok : Cell → Bool} :
    r.requireKind expected ok = .ok () ↔ ∀ d, r.held? = some d → ok d = true := by
  unfold requireKind
  constructor
  · intro h d hd
    rw [hd] at h
    refine Decidable.byContradiction fun hok => ?_
    simp only [if_neg hok] at h
    cases h
  · intro h
    cases hr : r.held? with
    | none => rfl
    | some d => exact if_pos (h d hr)

/-- A child has as many elements as are left, up to its size. -/
theorem requireChildren_cons_eq_ok_iff {count size i : Nat} {r : Ref} {rs : List Ref} :
    requireChildren count size i (r :: rs) = .ok () ↔
      r.HoldsVec (min (count - size * i) size) ∧
        requireChildren count size (i + 1) rs = .ok () := by
  rw [← Ref.requireCount_eq_ok_iff, requireChildren, bind_eq_ok_iff]
  constructor
  · rintro ⟨⟨⟩, hr, hrs⟩
    exact ⟨hr, hrs⟩
  · rintro ⟨hr, hrs⟩
    exact ⟨(), hr, hrs⟩

/-- The checks of the children and their number together say that they cut up what is left. -/
theorem tiles_iff {count size i : Nat} {rs : List Ref} (hs : 0 < size) :
    Tiles size (count - size * i) rs ↔
      requireChildren count size i rs = .ok () ∧
        rs.length = (count - size * i + size - 1) / size := by
  induction rs generalizing i with
  | nil =>
    rw [Tiles, requireChildren, List.length_nil, eq_comm (a := 0), Nat.div_eq_zero_iff_lt hs]
    constructor
    · intro h
      exact ⟨rfl, by omega⟩
    · rintro ⟨-, h⟩
      omega
  | cons r rs ih =>
    have hrest : count - size * i - size = count - size * (i + 1) := by
      rw [Nat.mul_succ]
      omega
    -- the first part is checked on its own, and the rest from the next number on
    rw [Tiles, requireChildren_cons_eq_ok_iff, hrest, ih, List.length_cons, and_assoc]
    constructor
    · rintro ⟨hpos, hr, hrs, hlen⟩
      refine ⟨hr, hrs, ?_⟩
      rw [parts_of_pos hpos hs, hlen, hrest]
    · rintro ⟨hr, hrs, hlen⟩
      have hpos : 0 < count - size * i := by
        refine Nat.pos_of_ne_zero fun h => ?_
        rw [h, parts_zero hs] at hlen
        cases hlen
      refine ⟨hpos, hr, hrs, ?_⟩
      rw [parts_of_pos hpos hs, hrest] at hlen
      omega

/-- The last part holds what the full parts before it leave. -/
theorem Tiles.getLast? {size n : Nat} {rs : List Ref} (h : Tiles size n rs) (hn : 0 < n) :
    ∃ r, rs.getLast? = some r ∧ r.HoldsVec (n - size * (rs.length - 1)) ∧
      size * (rs.length - 1) < n ∧ n ≤ size * rs.length := by
  induction rs generalizing n with
  | nil =>
    have : n = 0 := h
    omega
  | cons r rs ih =>
    obtain ⟨-, hold, hrest⟩ := h
    cases rs with
    | nil =>
      have hfit : n - size = 0 := hrest
      rw [Nat.min_eq_left (by omega)] at hold
      exact ⟨r, rfl, hold, by simpa using hn, by simp only [List.length_singleton]; omega⟩
    | cons r' rs =>
      obtain ⟨hpos, -⟩ := id hrest
      -- the last part is that of the rest, which has one full part less before it
      obtain ⟨last, hlast, hold', hlt, hle⟩ := ih hrest hpos
      simp only [List.length_cons, Nat.add_sub_cancel, Nat.mul_add, Nat.mul_one] at *
      refine ⟨last, hlast, ?_, by omega, by omega⟩
      rwa [Nat.add_comm, Nat.sub_add_eq]

/-- For a tree the checks and the number of children say that it is shaped. -/
theorem Vec.shaped_tree_iff {count : Nat} {children : List Ref} :
    (Vec.tree count children).Shaped ↔ isTreeCount count = true ∧
      children.length = childCount count ∧ (Vec.tree count children).check = .ok () := by
  have h : Tiles (childSize count) (count - childSize count * 0) children ↔ _ :=
    tiles_iff (childSize_pos count)
  rw [Nat.mul_zero, Nat.sub_zero] at h
  rw [Shaped, h, isTreeCount_iff, childCount, check, and_assoc, and_comm (b := _ = _ / _)]

/-- For a front and a tail the check of the front and the number of items say so. -/
theorem Vec.shaped_tailed_iff {count : Nat} {front : Ref} {items : List Ref} :
    (Vec.tailed count front items).Shaped ↔ isTreeCount count = false ∧
      tailLength count < count ∧ items.length = tailLength count ∧
        (Vec.tailed count front items).check = .ok () := by
  rw [Shaped, check, Ref.requireCount_eq_ok_iff, isTreeCount_eq_false_iff, ← List.length_pos_iff]
  constructor
  · rintro ⟨hcount, hitems, hlen, hfront⟩
    have htail := tailLength_of_lt hcount
    have hlt : count % chunkSize < chunkSize := Nat.mod_lt _ (by decide)
    exact ⟨fun _ => by omega, by omega, by omega, hfront⟩
  · rintro ⟨hmod, htail, hlen, hfront⟩
    -- a count of one chunk would be all tail, with nothing in front of it
    have hcount : chunkSize < count := by
      refine Nat.lt_of_not_le fun hle => ?_
      rw [tailLength_of_le hle] at htail
      omega
    have := hmod hcount
    have := tailLength_of_lt hcount
    exact ⟨hcount, by omega, by omega, hfront⟩

/-! ### The count settles the shape -/

/-- A tail is never a full chunk, since that would have been pushed into the tree. -/
theorem Vec.Shaped.mod_ne_zero {count : Nat} {front : Ref} {items : List Ref}
    (h : (Vec.tailed count front items).Shaped) : count % chunkSize ≠ 0 := by
  obtain ⟨-, hne, hlen, -⟩ := h
  rw [← hlen]
  exact fun hnil => hne (List.length_eq_zero_iff.1 hnil)

theorem Vec.Shaped.exists_chunk {v : Vec} {n : Nat} (h : v.Shaped) (hcount : v.count = n)
    (hn : n ≤ chunkSize) : ∃ items, v = .chunk items := by
  cases v with
  | chunk items => exact ⟨items, rfl⟩
  | tailed m front items | tree m children =>
    have hm : chunkSize < m := h.1
    have hcount : m = n := hcount
    omega

theorem Vec.Shaped.exists_tailed {v : Vec} {n : Nat} (h : v.Shaped) (hcount : v.count = n)
    (hn : chunkSize < n) (hmod : n % chunkSize ≠ 0) : ∃ front items, v = .tailed n front items := by
  cases v with
  | chunk items =>
    have hlen : items.length ≤ chunkSize := h
    have hcount : items.length = n := hcount
    omega
  | tailed m front items =>
    cases hcount
    exact ⟨front, items, rfl⟩
  | tree m children =>
    cases hcount
    exact absurd h.2.1 hmod

theorem Vec.Shaped.exists_tree {v : Vec} {n : Nat} (h : v.Shaped) (hcount : v.count = n)
    (hn : chunkSize < n) (hmod : n % chunkSize = 0) : ∃ children, v = .tree n children := by
  cases v with
  | chunk items =>
    have hlen : items.length ≤ chunkSize := h
    have hcount : items.length = n := hcount
    omega
  | tailed m front items =>
    cases hcount
    exact absurd hmod h.mod_ne_zero
  | tree m children =>
    cases hcount
    exact ⟨children, rfl⟩

/-! ### Shaped cells pass the checks -/

/-- A cell of the form that its contents allow passes the structural checks. -/
theorem Cell.Shaped.check {c : Cell} (h : c.Shaped) : c.check = .ok () := by
  cases c with
  | vector v =>
    cases v with
    | chunk items => rfl
    | tailed count front items => exact (Vec.shaped_tailed_iff.1 h).2.2.2
    | tree count children => exact (Vec.shaped_tree_iff.1 h).2.2
  | map entries => rfl
  | record format fields => rfl
  | _ => exact h

/-! ## Room to grow -/

/-- The greatest count at which a vector is sure to have room. -/
def freeCount : Nat := 2 ^ 63 - 2 ^ 59

/-- A tree whose last child has room for another chunk but is missing. -/
def Vec.Jammed : Vec → Prop
  | .tree count children =>
    count % childSize count ≠ 0 ∧ ∃ r, children.getLast? = some r ∧ r.held? = none
  | _ => False

/-- A vector to which no chunk can be added, since the node that would take it is missing. -/
def Vec.Stuck : Vec → Prop
  | .tailed _ front _ => ∀ d, front.held? = some d → ∃ v, d = .vector v ∧ v.Jammed
  | v => v.Jammed

/-- A vector that `w` elements cannot have taken past the limit of the format. -/
def Vec.Room (w : Nat) (v : Vec) : Prop :=
  v.count ≤ freeCount + w ∨ (v.count ≤ Reader.maxCount ∧ v.Stuck)

/-- A cell which has room if it is a vector. -/
def Cell.Room (w : Nat) : Cell → Prop
  | .vector v => v.Room w
  | _ => True

theorem Vec.Room.mono {w w' : Nat} {v : Vec} (h : v.Room w) (hw : w ≤ w') : v.Room w' := by
  rcases h with h | h
  · exact .inl (by omega)
  · exact .inr h

theorem Cell.Room.mono {w w' : Nat} {c : Cell} (h : c.Room w) (hw : w ≤ w') : c.Room w' := by
  cases c with
  | vector v => exact Vec.Room.mono h hw
  | _ => trivial

/-- The format can write the count of a vector that has room. -/
theorem Vec.Room.count_lt {w : Nat} {v : Vec} (h : v.Room w) (hw : w < 2 ^ 59) :
    v.count < 2 ^ 63 := by
  rcases h with h | ⟨h, -⟩
  · simp only [freeCount] at h
    omega
  · simp only [Reader.maxCount] at h
    omega

/-! ## Validity -/

/-- What a reference states is true of the cell, and it is embedded exactly if the cell is small. -/
structure Ref.Describes (r : Ref) (d : Cell) : Prop where
  hash : r.hash = d.hash
  loaded : r.loaded = d.loaded
  embedded : r.isEmbedded = d.isEmbeddable

/-- A cell which is of the form that its contents allow, and has room for the work `w`, at any
depth. -/
inductive Cell.Valid (w : Nat) : Cell → Prop where
  /-- The cell itself is of that form, its references describe the cells that they hold, and these
  are valid. -/
  | intro {c : Cell} (shaped : c.Shaped) (room : c.Room w)
      (describes : ∀ r ∈ c.refs, ∀ d, r.held? = some d → r.Describes d)
      (parts : ∀ r ∈ c.refs, ∀ d, r.held? = some d → Cell.Valid w d) : Cell.Valid w c

/-- A reference that describes the cell that it holds, if it holds one, and that cell is valid. -/
def Ref.Valid (w : Nat) (r : Ref) : Prop :=
  ∀ d, r.held? = some d → r.Describes d ∧ d.Valid w

/-- A vector that is valid as a cell. -/
def Vec.Valid (w : Nat) (v : Vec) : Prop := Cell.Valid w (.vector v)

theorem Cell.valid_iff {w : Nat} {c : Cell} :
    c.Valid w ↔ c.Shaped ∧ c.Room w ∧ ∀ r ∈ c.refs, r.Valid w := by
  constructor
  · rintro ⟨shaped, room, describes, parts⟩
    exact ⟨shaped, room, fun r hr d hd => ⟨describes r hr d hd, parts r hr d hd⟩⟩
  · rintro ⟨shaped, room, refs⟩
    exact ⟨shaped, room, fun r hr d hd => (refs r hr d hd).1, fun r hr d hd => (refs r hr d hd).2⟩

theorem Cell.Valid.shaped {w : Nat} {c : Cell} (h : c.Valid w) : c.Shaped := (valid_iff.1 h).1

theorem Cell.Valid.room {w : Nat} {c : Cell} (h : c.Valid w) : c.Room w := (valid_iff.1 h).2.1

theorem Cell.Valid.refs {w : Nat} {c : Cell} (h : c.Valid w) {r : Ref} (hr : r ∈ c.refs) :
    r.Valid w :=
  (valid_iff.1 h).2.2 r hr

theorem Cell.Valid.mono {w w' : Nat} {c : Cell} (h : c.Valid w) (hw : w ≤ w') : c.Valid w' := by
  induction h with
  | intro shaped room describes _ ih => exact .intro shaped (room.mono hw) describes ih

theorem Ref.Valid.mono {w w' : Nat} {r : Ref} (h : r.Valid w) (hw : w ≤ w') : r.Valid w' :=
  fun d hd => ⟨(h d hd).1, (h d hd).2.mono hw⟩

/-- A new parent describes its parts. -/
theorem Ref.valid_of {w : Nat} {c : Cell} (h : c.Valid w) : (Ref.of c).Valid w := by
  intro d hd
  rw [Ref.held?_of] at hd
  cases hd
  exact ⟨⟨Ref.hash_of c, Ref.loaded_of c, Ref.isEmbedded_of c⟩, h⟩

theorem Ref.valid_remote (w : Nat) (h : Hash) : (Ref.remote h).Valid w := fun _ hd => by cases hd

/-- A cell without references is valid if it is shaped. -/
theorem Cell.valid_of_no_refs {w : Nat} {c : Cell} (shaped : c.Shaped) (room : c.Room w)
    (h : c.refs = []) : c.Valid w := by
  rw [Cell.valid_iff, h]
  exact ⟨shaped, room, fun r hr => by cases hr⟩

end CellMachine
