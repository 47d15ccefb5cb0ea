import CellMachine.Proofs.Cell.Contains
import CellMachine.Proofs.Store.Loading

/-!
# What comes out of a store can be trusted

A store may hold anything: bytes that are no encoding, bytes that stand under a hash that is not
theirs, small cells where a parent refers to them by their hash, parts that do not fit their parent.
Whatever is loaded all the same is as it should be at every depth: nothing is missing, every
reference states the truth about the cell that it holds, and every cell passes the structural checks
with all of its parts held.

Main statement: `Store.load_trusted`.
-/

namespace CellMachine

/-- A cell in which, at any depth, nothing is missing, every reference states the truth about the
cell that it holds (its hash, and by being embedded that it is small) and the structural checks
find nothing wrong. -/
structure Cell.Trusted (c : Cell) : Prop where
  loaded : c.loaded = true
  held : ∀ d, c.Contains d → ∀ r ∈ d.refs, ∃ e, r.held? = some e ∧ r.Describes e
  check : ∀ d, c.Contains d → d.check = .ok ()

variable {w : Nat}

/-- Nothing is wrong with a valid cell from which nothing is missing. -/
theorem Cell.Valid.trusted {c : Cell} (hc : c.Valid w) (hloaded : c.loaded = true) :
    c.Trusted := by
  refine ⟨hloaded, fun d hd r hr => ?_, fun d hd => (hc.of_contains hd).shaped.check⟩
  have hrefs := Cell.loaded_iff.1 (hc.loaded_of_contains hloaded hd)
  obtain ⟨e, he⟩ := Ref.exists_held?_of_loaded (hrefs r hr)
  exact ⟨e, he, ((hc.of_contains hd).refs hr e he).1⟩

/-- What has been loaded is intact, and is encoded as before. -/
theorem Cell.intact_of_load {c d : Cell} {s : Store} (hc : ∃ w, c.Valid w) (h : c.load s = .ok d) :
    d.Intact ∧ d.encode = c.encode := by
  obtain ⟨w, hc⟩ := hc
  have hw : 2 ^ 59 ≤ max w (2 ^ 59) + 1 :=
    Nat.le_trans (Nat.le_max_right w (2 ^ 59)) (Nat.le_add_right _ 1)
  obtain ⟨hencode, hloaded, hvalid⟩ := (hc.mono (Nat.le_max_left w (2 ^ 59))).load hw h
  exact ⟨⟨hloaded, _, hvalid⟩, hencode⟩

/-- What has been decoded and loaded since is trusted, and is still encoded by the same bytes. -/
theorem Cell.trusted_of_decode {s : Store} {bs : Bytes} {d c : Cell} (hd : decode bs = .ok d)
    (hc : d.load s = .ok c) : c.encode = bs ∧ c.Trusted := by
  have hvalid : d.Valid (2 ^ 59) := (valid_of_decode hd).mono (Nat.zero_le _)
  obtain ⟨hencode, hloaded, hvalid⟩ := hvalid.load (by decide) hc
  exact ⟨by rw [hencode, encode_of_decode hd], hvalid.trusted hloaded⟩

/-- What a store yields for a hash is decoded from the bytes under that hash, and these have it. -/
theorem Store.fetch_eq_ok_iff {s : Store} {h : Hash} {c : Cell} :
    s.fetch h = .ok c ↔ ∃ bs, s.get? h = some bs ∧ Hash.digest bs = h ∧ decode bs = .ok c := by
  unfold fetch
  cases hs : s.get? h with
  | none =>
    constructor
    · intro hc
      cases hc
    · rintro ⟨bs, hbs, -⟩
      cases hbs
  | some bs =>
    simp only [Option.some.injEq]
    constructor
    · intro hc
      by_cases hdigest : Hash.digest bs = h
      · rw [if_pos hdigest] at hc
        exact ⟨bs, rfl, hdigest, hc⟩
      · rw [if_neg hdigest] at hc
        cases hc
    · rintro ⟨_, rfl, hdigest, hc⟩
      rw [if_pos hdigest]
      exact hc

/-- Loading is safe whatever a store contains. A cell that is loaded under a hash has that hash, and
its encoding is what the store holds there, for which the store need not be taken at its word: the
digest of the encoding is the hash. Nothing in the cell is missing; at any depth, a reference has
the hash of the cell that it holds, stands for it by that hash only if the cell is too large to be
embedded, and is part of a cell that passes the structural checks. The same is true if the missing
parts of a decoded cell are loaded. Loading once more, from whatever store, changes nothing. -/
theorem Store.load_trusted (s : Store) :
    (∀ h c, s.load h = .ok c → s.get? h = some c.encode ∧ Hash.digest c.encode = h ∧ c.hash = h ∧
      c.Trusted ∧ ∀ t : Store, c.load t = .ok c) ∧
    (∀ bs d c, decode bs = .ok d → d.load s = .ok c → c.encode = bs ∧ c.hash = Hash.digest bs ∧
      c.Trusted ∧ ∀ t : Store, c.load t = .ok c) := by
  constructor
  · intro h c hc
    obtain ⟨d, hd, hc⟩ := bind_eq_ok_iff.1 hc
    obtain ⟨bs, hbs, hdigest, hd⟩ := fetch_eq_ok_iff.1 hd
    obtain ⟨rfl, htrusted⟩ := Cell.trusted_of_decode hd hc
    exact ⟨hbs, hdigest, hdigest, htrusted, fun t => Cell.loadWith_of_loaded _ htrusted.loaded⟩
  · intro bs d c hd hc
    obtain ⟨rfl, htrusted⟩ := Cell.trusted_of_decode hd hc
    exact ⟨rfl, rfl, htrusted, fun t => Cell.loadWith_of_loaded _ htrusted.loaded⟩

/-- A vector that holds one cell. -/
def boxed (c : Cell) : Cell := .vector (.chunk [.of c])

/-- A byte string that is too large to be embedded. -/
def largeBlob : Cell := .blob ⟨List.replicate 200 1, by decide +kernel⟩

/-- A large byte string in a vector is loaded from a store that has been given both, and is
trusted. -/
theorem Store.load_trusted_boxed :
    ∃ c, (Store.empty.persist (boxed largeBlob)).load (boxed largeBlob).hash = .ok c ∧
      (Store.empty.persist (boxed largeBlob)).get? (boxed largeBlob).hash = some c.encode ∧
      c.hash = (boxed largeBlob).hash ∧ c.Trusted ∧ c.load Store.empty = .ok c := by
  have hok : ((Store.empty.persist (boxed largeBlob)).load (boxed largeBlob).hash).isOk = true := by
    decide +kernel
  cases hc : (Store.empty.persist (boxed largeBlob)).load (boxed largeBlob).hash with
  | error e =>
    rw [hc] at hok
    cases hok
  | ok c =>
    obtain ⟨hget, -, hhash, htrusted, hagain⟩ := (load_trusted _).1 _ c hc
    exact ⟨c, rfl, hget, hhash, htrusted, hagain Store.empty⟩

end CellMachine
