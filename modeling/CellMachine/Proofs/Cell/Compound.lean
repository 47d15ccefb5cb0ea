import CellMachine.Proofs.Vec.Building
import CellMachine.Program
import CellMachine.Record

/-!
# Maps, records and programs are valid

What the constructors of compound values make of valid parts is valid. A map keeps its keys in the
order of their hashes and refuses to outgrow one encoding; a record has as many fields as its format
wants; an op or a closure holds parts of the right kinds, since its constructor asks for them or
makes them itself.

Main statements: `Table.valid_of_insert`, `Table.valid_of_erase` and `Table.valid_ofList`,
`Record.valid_of_create`, the lemmas `Op.valid_of…` and `Closure.valid_of_create`.
-/

namespace CellMachine

variable {w : Nat}

/-! ## Maps -/

/-- References to valid cells in every entry. -/
def EntriesValid (w : Nat) (entries : List (Ref × Ref)) : Prop :=
  ∀ e ∈ entries, e.1.Valid w ∧ e.2.Valid w

/-- A map is valid if its keys increase, it fits, and its keys and values are valid. -/
theorem Cell.valid_map_iff {entries : List (Ref × Ref)} :
    (Cell.map entries).Valid w ↔ Increasing entries ∧
      (Cell.map entries).encode.length ≤ maxEncoding ∧ EntriesValid w entries := by
  rw [Cell.valid_iff]
  constructor
  · rintro ⟨⟨hinc, hfits⟩, -, hrefs⟩
    refine ⟨hinc, hfits, fun e he => ⟨hrefs e.1 ?_, hrefs e.2 ?_⟩⟩
    · exact Cell.key_mem_refs he
    · exact Cell.value_mem_refs he
  · rintro ⟨hinc, hfits, hentries⟩
    refine ⟨⟨hinc, hfits⟩, trivial, fun r hr => ?_⟩
    obtain ⟨e, he, rfl | rfl⟩ := Cell.mem_map_refs_iff.1 hr
    · exact (hentries e he).1
    · exact (hentries e he).2

namespace Table

/-- What holds of the keys and the values of a list of entries holds of them after an insertion, if
it holds of what is inserted. -/
theorem forall_mem_insertEntry {P Q : Ref → Prop} {key value : Ref} {es : List (Ref × Ref)}
    (hkey : P key) (hvalue : Q value) (h : ∀ e ∈ es, P e.1 ∧ Q e.2) :
    ∀ e ∈ insertEntry key value es, P e.1 ∧ Q e.2 := by
  induction es with
  | nil => exact List.forall_mem_singleton.2 ⟨hkey, hvalue⟩
  | cons e es ih =>
    obtain ⟨k, v⟩ := e
    obtain ⟨he, hes⟩ := List.forall_mem_cons.1 h
    unfold insertEntry
    split
    · exact List.forall_mem_cons.2 ⟨he, ih hes⟩
    · split
      · exact List.forall_mem_cons.2 ⟨⟨he.1, hvalue⟩, hes⟩
      · exact List.forall_mem_cons.2 ⟨⟨hkey, hvalue⟩, h⟩

/-- The new key goes in before the first key that is greater, or takes the place of an equal one. -/
theorem increasing_insertEntry {key value : Ref} {es : List (Ref × Ref)} (h : Increasing es) :
    Increasing (insertEntry key value es) := by
  induction es with
  | nil => exact List.pairwise_singleton _ _
  | cons e es ih =>
    obtain ⟨k, v⟩ := e
    obtain ⟨hfirst, hes⟩ := List.pairwise_cons.1 h
    unfold insertEntry
    split
    · next hlt =>
      -- the key in front is smaller than the new one and than all that were there
      refine List.pairwise_cons.2 ⟨fun e he => ?_, ih hes⟩
      exact (forall_mem_insertEntry (P := fun r => k.hash < r.hash) (Q := fun _ => True) hlt trivial
        (fun e he => ⟨hfirst e he, trivial⟩) e he).1
    · next hge =>
      split
      · exact List.pairwise_cons.2 ⟨hfirst, hes⟩
      · next hne =>
        -- the new key comes first
        have hlt : key.hash < k.hash :=
          ((Hash.lt_trichotomy key.hash k.hash).resolve_right fun hor =>
            hor.elim (fun heq => hne heq.symm) hge)
        refine List.pairwise_cons.2 ⟨fun e he => ?_, h⟩
        rcases List.mem_cons.1 he with rfl | he
        · exact hlt
        · exact Hash.lt_trans hlt (hfirst e he)

theorem eraseEntry_sublist (h : Hash) (es : List (Ref × Ref)) : (eraseEntry h es).Sublist es := by
  induction es with
  | nil => exact .slnil
  | cons e es ih =>
    obtain ⟨k, v⟩ := e
    unfold eraseEntry
    split
    · exact List.sublist_cons_self (k, v) es
    · exact ih.cons_cons (k, v)

/-- The check changes nothing, and lets only maps pass that fit. -/
theorem checked_eq_ok {t u : Table} (h : t.checked = .ok u) :
    u = t ∧ t.cell.encode.length ≤ maxEncoding := by
  unfold checked at h
  simp only at h
  split at h
  · cases h
  · next hfits =>
    cases h
    exact ⟨rfl, Nat.le_of_not_lt hfits⟩

/-- A table of valid entries in order is valid once it has been found to fit. -/
theorem valid_of_checked {t u : Table} (hinc : Increasing t.entries)
    (hentries : EntriesValid w t.entries) (h : t.checked = .ok u) : u.cell.Valid w := by
  obtain ⟨rfl, hfits⟩ := checked_eq_ok h
  exact Cell.valid_map_iff.2 ⟨hinc, hfits, hentries⟩

/-- A valid map stays valid when an association is put in. -/
theorem valid_of_insert {t u : Table} {key value : Cell} (ht : t.cell.Valid w)
    (hkey : key.Valid w) (hvalue : value.Valid w) (h : t.insert key value = .ok u) :
    u.cell.Valid w := by
  obtain ⟨hinc, -, hentries⟩ := Cell.valid_map_iff.1 ht
  exact valid_of_checked (increasing_insertEntry hinc)
    (forall_mem_insertEntry (Ref.valid_of hkey) (Ref.valid_of hvalue) hentries) h

/-- A valid map stays valid when an association is taken out. -/
theorem valid_of_erase {t u : Table} {key : Cell} (ht : t.cell.Valid w)
    (h : t.erase key = .ok u) : u.cell.Valid w := by
  obtain ⟨hinc, -, hentries⟩ := Cell.valid_map_iff.1 ht
  unfold erase at h
  by_cases hmem : t.contains key = true
  · rw [if_pos hmem] at h
    have hsub := eraseEntry_sublist key.hash t.entries
    exact valid_of_checked (hinc.sublist hsub) (fun e he => hentries e (hsub.subset he)) h
  · rw [if_neg hmem] at h
    cases h
    exact ht

/-- What holds of the references to the keys and to the values of a list of associations holds of
those among which they are put in one after another. -/
theorem forall_mem_foldl {P Q : Ref → Prop} {entries : List (Cell × Cell)} {es : List (Ref × Ref)}
    (hentries : ∀ e ∈ entries, P (.of e.1) ∧ Q (.of e.2)) (hes : ∀ e ∈ es, P e.1 ∧ Q e.2) :
    ∀ e ∈ entries.foldl (fun es e => insertEntry (.of e.1) (.of e.2) es) es, P e.1 ∧ Q e.2 := by
  induction entries generalizing es with
  | nil => exact hes
  | cons e entries ih =>
    obtain ⟨⟨hkey, hvalue⟩, hrest⟩ := List.forall_mem_cons.1 hentries
    exact ih hrest (forall_mem_insertEntry hkey hvalue hes)

/-- What holds of the new references to the keys and the values holds of those in the map. -/
theorem forall_mem_ofList {P Q : Ref → Prop} {entries : List (Cell × Cell)} {u : Table}
    (hentries : ∀ e ∈ entries, P (.of e.1) ∧ Q (.of e.2)) (h : ofList entries = .ok u) :
    ∀ e ∈ u.entries, P e.1 ∧ Q e.2 := by
  obtain ⟨rfl, -⟩ := checked_eq_ok h
  exact forall_mem_foldl hentries fun _ he => (List.not_mem_nil he).elim

/-- Associations that are put in one after another are in order. -/
theorem increasing_foldl (entries : List (Cell × Cell)) {es : List (Ref × Ref)} (h : Increasing es) :
    Increasing (entries.foldl (fun es e => insertEntry (.of e.1) (.of e.2) es) es) := by
  induction entries generalizing es with
  | nil => exact h
  | cons e entries ih => exact ih (increasing_insertEntry h)

theorem increasing_ofList {entries : List (Cell × Cell)} {u : Table} (h : ofList entries = .ok u) :
    Increasing u.entries := by
  obtain ⟨rfl, -⟩ := checked_eq_ok h
  -- the entries are put in one after another, starting with none
  exact increasing_foldl entries .nil

/-- The map of a list of associations of valid cells is valid. -/
theorem valid_ofList {entries : List (Cell × Cell)} {u : Table}
    (hentries : ∀ e ∈ entries, e.1.Valid w ∧ e.2.Valid w) (h : ofList entries = .ok u) :
    u.cell.Valid w := by
  have hvalid : EntriesValid w u.entries := forall_mem_ofList
    (fun e he => ⟨Ref.valid_of (hentries e he).1, Ref.valid_of (hentries e he).2⟩) h
  obtain ⟨rfl, hfits⟩ := checked_eq_ok h
  exact Cell.valid_map_iff.2 ⟨increasing_ofList h, hfits, hvalid⟩

end Table

/-! ## Records -/

/-- A record is made with as many fields as its format wants. -/
theorem Record.valid_of_create {format : RecordFormat} {fields : List Cell} {r : Record}
    (hfields : ∀ c ∈ fields, c.Valid w) (h : create format fields = .ok r) : r.cell.Valid w := by
  unfold create at h
  split at h
  · next harity =>
    cases h
    refine Cell.valid_iff.2 ⟨(List.length_map _).trans harity, trivial, fun r hr => ?_⟩
    obtain ⟨c, hc, rfl⟩ := List.mem_map.1 hr
    exact Ref.valid_of (hfields c hc)
  · cases h

/-! ## Programs -/

theorem Cell.requireOp_eq_ok {c : Cell} (h : c.requireOp = .ok ()) : c.isOp = true := by
  unfold requireOp at h
  split at h
  · assumption
  · cases h

/-- The reference to a cell of the right kind passes the check of its kind. -/
theorem Ref.requireKind_of {c : Cell} {expected : String} {ok : Cell → Bool} (h : ok c = true) :
    (Ref.of c).requireKind expected ok = .ok () := by
  refine Ref.requireKind_eq_ok_iff.2 fun d hd => ?_
  rw [Ref.held?_of] at hd
  cases hd
  exact h

/-- The vector of a list of ops is valid, and is known to be a vector. -/
theorem valid_of_opVector {ops : List Cell} {r : Ref} (hops : ∀ c ∈ ops, c.Valid w)
    (h : opVector ops = .ok r) :
    r.Valid (w + ops.length) ∧ r.requireKind "vector of ops" Cell.isVector = .ok () := by
  obtain ⟨-, -, h⟩ := bind_eq_ok_iff.1 h
  cases h
  refine ⟨Ref.valid_of ?_, Ref.requireKind_of rfl⟩
  exact (Vec.valid_of (fun c hc => (hops c hc).mono (Nat.le_add_right w _))
    (Nat.le_add_left ops.length w)).1

/-- A vector of symbols is of the kind that programs want. -/
theorem valid_symbolVector {symbols : List Name} (hw : symbols.length ≤ w) :
    (symbolVector symbols).Valid w ∧
      (symbolVector symbols).requireKind "vector of symbols" Cell.isVector = .ok () := by
  refine ⟨Ref.valid_of (Vec.valid_of (fun c hc => ?_) ?_).1, Ref.requireKind_of rfl⟩
  · obtain ⟨n, -, rfl⟩ := List.mem_map.1 hc
    exact Cell.valid_of_no_refs rfl trivial rfl
  · rwa [List.length_map]

namespace Op

theorem valid_ofConstant {value : Cell} (h : value.Valid w) : (ofConstant value).Valid w :=
  Cell.valid_iff.2 ⟨rfl, trivial, List.forall_mem_singleton.2 (Ref.valid_of h)⟩

theorem valid_of_ofDefinition {symbol : Name} {op c : Cell} (hop : op.Valid w)
    (h : ofDefinition symbol op = .ok c) : c.Valid w := by
  obtain ⟨⟨⟩, hkind, h⟩ := bind_eq_ok_iff.1 h
  cases h
  exact Cell.valid_iff.2 ⟨Ref.requireKind_of (Cell.requireOp_eq_ok hkind), trivial,
    List.forall_mem_singleton.2 (Ref.valid_of hop)⟩

/-- The three ops that hold nothing but a vector of ops. -/
theorem valid_of_vectorOp {f : Ref → Op} {ops : List Cell} {c : Cell}
    (hrefs : ∀ r, (f r).refs = [r])
    (hcheck : ∀ r, (f r).check = r.requireKind "vector of ops" Cell.isVector)
    (hops : ∀ o ∈ ops, o.Valid w) (h : (do .ok (.op (f (← opVector ops)))) = Except.ok c) :
    c.Valid (w + ops.length) := by
  obtain ⟨r, hr, h⟩ := bind_eq_ok_iff.1 h
  cases h
  obtain ⟨hvalid, hkind⟩ := valid_of_opVector hops hr
  refine Cell.valid_iff.2 ⟨(hcheck r).trans hkind, trivial, ?_⟩
  show ∀ s ∈ (f r).refs, s.Valid (w + ops.length)
  rw [hrefs]
  exact List.forall_mem_singleton.2 hvalid

theorem valid_of_ofSequence {ops : List Cell} {c : Cell} (hops : ∀ o ∈ ops, o.Valid w)
    (h : ofSequence ops = .ok c) : c.Valid (w + ops.length) :=
  valid_of_vectorOp (f := .sequence) (fun _ => rfl) (fun _ => rfl) hops h

theorem valid_of_ofChoice {ops : List Cell} {c : Cell} (hops : ∀ o ∈ ops, o.Valid w)
    (h : ofChoice ops = .ok c) : c.Valid (w + ops.length) :=
  valid_of_vectorOp (f := .choose) (fun _ => rfl) (fun _ => rfl) hops h

/-- An invocation is not empty, since it needs something to call. -/
theorem valid_of_ofInvocation {ops : List Cell} {c : Cell} (hops : ∀ o ∈ ops, o.Valid w)
    (h : ofInvocation ops = .ok c) : c.Valid (w + ops.length) := by
  unfold ofInvocation at h
  split at h
  · cases h
  · exact valid_of_vectorOp (f := .invoke) (fun _ => rfl) (fun _ => rfl) hops h

/-- A binding has at least as many ops as symbols. -/
theorem valid_of_ofBind {symbols : List Name} {ops : List Cell} {c : Cell}
    (hops : ∀ o ∈ ops, o.Valid w) (h : ofBind symbols ops = .ok c) :
    c.Valid (w + ops.length) := by
  unfold ofBind at h
  split at h
  · cases h
  · next hmany =>
    obtain ⟨r, hr, h⟩ := bind_eq_ok_iff.1 h
    cases h
    obtain ⟨hvalid, hkind⟩ := valid_of_opVector hops hr
    -- there are no more symbols than ops
    have hfew : symbols.length ≤ w + ops.length := by omega
    obtain ⟨hsymbols, hkind'⟩ := valid_symbolVector hfew
    refine Cell.valid_iff.2 ⟨?_, trivial, ?_⟩
    · show (_ >>= _ : Except FormatError Unit) = _
      rw [hkind']
      exact hkind
    · exact List.forall_mem_cons.2 ⟨hsymbols, List.forall_mem_singleton.2 hvalid⟩

/-- A closure expression has symbols for parameters and an op for its body. -/
theorem valid_of_ofLambda {params : List Name} {body c : Cell} (hbody : body.Valid w)
    (h : ofLambda params body = .ok c) : c.Valid (w + params.length) := by
  obtain ⟨⟨⟩, hop, h⟩ := bind_eq_ok_iff.1 h
  cases h
  obtain ⟨hparams, hkind⟩ := valid_symbolVector (Nat.le_add_left params.length w)
  refine Cell.valid_iff.2 ⟨?_, trivial, ?_⟩
  · show (_ >>= _ : Except FormatError Unit) = _
    rw [hkind]
    exact Ref.requireKind_of (Cell.requireOp_eq_ok hop)
  · exact List.forall_mem_cons.2 ⟨hparams,
      List.forall_mem_singleton.2 ((Ref.valid_of hbody).mono (Nat.le_add_right w _))⟩

end Op

namespace Closure

/-- A closure passes the check of its parts when it is made. -/
theorem valid_of_create {params : Vec} {body c : Cell} {env : Table} {name : Option Name}
    (hparams : params.cell.Valid w) (hbody : body.Valid w) (henv : env.cell.Valid w)
    (h : create params body env name = .ok c) : c.Valid w := by
  obtain ⟨⟨⟩, hop, h⟩ := bind_eq_ok_iff.1 h
  obtain ⟨-, -, h⟩ := bind_eq_ok_iff.1 h
  cases h
  refine Cell.valid_iff.2 ⟨?_, trivial, ?_⟩
  -- the three new references are of the kinds that the check looks for
  · have hcheck : ∀ r s t : Ref, r.requireKind "vector of symbols" Cell.isVector = .ok () →
        s.requireKind "op" Cell.isOp = .ok () → t.requireKind "map" Cell.isMap = .ok () →
        (Closure.mk r s t name).check = .ok () := by
      intro r s t hr hs ht
      rw [check, hr, ok_bind, hs, ok_bind, ht]
    exact hcheck _ _ _ (Ref.requireKind_of rfl)
      (Ref.requireKind_of (Cell.requireOp_eq_ok hop)) (Ref.requireKind_of rfl)
  · exact List.forall_mem_cons.2 ⟨Ref.valid_of hparams, List.forall_mem_cons.2
      ⟨Ref.valid_of hbody, List.forall_mem_singleton.2 (Ref.valid_of henv)⟩⟩

/-- A closure under another name has the same parts. -/
theorem valid_rename {c : Closure} {name : Name} (h : (Cell.fn c).Valid w) :
    (Cell.fn (c.rename name)).Valid w :=
  Cell.valid_iff.2 ⟨h.shaped, trivial, fun _ hr => h.refs hr⟩

end Closure

end CellMachine
