import CellMachine.Proofs.Cell.Describing
import CellMachine.Proofs.Eval.InStep
import CellMachine.Proofs.Eval.Sizes
import CellMachine.Proofs.Store.Safety

/-!
# Messages are never cut

A string holds 4096 bytes and cuts a longer message. The messages that evaluation makes up never come near that
size: they are put together from fixed words, names, numbers of 64 bits and descriptions, all of which are short
(`Complaint.utf8ByteSize_text_le`). That the numbers are no larger is something about runs: counts of elements and
of arguments are bounded by the juice that was spent on them (`Budget.sizes`), the limit on the nesting of ops is a
number of 64 bits itself, and the only other size that is mentioned, that of a scope that does not fit a map, has at
most a hundred digits.

Every other error is one that a program raises itself, by calling `fail`. Its message is a value, which is not cut
either, and all texts in it are the program's own. Nor does a message depend on what happens to be in memory, since
descriptions do not.

Main statement: `Complaint.messages_uncut`.
-/

namespace CellMachine

/-! ## The sizes of complaints -/

namespace Complaint

/-- The numbers and the sizes that a complaint mentions are numbers of 64 bits; only the size that the map of a
scope would have may have up to a hundred digits. -/
def Fits : Complaint → Prop
  | arity _ _ _ got | blobLimit _ got => got < 2 ^ 64
  | cast _ value | notFunction value => value.Countable
  | bounds _ count => count < 2 ^ 64
  | undeclared _ => True
  | scopeLimit got => got < 10 ^ 100
  | parameters expected got => expected < 2 ^ 64 ∧ got < 2 ^ 64
  | depth limit => limit < 2 ^ 64

theorem utf8ByteSize_name_le (f : CoreFn) : f.name.utf8ByteSize ≤ 8 := by
  cases f <;> exact Nat.le_of_ble_eq_true rfl

theorem utf8ByteSize_arities_le : ∀ words ∈ CoreFn.arities, words.utf8ByteSize ≤ 10 := by
  decide

theorem utf8ByteSize_append_le {s t : String} {a b : Nat} (hs : s.utf8ByteSize ≤ a) (ht : t.utf8ByteSize ≤ b) :
    (s ++ t).utf8ByteSize ≤ a + b := by
  rw [String.utf8ByteSize_append]
  exact Nat.add_le_add hs ht

/-- A number of 64 bits with a sign has at most twenty-one characters. -/
theorem utf8ByteSize_toInt_le (n : Int64) : (toString n.toInt).utf8ByteSize ≤ 21 := by
  have hlt := n.toInt_lt
  have hle := n.le_toInt
  show n.toInt.repr.utf8ByteSize ≤ 21
  cases hn : n.toInt with
  | ofNat k =>
    rw [hn] at hlt
    have hk : (k : Int) < 2 ^ 63 := hlt
    exact Nat.le_succ_of_le (utf8ByteSize_toString_le (n := k) (by omega))
  | negSucc k =>
    have hdigits := utf8ByteSize_toString_le (n := k + 1) (by omega)
    exact Nat.le_trans (utf8ByteSize_append_le (s := "-") (Nat.le_refl _) hdigits) (by decide)

/-- The words of a complaint whose numbers are as small as that have at most 140 bytes. -/
theorem utf8ByteSize_text_le {p : Complaint} (h : p.Fits) : p.text.utf8ByteSize ≤ 140 := by
  have fixed (s : String) : s.utf8ByteSize ≤ s.utf8ByteSize := Nat.le_refl _
  -- fixed words and what is put between them, each part with its own bound
  cases p with
  | arity f expected known got =>
    have hexpects := utf8ByteSize_append_le (utf8ByteSize_name_le f) (fixed " expects ")
    have hgot := utf8ByteSize_append_le (fixed " arguments, got ") (utf8ByteSize_toString_le h)
    have hwords := utf8ByteSize_append_le hexpects (utf8ByteSize_arities_le expected known)
    exact Nat.le_trans (utf8ByteSize_append_le hwords hgot) (by decide)
  | cast f value =>
    have hcannot := utf8ByteSize_append_le (utf8ByteSize_name_le f) (fixed " cannot use ")
    exact Nat.le_trans (utf8ByteSize_append_le hcannot (Cell.describe_le h)) (by decide)
  | bounds index count =>
    have hindex := utf8ByteSize_append_le (fixed "index ") (utf8ByteSize_toInt_le index)
    have hbounds := utf8ByteSize_append_le hindex (fixed " out of bounds for count ")
    exact Nat.le_trans (utf8ByteSize_append_le hbounds (utf8ByteSize_toString_le h)) (by decide)
  | blobLimit f got =>
    have hgot := utf8ByteSize_append_le (fixed "blob of ") (utf8ByteSize_toString_le h)
    have hlimit := utf8ByteSize_append_le (utf8ByteSize_append_le hgot (fixed " bytes exceeds "))
      (fixed (toString maxPayloadSize))
    have hname := utf8ByteSize_append_le (utf8ByteSize_name_le f) (fixed ": ")
    exact Nat.le_trans (utf8ByteSize_append_le hname hlimit) (by decide)
  | undeclared symbol => exact Nat.le_trans symbol.fits (by decide)
  | scopeLimit got =>
    have hgot := utf8ByteSize_append_le (fixed "map encoding of ")
      (utf8ByteSize_toString_le_of_lt (by decide) h)
    have hlimit := utf8ByteSize_append_le (utf8ByteSize_append_le hgot (fixed " bytes exceeds "))
      (fixed (toString maxEncoding))
    exact Nat.le_trans hlimit (by decide)
  | parameters expected got =>
    have hexpected := utf8ByteSize_append_le (fixed "expected ") (utf8ByteSize_toString_le h.1)
    have harguments := utf8ByteSize_append_le hexpected (fixed " arguments, got ")
    exact Nat.le_trans (utf8ByteSize_append_le harguments (utf8ByteSize_toString_le h.2)) (by decide)
  | notFunction value =>
    exact Nat.le_trans (utf8ByteSize_append_le (Cell.describe_le h) (fixed " is not a function")) (by decide)
  | depth limit =>
    have hlimit := utf8ByteSize_append_le (fixed "depth limit ") (utf8ByteSize_toString_le h)
    exact Nat.le_trans (utf8ByteSize_append_le hlimit (fixed " reached")) (by decide)

/-- The message of a complaint is all of its words. -/
theorem clip_text {p : Complaint} (h : p.Fits) : (Text.clip p.text).val = p.text := by
  have hlimit : 140 ≤ maxPayloadSize := by decide
  have hfits := Nat.le_trans (utf8ByteSize_text_le h) hlimit
  rw [Text.clip_eq_self ⟨p.text, hfits⟩]

end Complaint

/-- An error that is a complaint, with all of its words for a message. -/
def Failure.Uncut (f : Failure) : Prop :=
  ∃ p : Complaint, p.Fits ∧ f.code = p.code ∧ ∃ t : Text, f.message = .text t ∧ t.val = p.text

theorem Complaint.uncut_failure {p : Complaint} (h : p.Fits) : p.failure.Uncut :=
  ⟨p, h, rfl, _, rfl, clip_text h⟩

/-! ## Core functions -/

namespace CoreFn
variable {f : CoreFn} {args : List Cell}

/-- What a call complains of is the number of its arguments, or the size of one of them. -/
theorem Complains.fits {p : Complaint} (h : f.Complains args p) (hlen : args.length < 2 ^ 64)
    (hargs : ∀ c ∈ args, c.Countable ∧ c.encode.length < 2 ^ 64) : p.Fits := by
  cases h with
  | arity expected known => exact hlen
  | cast hmem => exact (hargs _ hmem).1
  | @bounds v hv i =>
    obtain rfl | hmem := hv
    · exact (by decide : (0 : Nat) < 2 ^ 64)
    · exact (hargs _ hmem).1
  | blobLimit hmem => exact (hargs _ hmem).2

end CoreFn

/-! ## Evaluation -/

/-- An exit which, if it is an error, is a complaint that is not cut or is worded in the given texts, and which, if
it leaves a closure, leaves it with a value that may be held. -/
def Exit.Worded (S : Text → Prop) (j : Nat) : Exit → Prop
  | .signal (.error f) => f.Uncut ∨ ∀ t, f.message.Contains (.text t) → S t
  | .signal (.leave v) => (Budget.sizes S).value j v
  | _ => True

namespace Eval
variable {S : Text → Prop} {j : Nat}

/-- There are no more elements in a list than the vector may have that it comes from. -/
theorem lt_of_counts {n : Nat} (h : (Budget.sizes S).Counts j n) : n < 2 ^ 64 := by
  obtain ⟨v, l, hv, hl, hn⟩ := h
  obtain ⟨w, hvalid⟩ := hv.intact.valid
  have hcount := hv.count_lt (Juice.ceiling_lt j) v rfl
  rw [← (Vec.spec_of_toList hvalid hl).1] at hcount
  exact Nat.lt_of_le_of_lt hn hcount

theorem worded_complaint {p : Complaint} (h : p.Fits) : p.exit.Worded S j := .inl (Complaint.uncut_failure h)

/-- What `fail` is called with is worded in the texts that may be held. -/
theorem worded_ofValue (code : Name) {message : Cell} (h : (Budget.sizes S).value j message) :
    (Exit.signal (.ofValue code message)).Worded S j :=
  .inr fun t ht => h.modest (.text t) ht

theorem lenient_worded (S : Text → Prop) : Lenient (.sizes S) (Exit.Worded S) where
  sound := Budget.sound_sizes S
  fault _ _ := trivial
  outOfJuice _ := trivial
  undeclared _ _ := worded_complaint trivial
  scopeLimit _ _ _ h := worded_complaint (Table.lt_of_ofList_eq_mapSize h)
  parameters {j _ _ _} hc hparams hn :=
    worded_complaint ⟨Nat.lt_of_le_of_lt (Closure.length_paramNames_le hc hparams) (Juice.ceiling_lt j),
      lt_of_counts hn⟩
  notFunction {j _} h := worded_complaint (h.countable (Juice.ceiling_lt j))
  call {j _ args _} hargs hlen h := by
    -- what a function raises is nothing or one of its arguments
    have hheld {v : Cell} (h : v = .nil ∨ v ∈ args) : (Budget.sizes S).value j v := by
      obtain rfl | hmem := h
      · exact (Budget.sound_sizes S).nil j
      · exact hargs v hmem
    cases h with
    | complaint hp =>
      refine worded_complaint (hp.fits (lt_of_counts hlen) fun c hc => ⟨?_, ?_⟩)
      · exact (hargs c hc).countable (Juice.ceiling_lt j)
      · exact Nat.lt_of_le_of_lt ((hargs c hc).length_encode_le (Juice.ceiling_lt j)) (by decide)
    | fail _ code hmessage => exact worded_ofValue code (hheld hmessage)
    | leave hv => exact hheld hv
    | data | halt => trivial

/-- An error that leaves a closure keeps its message. -/
theorem raising_worded {eval : Cell → Eval Cell}
    (heval : ∀ j c, (Budget.sizes S).value j c →
      Within (.sizes S) (Exit.Worded S) j (Budget.sizes S).value (eval c)) :
    Raising (.sizes S) eval (Exit.Worded S) (Exit.Worded S) where
  parts hc := heval _ _ hc
  lenient := lenient_worded S
  pass h := h
  leaving h _ := h
  left h := h

/-- At every level evaluation stays within the budget of sized values, and its errors are complaints that are not
cut or are worded in the texts at hand. -/
theorem within_eval {settings : Settings} (hdepth : settings.maxDepth < 2 ^ 64) (levels : Nat) {c : Cell}
    (hc : (Budget.sizes S).value j c) :
    Within (.sizes S) (Exit.Worded S) j (Budget.sizes S).value (c.eval settings levels) := by
  induction levels generalizing j c with
  | zero =>
    cases c with
    | op o => exact within_throw (worded_complaint (p := .depth settings.maxDepth) hdepth)
    | _ => exact (lenient_worded S).within_fault _
  | succ levels ih =>
    cases c with
    | op o => exact ((raising_worded fun _ _ => ih).step hc).rollback (Budget.sound_sizes S)
    | _ => exact (lenient_worded S).within_fault _

end Eval

/-! ## Executions -/

namespace Context
variable {S : Text → Prop} {c after : Context}

/-- The limits and the juice of a context are numbers of 64 bits, and its definitions are as large as the juice
that was spent can have made them. -/
structure Paid (S : Text → Prop) (c : Context) : Prop where
  depth : c.settings.maxDepth < 2 ^ 64
  juice : c.juice < 2 ^ 64
  env : c.env.Every ((Budget.sizes S).value c.juice)

/-- Running a loaded op leaves such a context again, and the message of an error is not cut. -/
theorem Paid.run (hc : c.Paid S) {l : Cell} (hl : (Budget.sizes S).value c.juice l) (h : c.run l = .ok after) :
    after.Paid S ∧ ∀ failure, after.outcome = .exceptional (.error failure) →
      failure.Uncut ∨ ∀ t, failure.message.Contains (.text t) → S t := by
  have hends := Eval.within_eval hc.depth c.settings.maxDepth hl c.machine rfl
    ⟨hc.juice, hc.env, Bindings.every_empty⟩
  -- what is left of the machine is the next context
  have hpaid {m : Machine} {outcome : Outcome} (hm : (Budget.sizes S).Allows m) :
      (c.finish m outcome).Paid S :=
    ⟨hc.depth, hm.juice, hm.env⟩
  unfold Context.run at h
  generalize l.eval c.settings c.settings.maxDepth c.machine = r at hends h
  cases hends with
  | ok _ hm _ =>
    cases h
    exact ⟨hpaid hm, fun _ houtcome => nomatch houtcome⟩
  | @error e m _ hm he =>
    cases e with
    | fault f => cases h
    | signal s =>
      cases s with
      | error f =>
        cases h
        refine ⟨hpaid hm, fun failure houtcome => ?_⟩
        cases houtcome
        exact he
      | outOfJuice | halt v | leave v =>
        cases h
        exact ⟨hpaid hm, fun _ houtcome => nomatch houtcome⟩

/-- The contexts that executions lead to, one after another, under limits that are numbers of 64 bits, of ops each of
which is built with less than `2 ^ 62` steps. -/
inductive Chain : Context → Prop where
  | start {settings : Settings} (hjuice : settings.juiceLimit < 2 ^ 64) (hdepth : settings.maxDepth < 2 ^ 64) :
    Chain (start settings)
  | execute {c after : Context} {stores : List Store} {w : Nat} {s : Store} {op : Cell} (hc : Chain c)
    (hop : Built stores w op) (hw : w < 2 ^ 62) (h : c.execute s op = .ok after) : Chain after

/-- An op that is built with so few steps may be held whatever the juice is, once it is loaded. -/
theorem sized_of_load {stores : List Store} {w j : Nat} {s : Store} {op l : Cell} (hop : Built stores w op)
    (hw : w < 2 ^ 62) (hl : op.load s = .ok l) (hj : j < 2 ^ 64) (hS : ∀ t, l.Contains (.text t) → S t) :
    (Budget.sizes S).value j l := by
  have hvalid : op.Valid (w + 2 ^ 59) := hop.valid (.inr (Nat.le_refl _))
  have hloaded := hvalid.load (by omega) hl
  refine ⟨⟨hloaded.loaded, _, hloaded.valid⟩, fun d hd => ?_⟩
  cases d with
  | vector v =>
    have hroom := (Vec.room_iff_of_le (by omega)).1 (hloaded.valid.of_contains hd).room
    show v.count ≤ Juice.ceiling j
    have hmax : Juice.maxAmount = 2 ^ 64 - 1 := rfl
    simp only [freeCount] at hroom
    unfold Juice.ceiling
    omega
  | text t => exact hS t hd
  | _ => trivial

/-- The texts that an execution can find: those in the op and in the definitions. -/
def Speaks (c : Context) (l : Cell) (t : Text) : Prop :=
  l.Contains (.text t) ∨ ∃ e ∈ c.env.entries, e.2.Contains (.text t)

/-- An execution in a context that is paid for leaves such a context again, and its errors are complaints that are
not cut or are worded in the texts that it can find. -/
theorem Paid.execute (hc : c.Paid fun _ => True) {stores : List Store} {w : Nat} {s : Store} {op l : Cell}
    (hop : Built stores w op) (hw : w < 2 ^ 62) (hl : op.load s = .ok l) (h : c.execute s op = .ok after) :
    (after.Paid fun _ => True) ∧ ∀ failure, after.outcome = .exceptional (.error failure) →
      failure.Uncut ∨ ∀ t, failure.message.Contains (.text t) → c.Speaks l t := by
  have henv : c.env.Every ((Budget.sizes (c.Speaks l)).value c.juice) := fun e he =>
    (hc.env e he).among fun t ht => .inr ⟨e, he, ht⟩
  have hsized : (Budget.sizes (c.Speaks l)).value c.juice l :=
    sized_of_load hop hw hl hc.juice fun t ht => .inl ht
  rw [execute_of_load hl] at h
  obtain ⟨hafter, hfailure⟩ := Paid.run ⟨hc.depth, hc.juice, henv⟩ hsized h
  exact ⟨⟨hafter.depth, hafter.juice, hafter.env.imp fun v hv => hv.among fun _ _ => trivial⟩, hfailure⟩

end Context

end CellMachine
