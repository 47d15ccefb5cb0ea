import CellMachine.Proofs.Eval.Metering
import CellMachine.Proofs.Eval.Raising

/-!
# Traces of errors

An error is raised with an empty trace, by whatever step raises it, and gains a line when it leaves the
body of a closure. Nothing else touches the trace on the way out: steps in sequence, scopes and rolled
back definitions hand an exit on as it is. Since the body of a closure is evaluated with one level less
than the call, an error has no more lines than there were levels for it to leave (`Eval.traced_eval`).

Each line has the name of a closure in it, and names are short, so that a line always fits a string.
-/

namespace CellMachine

/-- An exit which, if it is an error, has left at most `n` closures: its trace has a line for each. -/
def Exit.Traced (n : Nat) : Exit → Prop
  | .signal (.error f) =>
    f.trace.length ≤ n ∧ ∀ line ∈ f.trace, ∃ name, line = Eval.traceLine name
  | _ => True

namespace Exit

variable {n : Nat}

/-- A bound on the length of a trace may be raised. -/
theorem Traced.mono {e : Exit} {m : Nat} (h : e.Traced n) (hm : n ≤ m) : e.Traced m := by
  unfold Traced at h ⊢
  split at h
  · exact ⟨Nat.le_trans h.1 hm, h.2⟩
  · trivial

/-- An error as it is raised. -/
theorem traced_ofValue (code : Name) (message : Cell) :
    (Exit.signal (.ofValue code message)).Traced n :=
  ⟨Nat.zero_le n, fun _ hline => absurd hline List.not_mem_nil⟩

theorem traced_ofText (code : Name) (message : String) :
    (Exit.signal (.ofText code message)).Traced n :=
  traced_ofValue code _

end Exit

/-- Core functions raise errors without a trace. -/
theorem CoreFn.Ends.traced {f : CoreFn} {args : List Cell} {e : Exit} (h : f.Ends args e) (n : Nat) :
    e.Traced n := by
  cases h with
  | complaint | fail => exact Exit.traced_ofValue _ _
  | data | halt | leave => trivial

/-- The budget of those who do not count, under which everything may be held. -/
def Budget.free : Budget := ⟨fun _ => True, fun _ _ => True⟩

/-- Where every value is allowed, nothing has to be kept. -/
theorem Budget.sound_free : free.Sound :=
  ⟨fun _ _ => trivial, fun _ _ => trivial, fun _ _ => trivial, fun _ => trivial, fun _ _ => trivial,
    fun _ _ => trivial, fun _ _ => trivial, fun _ _ _ _ => trivial, fun _ _ _ _ => trivial⟩

theorem Budget.allows_free (m : Machine) : free.Allows m :=
  ⟨trivial, fun _ _ => trivial, fun _ _ => trivial⟩

namespace Eval

variable {n : Nat} {α β : Type}

/-- A step whose errors have left at most `n` closures. -/
def Traced (n : Nat) (x : Eval α) : Prop :=
  ∀ j, Within .free (fun _ => Exit.Traced n) j (fun _ _ => True) x

/-- What a traced step raises is traced, whatever machine it is run on. -/
theorem Traced.exit {x : Eval α} (hx : Traced n x) {m after : Machine} {e : Exit}
    (h : x m = .error e after) : e.Traced n := by
  have hends := hx m.juice m rfl (Budget.allows_free m)
  rw [h] at hends
  cases hends with
  | error _ _ he => exact he

/-- Whatever else is known of how a step ends. -/
theorem traced_of_within {x : Eval α} {Q : Nat → Nat → α → Prop}
    (h : ∀ j, Within .free (fun _ => Exit.Traced n) j (Q j) x) : Traced n x :=
  fun j => (h j).imp (fun _ _ he => he) fun _ _ _ => trivial

/-- A chain of traced steps is traced: nothing is asked of what they yield. -/
theorem Traced.bind {x : Eval α} {f : α → Eval β} (hx : Traced n x) (hf : ∀ a, Traced n (f a)) :
    Traced n (x >>= f) :=
  fun j => (hx j).bind fun k _ a _ => hf a k

theorem traced_pure (a : α) : Traced n (pure a : Eval α) := fun _ => within_pure trivial

theorem traced_throw {e : Exit} (h : e.Traced n) : Traced n (throw e : Eval α) := fun _ => within_throw h

theorem traced_fault (f : Fault) : Traced n (fault f : Eval α) := traced_throw trivial

theorem traced_complain (p : Complaint) : Traced n (throw p.exit : Eval α) :=
  traced_throw (Exit.traced_ofText _ _)

/-- What an op complains about by itself starts with an empty trace. -/
theorem lenient_traced (n : Nat) : Lenient .free fun _ => Exit.Traced n where
  sound := Budget.sound_free
  fault _ _ := trivial
  outOfJuice _ := trivial
  undeclared _ _ := Exit.traced_ofText _ _
  scopeLimit _ _ _ _ := Exit.traced_ofText _ _
  parameters _ _ _ := Exit.traced_ofText _ _
  notFunction _ := Exit.traced_ofText _ _
  call _ _ h := h.traced n

/-! The steps that ops are made of, whatever they are given. -/

theorem traced_charge (price : Nat) : Traced n (charge price) :=
  traced_of_within fun _ => (lenient_traced n).within_charge price

theorem traced_define (symbol : Name) (value : Cell) : Traced n (define symbol value) :=
  traced_of_within fun _ => within_define symbol trivial

theorem traced_declare (symbol : Name) (value : Cell) : Traced n (declare symbol value) :=
  traced_of_within fun _ => within_declare symbol trivial

theorem traced_ofData (r : Except DataError α) : Traced n (ofData r) :=
  fun _ => (lenient_traced n).within_ofData fun _ _ => trivial

theorem traced_opList (r : Ref) : Traced n (opList r) := (traced_ofData _).bind fun _ => traced_ofData _

theorem traced_symbolList (r : Ref) : Traced n (symbolList r) :=
  fun _ => (lenient_traced n).within_symbolList fun _ _ => trivial

theorem traced_resolve (symbol : Name) : Traced n (resolve symbol) :=
  fun _ => (lenient_traced n).within_resolve symbol

theorem traced_captureScope : Traced n captureScope :=
  traced_of_within fun _ => (lenient_traced n).within_captureScope

theorem traced_bindingsOf (entries : List (Cell × Cell)) : Traced n (bindingsOf entries) :=
  traced_of_within fun _ => (lenient_traced n).within_bindingsOf fun _ _ => trivial

/-- A core function raises no error that has a trace already. -/
theorem traced_ofExcept_run (f : CoreFn) (args : List Cell) : Traced n (ofExcept (f.run args)) := by
  cases h : f.run args with
  | ok c => exact traced_pure c
  | error e => exact traced_throw ((CoreFn.ends_of_run h).traced n)

/-- Charging for a call raises nothing that has a trace. -/
theorem traced_callCore (f : CoreFn) (args : List Cell) : Traced n (callCore f args) :=
  (traced_charge _).bind fun _ => traced_ofExcept_run f args

/-- An op adds a level of closures to what its parts have left. -/
theorem raising_traced {eval : Cell → Eval Cell} (heval : ∀ c, Traced n (eval c)) :
    Raising .free eval (fun _ => Exit.Traced n) fun _ => Exit.Traced (n + 1) where
  parts {j c} _ := heval c j
  lenient := lenient_traced (n + 1)
  pass h := h.mono (Nat.le_succ n)
  leaving {_ f} h name := by
    obtain ⟨hlen, hlines⟩ := h
    refine ⟨?_, List.forall_mem_append.2 ⟨hlines, List.forall_mem_singleton.2 ⟨name, rfl⟩⟩⟩
    show (f.trace ++ _).length ≤ n + 1
    rw [List.length_append, List.length_singleton]
    exact Nat.succ_le_succ hlen
  left _ := trivial

/-- An error has left no more closures than there were levels. -/
theorem traced_eval (settings : Settings) (levels : Nat) (c : Cell) :
    Traced levels (c.eval settings levels) := by
  induction levels generalizing c with
  | zero =>
    cases c with
    | op o => exact traced_complain (.depth settings.maxDepth)
    | _ => exact traced_fault _
  | succ levels ih =>
    cases c with
    | op o => exact fun j => ((raising_traced ih).step trivial).rollback Budget.sound_free
    | _ => exact traced_fault _

/-! ## Codes

The code of an error stays as it is on the way out. -/

/-- A step that ended in a signal with the given code. -/
def FailsWith (code : Name) (r : End α) : Prop :=
  ∃ s m, r = .error (.signal s) m ∧ s.code? = some code

section Codes
variable {code : Name} {m : Machine}

theorem FailsWith.bind {x : Eval α} (h : FailsWith code (x m)) (f : α → Eval β) :
    FailsWith code ((x >>= f) m) := by
  obtain ⟨s, after, hx, hs⟩ := h
  exact ⟨s, after, bind_of_error hx, hs⟩

/-- Giving definitions back changes nothing about how a step ends. -/
theorem failsWith_rollback_iff {x : Eval α} : FailsWith code (rollback x m) ↔ FailsWith code (x m) := by
  unfold Eval.rollback
  constructor
  · rintro ⟨s, after, h, hs⟩
    split at h
    · next heq =>
      cases h
      exact ⟨s, _, heq, hs⟩
    · exact ⟨s, after, h, hs⟩
  · rintro ⟨s, after, hx, hs⟩
    simp only [hx]
    exact ⟨s, _, rfl, hs⟩

/-- A step fails in another scope if it fails with that scope on the machine. -/
theorem FailsWith.inScope {x : Eval α} {scope : Bindings} (h : FailsWith code (x { m with scope := scope })) :
    FailsWith code (inScope scope x m) := by
  obtain ⟨s, after, hx, hs⟩ := h
  exact ⟨s, { after with scope := m.scope }, by rw [Eval.inScope, hx], hs⟩

/-- A call adds to the trace of an error and leaves its code alone. -/
theorem FailsWith.catchReturn {x : Eval Cell} (h : FailsWith code (x m)) (settings : Settings)
    (name : Option Name) : FailsWith code (catchReturn settings name x m) := by
  obtain ⟨s, after, hx, hs⟩ := h
  unfold Eval.catchReturn
  simp only [hx]
  cases s with
  | error f =>
    refine ⟨_, after, rfl, ?_⟩
    split <;> exact hs
  | outOfJuice => exact ⟨_, after, rfl, hs⟩
  | halt v | leave v => cases hs

end Codes

end Eval

end CellMachine
