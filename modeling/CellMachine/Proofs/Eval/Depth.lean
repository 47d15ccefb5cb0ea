import CellMachine.Proofs.Eval.Atomic
import CellMachine.Proofs.Eval.Coupled

/-!
# The depth limit only cuts

Evaluation with a higher limit on the nesting of ops goes the same way as evaluation with a lower one until
the lower one is hit. What happens then is an error with the code `:DEPTH`, and such an error ends the whole
evaluation: no step acts upon an error other than by adding to its trace or taking definitions back. So one
step *extends* another if it ends as the other does wherever that does not end in this error, which is a coupled
relation (`Eval.coupled_extends`).

Main statement: `execute_withMaxDepth`.
-/

namespace CellMachine

/-- The settings with another limit on the nesting of ops. -/
def Settings.withMaxDepth (s : Settings) (depth : Nat) : Settings := { s with maxDepth := depth }

namespace Eval

variable {α β : Type}

/-- The second step ends as the first does wherever the first is not cut short for depth. -/
def Extends (x x' : Eval α) : Prop := ∀ m, FailsWith Code.depth (x m) ∨ x' m = x m

/-- A step around the first one is extended by a step around the second one, if what is around them depends
on nothing else and hands on that the first one is cut short. -/
theorem Extends.around {x x' : Eval α} {y y' : Eval β} (hx : Extends x x') (g : Machine → Machine)
    (hdeep : ∀ m, FailsWith Code.depth (x (g m)) → FailsWith Code.depth (y m))
    (hsame : ∀ m, x' (g m) = x (g m) → y' m = y m) :
    Extends y y' :=
  fun m => (hx (g m)).imp (hdeep m) (hsame m)

theorem extends_refl (x : Eval α) : Extends x x := fun _ => .inr rfl

/-- A step that is cut short by the depth limit cuts what comes after it. -/
theorem Extends.bind {x x' : Eval α} {f f' : α → Eval β} (hx : Extends x x')
    (hf : ∀ a, Extends (f a) (f' a)) : Extends (x >>= f) (x' >>= f') := by
  intro m
  rcases hx m with hdeep | hsame
  · exact .inl (hdeep.bind f)
  · cases hend : x m with
    | ok a after =>
      rw [bind_of_ok hend, bind_of_ok (hsame.trans hend)]
      exact hf a after
    | error e after =>
      rw [bind_of_error hend, bind_of_error (hsame.trans hend)]
      exact .inr rfl

/-- Giving definitions back does not hide that the limit was met. -/
theorem Extends.rollback {x x' : Eval Cell} (hx : Extends x x') : Extends (rollback x) (rollback x') :=
  hx.around id (fun _ => failsWith_rollback_iff.2)
    fun m (hm : x' m = x m) => by rw [Eval.rollback, Eval.rollback, hm]

theorem Extends.inScope {x x' : Eval Cell} (hx : Extends x x') (scope : Bindings) :
    Extends (inScope scope x) (inScope scope x') :=
  hx.around (fun m => { m with scope := scope }) (fun _ => FailsWith.inScope)
    fun m hm => by rw [Eval.inScope, Eval.inScope, hm]

theorem Extends.enclosed {x x' : Eval Cell} (hx : Extends x x') : Extends (enclosed x) (enclosed x') :=
  fun m => hx.inScope m.scope m

/-- Closures note errors under either limit, or under neither. -/
theorem Extends.catchReturn {x x' : Eval Cell} (hx : Extends x x') (settings : Settings) (depth : Nat)
    (name : Option Name) :
    Extends (catchReturn settings name x) (catchReturn (settings.withMaxDepth depth) name x') :=
  hx.around id (fun _ h => h.catchReturn settings name)
    fun m (hm : x' m = x m) => by rw [Eval.catchReturn, Eval.catchReturn, hm]; rfl

/-- Evaluation under the higher limit goes the same way until the lower one is met. -/
theorem coupled_extends (settings : Settings) (depth : Nat) :
    Coupled settings (settings.withMaxDepth depth) Extends where
  alike {_ x} _ := extends_refl x
  bind := Extends.bind
  rollback := Extends.rollback
  enclosed := Extends.enclosed
  inScope := Extends.inScope
  catchReturn hx name := hx.catchReturn settings depth name

/-- Evaluation with more levels and a higher limit extends evaluation with fewer: without any levels left,
an op is cut short. -/
theorem extends_eval (settings : Settings) (depth levels more : Nat) (c : Cell) :
    Extends (c.eval settings levels) (c.eval (settings.withMaxDepth depth) (levels + more)) :=
  (coupled_extends settings depth).eval (fun _ _ => .inl ⟨_, _, rfl, rfl⟩) levels c

end Eval

/-! ## Executions -/

namespace Context

variable {c : Context} {op : Cell} {s : Store}

/-- The context with another limit on the nesting of ops. -/
def withMaxDepth (c : Context) (depth : Nat) : Context :=
  { c with settings := c.settings.withMaxDepth depth }

/-- An execution ends in an error with the code `:DEPTH`. -/
def EndsDeep : Except Fault Context → Prop
  | .ok ⟨_, _, _, .exceptional s⟩ => s.code? = some Code.depth
  | _ => False

instance : DecidablePred EndsDeep
  | .ok ⟨_, _, _, .exceptional s⟩ => inferInstanceAs (Decidable (s.code? = some Code.depth))
  | .ok ⟨_, _, _, .value _⟩ => instDecidableFalse
  | .error _ => instDecidableFalse

/-- An evaluation that is cut short is reported as such. -/
theorem endsDeep_of_failsWith
    (h : Eval.FailsWith Code.depth (op.eval c.settings c.settings.maxDepth c.machine)) :
    EndsDeep (c.run op) := by
  obtain ⟨s, m, hend, hs⟩ := h
  unfold run
  rw [hend]
  cases s with
  | error f => exact hs
  | outOfJuice => exact hs
  | halt v | leave v => cases hs

/-- A run that does not meet its limit is the same under a higher one. -/
theorem run_of_not_endsDeep {depth : Nat} (hle : c.settings.maxDepth ≤ depth) (h : ¬EndsDeep (c.run op)) :
    (c.withMaxDepth depth).run op = (c.run op).map (·.withMaxDepth depth) := by
  -- the higher limit is the lower one with some levels more
  obtain ⟨more, rfl⟩ := Nat.exists_eq_add_of_le hle
  have hsame : op.eval (c.withMaxDepth (c.settings.maxDepth + more)).settings
      (c.withMaxDepth (c.settings.maxDepth + more)).settings.maxDepth
      (c.withMaxDepth (c.settings.maxDepth + more)).machine =
        op.eval c.settings c.settings.maxDepth c.machine :=
    (Eval.extends_eval c.settings _ _ more op c.machine).resolve_left
      fun hdeep => h (endsDeep_of_failsWith hdeep)
  simp only [run]
  rw [hsame]
  cases op.eval c.settings c.settings.maxDepth c.machine with
  | ok v m => rfl
  | error e m =>
    cases e with
    | fault f => rfl
    | signal s => cases s <;> rfl

theorem execute_of_not_endsDeep {limit limit' : Nat} (hle : limit ≤ limit')
    (h : ¬EndsDeep ((c.withMaxDepth limit).execute s op)) :
    (c.withMaxDepth limit').execute s op =
      ((c.withMaxDepth limit).execute s op).map (·.withMaxDepth limit') := by
  have hlimit : (c.withMaxDepth limit).settings.maxDepth ≤ limit' := hle
  simp only [execute] at h ⊢
  cases hload : op.load s with
  | error e => rfl
  | ok op =>
    rw [hload] at h
    exact run_of_not_endsDeep hlimit h

end Context

namespace Session

variable {s t : Session}

/-- The session with another limit on the nesting of ops. -/
def withMaxDepth (s : Session) (depth : Nat) : Session :=
  { s with settings := s.settings.withMaxDepth depth }

/-- Between executions there is nothing to a session but its context. -/
theorem eq_of_context (hscope : s.registers.scope = t.registers.scope)
    (hdepth : s.registers.depth = t.registers.depth) (h : s.context = t.context) : s = t := by
  obtain ⟨settings, ⟨⟨env, scope, juice⟩, depth⟩, outcome⟩ := s
  cases hscope
  cases hdepth
  cases h
  rfl

/-- The interpreter counts how deep it is as it goes, and has counted back when an execution ends. -/
theorem execute_of_not_endsDeep (hs : s.AtRest) {store : Store} {op : Cell} {limit limit' : Nat}
    (hle : limit ≤ limit') (h : ¬Context.EndsDeep (((s.withMaxDepth limit).execute store op).map context)) :
    (s.withMaxDepth limit').execute store op =
      ((s.withMaxDepth limit).execute store op).map (·.withMaxDepth limit') := by
  -- what a session at rest runs is what its context runs
  have hcontext (depth : Nat) : ((s.withMaxDepth depth).execute store op).map context =
      (s.context.withMaxDepth depth).execute store op := by
    have hrest : (s.withMaxDepth depth).AtRest := ⟨hs.scope, hs.depth, hs.juice⟩
    exact execute_context hrest store op
  rw [hcontext limit] at h
  have hsame := Context.execute_of_not_endsDeep hle h
  rw [← hcontext limit, ← hcontext limit'] at hsame
  cases hlow : (s.withMaxDepth limit).execute store op with
  | error f =>
    cases hhigh : (s.withMaxDepth limit').execute store op with
    | error f' =>
      rw [hlow, hhigh] at hsame
      cases hsame
      rfl
    | ok after' =>
      rw [hlow, hhigh] at hsame
      cases hsame
  | ok after =>
    cases hhigh : (s.withMaxDepth limit').execute store op with
    | error f' =>
      rw [hlow, hhigh] at hsame
      cases hsame
    | ok after' =>
      rw [hlow, hhigh] at hsame
      obtain ⟨-, hscope, hdepth⟩ := next_of_execute hlow
      obtain ⟨-, hscope', hdepth'⟩ := next_of_execute hhigh
      -- the registers are at rest again after both runs, so the contexts settle the sessions
      have hafter : after' = after.withMaxDepth limit' :=
        eq_of_context (hscope'.trans hscope.symm) (hdepth'.trans hdepth.symm) (Except.ok.inj hsame)
      rw [hafter]
      rfl

end Session

/-- The depth limit only ever cuts. An execution that does not end in an error with the code `:DEPTH` under one
limit ends alike under every higher one: in the same fault, or in the same outcome with the same definitions
and the same juice left. That holds of contexts, and of sessions at rest together with their registers. -/
theorem execute_withMaxDepth {limit limit' : Nat} (hle : limit ≤ limit') (store : Store) (op : Cell) :
    (∀ c : Context, ¬Context.EndsDeep ((c.withMaxDepth limit).execute store op) →
      (c.withMaxDepth limit').execute store op =
        ((c.withMaxDepth limit).execute store op).map (·.withMaxDepth limit')) ∧
      ∀ s : Session, s.AtRest →
        ¬Context.EndsDeep (((s.withMaxDepth limit).execute store op).map Session.context) →
        (s.withMaxDepth limit').execute store op =
          ((s.withMaxDepth limit).execute store op).map (·.withMaxDepth limit') :=
  ⟨fun _ => Context.execute_of_not_endsDeep hle, fun _ hs => Session.execute_of_not_endsDeep hs hle⟩

/-- Adding to what is defined takes four ops inside of one another. It ends alike with the usual limit, and is
cut short by a lower one. -/
theorem execute_withMaxDepth_addToDefined :
    Context.EndsDeep (((Context.start {}).withMaxDepth 3).execute .empty Context.addToDefined) ∧
      ¬Context.EndsDeep (((Context.start {}).withMaxDepth 4).execute .empty Context.addToDefined) ∧
      (Context.start {}).execute .empty Context.addToDefined =
        (((Context.start {}).withMaxDepth 4).execute .empty Context.addToDefined).map (·.withMaxDepth 256) ∧
      (Session.start {}).execute .empty Context.addToDefined =
        (((Session.start {}).withMaxDepth 4).execute .empty Context.addToDefined).map (·.withMaxDepth 256) := by
  have hlow : ¬Context.EndsDeep (((Context.start {}).withMaxDepth 4).execute .empty Context.addToDefined) := by
    decide +kernel
  have hlow' : ¬Context.EndsDeep
      ((((Session.start {}).withMaxDepth 4).execute .empty Context.addToDefined).map Session.context) := by
    decide +kernel
  obtain ⟨hcontext, hsession⟩ := execute_withMaxDepth (show 4 ≤ 256 by decide) .empty Context.addToDefined
  exact ⟨by decide +kernel, hlow, hcontext (.start {}) hlow,
    hsession (.start {}) (Session.atRest_start {}) hlow'⟩

end CellMachine
