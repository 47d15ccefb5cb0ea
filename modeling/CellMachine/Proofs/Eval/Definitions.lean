import CellMachine.Proofs.Eval.Steady

/-!
# Where definitions come from

An execution changes what a symbol is bound to only if an op says so that binds this very symbol. The op need not
be part of what is executed: closures that are bound already bring code with them. But it has to be written
somewhere in either, since code is never made (`Eval.steady_eval`).

No definition ever goes away.

Main statement: `Context.mayDefine_of_execute`.
-/

namespace CellMachine

namespace Context

variable {c after : Context} {l : Cell} {n : Name}

/-- An op that defines the symbol is in the loaded op `l`, or inside of a value that is bound in the context. -/
def MayDefine (c : Context) (l : Cell) (n : Name) : Prop :=
  (∃ r, l.Contains (.op (.define n r))) ∨
    ∃ m v r, c.env.find? m = some v ∧ v.Encloses (.op (.define n r))

/-- An op that is no definition, or one that is to be found in `l` or inside of the values of a context. -/
def Known (c : Context) (l : Cell) (o : Op) : Prop := ∀ n r, o = .define n r → c.MayDefine l n

/-- What can become of the definitions of a context: all that are bound stay bound, and others only differ if the
symbol may be defined. Evaluating the same twice leaves the same definitions. -/
structure Redefined (c : Context) (l : Cell) (b b' : Bindings) : Prop where
  same : b' = b
  tame : ∀ m v, b.find? m = some v → v.Tame (c.Known l)
  kept : ∀ m, c.env.find? m ≠ none → b.find? m ≠ none
  changed : ∀ m, b.find? m ≠ c.env.find? m → c.MayDefine l m

theorem confined_known (c : Context) (l : Cell) : l.Confined (c.Known l) := by
  rintro o ho n r rfl
  exact .inl ⟨r, ho⟩

/-- At the start nothing is redefined, and whatever code a definition holds may run. -/
theorem redefined_self (c : Context) (l : Cell) : c.Redefined l c.env c.env where
  same := rfl
  tame m v hv := by
    refine Cell.tame_of_encloses ?_
    rintro o ho n r rfl
    exact .inr ⟨m, v, r, hv, ho⟩
  kept _ h := h
  changed _ h := absurd rfl h

/-- Both machines have the same definitions here, so a lookup may always be made; a definition must
be known. -/
theorem insensitive_redefined (c : Context) (l : Cell) :
    Bindings.Insensitive (c.Known l) (c.Redefined l) where
  lookup h _ := ⟨congrArg (Bindings.find? · _) h.same, h.tame _⟩
  define {b b' n r v} h hn hv := by
    refine ⟨congrArg (Bindings.insert · n v) h.same, fun m u hu => ?_, fun m hm => ?_, fun m hm => ?_⟩
    all_goals rw [Bindings.find?_insert] at *
    -- the new definition is tame because its value is, the others because they were before
    · split at hu
      · cases hu
        exact hv
      · exact h.tame m u hu
    · split
      · exact Option.some_ne_none v
      · exact h.kept m hm
    -- a binding that is new was made by an op that is known, an older one is `h`'s concern
    · split at hm
      · next heq =>
        subst heq
        exact hn n r rfl
      · exact h.changed m hm

/-- Only definitions that are written somewhere change what is bound. After an execution every symbol is bound that
was bound before. A symbol that is bound to something else, or for the first time, is that of a definition which
occurs in the loaded op, the op itself included, or inside of a value that was bound before. -/
theorem mayDefine_of_execute {s : Store} {op : Cell} (h : c.execute s op = .ok after) :
    ∃ l, op.load s = .ok l ∧ ∀ n,
      (c.env.find? n ≠ none → after.env.find? n ≠ none) ∧
        (after.env.find? n ≠ c.env.find? n → c.MayDefine l n) := by
  unfold execute at h
  cases hload : op.load s with
  | error e =>
    rw [hload] at h
    cases h
  | ok l =>
    rw [hload] at h
    have hpaired := paired_run (c.insensitive_redefined l) (c.redefined_self l) (c.confined_known l)
    have hrun : c.run l = .ok after := h
    -- the run is compared with itself, since what may be defined is said of one run
    have hagain : (c.withEnv c.env).run l = .ok after := h
    rw [hrun, hagain] at hpaired
    cases hpaired with
    | ok hafter => exact ⟨l, rfl, fun n => ⟨hafter.env.kept n, hafter.env.changed n⟩⟩

/-- An op that binds `flag` to 1. -/
def raiseFlag : Cell := .op (.define ⟨"flag", by decide, by decide⟩ (.of (Op.ofConstant (.long 1))))

/-- The closure that does so when it is called. -/
def setter : Cell :=
  .fn ⟨symbolVector [], .of raiseFlag, .of Table.empty.cell, some ⟨"set", by decide, by decide⟩⟩

/-- The context in which this closure has been bound to `set`. -/
def withSetter : Context := ⟨{}, ⟨[(⟨"set", by decide, by decide⟩, setter)]⟩, 999800, .value setter⟩

/-- A program that calls what is bound to `set`. No definition is written in it. -/
def callSetter : Cell :=
  .op (.invoke (.of (Vec.of [Op.ofLookup ⟨"set", by decide, by decide⟩]).cell))

/-- The call binds `flag`, which is defined in the closure that was bound before. -/
theorem mayDefine_of_execute_callSetter : ∃ after l,
    (start {}).execute .empty (.op (.define ⟨"set", by decide, by decide⟩
      (.of (.op (.lambda (symbolVector []) (.of raiseFlag)))))) = .ok withSetter ∧
      withSetter.execute .empty callSetter = .ok after ∧ callSetter.load .empty = .ok l ∧
      withSetter.env.find? ⟨"flag", by decide, by decide⟩ = none ∧
      after.env.find? ⟨"flag", by decide, by decide⟩ = some (.long 1) ∧
      withSetter.MayDefine l ⟨"flag", by decide, by decide⟩ := by
  obtain ⟨after, hafter, hbound⟩ : ∃ after, withSetter.execute .empty callSetter = .ok after ∧
      after.env.find? ⟨"flag", by decide, by decide⟩ = some (.long 1) := ⟨_, rfl, rfl⟩
  have hfresh : withSetter.env.find? ⟨"flag", by decide, by decide⟩ = none := rfl
  obtain ⟨l, hl, hchanged⟩ := mayDefine_of_execute hafter
  refine ⟨after, l, rfl, hafter, hl, hfresh, hbound, (hchanged _).2 ?_⟩
  rw [hfresh, hbound]
  exact Option.some_ne_none _

end Context

end CellMachine
