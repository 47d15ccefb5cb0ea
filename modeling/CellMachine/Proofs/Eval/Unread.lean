import CellMachine.Proofs.Eval.Definitions

/-!
# Definitions that are not looked up

What a symbol is bound to makes no difference to an execution in which nobody can look the symbol up: neither what
is executed nor any value that another symbol is bound to has an op in it that does. Ops that look other symbols up
are insensitive to the difference, and no op that looks this one up comes into being (`Eval.steady_eval`).

The value that is bound to the symbol may well contain such ops. It is not reached.

Main statement: `Context.execute_unread`.
-/

namespace CellMachine

/-- Definitions that agree on every symbol but `s`, to values that cannot run an op which looks `s` up. -/
structure Bindings.AgreeOff (s : Name) (b b' : Bindings) : Prop where
  same : ∀ n, n ≠ s → b'.find? n = b.find? n
  tame : ∀ n v, n ≠ s → b.find? n = some v → v.Tame (· ≠ .lookup s)

theorem Bindings.insensitive_agreeOff (s : Name) : Insensitive (· ≠ .lookup s) (AgreeOff s) where
  lookup {b b' n} h hn := by
    have hne : n ≠ s := fun heq => hn (congrArg Op.lookup heq)
    exact ⟨h.same n hne, fun v => h.tame n v hne⟩
  define {b b' n r v} h _ hv := by
    refine ⟨fun m hm => ?_, fun m u hm hu => ?_⟩
    · rw [find?_insert, find?_insert, h.same m hm]
    · rw [find?_insert] at hu
      split at hu
      · cases hu
        exact hv
      · exact h.tame m u hm hu

namespace Context

/-- Bindings that are not read do not matter. Let two contexts differ in what the symbol `s` is bound to, or in
whether it is bound, and in nothing else. If no op that looks `s` up is to be found in the loaded op, the op itself
included, nor inside of a value that another symbol is bound to, then an execution fails with the same fault in
both, or it has the same outcome and leaves the same juice and definitions that differ in `s` at most. -/
theorem execute_unread (c : Context) (b : Bindings) (s : Name) {store : Store} {op : Cell}
    (henv : ∀ n, n ≠ s → b.find? n = c.env.find? n)
    (hop : ∀ l, op.load store = .ok l → ¬l.Contains (.op (.lookup s)))
    (hvalues : ∀ n v, n ≠ s → c.env.find? n = some v → ¬v.Encloses (.op (.lookup s))) :
    Paired Eq
      (fun after after' => after'.outcome = after.outcome ∧ after'.juice = after.juice ∧
        ∀ n, n ≠ s → after'.env.find? n = after.env.find? n)
      (c.execute store op) ((c.withEnv b).execute store op) := by
  -- the other values hold no code that reads the symbol
  have hagree : c.env.AgreeOff s b := by
    refine ⟨henv, fun n v hn hv => Cell.tame_of_encloses ?_⟩
    rintro o ho rfl
    exact hvalues n v hn hv ho
  have hconfined : ∀ l, op.load store = .ok l → l.Confined (· ≠ .lookup s) := by
    rintro l hl o ho rfl
    exact hop l hl ho
  refine (paired_execute (Bindings.insensitive_agreeOff s) hagree hconfined).imp ?_
  intro after after' _ _ hafter
  exact ⟨hafter.outcome, hafter.juice, hafter.env.same⟩

/-- Neither the call of `set` nor what is bound to `set` looks `y` up. -/
theorem confined_callSetter {y : Name} (hy : y = ⟨"y", by decide, by decide⟩) :
    callSetter.Confined (· ≠ .lookup y) ∧ setter.Confined (· ≠ .lookup y) := by
  have hset : (Op.ofLookup ⟨"set", by decide, by decide⟩).Confined (· ≠ .lookup y) := by
    refine Cell.confined_of_parts [] rfl (fun o ho heq => ?_) (List.forall_mem_nil _)
    cases ho
    exact absurd ((Op.lookup.inj heq).trans hy) (by decide)
  have hops : (Vec.of [Op.ofLookup ⟨"set", by decide, by decide⟩]).cell.Confined (· ≠ .lookup y) :=
    Cell.confined_of_parts [_] rfl nofun (List.forall_mem_singleton.2 hset)
  have hone : (Cell.long 1).Confined (· ≠ .lookup y) :=
    Cell.confined_of_parts [] rfl nofun (List.forall_mem_nil _)
  have hvalue : (Op.ofConstant (.long 1)).Confined (· ≠ .lookup y) :=
    Cell.confined_of_parts [_] rfl (by rintro _ ⟨⟩ ⟨⟩) (List.forall_mem_singleton.2 hone)
  have hraise : raiseFlag.Confined (· ≠ .lookup y) :=
    Cell.confined_of_parts [_] rfl (by rintro _ ⟨⟩ ⟨⟩) (List.forall_mem_singleton.2 hvalue)
  have hparams : (Vec.of []).cell.Confined (· ≠ .lookup y) :=
    Cell.confined_of_parts [] rfl nofun (List.forall_mem_nil _)
  have henv : Table.empty.cell.Confined (· ≠ .lookup y) :=
    Cell.confined_of_parts [] rfl nofun (List.forall_mem_nil _)
  constructor
  · exact Cell.confined_of_parts [_] rfl (by rintro _ ⟨⟩ ⟨⟩) (List.forall_mem_singleton.2 hops)
  · exact Cell.confined_of_parts [_, _, _] rfl nofun (List.forall_mem_cons.2
      ⟨hparams, List.forall_mem_cons.2 ⟨hraise, List.forall_mem_singleton.2 henv⟩⟩)

/-- The call of `set` ends alike whether or not `y` is bound, and binds `flag` in either case. -/
theorem execute_unread_callSetter :
    ∃ after after',
      withSetter.execute .empty callSetter = .ok after ∧
      (withSetter.withEnv (withSetter.env.insert ⟨"y", by decide, by decide⟩ (.bool true))).execute
        .empty callSetter = .ok after' ∧
      after'.outcome = after.outcome ∧ after'.juice = after.juice ∧
      (∀ n, n ≠ ⟨"y", by decide, by decide⟩ → after'.env.find? n = after.env.find? n) ∧
      after.env.find? ⟨"flag", by decide, by decide⟩ = some (.long 1) ∧
      after'.env.find? ⟨"flag", by decide, by decide⟩ = some (.long 1) := by
  obtain ⟨hcall, hsetter⟩ := confined_callSetter rfl
  have henv : ∀ n, n ≠ ⟨"y", by decide, by decide⟩ →
      (withSetter.env.insert ⟨"y", by decide, by decide⟩ (.bool true)).find? n = withSetter.env.find? n :=
    fun n hn => (Bindings.find?_insert _ _ _ _).trans (if_neg hn.symm)
  have hop : ∀ l, callSetter.load .empty = .ok l →
      ¬l.Contains (.op (.lookup ⟨"y", by decide, by decide⟩)) := by
    intro l hl
    have hloaded : callSetter.load .empty = .ok callSetter := Cell.loadWith_of_loaded _ rfl
    cases hl.symm.trans hloaded
    exact fun h => hcall _ h rfl
  have hvalues : ∀ n v, n ≠ ⟨"y", by decide, by decide⟩ → withSetter.env.find? n = some v →
      ¬v.Encloses (.op (.lookup ⟨"y", by decide, by decide⟩)) := by
    intro n v _ hv
    cases List.mem_singleton.1 (Bindings.mem_of_findEntry hv)
    exact fun h => hsetter _ h.contains rfl
  -- the setter runs in both contexts, and `flag` is a binding off `y`
  have hpaired := execute_unread withSetter _ _ henv hop hvalues
  obtain ⟨after, hafter, hflag⟩ : ∃ after, withSetter.execute .empty callSetter = .ok after ∧
      after.env.find? ⟨"flag", by decide, by decide⟩ = some (.long 1) := ⟨_, rfl, rfl⟩
  obtain ⟨after', hafter'⟩ : ∃ after', (withSetter.withEnv (withSetter.env.insert
      ⟨"y", by decide, by decide⟩ (.bool true))).execute .empty callSetter = .ok after' := ⟨_, rfl⟩
  rw [hafter, hafter'] at hpaired
  cases hpaired with
  | ok h =>
    obtain ⟨houtcome, hjuice, hsame⟩ := h
    have hflag' := (hsame ⟨"flag", by decide, by decide⟩ (by decide)).trans hflag
    exact ⟨after, after', hafter, hafter', houtcome, hjuice, hsame, hflag, hflag'⟩

end Context

end CellMachine
