import CellMachine.Proofs.Eval.Code
import CellMachine.Proofs.Eval.Frames
import CellMachine.Proofs.Eval.Metering
import CellMachine.Context

/-!
# Evaluation of confined code

Code that is confined to certain ops runs nothing else, whatever it is given and whatever it calls, as long as
all the values around it are tame: then so are the values that it yields, binds and leaves closures with. What
the allowed ops cannot tell apart about the definitions, evaluation cannot tell apart therefore.

That is said about two machines that differ in their definitions, of which a relation is known to which the
allowed ops are insensitive (`Bindings.Insensitive`): the symbols that they look up are bound alike, and the
symbols that they bind may be bound in both. A step is *steady* if from two such machines it comes to the same
end, with machines that are as before (`Eval.Steady`). Each way in which steps are put together keeps it, so that
there is one lemma for each op.

Main statements: `Eval.steady_eval`, and `Context.paired_execute` for executions.
-/

namespace CellMachine

variable {allowed : Op → Prop}

namespace Bindings

/-- Symbols are bound to tame values. -/
abbrev Tame (allowed : Op → Prop) (b : Bindings) : Prop := b.Every (Cell.Tame allowed)

/-- A relation between definitions to which the allowed ops are insensitive: those that look a symbol up find
the same tame value, if any, and those that bind a symbol may bind it to a tame value in both. -/
structure Insensitive (allowed : Op → Prop) (A : Bindings → Bindings → Prop) : Prop where
  lookup {b b' : Bindings} {n : Name} (h : A b b') (hn : allowed (.lookup n)) :
    b'.find? n = b.find? n ∧ ∀ v, b.find? n = some v → v.Tame allowed
  define {b b' : Bindings} {n : Name} {r : Ref} {v : Cell} (h : A b b') (hn : allowed (.define n r))
    (hv : v.Tame allowed) : A (b.insert n v) (b'.insert n v)

end Bindings

/-- Machines with related definitions that are otherwise the same, in a tame scope. -/
structure Machine.Linked (allowed : Op → Prop) (A : Bindings → Bindings → Prop) (m m' : Machine) : Prop where
  env : A m.env m'.env
  scope : m'.scope = m.scope
  tame : m.scope.Tame allowed
  juice : m'.juice = m.juice

namespace Eval

variable {A : Bindings → Bindings → Prop} {α β : Type} {Q : α → Prop} {R : β → Prop}

/-! ## Steady steps -/

/-- The same end of two steps, with a result as `Q` says or a tame exit, that leaves linked machines. -/
inductive SameEnd (allowed : Op → Prop) (A : Bindings → Bindings → Prop) (Q : α → Prop) :
    End α → End α → Prop where
  | ok {a : α} {m m' : Machine} (h : Q a) (hm : m.Linked allowed A m') :
    SameEnd allowed A Q (.ok a m) (.ok a m')
  | error {e : Exit} {m m' : Machine} (h : e.Tame allowed) (hm : m.Linked allowed A m') :
    SameEnd allowed A Q (.error e m) (.error e m')

/-- A step that comes to the same end from linked machines. -/
def Steady (allowed : Op → Prop) (A : Bindings → Bindings → Prop) (Q : α → Prop) (x : Eval α) : Prop :=
  ∀ m m', m.Linked allowed A m' → SameEnd allowed A Q (x m) (x m')

theorem steady_pure {a : α} (h : Q a) : Steady allowed A Q (pure a) := fun _ _ hm => .ok h hm

theorem steady_throw {e : Exit} (h : e.Tame allowed) : Steady allowed A Q (throw e : Eval α) :=
  fun _ _ hm => .error h hm

theorem steady_ofText (code : Name) (message : String) :
    Steady allowed A Q (signal (.ofText code message) : Eval α) :=
  steady_throw trivial

theorem steady_fault (f : Fault) : Steady allowed A Q (fault f : Eval α) := steady_throw trivial

/-- What is worked out without the machine is the same on both sides; only its tameness has to be
known. -/
theorem steady_ofExcept {r : Except Exit α} (h : Keeps (Exit.Tame allowed) Q r) :
    Steady allowed A Q (ofExcept r) := by
  cases r with
  | ok a => exact steady_pure h
  | error e => exact steady_throw h

/-- Reading a part of a cell does not involve the machine. Its faults are tame, its result is what
`Q` wants. -/
theorem steady_ofData {r : Except DataError α} (h : ∀ a, r = .ok a → Q a) :
    Steady allowed A Q (ofData r) := by
  cases r with
  | ok a => exact steady_pure (h a rfl)
  | error e => exact steady_fault _

/-- What goes on from a steady step may use only what the step promises of its result. -/
theorem Steady.bind {x : Eval α} {f : α → Eval β} (h : Steady allowed A Q x)
    (hf : ∀ a, Q a → Steady allowed A R (f a)) : Steady allowed A R (x >>= f) := by
  intro m m' hm
  have hends := h m m' hm
  show SameEnd allowed A R (EStateM.bind x f m) (EStateM.bind x f m')
  unfold EStateM.bind
  generalize x m = r, x m' = r' at hends ⊢
  cases hends with
  | ok ha hafter => exact hf _ ha _ _ hafter
  | error he hafter => exact .error he hafter

/-- A step that goes on alike after a look at either of two linked machines. -/
theorem steady_get_bind {f : Machine → Eval α}
    (h : ∀ m m', m.Linked allowed A m' → f m' = f m ∧ Steady allowed A Q (f m)) :
    Steady allowed A Q (get >>= f) := by
  intro m m' hm
  obtain ⟨heq, hsteady⟩ := h m m' hm
  show SameEnd allowed A Q (f m m) (f m' m')
  rw [heq]
  exact hsteady m m' hm

/-- No promise is kept of the results: only symbols are read off a list in this way. -/
theorem steady_mapM {f : α → Eval β} (hf : ∀ a, Steady allowed A (fun _ => True) (f a)) (l : List α) :
    Steady allowed A (fun _ => True) (l.mapM f) := by
  induction l with
  | nil => exact steady_pure trivial
  | cons a l ih =>
    rw [List.mapM_cons]
    exact (hf a).bind fun b _ => ih.bind fun bs _ => steady_pure trivial

/-- The promise holds of the accumulator throughout, and each step may use that it reads an element
of the list. -/
theorem steady_foldlM {f : α → β → Eval α} {l : List β}
    (hf : ∀ a, Q a → ∀ b ∈ l, Steady allowed A Q (f a b)) {a : α} (ha : Q a) :
    Steady allowed A Q (l.foldlM f a) := by
  induction l generalizing a with
  | nil => exact steady_pure ha
  | cons b l ih =>
    rw [List.foldlM_cons]
    refine (hf a ha b List.mem_cons_self).bind fun a' ha' => ih (fun a ha c hc => ?_) ha'
    exact hf a ha c (List.mem_cons_of_mem b hc)

/-! ## What steps do to machines -/

theorem steady_charge (price : Nat) : Steady allowed A (fun _ => True) (charge price) := by
  intro m m' hm
  simp only [charge, hm.juice]
  by_cases hlt : m.juice < price
  · rw [if_pos hlt, if_pos hlt]
    exact .error trivial ⟨hm.env, hm.scope, hm.tame, rfl⟩
  · rw [if_neg hlt, if_neg hlt]
    exact .ok trivial ⟨hm.env, hm.scope, hm.tame, rfl⟩

/-- A definition is the one thing that changes what the two machines are linked by, so it must be
allowed. -/
theorem steady_define (hA : Bindings.Insensitive allowed A) {n : Name} {r : Ref} {v : Cell}
    (hn : allowed (.define n r)) (hv : v.Tame allowed) :
    Steady allowed A (fun _ => True) (define n v) :=
  fun _ _ hm => .ok trivial ⟨hA.define hm.env hn hv, hm.scope, hm.tame, hm.juice⟩

/-- The scopes of linked machines are equal, and remain so. -/
theorem steady_declare (n : Name) {v : Cell} (hv : v.Tame allowed) :
    Steady allowed A (fun _ => True) (declare n v) :=
  fun _ _ hm => .ok trivial
    ⟨hm.env, congrArg (fun b => Bindings.insert b n v) hm.scope, hm.tame.insert n hv, hm.juice⟩

/-- A step that is evaluated in a scope of its own may read tame values from it. -/
theorem Steady.inScope {x : Eval α} (h : Steady allowed A Q x) {scope : Bindings}
    (hscope : scope.Tame allowed) : Steady allowed A Q (inScope scope x) := by
  intro m m' hm
  have hends := h { m with scope := scope } { m' with scope := scope } ⟨hm.env, rfl, hscope, hm.juice⟩
  simp only [Eval.inScope]
  generalize x { m with scope := scope } = r, x { m' with scope := scope } = r' at hends ⊢
  cases hends with
  | ok ha hafter => exact .ok ha ⟨hafter.env, hm.scope, hm.tame, hafter.juice⟩
  | error he hafter => exact .error he ⟨hafter.env, hm.scope, hm.tame, hafter.juice⟩

/-- What a step declares is forgotten on both machines. -/
theorem Steady.enclosed {x : Eval α} (h : Steady allowed A Q x) : Steady allowed A Q (enclosed x) := by
  intro m m' hm
  have hends := h.inScope hm.tame m m' hm
  show SameEnd allowed A Q (Eval.inScope m.scope x m) (Eval.inScope m'.scope x m')
  -- the scope to return to is each machine's own, but these are equal
  rw [hm.scope]
  exact hends

/-- Each machine gets back the definitions of its own, or neither does. -/
theorem Steady.rollback {x : Eval α} (h : Steady allowed A Q x) : Steady allowed A Q (rollback x) := by
  intro m m' hm
  have hends := h m m' hm
  simp only [Eval.rollback]
  generalize x m = r, x m' = r' at hends ⊢
  cases hends with
  | ok ha hafter => exact .ok ha hafter
  | @error e after after' he hafter =>
    cases e with
    | fault f => exact .error he hafter
    | signal s =>
      refine .error he ?_
      by_cases herr : s.isError = true
      · rw [if_pos herr, if_pos herr]
        exact ⟨hm.env, hafter.scope, hafter.tame, hafter.juice⟩
      · rw [if_neg herr, if_neg herr]
        exact hafter

/-- The value that a closure is left with is the value of the call. -/
theorem Steady.catchReturn {x : Eval Cell} (h : Steady allowed A (Cell.Tame allowed) x) (settings : Settings)
    (name : Option Name) : Steady allowed A (Cell.Tame allowed) (catchReturn settings name x) := by
  intro m m' hm
  have hends := h m m' hm
  simp only [Eval.catchReturn]
  generalize x m = r, x m' = r' at hends ⊢
  cases hends with
  | ok ha hafter => exact .ok ha hafter
  | @error e after after' he hafter =>
    cases e with
    | fault f => exact .error he hafter
    | signal s =>
      cases s with
      | leave v => exact .ok he hafter
      | error f => exact .error trivial hafter
      | outOfJuice | halt v => exact .error trivial hafter

/-! ## What ops are made of -/

theorem steady_cell {c : Cell} {r : Ref} (hc : c.Confined allowed) (hr : r ∈ c.refs) :
    Steady allowed A (Cell.Confined allowed) (ofData r.cell) :=
  steady_ofData fun _ hd => hc.of_held hr (Ref.cell_eq_ok_iff.1 hd)

theorem steady_vec {c : Cell} {r : Ref} (hc : c.Confined allowed) (hr : r ∈ c.refs) :
    Steady allowed A (fun v => v.cell.Confined allowed) (ofData r.vec) :=
  steady_ofData fun _ hv => hc.of_held hr (Ref.vec_eq_ok_iff.1 hv)

theorem steady_opList {c : Cell} {r : Ref} (hc : c.Confined allowed) (hr : r ∈ c.refs) :
    Steady allowed A (fun ops => ∀ op ∈ ops, op.Confined allowed) (opList r) :=
  (steady_vec hc hr).bind fun _ hv => steady_ofData fun _ hops _ hop =>
    hv.of_contains (Vec.contains_of_toList hops hop)

/-- Symbols hold no code, so nothing is promised of them. -/
theorem steady_symbolList {c : Cell} {r : Ref} (hc : c.Confined allowed) (hr : r ∈ c.refs) :
    Steady allowed A (fun _ => True) (symbolList r) := by
  refine (steady_opList hc hr).bind fun cells _ => steady_mapM (fun c => ?_) cells
  cases c with
  | symbol name => exact steady_pure trivial
  | _ => exact steady_fault _

/-- A lookup reads the definitions, which the two machines may not agree on. It must be allowed, for
then they agree on the symbol. -/
theorem steady_resolve (hA : Bindings.Insensitive allowed A) {n : Name} (hn : allowed (.lookup n)) :
    Steady allowed A (Cell.Tame allowed) (resolve n) := by
  refine steady_get_bind fun m m' hm => ?_
  obtain ⟨hsame, henv⟩ := hA.lookup hm.env hn
  -- both machines look in the same scope, and have the same definition of this symbol
  simp only [hm.scope, hsame, true_and]
  cases hscope : m.scope.find? n with
  | some v => exact steady_pure (hm.tame.find? hscope)
  | none =>
    cases hdefined : m.env.find? n with
    | some v => exact steady_pure (henv v hdefined)
    | none =>
      cases CoreFn.ofName? n.val with
      | some f => exact steady_pure (Cell.tame_of_no_refs rfl)
      | none => exact steady_ofText _ _

theorem steady_captureScope : Steady allowed A (fun t => t.cell.Tame allowed) captureScope := by
  refine steady_get_bind fun m m' hm => ?_
  simp only [hm.scope, true_and]
  -- the map depends on the scope only, so it is the same on both sides
  cases hmap : Table.ofList (m.scope.entries.map fun e => (.symbol e.1, e.2)) with
  | ok t => exact steady_pure (Table.tame_ofList hm.tame hmap)
  | error e =>
    cases e with
    | violation v => exact steady_ofText _ _
    | _ => exact steady_fault _

/-- Bindings to tame values are made from a map of them. -/
theorem steady_bindingsOf {entries : List (Cell × Cell)} (h : ∀ e ∈ entries, e.2.Tame allowed) :
    Steady allowed A (Bindings.Tame allowed) (bindingsOf entries) := by
  refine steady_foldlM (fun b hb e he => ?_) Bindings.every_empty
  obtain ⟨key, value⟩ := e
  have hvalue : value.Tame allowed := h _ he
  cases key with
  | symbol name => exact steady_pure (hb.insert name hvalue)
  | _ => exact steady_fault _

/-- A core function gives a value that is tame if its arguments are: it makes no code of its own. -/
theorem steady_callCore (f : CoreFn) {args : List Cell} (hargs : ∀ c ∈ args, c.Tame allowed) :
    Steady allowed A (Cell.Tame allowed) (callCore f args) :=
  (steady_charge _).bind fun _ _ => steady_ofExcept
    ((CoreFn.regular_tame.keeps_run (w := 0) hargs).imp (fun _ h => h.tame hargs) fun _ h => h)

/-! ## Ops, given that their parts are evaluated steadily -/

section Step
variable {settings : Settings} {eval : Cell → Eval Cell}
  (heval : ∀ c, c.Confined allowed → Steady allowed A (Cell.Tame allowed) (eval c))
include heval

theorem steady_runAll {last : Cell} (hlast : last.Tame allowed) {ops : List Cell}
    (hops : ∀ op ∈ ops, op.Confined allowed) :
    Steady allowed A (Cell.Tame allowed) (runAll eval last ops) := by
  induction ops generalizing last with
  | nil => exact steady_pure hlast
  | cons op ops ih =>
    obtain ⟨hop, hops⟩ := List.forall_mem_cons.1 hops
    exact (heval op hop).bind fun v hv => ih hv hops

theorem steady_runEach {ops : List Cell} (hops : ∀ op ∈ ops, op.Confined allowed) :
    Steady allowed A (fun vs => ∀ v ∈ vs, v.Tame allowed) (runEach eval ops) := by
  induction ops with
  | nil => exact steady_pure fun v hv => by cases hv
  | cons op ops ih =>
    obtain ⟨hop, hops⟩ := List.forall_mem_cons.1 hops
    exact (heval op hop).bind fun v hv => (ih hops).bind fun vs hvs =>
      steady_pure (List.forall_mem_cons.2 ⟨hv, hvs⟩)

/-- A symbol is bound to a tame value, which a name does not change. -/
theorem steady_runBind (symbols : List Name) {ops : List Cell} (hops : ∀ op ∈ ops, op.Confined allowed) :
    Steady allowed A (Cell.Tame allowed) (runBind eval symbols ops) := by
  induction symbols generalizing ops with
  | nil => exact steady_runAll heval Cell.tame_nil hops
  | cons symbol symbols ih =>
    cases ops with
    | nil => exact steady_runAll heval Cell.tame_nil hops
    | cons op ops =>
      obtain ⟨hop, hops⟩ := List.forall_mem_cons.1 hops
      refine (heval op hop).bind fun v hv => ?_
      exact (steady_declare symbol (tame_named hv symbol)).bind fun _ _ => ih hops

/-- Whichever branch is taken is the same on both machines. -/
theorem steady_runChoose {ops : List Cell} (hops : ∀ op ∈ ops, op.Confined allowed) :
    Steady allowed A (Cell.Tame allowed) (runChoose eval ops) := by
  -- tests and branches come in pairs, so the recursion takes two ops at a time
  match ops, hops with
  | [], _ => exact steady_pure Cell.tame_nil
  | [default], hops => exact heval default (hops default List.mem_cons_self)
  | test :: branch :: rest, hops =>
    obtain ⟨htest, hops⟩ := List.forall_mem_cons.1 hops
    obtain ⟨hbranch, hrest⟩ := List.forall_mem_cons.1 hops
    refine (heval test htest).bind fun v _ => ?_
    by_cases hv : v.isTruthy = true
    · rw [if_pos hv]
      exact heval branch hbranch
    · rw [if_neg hv]
      exact steady_runChoose hrest

/-- The body of a tame closure is confined, and tame are the bindings among which it is evaluated. -/
theorem steady_callClosure {c : Closure} (hc : (Cell.fn c).Tame allowed) {args : List Cell}
    (hargs : ∀ a ∈ args, a.Tame allowed) :
    Steady allowed A (Cell.Tame allowed) (callClosure settings eval (.fn c) c args) := by
  refine (steady_ofData (Q := fun _ => True) fun _ _ => trivial).bind fun params _ => ?_
  by_cases hlen : params.length ≠ args.length
  · rw [if_pos hlen]
    exact steady_ofText _ _
  · rw [if_neg hlen]
    -- that a closure is tame says of its body that it is confined, and of what it captured that it
    -- is tame
    refine (steady_ofData fun t ht => hc.of_contains (Table.contains_of_bindings ht)).bind
      fun table htable => ?_
    refine (steady_ofData fun es hes e he => htable.of_contains (Table.contains_of_toList hes e he)).bind
      fun entries (hentries : ∀ e ∈ entries, e.2.Tame allowed) => ?_
    refine (steady_bindingsOf hentries).bind fun captured hcaptured => ?_
    refine (steady_ofData fun body hb => hc c .self body (Ref.cell_eq_ok_iff.1 hb)).bind fun body hbody => ?_
    have hzip : ∀ e ∈ params.zip args, e.2.Tame allowed := fun e he => hargs e.2 (List.of_mem_zip he).2
    exact ((heval body hbody).inScope (hcaptured.frame c.name hc hzip)).catchReturn settings c.name

/-- What is called is a tame value: a core function, a closure whose body is confined, or nothing
that can be called. -/
theorem steady_apply {f : Cell} (hf : f.Tame allowed) {args : List Cell} (hargs : ∀ a ∈ args, a.Tame allowed) :
    Steady allowed A (Cell.Tame allowed) (apply settings eval f args) := by
  cases f with
  | core g => exact steady_callCore g hargs
  | fn c => exact steady_callClosure heval hf hargs
  | _ => exact steady_ofText _ _

/-- Looking symbols up and binding them is what the relation between definitions is about. All other ops are
steady whatever it is. -/
theorem steady_step (hA : Bindings.Insensitive allowed A) {o : Op} (ho : (Cell.op o).Confined allowed) :
    Steady allowed A (Cell.Tame allowed) (o.step settings eval) := by
  -- the op occurs in itself, so it is allowed; only lookups and definitions need this
  have hself : allowed o := ho o .self
  cases o with
  | constant value =>
    refine (steady_charge _).bind fun _ _ => steady_ofData fun v hv => ?_
    exact (ho.of_held List.mem_cons_self (Ref.cell_eq_ok_iff.1 hv)).tame
  | lookup symbol => exact (steady_charge _).bind fun _ _ => steady_resolve hA hself
  | sequence ops =>
    refine (steady_charge _).bind fun _ _ => ?_
    exact (steady_opList ho List.mem_cons_self).bind fun cells hcells =>
      steady_runAll heval Cell.tame_nil hcells
  | define symbol value =>
    refine (steady_charge _).bind fun _ _ => ?_
    refine (steady_cell ho List.mem_cons_self).bind fun op hop => ?_
    refine (heval op hop).bind fun v hv => ?_
    have hnamed : (named v symbol).Tame allowed := tame_named hv symbol
    exact (steady_define hA hself hnamed).bind fun _ _ => steady_pure hnamed
  | bind symbols ops =>
    refine (steady_charge _).bind fun _ _ => ?_
    refine (steady_symbolList ho List.mem_cons_self).bind fun names _ => ?_
    refine (steady_opList ho (List.mem_cons_of_mem _ List.mem_cons_self)).bind fun cells hcells => ?_
    by_cases hlen : cells.length < names.length
    · rw [if_pos hlen]
      exact steady_fault _
    · rw [if_neg hlen]
      exact (steady_runBind heval names hcells).enclosed
  | choose ops =>
    refine (steady_charge _).bind fun _ _ => ?_
    exact (steady_opList ho List.mem_cons_self).bind fun cells hcells => steady_runChoose heval hcells
  | invoke ops =>
    refine (steady_charge _).bind fun _ _ => ?_
    refine (steady_opList ho List.mem_cons_self).bind fun cells hcells => ?_
    cases cells with
    | nil => exact steady_fault _
    | cons function args =>
      obtain ⟨hfunction, hargs⟩ := List.forall_mem_cons.1 hcells
      refine (heval function hfunction).bind fun f hf => ?_
      exact (steady_runEach heval hargs).bind fun values hvalues => steady_apply heval hf hvalues
  | lambda params body =>
    refine (steady_charge _).bind fun _ _ => ?_
    refine (steady_vec ho List.mem_cons_self).bind fun names hnames => ?_
    refine steady_captureScope.bind fun captured hcaptured => ?_
    refine (steady_cell ho (List.mem_cons_of_mem _ List.mem_cons_self)).bind fun op hop => ?_
    exact steady_ofData fun f hf => Closure.tame_create hnames.tame hop hcaptured hf

end Step

/-- Confined code is evaluated steadily, at every level of nesting. -/
theorem steady_eval (hA : Bindings.Insensitive allowed A) (settings : Settings) (levels : Nat) {c : Cell}
    (hc : c.Confined allowed) : Steady allowed A (Cell.Tame allowed) (c.eval settings levels) := by
  induction levels generalizing c with
  | zero =>
    cases c with
    | op o => exact steady_ofText _ _
    | _ => exact steady_fault _
  | succ levels ih =>
    cases c with
    | op o => exact (steady_step (fun _ => ih) hA hc).rollback
    | _ => exact steady_fault _

end Eval

/-! ## Executions -/

namespace Context

variable {A : Bindings → Bindings → Prop}

/-- The context with other definitions. -/
def withEnv (c : Context) (env : Bindings) : Context := { c with env := env }

/-- Contexts after an execution that came to the same, except for the definitions, which are related. -/
structure Related (A : Bindings → Bindings → Prop) (c c' : Context) : Prop where
  env : A c.env c'.env
  juice : c'.juice = c.juice
  outcome : c'.outcome = c.outcome

/-- Two contexts with related definitions that are otherwise the same execute confined code alike. -/
theorem paired_run (hA : Bindings.Insensitive allowed A) {c : Context} {b : Bindings} (hb : A c.env b)
    {l : Cell} (hl : l.Confined allowed) :
    Paired Eq (Related A) (c.run l) ((c.withEnv b).run l) := by
  have hends := Eval.steady_eval hA c.settings c.settings.maxDepth hl c.machine
    (c.withEnv b).machine ⟨hb, rfl, Bindings.every_empty, rfl⟩
  simp only [run]
  rw [show (c.withEnv b).settings = c.settings from rfl]
  generalize l.eval c.settings c.settings.maxDepth c.machine = r,
    l.eval c.settings c.settings.maxDepth (c.withEnv b).machine = r' at hends ⊢
  cases hends with
  | ok hv hm => exact .ok ⟨hm.env, hm.juice, rfl⟩
  | @error e m m' he hm =>
    cases e with
    | fault f => exact .error rfl
    | signal s => cases s <;> exact .ok ⟨hm.env, hm.juice, rfl⟩

theorem paired_execute (hA : Bindings.Insensitive allowed A) {c : Context} {b : Bindings} (hb : A c.env b)
    {op : Cell} {s : Store} (hop : ∀ l, op.load s = .ok l → l.Confined allowed) :
    Paired Eq (Related A) (c.execute s op) ((c.withEnv b).execute s op) := by
  simp only [execute]
  cases hload : op.load s with
  | error e => exact .error rfl
  | ok l => exact paired_run hA hb (hop l hload)

end Context

end CellMachine
