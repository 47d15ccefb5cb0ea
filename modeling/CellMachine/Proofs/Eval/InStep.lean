import CellMachine.Proofs.Eval.Calls
import CellMachine.Proofs.Eval.Metering

/-!
# Two machines in step

Two steps of evaluation run *in step* if from machines that agree they come to the same kind of end,
with results that are related and machines that agree again. Machines agree if their juice is the same
and their bindings are of the same symbols to twins.

* `InStep` is the two-run statement, and `Ends` what it says of the ends.
* Each way in which steps are put together keeps it, so that one lemma for each op gives it for
  evaluation at every level (`inStep_eval`): twins evaluate in step, and without a fault if they are
  well-formed ops.
* `Context.run_twin` says the same of whole executions.
-/

namespace CellMachine

variable {strict : Prop}

/-! ## Bindings and machines that agree -/

namespace Bindings

/-- Bindings of the same symbols, in the same order, to twins. -/
def Twin (strict : Prop) (b b' : Bindings) : Prop :=
  List.Forall₂ (fun e e' => e.1 = e'.1 ∧ Cell.Twin strict e.2 e'.2) b.entries b'.entries

/-- Bindings in which every symbol is bound to twins or in neither. -/
def Agree (strict : Prop) (b b' : Bindings) : Prop :=
  ∀ n, Option.Rel (Cell.Twin strict) (b.find? n) (b'.find? n)

variable {b b' : Bindings}

theorem twin_empty : empty.Twin strict empty := .nil

/-- Bindings that are twins from end to end bind each symbol to twins. -/
theorem Twin.agree (h : b.Twin strict b') : b.Agree strict b' := by
  intro n
  obtain ⟨es⟩ := b
  obtain ⟨es'⟩ := b'
  change List.Forall₂ _ es es' at h
  show Option.Rel _ (findEntry n es) (findEntry n es')
  -- the same symbol stands at each place, so the search stops at the same place
  induction h with
  | nil => exact .none
  | @cons e e' _ _ he _ ih =>
    obtain ⟨s, v⟩ := e
    obtain ⟨s', v'⟩ := e'
    obtain ⟨rfl, hv⟩ := he
    rw [findEntry, findEntry]
    by_cases hs : s = n
    · rw [if_pos hs, if_pos hs]
      exact .some hv
    · rw [if_neg hs, if_neg hs]
      exact ih

/-- Twins stay twins when a symbol is bound to twins in both. -/
theorem Twin.insert (h : b.Twin strict b') (n : Name) {v v' : Cell} (hv : v.Twin strict v') :
    (b.insert n v).Twin strict (b'.insert n v') := by
  obtain ⟨es⟩ := b
  obtain ⟨es'⟩ := b'
  change List.Forall₂ _ es es' at h
  show List.Forall₂ _ (insertEntry n v es) (insertEntry n v' es')
  induction h with
  | nil => exact .cons ⟨rfl, hv⟩ .nil
  | @cons e e' es es' he hes ih =>
    obtain ⟨s, x⟩ := e
    obtain ⟨s', x'⟩ := e'
    obtain ⟨rfl, hx⟩ := he
    rw [insertEntry, insertEntry]
    by_cases hs : s = n
    · rw [if_pos hs, if_pos hs]
      exact .cons ⟨rfl, hv⟩ hes
    · rw [if_neg hs, if_neg hs]
      -- the new symbol goes in at the same place, since the symbols themselves are the same
      by_cases hlt : s < n
      · rw [if_pos hlt, if_pos hlt]
        exact .cons ⟨rfl, hx⟩ ih
      · rw [if_neg hlt, if_neg hlt]
        exact .cons ⟨rfl, hv⟩ (.cons ⟨rfl, hx⟩ hes)

/-- The arguments of two calls are bound to the same parameters. -/
theorem Twin.insertAll (h : b.Twin strict b') (names : List Name) {args args' : List Cell}
    (hargs : List.Forall₂ (Cell.Twin strict) args args') :
    (b.insertAll (names.zip args)).Twin strict (b'.insertAll (names.zip args')) := by
  induction names generalizing b b' args args' with
  | nil => exact h
  | cons n names ih =>
    cases hargs with
    | nil => exact h
    | cons hv hargs => exact ih (h.insert n hv) hargs

/-- Agreement is all that definitions need: the order of their symbols is never looked at. -/
theorem Agree.insert (h : b.Agree strict b') (n : Name) {v v' : Cell} (hv : v.Twin strict v') :
    (b.insert n v).Agree strict (b'.insert n v') := by
  intro k
  rw [find?_insert, find?_insert]
  by_cases hk : n = k
  · rw [if_pos hk, if_pos hk]
    exact .some hv
  · rw [if_neg hk, if_neg hk]
    exact h k

end Bindings

/-- Machines with the same juice and with bindings to twins. -/
structure Machine.Twin (strict : Prop) (m m' : Machine) : Prop where
  env : m.env.Agree strict m'.env
  scope : m.scope.Twin strict m'.scope
  juice : m'.juice = m.juice

namespace Eval

variable {α β : Type} {Q : α → α → Prop} {R : β → β → Prop}

/-! ## Steps that run in step -/

/-- Ends of the same kind, with related results, that leave machines which agree. -/
inductive Ends (strict : Prop) (Q : α → α → Prop) : End α → End α → Prop where
  | ok {a b : α} {m m' : Machine} (h : Q a b) (hm : m.Twin strict m') :
    Ends strict Q (.ok a m) (.ok b m')
  | error {e e' : Exit} {m m' : Machine} (h : e.Twin strict e') (hm : m.Twin strict m') :
    Ends strict Q (.error e m) (.error e' m')

/-- Steps that come to related ends from machines that agree. -/
def InStep (strict : Prop) (Q : α → α → Prop) (x y : Eval α) : Prop :=
  ∀ m m', m.Twin strict m' → Ends strict Q (x m) (y m')

theorem inStep_pure {a b : α} (h : Q a b) : InStep strict Q (pure a) (pure b) :=
  fun _ _ hm => .ok h hm

theorem inStep_throw {e e' : Exit} (h : e.Twin strict e') :
    InStep strict Q (throw e : Eval α) (throw e') :=
  fun _ _ hm => .error h hm

theorem inStep_ofText (code : Name) (message : String) :
    InStep strict Q (signal (.ofText code message) : Eval α) (signal (.ofText code message)) :=
  inStep_throw (Exit.twin_ofText code message)

/-- A machine that runs well-formed programs refuses nothing, so a refusal needs `¬ strict`. -/
theorem inStep_refuse {r r' : Requirement} (h : r' = r) (hs : ¬ strict) :
    InStep strict Q (refuse r : Eval α) (refuse r') := by
  subst h
  exact inStep_throw (.fault _ hs)

/-- Results that are paired run in step: they were worked out without looking at a machine. -/
theorem inStep_ofExcept {x y : Except Exit α} (h : Paired (Exit.Twin strict) Q x y) :
    InStep strict Q (ofExcept x) (ofExcept y) := by
  cases h with
  | ok h => exact inStep_pure h
  | error h => exact inStep_throw h

/-- Faults of data are refusals too: they are the same, and only ill-formed programs meet them. -/
theorem inStep_ofData {x y : Except DataError α} (h : Paired (Refused strict) Q x y) :
    InStep strict Q (ofData x) (ofData y) := by
  cases h with
  | ok h => exact inStep_pure h
  | error h =>
    obtain ⟨rfl, hs⟩ := h
    exact inStep_throw (.fault _ hs)

/-- Steps that run in step go on in step. What follows may use only what relates the two results. -/
theorem InStep.bind {x y : Eval α} {f g : α → Eval β} (h : InStep strict Q x y)
    (hf : ∀ a b, Q a b → InStep strict R (f a) (g b)) : InStep strict R (x >>= f) (y >>= g) := by
  intro m m' hm
  have hends := h m m' hm
  show Ends strict R (EStateM.bind x f m) (EStateM.bind y g m')
  unfold EStateM.bind
  generalize x m = r, y m' = r' at hends ⊢
  cases hends with
  | ok hab hafter => exact hf _ _ hab _ _ hafter
  | error he hafter => exact .error he hafter

theorem InStep.imp {Q' : α → α → Prop} {x y : Eval α} (h : InStep strict Q x y)
    (himp : ∀ a b, Q a b → Q' a b) : InStep strict Q' x y := by
  intro m m' hm
  have hends := h m m' hm
  generalize x m = r, y m' = r' at hends ⊢
  cases hends with
  | ok hab hafter => exact .ok (himp _ _ hab) hafter
  | error he hafter => exact .error he hafter

/-- Steps that read the machine may use that the two machines agree. -/
theorem inStep_get_bind {f g : Machine → Eval β}
    (h : ∀ m m', m.Twin strict m' → InStep strict R (f m) (g m')) :
    InStep strict R (get >>= f) (get >>= g) :=
  fun m m' hm => h m m' hm m m' hm

/-- Related lists are gone through in step, and as many results come back as there are elements. -/
theorem InStep.mapM {S : β → β → Prop} {f g : β → Eval α} {xs ys : List β}
    (h : List.Forall₂ S xs ys) (hf : ∀ x y, S x y → InStep strict Q (f x) (g y)) :
    InStep strict (fun as bs => List.Forall₂ Q as bs ∧ as.length = xs.length) (xs.mapM f)
      (ys.mapM g) := by
  induction h with
  | nil => exact inStep_pure ⟨.nil, rfl⟩
  | cons hxy _ ih =>
    rw [List.mapM_cons, List.mapM_cons]
    refine (hf _ _ hxy).bind fun a b hab => ih.bind fun as bs hrest => inStep_pure ?_
    exact ⟨.cons hab hrest.1, congrArg (· + 1) hrest.2⟩

/-- Related accumulators are folded over related lists in step. -/
theorem InStep.foldlM {S : β → β → Prop} {f g : α → β → Eval α} {xs ys : List β}
    (h : List.Forall₂ S xs ys)
    (hf : ∀ a b x y, Q a b → S x y → InStep strict Q (f a x) (g b y)) {a b : α} (hab : Q a b) :
    InStep strict Q (xs.foldlM f a) (ys.foldlM g b) := by
  induction h generalizing a b with
  | nil => exact inStep_pure hab
  | cons hxy _ ih =>
    rw [List.foldlM_cons, List.foldlM_cons]
    exact (hf a b _ _ hab hxy).bind fun a' b' hab' => ih hab'

/-! ## What steps do to machines -/

/-- The juice is the same on both sides, so both can pay or neither can. -/
theorem inStep_charge {price price' : Nat} (h : price' = price) :
    InStep strict (fun _ _ => True) (charge price) (charge price') := by
  intro m m' hm
  subst h
  simp only [charge, hm.juice]
  by_cases hlt : m.juice < price'
  · rw [if_pos hlt, if_pos hlt]
    exact .error (.signal .outOfJuice) ⟨hm.env, hm.scope, rfl⟩
  · rw [if_neg hlt, if_neg hlt]
    exact .ok trivial ⟨hm.env, hm.scope, rfl⟩

/-- Defining twins keeps the definitions in agreement. -/
theorem inStep_define (n : Name) {v v' : Cell} (h : v.Twin strict v') :
    InStep strict (fun _ _ => True) (define n v) (define n v') :=
  fun _ _ hm => .ok trivial ⟨hm.env.insert n h, hm.scope, hm.juice⟩

theorem inStep_declare (n : Name) {v v' : Cell} (h : v.Twin strict v') :
    InStep strict (fun _ _ => True) (declare n v) (declare n v') :=
  fun _ _ hm => .ok trivial ⟨hm.env, hm.scope.insert n h, hm.juice⟩

/-- A step in another scope leaves the scope of the caller behind, on both sides. -/
theorem InStep.inScope {x y : Eval α} (h : InStep strict Q x y) {scope scope' : Bindings}
    (hscope : scope.Twin strict scope') :
    InStep strict Q (inScope scope x) (inScope scope' y) := by
  intro m m' hm
  have hends := h { m with scope := scope } { m' with scope := scope' }
    ⟨hm.env, hscope, hm.juice⟩
  simp only [Eval.inScope]
  generalize x { m with scope := scope } = r, y { m' with scope := scope' } = r' at hends ⊢
  cases hends with
  | ok hab hafter => exact .ok hab ⟨hafter.env, hm.scope, hafter.juice⟩
  | error he hafter => exact .error he ⟨hafter.env, hm.scope, hafter.juice⟩

/-- What a step declares is forgotten on both sides. -/
theorem InStep.enclosed {x y : Eval α} (h : InStep strict Q x y) :
    InStep strict Q (enclosed x) (enclosed y) :=
  fun m m' hm => h.inScope hm.scope m m' hm

theorem isError_eq_of_twin {s t : Signal} (h : s.Twin strict t) :
    t.isError = s.isError := by
  cases h <;> rfl

/-- Both steps give their definitions back, or neither does. -/
theorem InStep.rollback {x y : Eval α} (h : InStep strict Q x y) :
    InStep strict Q (rollback x) (rollback y) := by
  intro m m' hm
  have hends := h m m' hm
  simp only [Eval.rollback]
  generalize x m = r, y m' = r' at hends ⊢
  cases hends with
  | ok hab hafter => exact .ok hab hafter
  | @error e e' after after' he hafter =>
    cases he with
    | fault f hs => exact .error (.fault f hs) hafter
    | @signal s t hst =>
      refine .error (.signal hst) ?_
      rw [isError_eq_of_twin hst]
      -- only after an error the bindings are those from before
      by_cases herr : s.isError = true
      · rw [if_pos herr, if_pos herr]
        exact ⟨hm.env, hafter.scope, hafter.juice⟩
      · rw [if_neg herr, if_neg herr]
        exact hafter

/-- Both calls catch the value that is returned, and both add to the trace or neither does. -/
theorem InStep.catchReturn {x y : Eval Cell} (h : InStep strict (Cell.Twin strict) x y)
    (settings : Settings) (name : Option Name) :
    InStep strict (Cell.Twin strict) (catchReturn settings name x) (catchReturn settings name y) := by
  intro m m' hm
  have hends := h m m' hm
  simp only [Eval.catchReturn]
  generalize x m = r, y m' = r' at hends ⊢
  cases hends with
  | ok hab hafter => exact .ok hab hafter
  | error he hafter =>
    cases he with
    | fault f hs => exact .error (.fault f hs) hafter
    | signal hst =>
      cases hst with
      -- leaving ends here; every other signal passes, an error with one line more
      | leave hv => exact .ok hv hafter
      | halt hv => exact .error (.signal (.halt hv)) hafter
      | outOfJuice => exact .error (.signal .outOfJuice) hafter
      | @error f g hcode htrace hmessage =>
        refine .error (.signal ?_) hafter
        by_cases hrecord : settings.recordTrace = true
        · rw [if_pos hrecord, if_pos hrecord]
          exact .error hcode (by rw [htrace]) hmessage
        · rw [if_neg hrecord, if_neg hrecord]
          exact .error hcode htrace hmessage

/-! ## What ops are made of -/

theorem ofData_of_ok {x : Except DataError α} {a : α} (h : x = .ok a) : ofData x = pure a := by
  rw [h]
  rfl

/-- Elements that a reference leads to are read without a fault. -/
theorem opList_of_leadsTo {r : Ref} {xs : List Cell} (h : r.LeadsTo xs) : opList r = pure xs := by
  obtain ⟨v, hv, hxs⟩ := h
  rw [opList, ofData_of_ok hv, pure_bind, ofData_of_ok hxs]

/-- Symbols are the same on both sides. Other twins are refused, with one text for both. -/
theorem inStep_symbolOf {c d : Cell} (h : c.Twin strict d) (hsymbol : strict → c.IsSymbol) :
    InStep strict Eq (symbolOf c) (symbolOf d) := by
  have hdescribe := h.same.describe_eq
  cases h.alike with
  | symbol n => exact inStep_pure rfl
  | _ =>
    refine inStep_refuse (by rw [hdescribe]) fun hs => ?_
    cases (hsymbol hs).symbol?_isSome

/-- A symbol is found in the same place on both sides: in the scope, among the definitions, or among
the names of core functions. -/
theorem inStep_resolve (n : Name) : InStep strict (Cell.Twin strict) (resolve n) (resolve n) := by
  refine inStep_get_bind fun m m' hm => ?_
  have hscope := hm.scope.agree n
  have henv := hm.env n
  generalize m.scope.find? n = o, m'.scope.find? n = o' at hscope ⊢
  generalize m.env.find? n = p, m'.env.find? n = p' at henv ⊢
  cases hscope with
  | some hv => exact inStep_pure hv
  | none =>
    cases henv with
    | some hv => exact inStep_pure hv
    | none =>
      -- the names of core functions do not depend on the machine
      cases CoreFn.ofName? n.val with
      | some f => exact inStep_pure (Cell.twin_core f)
      | none => exact inStep_ofText _ _

/-- The scopes are captured in maps of symbols that are twins. -/
theorem inStep_captureScope :
    InStep strict (fun t t' => t.cell.Twin strict t'.cell ∧ t.OfSymbols ∧ t'.OfSymbols)
      captureScope captureScope := by
  refine inStep_get_bind fun m m' hm => ?_
  have hkeys : ∀ (b : Bindings), ∀ e ∈ b.entries.map fun e => (Cell.symbol e.1, e.2),
      e.1.IsSymbol := by
    intro b
    exact List.forall_mem_map.2 fun e _ => ⟨e.1, rfl⟩
  have hentries : List.Forall₂ (fun e e' => Cell.Twin strict e.1 e'.1 ∧ Cell.Twin strict e.2 e'.2)
      (m.scope.entries.map fun e => (Cell.symbol e.1, e.2))
      (m'.scope.entries.map fun e => (Cell.symbol e.1, e.2)) := by
    rw [List.forall₂_map_left_iff, List.forall₂_map_right_iff]
    refine hm.scope.imp fun e e' he => ⟨?_, he.2⟩
    rw [he.1]
    exact Cell.twin_symbol e'.1
  have htables := (Table.twin_ofList hentries).imp fun t t' ht ht' h =>
    And.intro h (And.intro (Table.ofSymbols_ofList (hkeys m.scope) ht)
      (Table.ofSymbols_ofList (hkeys m'.scope) ht'))
  generalize Table.ofList (m.scope.entries.map fun e => (Cell.symbol e.1, e.2)) = r,
    Table.ofList (m'.scope.entries.map fun e => (Cell.symbol e.1, e.2)) = r' at htables ⊢
  cases htables with
  | ok h => exact inStep_pure h
  -- a map that is too large has the same size on both sides, so the complaint is the same
  | error h =>
    obtain ⟨rfl, v, rfl⟩ := h
    exact inStep_ofText _ _

/-- The bindings that a captured map makes are twins if its keys and values are. -/
theorem inStep_bindingsOf {es es' : List (Cell × Cell)}
    (h : List.Forall₂ (fun e e' => Cell.Twin strict e.1 e'.1 ∧ Cell.Twin strict e.2 e'.2) es es')
    (hkeys : strict → ∀ e ∈ es, e.1.IsSymbol) :
    InStep strict (Bindings.Twin strict) (bindingsOf es) (bindingsOf es') := by
  have hentries : List.Forall₂ (fun e e' => (strict → e.1.IsSymbol) ∧
      Cell.Twin strict e.1 e'.1 ∧ Cell.Twin strict e.2 e'.2) es es' :=
    (List.forall₂_and_left es es').2 ⟨fun e he hs => hkeys hs e he, h⟩
  refine InStep.foldlM hentries (fun b b' e e' hb he => ?_) Bindings.twin_empty
  obtain ⟨k, v⟩ := e
  obtain ⟨k', v'⟩ := e'
  obtain ⟨hkey, hk, hv⟩ := he
  have hdescribe := hk.same.describe_eq
  cases hk.alike with
  | symbol n => exact inStep_pure (hb.insert n hv)
  | _ =>
    refine inStep_refuse (by rw [hdescribe]) fun hs => ?_
    cases (hkey hs).symbol?_isSome

/-- Naming a closure keeps its twin a twin: a closure has a name on both sides or on neither. -/
theorem twin_named {v v' : Cell} (h : v.Twin strict v') (n : Name) :
    (named v n).Twin strict (named v' n) := by
  cases h.alike with
  | @fn c c' halike =>
    obtain ⟨params, body, env, name⟩ := c
    obtain ⟨params', body', env', name'⟩ := c'
    have hname : name = name' := halike.name
    subst hname
    cases name with
    | some s => exact h
    | none =>
      have hrenamed : (Cell.fn (Closure.rename ⟨params, body, env, none⟩ n)).Alike (Ref.Twin strict)
          (.fn (Closure.rename ⟨params', body', env', none⟩ n)) :=
        .fn ⟨halike.params, halike.body, halike.env, rfl⟩
      exact hrenamed.twin (Closure.fit_rename h.left) (Closure.fit_rename h.right)
  | _ => exact h

/-- Core functions ask the same price of twins and have results that are twins. -/
theorem inStep_callCore (f : CoreFn) {args args' : List Cell}
    (h : List.Forall₂ (Cell.Twin strict) args args') :
    InStep strict (Cell.Twin strict) (callCore f args) (callCore f args') :=
  (inStep_charge (f.price_eq h)).bind fun _ _ _ => inStep_ofExcept (f.run_twin h)

/-- References that are twins hold cells that are twins. -/
theorem inStep_cell {r s : Ref} (h : r.Twin strict s) :
    InStep strict (fun c d => r.held? = some c ∧ c.Twin strict d) (ofData r.cell)
      (ofData s.cell) := by
  obtain ⟨c, d, hc, hd, htwin⟩ := h.held
  rw [ofData_of_ok (Ref.cell_eq_ok_iff.2 hc), ofData_of_ok (Ref.cell_eq_ok_iff.2 hd)]
  exact inStep_pure ⟨hc, htwin⟩

/-- The elements of a vector that both sides have checked are read in step. -/
theorem inStep_opList {r s : Ref} (h : r.Twin strict s) {expected : String}
    (hkind : r.requireKind expected Cell.isVector = .ok ()) :
    InStep strict (fun xs ys => r.LeadsTo xs ∧ List.Forall₂ (Cell.Twin strict) xs ys) (opList r)
      (opList s) := by
  obtain ⟨xs, ys, hxs, hys, htwins⟩ := h.exists_elements hkind
  rw [opList_of_leadsTo hxs, opList_of_leadsTo hys]
  exact inStep_pure ⟨hxs, htwins⟩

/-- The parameters of a call are the same symbols on both sides, and as many as the vector has
elements. -/
theorem inStep_symbolList {r s : Ref} (h : r.Twin strict s) {expected : String}
    (hkind : r.requireKind expected Cell.isVector = .ok ()) (hsymbols : strict → r.HoldsSymbols) :
    InStep strict (fun ns ms => ns = ms ∧ ∃ xs, r.LeadsTo xs ∧ ns.length = xs.length)
      (symbolList r) (symbolList s) := by
  obtain ⟨xs, ys, hxs, hys, htwins⟩ := h.exists_elements hkind
  rw [symbolList, symbolList, opList_of_leadsTo hxs, opList_of_leadsTo hys, pure_bind, pure_bind]
  have hpairs : List.Forall₂ (fun x y => (strict → x.IsSymbol) ∧ Cell.Twin strict x y) xs ys := by
    refine (List.forall₂_and_left xs ys).2 ⟨fun x hx hs => ?_, htwins⟩
    obtain ⟨xs', hxs', hall⟩ := hsymbols hs
    cases hxs.unique hxs'
    exact hall x hx
  refine (InStep.mapM hpairs fun x y hxy => inStep_symbolOf hxy.2 hxy.1).imp fun ns ms hns => ?_
  rw [List.forall₂_eq_eq_eq] at hns
  exact ⟨hns.1, xs, hxs, hns.2⟩

/-! ## Ops, given that their parts run in step -/

/-- Twins which are ops if programs are well-formed. -/
def Runs (strict : Prop) (c d : Cell) : Prop := (strict → c.isOp = true) ∧ c.Twin strict d

/-- The elements of a vector of ops can be run. -/
theorem forall₂_runs {r : Ref} {xs ys : List Cell} (hxs : r.LeadsTo xs)
    (h : List.Forall₂ (Cell.Twin strict) xs ys)
    (hops : strict → ∃ xs, r.LeadsTo xs ∧ ∀ x ∈ xs, x.isOp = true) :
    List.Forall₂ (Runs strict) xs ys := by
  refine (List.forall₂_and_left xs ys).2 ⟨fun x hx hs => ?_, h⟩
  obtain ⟨xs', hxs', hall⟩ := hops hs
  cases hxs.unique hxs'
  exact hall x hx

/-- A reference to an op holds an op, if it holds anything. -/
theorem isOp_of_holdsOp {r : Ref} {c : Cell} (hc : r.held? = some c) (h : r.HoldsOp) :
    c.isOp = true := by
  obtain ⟨d, hd, hop⟩ := h
  cases hc.symm.trans hd
  exact hop

section Step
variable {settings : Settings} {eval : Cell → Eval Cell}
  (heval : ∀ c d, Runs strict c d → InStep strict (Cell.Twin strict) (eval c) (eval d))
include heval

/-- A sequence gives the value of its last op, and every value before it is forgotten. -/
theorem inStep_runAll {last last' : Cell} (hlast : last.Twin strict last') {ops ops' : List Cell}
    (h : List.Forall₂ (Runs strict) ops ops') :
    InStep strict (Cell.Twin strict) (runAll eval last ops) (runAll eval last' ops') := by
  induction h generalizing last last' with
  | nil => exact inStep_pure hlast
  | cons hop _ ih => exact (heval _ _ hop).bind fun v v' hv => ih hv

/-- Arguments are evaluated from first to last, each on the machine that the one before it left. -/
theorem inStep_runEach {ops ops' : List Cell} (h : List.Forall₂ (Runs strict) ops ops') :
    InStep strict (List.Forall₂ (Cell.Twin strict)) (runEach eval ops) (runEach eval ops') := by
  induction h with
  | nil => exact inStep_pure .nil
  | cons hop _ ih =>
    exact (heval _ _ hop).bind fun v v' hv => ih.bind fun vs vs' hvs => inStep_pure (.cons hv hvs)

/-- Each symbol is declared before the next op runs, so the induction is on the symbols. -/
theorem inStep_runBind (symbols : List Name) {ops ops' : List Cell}
    (h : List.Forall₂ (Runs strict) ops ops') :
    InStep strict (Cell.Twin strict) (runBind eval symbols ops) (runBind eval symbols ops') := by
  induction symbols generalizing ops ops' with
  | nil => exact inStep_runAll heval Cell.twin_nil h
  | cons symbol symbols ih =>
    cases h with
    | nil => exact inStep_runAll heval Cell.twin_nil .nil
    | cons hop hops =>
      refine (heval _ _ hop).bind fun v v' hv => ?_
      exact (inStep_declare symbol (twin_named hv symbol)).bind fun _ _ _ => ih hops

/-- Twins are true together, so the same branch is taken on both sides. -/
theorem inStep_runChoose {ops ops' : List Cell} (h : List.Forall₂ (Runs strict) ops ops') :
    InStep strict (Cell.Twin strict) (runChoose eval ops) (runChoose eval ops') := by
  -- tests and branches come in pairs, so the recursion takes two ops at a time
  match h with
  | .nil => exact inStep_pure Cell.twin_nil
  | .cons hdefault .nil => exact heval _ _ hdefault
  | .cons htest (.cons hbranch hrest) =>
    refine (heval _ _ htest).bind fun v v' hv => ?_
    rw [hv.isTruthy_eq]
    by_cases htrue : v.isTruthy = true
    · rw [if_pos htrue, if_pos htrue]
      exact heval _ _ hbranch
    · rw [if_neg htrue, if_neg htrue]
      exact inStep_runChoose hrest

/-- Closures that are twins are called in step. -/
theorem inStep_callClosure {c c' : Closure} (h : (Cell.fn c).Twin strict (.fn c'))
    {args args' : List Cell} (hargs : List.Forall₂ (Cell.Twin strict) args args') :
    InStep strict (Cell.Twin strict) (callClosure settings eval (.fn c) c args)
      (callClosure settings eval (.fn c') c' args') := by
  obtain ⟨hparams, hbody, henv, hname⟩ : c.Alike (Ref.Twin strict) c' := by
    cases h.alike with
    | fn halike => exact halike
  obtain ⟨hvector, hop, hmap⟩ := Closure.check_eq_ok_iff.1 h.check_eq
  have hproper : strict → c.Proper := fun hs => h.left.proper hs _ .self
  refine (inStep_ofData (Closure.paramNames_twin hparams hvector fun hs => (hproper hs).1)).bind
    fun names _ hnames => ?_
  -- the parameters are the same symbols, and only the arguments are told apart
  subst hnames
  rw [hargs.length_eq]
  by_cases hlen : names.length ≠ args'.length
  · rw [if_pos hlen, if_pos hlen]
    exact inStep_ofText _ _
  · rw [if_neg hlen, if_neg hlen]
    obtain ⟨t, t', ht, ht', hheld, htables⟩ := Closure.exists_bindings henv hmap
    obtain ⟨es, es', hes, hes', hentries⟩ := Table.exists_toList_of_twin htables
    rw [ofData_of_ok ht, ofData_of_ok ht', pure_bind, pure_bind, ofData_of_ok hes,
      ofData_of_ok hes', pure_bind, pure_bind]
    have hkeys : strict → ∀ e ∈ es, e.1.IsSymbol := by
      intro hs e he
      obtain ⟨-, -, entries, henv', hall⟩ := hproper hs
      cases hheld.symm.trans henv'
      obtain ⟨p, hp, hk, -⟩ := exists_of_forall₂_right (Table.toList_eq_ok_iff.1 hes) he
      obtain ⟨k, hk', hsymbol⟩ := hall p hp
      cases hk.symm.trans hk'
      exact hsymbol
    refine (inStep_bindingsOf hentries hkeys).bind fun captured captured' hcaptured => ?_
    refine (inStep_cell hbody).bind fun op op' hbody => ?_
    -- whatever scope the call starts from, the arguments are bound over it
    have hcall : ∀ (name : Option Name) {scope scope' : Bindings}, scope.Twin strict scope' →
        InStep strict (Cell.Twin strict)
          (catchReturn settings name (Eval.inScope (scope.insertAll (names.zip args)) (eval op)))
          (catchReturn settings name (Eval.inScope (scope'.insertAll (names.zip args')) (eval op'))) := by
      intro name scope scope' hscope
      have hruns : Runs strict op op' := ⟨fun hs => isOp_of_holdsOp hbody.1 (hproper hs).2.1, hbody.2⟩
      exact ((heval op op' hruns).inScope (hscope.insertAll names hargs)).catchReturn settings name
    -- the name of the closure stands before what it captured, if it has one
    rw [← hname]
    cases c.name with
    | none => exact hcall none hcaptured
    | some n => exact hcall (some n) (hcaptured.insert n h)

/-- A callee that is no function is complained about in the same words on both sides. -/
theorem inStep_apply {f f' : Cell} (h : f.Twin strict f') {args args' : List Cell}
    (hargs : List.Forall₂ (Cell.Twin strict) args args') :
    InStep strict (Cell.Twin strict) (apply settings eval f args) (apply settings eval f' args') := by
  have hdescribe := h.same.describe_eq
  cases h.alike with
  | core g => exact inStep_callCore g hargs
  | fn _ => exact inStep_callClosure heval h hargs
  | _ =>
    simp only [apply, hdescribe]
    exact inStep_ofText _ _

/-- Ops that are twins are evaluated in step. -/
theorem inStep_step {o o' : Op} (h : (Cell.op o).Twin strict (.op o')) :
    InStep strict (Cell.Twin strict) (o.step settings eval) (o'.step settings eval) := by
  have hproper : strict → o.Proper := fun hs => h.left.proper hs _ .self
  have hcheck : o.check = .ok () := h.check_eq
  have halike : o.Alike (Ref.Twin strict) o' := by
    cases h.alike with
    | op halike => exact halike
  clear h
  cases halike with
  | constant hvalue =>
    refine (inStep_charge rfl).bind fun _ _ _ => ?_
    exact (inStep_cell hvalue).imp fun c d hcd => hcd.2
  | lookup symbol => exact (inStep_charge rfl).bind fun _ _ _ => inStep_resolve symbol
  | sequence hops =>
    refine (inStep_charge rfl).bind fun _ _ _ => ?_
    refine (inStep_opList hops hcheck).bind fun xs ys hxs => ?_
    exact inStep_runAll heval Cell.twin_nil (forall₂_runs hxs.1 hxs.2 hproper)
  | @define symbol _ _ hvalue =>
    refine (inStep_charge rfl).bind fun _ _ _ => ?_
    refine (inStep_cell hvalue).bind fun op op' hop => ?_
    have hruns : Runs strict op op' := ⟨fun hs => isOp_of_holdsOp hop.1 (hproper hs), hop.2⟩
    refine (heval op op' hruns).bind fun v v' hv => ?_
    have hnamed := twin_named hv symbol
    exact (inStep_define symbol hnamed).bind fun _ _ _ => inStep_pure hnamed
  | bind hsymbols hops =>
    obtain ⟨⟨⟩, hvector, hvector'⟩ := bind_eq_ok_iff.1 hcheck
    refine (inStep_charge rfl).bind fun _ _ _ => ?_
    refine (inStep_symbolList hsymbols hvector fun hs => ?_).bind fun names _ hnames => ?_
    · obtain ⟨ys, -, hys, -, -, hall, -⟩ := hproper hs
      exact ⟨ys, hys, hall⟩
    obtain ⟨rfl, zs, hzs, hlen⟩ := hnames
    refine (inStep_opList hops hvector').bind fun xs xs' hxs => ?_
    have hruns : List.Forall₂ (Runs strict) xs xs' := forall₂_runs hxs.1 hxs.2 fun hs => by
      obtain ⟨-, xs, -, hxs, -, -, hall⟩ := hproper hs
      exact ⟨xs, hxs, hall⟩
    rw [← hruns.length_eq]
    by_cases hfew : xs.length < names.length
    · rw [if_pos hfew, if_pos hfew]
      -- a proper op has an op for every symbol, which the count contradicts
      refine inStep_refuse rfl fun hs => ?_
      obtain ⟨ys, xs', hys, hxs', hle, -⟩ := hproper hs
      cases hzs.unique hys
      cases hxs.1.unique hxs'
      omega
    · rw [if_neg hfew, if_neg hfew]
      exact (inStep_runBind heval names hruns).enclosed
  | choose hops =>
    refine (inStep_charge rfl).bind fun _ _ _ => ?_
    refine (inStep_opList hops hcheck).bind fun xs ys hxs => ?_
    exact inStep_runChoose heval (forall₂_runs hxs.1 hxs.2 hproper)
  | invoke hops =>
    refine (inStep_charge rfl).bind fun _ _ _ => ?_
    refine (inStep_opList hops hcheck).bind fun xs ys hxs => ?_
    have hruns : List.Forall₂ (Runs strict) xs ys := forall₂_runs hxs.1 hxs.2 fun hs => by
      obtain ⟨xs, hxs, -, hall⟩ := hproper hs
      exact ⟨xs, hxs, hall⟩
    cases hruns with
    | nil =>
      -- a proper op calls something
      refine inStep_refuse rfl fun hs => ?_
      obtain ⟨xs, hxs', hne, -⟩ := hproper hs
      exact hne (hxs.1.unique hxs').symm
    | cons hfunction hargs =>
      refine (heval _ _ hfunction).bind fun f f' hf => ?_
      exact (inStep_runEach heval hargs).bind fun vs vs' hvs => inStep_apply heval hf hvs
  | lambda hparams hbody =>
    obtain ⟨⟨⟩, hvector, -⟩ := bind_eq_ok_iff.1 hcheck
    refine (inStep_charge rfl).bind fun _ _ _ => ?_
    obtain ⟨v, u, hv, hu, hvu⟩ := hparams.exists_vec hvector
    rw [ofData_of_ok hv, ofData_of_ok hu, pure_bind, pure_bind]
    refine inStep_captureScope.bind fun t t' ht => ?_
    refine (inStep_cell hbody).bind fun op op' hop => ?_
    refine inStep_ofData (Closure.create_twin hvu hop.2 ht.1 ht.2.1 ht.2.2 (fun hs xs hxs => ?_)
      fun hs => ?_)
    · obtain ⟨ys, hys, hall⟩ := (hproper hs).1
      cases Ref.LeadsTo.unique ⟨v, hv, hxs.toList⟩ hys
      exact hall
    · exact isOp_of_holdsOp hop.1 (hproper hs).2

end Step

/-- Twins evaluate in step at every level of nesting. -/
theorem inStep_eval (settings : Settings) (levels : Nat) {c d : Cell} (h : Runs strict c d) :
    InStep strict (Cell.Twin strict) (c.eval settings levels) (d.eval settings levels) := by
  -- on the levels: the ops nested in one that is evaluated have one level less
  induction levels generalizing c d with
  | zero =>
    obtain ⟨hop, htwin⟩ := h
    have hdescribe := htwin.same.describe_eq
    cases htwin.alike with
    | op _ => exact inStep_ofText _ _
    | _ =>
      refine inStep_refuse (by rw [hdescribe]) fun hs => ?_
      cases hop hs
  | succ levels ih =>
    obtain ⟨hop, htwin⟩ := h
    have hdescribe := htwin.same.describe_eq
    cases htwin.alike with
    | op _ => exact (inStep_step (fun _ _ => ih) htwin).rollback
    | _ =>
      refine inStep_refuse (by rw [hdescribe]) fun hs => ?_
      cases hop hs

end Eval

/-! ## Executions -/

/-- Every symbol is bound to a value of the kind, if to any. -/
def Bindings.All (P : Cell → Prop) (b : Bindings) : Prop := ∀ n v, b.find? n = some v → P v

namespace Bindings
variable {b b' : Bindings}

/-- Bindings to fit values agree with themselves. -/
theorem All.agree_self (h : b.All (Cell.Fit strict)) : b.Agree strict b := by
  intro n
  cases hn : b.find? n with
  | none => exact .none
  | some v => exact .some (h n v hn).twin_self

/-- What agrees with other bindings binds to fit values only. -/
theorem Agree.all_left (h : b.Agree strict b') : b.All (Cell.Fit strict) := by
  intro n v hv
  have hn := h n
  rw [hv] at hn
  generalize b'.find? n = o at hn
  cases hn with
  | some htwin => exact htwin.left

end Bindings

/-- Outcomes of the same kind that carry twins. Executions turn halting and returning into values. -/
inductive Outcome.Twin (strict : Prop) : Outcome → Outcome → Prop where
  | value {v w : Cell} (h : v.Twin strict w) : Outcome.Twin strict (.value v) (.value w)
  | error {f g : Failure} (code : g.code = f.code) (trace : g.trace = f.trace)
    (message : f.message.Twin strict g.message) :
    Outcome.Twin strict (.exceptional (.error f)) (.exceptional (.error g))
  | outOfJuice : Outcome.Twin strict (.exceptional .outOfJuice) (.exceptional .outOfJuice)

namespace Context

/-- Contexts with the same settings and juice and with definitions that are twins. -/
structure Twin (strict : Prop) (c c' : Context) : Prop where
  settings : c'.settings = c.settings
  env : c.env.Agree strict c'.env
  juice : c'.juice = c.juice

variable {c c' : Context}

/-- A context with fit definitions is its own twin. -/
theorem twin_self (h : c.env.All (Cell.Fit strict)) : c.Twin strict c := ⟨rfl, h.agree_self, rfl⟩

/-- The machines on which two contexts start agree. -/
theorem Twin.machine (h : c.Twin strict c') : c.machine.Twin strict c'.machine :=
  ⟨h.env, Bindings.twin_empty, h.juice⟩

/-- What machines that agree leave behind makes contexts that are twins. -/
theorem Twin.finish (h : c.Twin strict c') {m m' : Machine} (hm : m.Twin strict m')
    (o o' : Outcome) : (c.finish m o).Twin strict (c'.finish m' o') :=
  ⟨h.settings, hm.env, hm.juice⟩

theorem execute_of_load {op l : Cell} {s : Store} (h : op.load s = .ok l) :
    c.execute s op = c.run l := by
  simp only [execute, h]

/-- Twins that are run as ops have outcomes that are twins and leave contexts that are twins. -/
theorem run_twin (h : c.Twin strict c') {op op' : Cell} (hop : Eval.Runs strict op op') :
    Paired (Refused strict)
      (fun after after' => after.Twin strict after' ∧ after.outcome.Twin strict after'.outcome)
      (c.run op) (c'.run op') := by
  have hends := Eval.inStep_eval c.settings c.settings.maxDepth hop _ _ h.machine
  unfold run
  rw [h.settings]
  -- only the ends of the two evaluations matter from here on
  generalize op.eval c.settings c.settings.maxDepth c.machine = r,
    op'.eval c.settings c.settings.maxDepth c'.machine = r' at hends ⊢
  cases hends with
  | ok hv hm => exact .ok ⟨h.finish hm _ _, .value hv⟩
  | error he hm =>
    cases he with
    | fault f hs => exact .error ⟨rfl, hs⟩
    | signal hst =>
      cases hst with
      | halt hv => exact .ok ⟨h.finish hm _ _, .value hv⟩
      | leave hv => exact .ok ⟨h.finish hm _ _, .value hv⟩
      | error hcode htrace hmessage =>
        exact .ok ⟨h.finish hm _ _, .error hcode htrace hmessage⟩
      | outOfJuice => exact .ok ⟨h.finish hm _ _, .outOfJuice⟩

end Context

end CellMachine
