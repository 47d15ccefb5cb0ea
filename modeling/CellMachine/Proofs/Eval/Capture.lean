import CellMachine.Proofs.Cell.Compound
import CellMachine.Proofs.Eval.Frames
import CellMachine.Proofs.Eval.InStep
import CellMachine.Proofs.Eval.Tracing
import CellMachine.Proofs.Eval.Unwinding
import CellMachine.Proofs.Table.Entries

/-!
# What a closure sees

Creating a closure turns the bindings of the scope into a map, and calling it turns the map into bindings. The
bindings are in the order of their symbols and the map is in the order of the hashes of the symbols, but as long
as different symbols have different hashes both have the same entries (`Table.MapOf`), so that the bindings come
back as they were (`Eval.bindingsOf_mapOf`). A call has nothing of the scope it is made in.

Main statement: `Op.lambda_captures`.
-/

namespace CellMachine

/-- Symbols and their values as entries of a map. -/
def symbolEntries (es : List (Name × Cell)) : List (Cell × Cell) := es.map fun e => (.symbol e.1, e.2)

/-- Bindings of symbols with different hashes. -/
def Bindings.Distinguished (b : Bindings) : Prop :=
  ∀ x ∈ b.entries, ∀ y ∈ b.entries, (Cell.symbol x.1).hash = (Cell.symbol y.1).hash → x.1 = y.1

namespace Table

/-- The map of some bindings, of whatever size: an entry for each symbol, in the order of maps. -/
structure MapOf (t : Table) (b : Bindings) : Prop where
  increasing : Increasing t.entries
  entries : ∃ es : List (Name × Cell), es.Perm b.entries ∧ t.entries = refsOf (symbolEntries es)

/-- The map of a list of associations before its size is looked at. -/
def gather (es : List (Cell × Cell)) : Table :=
  ⟨es.foldl (fun es e => insertEntry (.of e.1) (.of e.2) es) []⟩

theorem ofList_eq (es : List (Cell × Cell)) : ofList es = (gather es).checked := rfl

/-- A symbol with a hash of its own adds an entry. -/
theorem exists_insertEntry {es : List (Name × Cell)} {n : Name} {v : Cell}
    (hnew : ∀ e ∈ es, (Cell.symbol e.1).hash ≠ (Cell.symbol n).hash) :
    ∃ all, insertEntry (.of (.symbol n)) (.of v) (refsOf (symbolEntries es)) = refsOf (symbolEntries all) ∧
      all.Perm ((n, v) :: es) := by
  induction es with
  | nil => exact ⟨[(n, v)], rfl, .refl _⟩
  | cons e es ih =>
    obtain ⟨he, hes⟩ := List.forall_mem_cons.1 hnew
    obtain ⟨all, hall, hperm⟩ := ih hes
    have hne : (Ref.of (.symbol e.1)).hash ≠ (Ref.of (.symbol n)).hash := by
      rwa [Ref.hash_of, Ref.hash_of]
    by_cases hlt : (Ref.of (.symbol e.1)).hash < (Ref.of (.symbol n)).hash
    · refine ⟨e :: all, ?_, (hperm.cons e).trans (.swap (n, v) e es)⟩
      show insertEntry _ _ ((Ref.of (.symbol e.1), Ref.of e.2) :: refsOf (symbolEntries es)) = _
      rw [insertEntry, if_pos hlt, hall]
      rfl
    · refine ⟨(n, v) :: e :: es, ?_, .refl _⟩
      show insertEntry _ _ ((Ref.of (.symbol e.1), Ref.of e.2) :: refsOf (symbolEntries es)) = _
      rw [insertEntry, if_neg hlt, if_neg hne]
      rfl

theorem exists_foldl {es before : List (Name × Cell)}
    (hes : es.Pairwise fun x y => (Cell.symbol x.1).hash ≠ (Cell.symbol y.1).hash)
    (hnew : ∀ x ∈ before, ∀ y ∈ es, (Cell.symbol x.1).hash ≠ (Cell.symbol y.1).hash) :
    ∃ all, (symbolEntries es).foldl (fun es e => insertEntry (.of e.1) (.of e.2) es)
        (refsOf (symbolEntries before)) = refsOf (symbolEntries all) ∧ all.Perm (es ++ before) := by
  induction es generalizing before with
  | nil => exact ⟨before, rfl, .refl _⟩
  | cons e es ih =>
    obtain ⟨hfirst, hes⟩ := List.pairwise_cons.1 hes
    obtain ⟨more, hmore, hperm⟩ := exists_insertEntry (v := e.2) fun x hx => hnew x hx e List.mem_cons_self
    have hnew' : ∀ x ∈ more, ∀ y ∈ es, (Cell.symbol x.1).hash ≠ (Cell.symbol y.1).hash := by
      intro x hx y hy
      rcases List.mem_cons.1 (hperm.mem_iff.1 hx) with rfl | hx
      · exact hfirst y hy
      · exact hnew x hx y (List.mem_cons_of_mem _ hy)
    obtain ⟨all, hall, hperm'⟩ := ih hes hnew'
    refine ⟨all, ?_, hperm'.trans ((hperm.append_left es).trans List.perm_middle)⟩
    show (symbolEntries es).foldl _ (insertEntry (.of (.symbol e.1)) (.of e.2) _) = _
    rw [hmore, hall]

/-- Bindings are captured by their map. -/
theorem mapOf_gather {b : Bindings} (h : b.Ordered) (hhash : b.Distinguished) :
    (gather (symbolEntries b.entries)).MapOf b := by
  have hdistinct : b.entries.Pairwise fun x y => (Cell.symbol x.1).hash ≠ (Cell.symbol y.1).hash := by
    refine List.Pairwise.imp_of_mem (fun hx hy hlt heq => ?_) h
    rw [hhash _ hx _ hy heq] at hlt
    exact Name.lt_irrefl _ hlt
  obtain ⟨all, hall, hperm⟩ := exists_foldl hdistinct (List.forall_mem_nil _)
  rw [List.append_nil] at hperm
  exact ⟨increasing_foldl _ .nil, all, hperm, hall⟩

theorem MapOf.exists_toList {t : Table} {b : Bindings} (h : t.MapOf b) :
    ∃ es : List (Name × Cell), es.Perm b.entries ∧ t.toList = .ok (symbolEntries es) := by
  obtain ⟨es, hperm, hentries⟩ := h.entries
  refine ⟨es, hperm, toList_eq_ok_iff.2 ?_⟩
  rw [hentries, refsOf, List.forall₂_map_left_iff]
  exact List.forall₂_same.2 fun e _ => ⟨Ref.held?_of e.1, Ref.held?_of e.2⟩

end Table

/-! ## Creating a closure -/

namespace Eval

variable {m : Machine} {t : Table} {b : Bindings}

theorem bindingsOf_symbolEntries (es : List (Name × Cell)) :
    bindingsOf (symbolEntries es) = pure (Bindings.empty.insertAll es) := by
  rw [bindingsOf]
  generalize Bindings.empty = b
  induction es generalizing b with
  | nil => rfl
  | cons e es ih =>
    rw [symbolEntries, List.map_cons, List.foldlM_cons]
    exact ih (b.insert e.1 e.2)

/-- The bindings that were captured come back from the map. -/
theorem bindingsOf_mapOf (h : t.MapOf b) (hb : b.Ordered) :
    ∃ entries, t.toList = .ok entries ∧ bindingsOf entries = pure b := by
  obtain ⟨es, hperm, hlist⟩ := h.exists_toList
  exact ⟨_, hlist, by rw [bindingsOf_symbolEntries, hb.insertAll_empty hperm]⟩

/-- The map of the scope, whatever its size is. -/
abbrev scopeMap (m : Machine) : Table := Table.gather (symbolEntries m.scope.entries)

theorem captureScope_of_fits (h : (scopeMap m).cell.encode.length ≤ maxEncoding) :
    captureScope m = .ok (scopeMap m) m := by
  have hlist : Table.ofList (symbolEntries m.scope.entries) = .ok (scopeMap m) := by
    rw [Table.ofList_eq, Table.checked]
    exact if_neg (Nat.not_lt.2 h)
  rw [symbolEntries] at hlist
  have hget : (get : Eval Machine) m = .ok m m := rfl
  simp only [captureScope, bind_of_ok hget, hlist]
  rfl

theorem captureScope_of_exceeds (h : maxEncoding < (scopeMap m).cell.encode.length) :
    FailsWith Code.argument (captureScope m) := by
  have hlist : Table.ofList (symbolEntries m.scope.entries) =
      .error (.violation (.mapSize (scopeMap m).cell.encode.length maxEncoding)) := by
    rw [Table.ofList_eq, Table.checked]
    exact if_pos h
  rw [symbolEntries] at hlist
  have hget : (get : Eval Machine) m = .ok m m := rfl
  simp only [captureScope, bind_of_ok hget, hlist]
  exact ⟨_, m, rfl, rfl⟩

section Lambda
variable {settings : Settings} {eval : Cell → Eval Cell} {params body : Ref}

theorem step_lambda : (Op.lambda params body).step settings eval = charge Juice.lambda >>= fun _ =>
    ofData params.vec >>= fun v => captureScope >>= fun t =>
      ofData body.cell >>= fun op => ofData (Closure.create v op t none) := rfl

/-- Once a closure is paid for and its parameters are found, the scope is captured. -/
theorem step_lambda_of_le (hjuice : Juice.lambda ≤ m.juice) {v : Vec} (hv : params.vec = .ok v) :
    (Op.lambda params body).step settings eval m = (captureScope >>= fun t => ofData body.cell >>= fun op =>
      ofData (Closure.create v op t none)) (m.withJuice (m.juice - Juice.lambda)) := by
  rw [step_lambda, bind_of_ok (charge_of_le hjuice), hv]
  rfl

/-- A closure cannot be created if the map of the scope is too large. -/
theorem failsWith_lambda (hjuice : Juice.lambda ≤ m.juice) {v : Vec} (hv : params.vec = .ok v)
    (hexceeds : maxEncoding < (scopeMap m).cell.encode.length) :
    FailsWith Code.argument ((Op.lambda params body).step settings eval m) := by
  rw [step_lambda_of_le hjuice hv]
  exact FailsWith.bind (captureScope_of_exceeds (m := m.withJuice (m.juice - Juice.lambda)) hexceeds) _

/-- Otherwise there is a closure, unless juice or data are missing. -/
theorem step_lambda_cases (settings : Settings) (eval : Cell → Eval Cell) (params body : Ref) (m : Machine) :
    (Juice.lambda ≤ m.juice ∧ (∃ v, params.vec = .ok v) ∧
        maxEncoding < (scopeMap m).cell.encode.length) ∨
      Dry ((Op.lambda params body).step settings eval m) ∨
      (∃ f after, (Op.lambda params body).step settings eval m = .error (.fault f) after) ∨
      ∃ v op f after, params.vec = .ok v ∧ body.cell = .ok op ∧
        Closure.create v op (scopeMap m) none = .ok f ∧
          (Op.lambda params body).step settings eval m = .ok f after := by
  by_cases hjuice : Juice.lambda ≤ m.juice
  · cases hparams : params.vec with
    | error e =>
      rw [step_lambda, bind_of_ok (charge_of_le hjuice), hparams]
      exact .inr (.inr (.inl ⟨_, _, rfl⟩))
    | ok v =>
      by_cases hfits : (scopeMap m).cell.encode.length ≤ maxEncoding
      · have hscope := captureScope_of_fits (m := m.withJuice (m.juice - Juice.lambda)) hfits
        rw [step_lambda_of_le hjuice hparams, bind_of_ok hscope]
        refine .inr (.inr ?_)
        -- after the scope is captured there are only faults
        cases hbody : body.cell with
        | error e => exact .inl ⟨_, _, rfl⟩
        | ok op =>
          show (∃ f after, ofData (Closure.create v op (scopeMap m) none) _ = _) ∨
            ∃ v' op' f after, _ ∧ _ ∧ _ ∧ ofData (Closure.create v op (scopeMap m) none) _ = _
          cases hcreate : Closure.create v op (scopeMap m) none with
          | error e => exact .inl ⟨_, _, rfl⟩
          | ok f => exact .inr ⟨v, op, f, _, rfl, rfl, hcreate, rfl⟩
      · exact .inl ⟨hjuice, ⟨v, rfl⟩, Nat.lt_of_not_le hfits⟩
  · have hdry : charge Juice.lambda m = .error (.signal .outOfJuice) { m with juice := 0 } :=
      if_pos (Nat.lt_of_not_le hjuice)
    rw [step_lambda, bind_of_error hdry]
    exact .inr (.inl ⟨_, rfl⟩)

end Lambda

/-! ## Naming and calling it -/

/-- The first symbol that a closure is bound to is its name. -/
theorem foldl_named (params body env : Ref) (symbols : List Name) :
    symbols.foldl named (.fn ⟨params, body, env, none⟩) = .fn ⟨params, body, env, symbols.head?⟩ := by
  have hnamed : ∀ (n : Name) (symbols : List Name),
      symbols.foldl named (.fn ⟨params, body, env, some n⟩) = .fn ⟨params, body, env, some n⟩ := by
    intro n symbols
    induction symbols with
    | nil => rfl
    | cons symbol symbols ih => exact ih
  cases symbols with
  | nil => rfl
  | cons n symbols => exact hnamed n symbols

/-- The body of a closure is evaluated in the frame that its map and its arguments make. -/
theorem callClosure_eq (settings : Settings) (eval : Cell → Eval Cell) (f op : Cell)
    (name : Option Name) {v : Vec} {names : List Name} {args : List Cell} (ht : t.MapOf b) (hb : b.Ordered)
    (hnames : Closure.requireSymbols v = .ok names) (hlen : args.length = names.length) :
    callClosure settings eval f ⟨.of v.cell, .of op, .of t.cell, name⟩ args =
      catchReturn settings name (inScope (b.frame name f (names.zip args)) (eval op)) := by
  obtain ⟨entries, hlist, hbindings⟩ := bindingsOf_mapOf ht hb
  have hparams : (Closure.mk (.of v.cell) (.of op) (.of t.cell) name).paramNames = .ok names := by
    rw [Closure.paramNames, Closure.paramVec, Ref.vec_of]
    exact hnames
  have htable : (Closure.mk (.of v.cell) (.of op) (.of t.cell) name).bindings = .ok t := by
    rw [Closure.bindings, Ref.cell_eq_ok_iff.2 (Ref.held?_of _)]
    rfl
  rw [callClosure, ofData_of_ok hparams, pure_bind, if_neg (not_not_intro hlen.symm), ofData_of_ok htable,
    pure_bind, ofData_of_ok hlist, pure_bind, hbindings, pure_bind,
    ofData_of_ok (Ref.cell_eq_ok_iff.2 (Ref.held?_of op)), pure_bind]
  rfl

/-- However a call ends, the caller has its own scope again. -/
theorem scope_catchReturn (settings : Settings) (name : Option Name) (scope : Bindings) (x : Eval Cell)
    (m : Machine) : (machineLeft (catchReturn settings name (inScope scope x) m)).scope = m.scope := by
  simp only [Eval.catchReturn, Eval.inScope]
  cases x { m with scope := scope } with
  | ok a after => rfl
  | error e after =>
    cases e with
    | fault f => rfl
    | signal s => cases s <;> rfl

/-- A symbol that is bound in the scope is looked up there. -/
theorem eval_lookup {settings : Settings} {levels : Nat} {n : Name} {v : Cell} {m : Machine}
    (hjuice : Juice.lookup ≤ m.juice) (hn : m.scope.find? n = some v) :
    (Op.ofLookup n).eval settings (levels + 1) m = .ok v { m with juice := m.juice - Juice.lookup } := by
  have hresolve : resolve n { m with juice := m.juice - Juice.lookup } =
      .ok v { m with juice := m.juice - Juice.lookup } := by
    have hread (k : Machine) : (get : Eval Machine) k = .ok k k := rfl
    rw [resolve, bind_of_ok (hread _)]
    simp only [hn]
    rfl
  show rollback (do charge Juice.lookup; resolve n) m = _
  rw [Eval.rollback, bind_of_ok (charge_of_le hjuice), hresolve]

end Eval

/-! ## From creation to call -/

open Eval

/-- A closure sees exactly what was bound where it was created. Given that this is bound in the order of the
symbols, as it is whenever symbols are bound one after another (`Bindings.Ordered.insertAll`), and that the
symbols have different hashes, there is one map `t` of these bindings, and:

* creating the closure ends in an error with the code `:ARGUMENT` exactly if it is paid for, its parameters are
  found, and the encoding of the map would be too long;
* whatever symbols the closure that is created is bound to in turn, and with whatever evaluator, on whatever
  machine it is called, a call with as many arguments as parameters evaluates the body in one scope: a symbol
  is bound to the last argument for it, or else to the closure that is called, if it is its name, or else to
  what it was bound to where the closure was created. That scope takes the place of the scope of the caller, on a
  machine that is otherwise the caller's: a value of the body there is the value of the call. However the call ends,
  the caller has its own scope again afterwards. -/
theorem Op.lambda_captures {settings : Settings} {levels : Nat} {params body : Ref} {m : Machine}
    (hscope : m.scope.Ordered) (hhash : m.scope.Distinguished) :
    ∃ t : Table, t.MapOf m.scope ∧
      (FailsWith Code.argument ((Cell.op (.lambda params body)).eval settings (levels + 1) m) ↔
        Juice.lambda ≤ m.juice ∧ (∃ v, params.vec = .ok v) ∧ maxEncoding < t.cell.encode.length) ∧
      ∀ f after, (Cell.op (.lambda params body)).eval settings (levels + 1) m = .ok f after →
        ∃ v names op, params.vec = .ok v ∧ Closure.requireSymbols v = .ok names ∧ body.cell = .ok op ∧
          ∀ (symbols : List Name) (args : List Cell), args.length = names.length →
            ∃ scope : Bindings, scope.Ordered ∧
              (∀ n, scope.find? n = (Bindings.findEntry n (names.zip args).reverse).or
                (if symbols.head? = some n then some (symbols.foldl named f) else m.scope.find? n)) ∧
              ∀ (settings' : Settings) (eval : Cell → Eval Cell),
                apply settings' eval (symbols.foldl named f) args =
                  catchReturn settings' symbols.head? (inScope scope (eval op)) ∧
                ∀ caller : Machine,
                  (∀ v after', eval op { caller with scope := scope } = .ok v after' →
                    apply settings' eval (symbols.foldl named f) args caller =
                      .ok v { after' with scope := caller.scope }) ∧
                  (machineLeft (apply settings' eval (symbols.foldl named f) args caller)).scope =
                    caller.scope := by
  have ht : (scopeMap m).MapOf m.scope := Table.mapOf_gather hscope hhash
  have hcases := step_lambda_cases settings (Cell.eval settings levels) params body m
  refine ⟨scopeMap m, ht, ?_, fun f after hf => ?_⟩
  · show FailsWith _ (rollback _ m) ↔ _
    rw [failsWith_rollback_iff]
    constructor
    · rintro ⟨s, after, hend, hs⟩
      rcases hcases with hexceeds | ⟨m', hdry⟩ | ⟨f, m', hfault⟩ | ⟨-, -, f, m', -, -, -, hok⟩
      · exact hexceeds
      · cases hend.symm.trans hdry
        exact absurd hs (by decide)
      · cases hend.symm.trans hfault
      · cases hend.symm.trans hok
    · rintro ⟨hjuice, ⟨v, hv⟩, hexceeds⟩
      exact failsWith_lambda hjuice hv hexceeds
  · have hend : rollback ((Op.lambda params body).step settings (Cell.eval settings levels)) m =
        .ok f after := hf
    rcases hcases with ⟨hjuice, ⟨v, hv⟩, hexceeds⟩ | ⟨m', hdry⟩ | ⟨e, m', hfault⟩ |
      ⟨v, op, f', m', hv, hop, hcreate, hok⟩
    · obtain ⟨s, m', hfails, -⟩ := failsWith_rollback_iff.2 (failsWith_lambda hjuice hv hexceeds)
      cases hend.symm.trans hfails
    · rw [rollback, hdry] at hend
      cases hend
    · rw [rollback, hfault] at hend
      cases hend
    · rw [rollback, hok] at hend
      cases hend
      obtain ⟨⟨⟩, -, hcreate⟩ := bind_eq_ok_iff.1 hcreate
      obtain ⟨names, hnames, hcreate⟩ := bind_eq_ok_iff.1 hcreate
      cases hcreate
      refine ⟨v, names, op, hv, hnames, hop, fun symbols args hlen => ?_⟩
      refine ⟨m.scope.frame symbols.head? _ (names.zip args), hscope.frame _ _ _,
        Bindings.find?_frame _ _ _ _, fun settings' eval => ?_⟩
      rw [foldl_named]
      have hcall := callClosure_eq settings' eval (.fn ⟨.of v.cell, .of op, .of (scopeMap m).cell, symbols.head?⟩)
        op symbols.head? ht hscope hnames hlen
      refine ⟨hcall, fun caller => ?_⟩
      show (∀ u after', _ → callClosure _ _ _ _ _ caller = _) ∧
        (machineLeft (callClosure _ _ _ _ _ caller)).scope = _
      rw [hcall]
      refine ⟨fun u after' hbody => ?_, scope_catchReturn _ _ _ _ caller⟩
      rw [Eval.catchReturn, Eval.inScope, hbody]

/-- A scope in which `a` is 1 and `b` is 2. -/
def captureTwo : Machine where
  env := .empty
  scope := ⟨[(⟨"a", by decide, by decide⟩, .long 1), (⟨"b", by decide, by decide⟩, .long 2)]⟩
  juice := 1000

/-- A closure with `b` for both of its parameters that is created there and bound to `a`, called with 3 and 4:
in its body `b` is 4, `a` is the closure, and nothing else is bound. The body looks `a` up, so that the value of the
call is the closure. -/
theorem Op.lambda_captures_two :
    let a : Name := ⟨"a", by decide, by decide⟩
    let b : Name := ⟨"b", by decide, by decide⟩
    let lambda := Cell.op (.lambda (symbolVector [b, b]) (.of (Op.ofLookup a)))
    ∃ f after scope, lambda.eval {} 1 captureTwo = .ok f after ∧
      scope.find? b = some (.long 4) ∧ scope.find? a = some (named f a) ∧
      (∀ n, n ≠ a → n ≠ b → scope.find? n = none) ∧
      apply {} (Cell.eval {} 1) (named f a) [.long 3, .long 4] =
        catchReturn {} (some a) (inScope scope ((Op.ofLookup a).eval {} 1)) ∧
      apply {} (Cell.eval {} 1) (named f a) [.long 3, .long 4] captureTwo =
        .ok (named f a) { captureTwo with juice := 985 } := by
  intro a b lambda
  have hrun : ∃ f after, lambda.eval {} 1 captureTwo = .ok f after := by
    have hok : (match lambda.eval {} 1 captureTwo with
      | .ok _ _ => true
      | .error _ _ => false) = true := by decide +kernel
    split at hok
    · next heq => exact ⟨_, _, heq⟩
    · cases hok
  obtain ⟨f, after, hf⟩ := hrun
  have hscope : captureTwo.scope.Ordered := by
    unfold Bindings.Ordered captureTwo
    decide
  have hhash : captureTwo.scope.Distinguished := by
    unfold Bindings.Distinguished captureTwo
    decide +kernel
  obtain ⟨-, -, -, hcalls⟩ := Op.lambda_captures hscope hhash
  obtain ⟨v, names, op, hv, hnames, hop, hcalls⟩ := hcalls f after hf
  cases hv
  cases hnames
  cases hop
  obtain ⟨scope, -, hfind, happly⟩ := hcalls [a] [.long 3, .long 4] rfl
  obtain ⟨hcall, hends⟩ := happly {} (Cell.eval {} 1)
  have hbody : (Op.ofLookup a).eval {} 1 { captureTwo with scope := scope } = .ok _ _ :=
    eval_lookup (by decide : Juice.lookup ≤ captureTwo.juice) (hfind a)
  refine ⟨f, after, scope, hf, hfind b, hfind a, fun n ha hb => ?_, hcall, (hends captureTwo).1 _ _ hbody⟩
  have hother : ∀ u w : Cell, Bindings.findEntry n [(a, u), (b, w)] = none := fun u w => by
    rw [Bindings.findEntry, if_neg ha.symm, Bindings.findEntry, if_neg hb.symm, Bindings.findEntry]
  have harg : ∀ u w : Cell, Bindings.findEntry n [(b, u), (b, w)] = none := fun u w => by
    rw [Bindings.findEntry, if_neg hb.symm, Bindings.findEntry, if_neg hb.symm, Bindings.findEntry]
  have hname : [a].head? ≠ some n := fun h => ha (Option.some.inj h).symm
  rw [hfind n, if_neg hname]
  show (Bindings.findEntry n [(b, _), (b, _)]).or (Bindings.findEntry n [(a, _), (b, _)]) = none
  rw [harg, hother]
  rfl

end CellMachine
