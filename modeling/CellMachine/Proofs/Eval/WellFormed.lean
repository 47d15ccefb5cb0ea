import CellMachine.Proofs.Eval.InStep

/-!
# Programs do not fail

A *program* is a well-formed op. What the constructors of ops accept of well-formed cells is a
program, and a program can only end in the ways that are its own business: with a value, or with a
signal. This is progress and preservation in one: evaluation runs in step with itself
(`Context.run_twin`), well-formed cells are their own twins, and the steps in which twins are refused
are not taken by well-formed ones.

* `Op.program_of_ofSequence` and its siblings are about the constructors.
* `Context.execute_program` is about executions.
-/

namespace CellMachine

/-- A well-formed op. -/
structure Cell.Program (c : Cell) : Prop where
  wellFormed : c.WellFormed
  isOp : c.isOp = true

/-! ## Constructors make programs -/

/-- A cell is well-formed if it is proper itself and holds well-formed cells. -/
theorem Cell.wellFormed_of_refs {c : Cell} (hvalid : ∃ w, c.Valid w) (hproper : c.Proper)
    (h : ∀ r ∈ c.refs, ∃ d, r.held? = some d ∧ d.WellFormed) : c.WellFormed := by
  refine fit_true_iff.1 (fit_of_refs hvalid (fun _ => hproper) fun r hr => ?_)
  obtain ⟨d, hd, hwell⟩ := h r hr
  exact ⟨d, hd, fit_true_iff.2 hwell⟩

/-- A vector of well-formed cells is well-formed. -/
theorem Vec.wellFormed_of {xs : List Cell} (h : ∀ x ∈ xs, x.WellFormed) :
    (Vec.of xs).cell.WellFormed :=
  Cell.fit_true_iff.1 ((lists_of fun x hx => (h x hx).intact).fit fun x hx =>
    Cell.fit_true_iff.2 (h x hx))

theorem Ref.leadsTo_of {xs : List Cell} (h : ∀ x ∈ xs, x.WellFormed) :
    (Ref.of (Vec.of xs).cell).LeadsTo xs :=
  Vec.leadsTo_of (Vec.lists_of fun x hx => (h x hx).intact).toList

theorem opVector_eq_ok {ops : List Cell} {r : Ref} (h : opVector ops = .ok r) :
    (∀ o ∈ ops, o.isOp = true) ∧ r = .of (Vec.of ops).cell := by
  obtain ⟨⟨⟩, hops, h⟩ := bind_eq_ok_iff.1 h
  cases h
  exact ⟨fun o ho => Cell.requireOp_eq_ok (forM_eq_ok_iff.1 hops o ho), rfl⟩

theorem wellFormed_symbol (n : Name) : (Cell.symbol n).WellFormed :=
  Cell.fit_true_iff.1 (Cell.twin_symbol n).left

theorem wellFormed_symbols (symbols : List Name) :
    ∀ x ∈ symbols.map Cell.symbol, x.WellFormed :=
  List.forall_mem_map.2 fun n _ => wellFormed_symbol n

theorem isSymbol_symbols (symbols : List Name) : ∀ x ∈ symbols.map Cell.symbol, x.IsSymbol :=
  List.forall_mem_map.2 fun n _ => ⟨n, rfl⟩

theorem leadsTo_symbolVector (symbols : List Name) :
    (symbolVector symbols).LeadsTo (symbols.map .symbol) :=
  Ref.leadsTo_of (wellFormed_symbols symbols)

theorem exists_held_symbolVector (symbols : List Name) :
    ∃ d, (symbolVector symbols).held? = some d ∧ d.WellFormed :=
  ⟨_, Ref.held?_of _, Vec.wellFormed_of (wellFormed_symbols symbols)⟩

namespace Op
variable {c op : Cell} {ops : List Cell}

theorem program_ofConstant {value : Cell} (h : value.WellFormed) : (ofConstant value).Program := by
  obtain ⟨w, hvalid⟩ := h.intact.valid
  refine ⟨Cell.wellFormed_of_refs ⟨w, valid_ofConstant hvalid⟩ trivial ?_, rfl⟩
  exact List.forall_mem_singleton.2 ⟨value, Ref.held?_of value, h⟩

theorem program_ofLookup (symbol : Name) : (ofLookup symbol).Program :=
  ⟨Cell.wellFormed_of_refs ⟨0, Cell.valid_of_no_refs rfl trivial rfl⟩ trivial fun _ hr =>
    absurd hr List.not_mem_nil, rfl⟩

theorem program_of_ofDefinition {symbol : Name} (hop : op.WellFormed)
    (h : ofDefinition symbol op = .ok c) : c.Program := by
  obtain ⟨w, hvalid⟩ := hop.intact.valid
  have hvalid := valid_of_ofDefinition hvalid h
  obtain ⟨⟨⟩, hkind, h⟩ := bind_eq_ok_iff.1 h
  cases h
  have hheld := Ref.held?_of op
  refine ⟨Cell.wellFormed_of_refs ⟨w, hvalid⟩ ⟨op, hheld, Cell.requireOp_eq_ok hkind⟩ ?_, rfl⟩
  exact List.forall_mem_singleton.2 ⟨op, hheld, hop⟩

/-- The three ops that hold nothing but a vector of ops. -/
theorem program_of_vectorOp {f : Ref → Op} (hrefs : ∀ r, (f r).refs = [r])
    (hcheck : ∀ r, (f r).check = r.requireKind "vector of ops" Cell.isVector)
    (hproper : ∀ r, r.LeadsTo ops → (∀ o ∈ ops, o.isOp = true) → (f r).Proper)
    (hops : ∀ o ∈ ops, o.WellFormed) (h : (do .ok (.op (f (← opVector ops)))) = Except.ok c) :
    c.Program := by
  obtain ⟨w, hw⟩ := Cell.exists_valid fun o ho => (hops o ho).intact
  have hvalid := valid_of_vectorOp hrefs hcheck hw h
  obtain ⟨r, hr, h⟩ := bind_eq_ok_iff.1 h
  cases h
  obtain ⟨hkinds, rfl⟩ := opVector_eq_ok hr
  refine ⟨Cell.wellFormed_of_refs ⟨_, hvalid⟩ (hproper _ (Ref.leadsTo_of hops) hkinds) ?_, rfl⟩
  show ∀ r ∈ (f _).refs, _
  rw [hrefs]
  exact List.forall_mem_singleton.2 ⟨_, Ref.held?_of _, Vec.wellFormed_of hops⟩

theorem program_of_ofSequence (hops : ∀ o ∈ ops, o.WellFormed) (h : ofSequence ops = .ok c) :
    c.Program :=
  program_of_vectorOp (f := .sequence) (fun _ => rfl) (fun _ => rfl)
    (fun _ hr hkinds => ⟨ops, hr, hkinds⟩) hops h

theorem program_of_ofChoice (hops : ∀ o ∈ ops, o.WellFormed) (h : ofChoice ops = .ok c) :
    c.Program :=
  program_of_vectorOp (f := .choose) (fun _ => rfl) (fun _ => rfl)
    (fun _ hr hkinds => ⟨ops, hr, hkinds⟩) hops h

theorem program_of_ofInvocation (hops : ∀ o ∈ ops, o.WellFormed) (h : ofInvocation ops = .ok c) :
    c.Program := by
  unfold ofInvocation at h
  split at h
  · cases h
  · next hne =>
    -- the constructor refuses the empty list, which is what proper invocations lack too
    have hnil : ops ≠ [] := fun hnil => hne (List.isEmpty_iff.2 hnil)
    exact program_of_vectorOp (f := .invoke) (fun _ => rfl) (fun _ => rfl)
      (fun _ hr hkinds => ⟨ops, hr, hnil, hkinds⟩) hops h

theorem program_of_ofBind {symbols : List Name} (hops : ∀ o ∈ ops, o.WellFormed)
    (h : ofBind symbols ops = .ok c) : c.Program := by
  obtain ⟨w, hw⟩ := Cell.exists_valid fun o ho => (hops o ho).intact
  have hvalid := valid_of_ofBind hw h
  unfold ofBind at h
  split at h
  · cases h
  · next hmany =>
    obtain ⟨r, hr, h⟩ := bind_eq_ok_iff.1 h
    cases h
    obtain ⟨hkinds, rfl⟩ := opVector_eq_ok hr
    -- the constructor has counted the symbols against the ops
    have hlen : (symbols.map Cell.symbol).length ≤ ops.length := by
      rw [List.length_map]
      omega
    refine ⟨Cell.wellFormed_of_refs ⟨_, hvalid⟩ ⟨symbols.map .symbol, ops,
      leadsTo_symbolVector symbols, Ref.leadsTo_of hops, hlen, isSymbol_symbols symbols, hkinds⟩ ?_,
      rfl⟩
    exact List.forall_mem_cons.2 ⟨exists_held_symbolVector symbols,
      List.forall_mem_singleton.2 ⟨_, Ref.held?_of _, Vec.wellFormed_of hops⟩⟩

/-- A closure expression has symbols for parameters and an op for its body. -/
theorem program_of_ofLambda {params : List Name} {body : Cell} (hbody : body.WellFormed)
    (h : ofLambda params body = .ok c) : c.Program := by
  obtain ⟨w, hvalid⟩ := hbody.intact.valid
  have hvalid := valid_of_ofLambda hvalid h
  obtain ⟨⟨⟩, hop, h⟩ := bind_eq_ok_iff.1 h
  cases h
  have hsymbols : (symbolVector params).HoldsSymbols :=
    ⟨_, leadsTo_symbolVector params, isSymbol_symbols params⟩
  have hholds : (Ref.of body).HoldsOp := ⟨body, Ref.held?_of body, Cell.requireOp_eq_ok hop⟩
  refine ⟨Cell.wellFormed_of_refs ⟨_, hvalid⟩ ⟨hsymbols, hholds⟩ ?_, rfl⟩
  exact List.forall_mem_cons.2 ⟨exists_held_symbolVector params,
    List.forall_mem_singleton.2 ⟨body, Ref.held?_of body, hbody⟩⟩

end Op

/-! ## Executing programs -/

/-- The value that a signal carries. -/
def Signal.payload? : Signal → Option Cell
  | error f => some f.message
  | outOfJuice => none
  | halt v | leave v => some v

/-- The value of an outcome, or the one that its signal carries. -/
def Outcome.payload? : Outcome → Option Cell
  | value v => some v
  | exceptional s => s.payload?

/-- The payload of an outcome that has a twin is fit. -/
theorem Outcome.Twin.fit_left {strict : Prop} {o o' : Outcome} (h : o.Twin strict o') {v : Cell}
    (hv : o.payload? = some v) : v.Fit strict := by
  cases h with
  | outOfJuice => cases hv
  | value htwin | error _ _ htwin =>
    cases hv
    exact htwin.left

namespace Context

/-- The constructors accept the parts of this program one after another. -/
theorem program_addToDefined : addToDefined.Program := by
  have hlookup : ∀ n, (Op.ofLookup n).WellFormed := fun n => (Op.program_ofLookup n).wellFormed
  have hconstant : ∀ n, (Op.ofConstant (.long n)).WellFormed := fun n =>
    (Op.program_ofConstant (Cell.fit_true_iff.1 (Cell.twin_long n).left)).wellFormed
  have hsum := Op.program_of_ofInvocation (List.forall_mem_cons.2
    ⟨hlookup ⟨"+", by decide, by decide⟩, List.forall_mem_cons.2
      ⟨hlookup ⟨"x", by decide, by decide⟩, List.forall_mem_singleton.2
        (hlookup ⟨"y", by decide, by decide⟩)⟩⟩) rfl
  have hlambda := @Op.program_of_ofLambda _ [⟨"y", by decide, by decide⟩] _ hsum.wellFormed rfl
  have hcall := Op.program_of_ofInvocation (List.forall_mem_cons.2
    ⟨hlambda.wellFormed, List.forall_mem_singleton.2 (hconstant 2)⟩) rfl
  have hdefinition := @Op.program_of_ofDefinition _ _ ⟨"x", by decide, by decide⟩ (hconstant 1) rfl
  exact Op.program_of_ofSequence (List.forall_mem_cons.2
    ⟨hdefinition.wellFormed, List.forall_mem_singleton.2 hcall.wellFormed⟩) rfl

/-- Executing a program among well-formed definitions never fails with a fault. Whatever value the
outcome carries is well-formed then, be it the result or what a signal carries, and so are all
definitions that the execution leaves. -/
theorem execute_program {c : Context} {s : Store} {op : Cell} (hop : op.Program)
    (henv : c.env.All Cell.WellFormed) : ∃ after, c.execute s op = .ok after ∧
      (∀ v, after.outcome.payload? = some v → v.WellFormed) ∧ after.env.All Cell.WellFormed := by
  have hfit : op.Fit True := Cell.fit_true_iff.2 hop.wellFormed
  have hself : c.Twin True c := twin_self fun n v hv => Cell.fit_true_iff.2 (henv n v hv)
  have hrun := run_twin hself ⟨fun _ => hop.isOp, hfit.twin_self⟩
  have hload : op.load s = .ok op := Cell.loadWith_of_loaded _ hop.wellFormed.intact.loaded
  rw [execute_of_load hload]
  generalize c.run op = r at hrun
  cases hrun with
  | error h => exact absurd trivial h.2
  | @ok after _ h =>
    obtain ⟨hafter, houtcome⟩ := h
    exact ⟨after, rfl, fun v hv => Cell.fit_true_iff.1 (houtcome.fit_left hv),
      fun n v hv => Cell.fit_true_iff.1 (hafter.env.all_left n v hv)⟩

/-- A program that defines a value, makes a closure and calls it does not fail. -/
theorem execute_program_addToDefined : addToDefined.Program ∧
    (start {}).env.All Cell.WellFormed ∧
      ∃ after, (start {}).execute .empty addToDefined = .ok after ∧
        (∀ v, after.outcome.payload? = some v → v.WellFormed) ∧
          after.env.All Cell.WellFormed := by
  have henv : (start {}).env.All Cell.WellFormed := fun n v hv => by cases hv
  exact ⟨program_addToDefined, henv, execute_program program_addToDefined henv⟩

end Context

end CellMachine
