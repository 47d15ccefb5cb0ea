import CellMachine.Proofs.Eval.Tracing
import CellMachine.Proofs.Vec.Listing
import CellMachine.Result

/-!
# Results report executions

A query fails only if its execution fails, and with the same fault: none of the requirements on a result
can be violated by the outcome of an execution. Its id is a long or absent, the code of an error is a
keyword, there is a trace only beside a code, and the record gets the four fields that it wants.

A trace is stated line by line. A line that does not fit a string would be left out, but every line of an
error is that of a closure, and fits (`ExecutionResult.states_traceVec`). There are no more lines than ops
may nest.

Main statement: `query_reports`.
-/

namespace CellMachine

/-! ## Outcomes of executions -/

/-- The outcomes that executions have if ops nest at most `limit` deep: a value, an error that has left at
most as many closures, or a lack of juice. -/
inductive Outcome.Possible (limit : Nat) : Outcome → Prop where
  | value (v : Cell) : Outcome.Possible limit (.value v)
  | error {f : Failure} (h : (Exit.signal (.error f)).Traced limit) :
    Outcome.Possible limit (.exceptional (.error f))
  | outOfJuice : Outcome.Possible limit (.exceptional .outOfJuice)

namespace Context

variable {c after : Context} {op : Cell}

theorem possible_of_run (h : c.run op = .ok after) : after.outcome.Possible c.settings.maxDepth := by
  have htraced := Eval.traced_eval c.settings c.settings.maxDepth op
  unfold run at h
  cases hend : op.eval c.settings c.settings.maxDepth c.machine with
  | ok v m =>
    rw [hend] at h
    cases h
    exact .value v
  | error e m =>
    rw [hend] at h
    cases e with
    | fault f => cases h
    | signal s =>
      cases s with
      | error f =>
        cases h
        exact .error (htraced.exit hend)
      | outOfJuice =>
        cases h
        exact .outOfJuice
      -- halting and leaving outside of any call both give a value
      | halt v | leave v =>
        cases h
        exact .value v

theorem possible_of_execute {s : Store} (h : c.execute s op = .ok after) :
    after.outcome.Possible c.settings.maxDepth := by
  unfold execute at h
  split at h
  · exact possible_of_run h
  · cases h

end Context

/-! ## Traces -/

/-- The line of a closure fits a string. -/
theorem Eval.fits_traceLine (name : Option Name) :
    (traceLine name).utf8ByteSize ≤ maxPayloadSize := by
  unfold traceLine
  cases name with
  | none => decide
  | some n =>
    have hprefix : "In function: ".utf8ByteSize = 13 := by decide
    have hname := n.fits
    simp only [String.utf8ByteSize_append, hprefix, maxNameSize, maxPayloadSize] at *
    omega

/-- No line of a closure is left out. -/
theorem map_val_filterMap {lines : List String}
    (h : ∀ line ∈ lines, ∃ name, line = Eval.traceLine name) :
    (lines.filterMap Text.ofString?).map Text.val = lines := by
  induction lines with
  | nil => rfl
  | cons line lines ih =>
    obtain ⟨⟨name, rfl⟩, hlines⟩ := List.forall_mem_cons.1 h
    have hfits : Text.ofString? (Eval.traceLine name) = some ⟨_, Eval.fits_traceLine name⟩ :=
      dif_pos (Eval.fits_traceLine name)
    rw [List.filterMap_cons_some hfits, List.map_cons, ih hlines]

namespace ExecutionResult

/-- A trace that states every line in order as a string; without lines there is no trace. -/
def States : Option Vec → List String → Prop
  | none, lines => lines = []
  | some v, lines => lines ≠ [] ∧
    ∃ texts : List Text, v.toList = .ok (texts.map Cell.text) ∧ texts.map Text.val = lines

theorem states_traceVec {lines : List String}
    (h : ∀ line ∈ lines, ∃ name, line = Eval.traceLine name) : States (traceVec lines) lines := by
  cases lines with
  | nil => rfl
  | cons line lines =>
    exact ⟨List.cons_ne_nil line lines, _, Vec.toList_of _, map_val_filterMap h⟩

/-! ## Results -/

/-- What the fields of a result are for an outcome: the value, the code and the trace. -/
inductive Fields (limit : Nat) : Outcome → Cell → Option Name → Option Vec → Prop where
  /-- A value stands alone. -/
  | value (v : Cell) : Fields limit (.value v) v none none
  /-- The value beside the code of an error is its message. -/
  | error {f : Failure} {trace : Option Vec} (states : States trace f.trace)
    (short : f.trace.length ≤ limit) :
    Fields limit (.exceptional (.error f)) f.message (some f.code) trace
  | outOfJuice : Fields limit (.exceptional .outOfJuice) .nil (some Code.juice) none

/-- A result which says of an outcome what there is to say, in its record as well. -/
structure Reports (r : ExecutionResult) (id : Option Int64) (limit : Nat) (c : Context) : Prop where
  givenId : r.id = id
  isError : r.isError = c.isExceptional
  fields : Fields limit c.outcome r.value r.errorCode r.trace
  recordId : r.record.get 0 = .ok ((id.map Cell.long).getD .nil)
  recordValue : r.record.get 1 = .ok r.value
  recordCode : r.record.get 2 = .ok ((r.errorCode.map Cell.keyword).getD .nil)
  recordTrace : r.record.get 3 = .ok ((r.trace.map Vec.cell).getD .nil)

theorem idOf_getD (id : Option Int64) : idOf ((id.map Cell.long).getD .nil) = .ok id := by
  cases id <;> rfl

/-- With a trace only beside a code, the id is all that is left to be refused. -/
theorem create_eq (id value : Cell) {code : Option Name} {trace : Option Vec}
    (h : trace.isSome = true → code.isSome = true) :
    create id value code trace = (idOf id).map fun n =>
      ⟨⟨.result, [id, value, (code.map Cell.keyword).getD .nil, (trace.map Vec.cell).getD .nil].map Ref.of⟩,
        n, value, code, trace⟩ := by
  have hcode : ¬ (trace.isSome && code.isNone) = true := by
    rw [Bool.and_eq_true, Option.isNone_iff_eq_none]
    rintro ⟨htrace, rfl⟩
    cases h htrace
  unfold create
  cases idOf id with
  | error e => rfl
  | ok n =>
    rw [ok_bind, if_neg hcode]
    rfl

/-- Fields of the kinds that an execution yields make a result. -/
theorem exists_create (id : Option Int64) (value : Cell) {code : Option Name} {trace : Option Vec}
    (h : trace.isSome = true → code.isSome = true) :
    ∃ r, create ((id.map Cell.long).getD .nil) value code trace = .ok r ∧ r.id = id ∧
      r.value = value ∧ r.errorCode = code ∧ r.trace = trace ∧
      r.record = ⟨.result, [(id.map Cell.long).getD .nil, value,
        (code.map Cell.keyword).getD .nil, (trace.map Vec.cell).getD .nil].map Ref.of⟩ := by
  refine ⟨⟨⟨.result, _⟩, id, value, code, trace⟩, ?_, rfl, rfl, rfl, rfl, rfl⟩
  rw [create_eq _ value h, idOf_getD]
  rfl

/-- A result that is made of the fields for an outcome reports it. -/
theorem exists_reports (id : Option Int64) {limit : Nat} {c : Context} {value : Cell}
    {code : Option Name} {trace : Option Vec} (hfields : Fields limit c.outcome value code trace)
    (hcode : code.isSome = c.isExceptional) (htrace : trace.isSome = true → code.isSome = true) :
    ∃ r, create ((id.map Cell.long).getD .nil) value code trace = .ok r ∧ r.Reports id limit c := by
  obtain ⟨r, hr, hid, rfl, rfl, rfl, hrecord⟩ := exists_create id value htrace
  refine ⟨r, hr, hid, hcode, hfields, ?_, ?_, ?_, ?_⟩
  all_goals
    rw [hrecord]
    exact Ref.cell_of _

/-- The outcome of an execution can be reported. -/
theorem reports_ofContext (id : Option Int64) {limit : Nat} {c : Context}
    (h : c.outcome.Possible limit) :
    ∃ r, ofContext ((id.map Cell.long).getD .nil) c = .ok r ∧ r.Reports id limit c := by
  obtain ⟨settings, env, juice, outcome⟩ := c
  cases h with
  | value v => exact exists_reports id (.value v) rfl fun h => h
  | error htraced =>
    exact exists_reports id (.error (states_traceVec htraced.2) htraced.1) rfl fun _ => rfl
  | outOfJuice => exact exists_reports id .outOfJuice rfl fun _ => rfl

end ExecutionResult

/-- Queries answer, and the answer reports the execution. Whatever the op, the id, the settings and the
store, a query fails if and only if executing the op in a fresh context fails, with the same fault.
Otherwise its result has the given id and is an error exactly if the outcome is exceptional; a value is
reported as it is, an error with its code, its message and every line of its trace in order, of which there
are no more than ops may nest, and a lack of juice with its code and `nil`. -/
theorem query_reports (op : Cell) (id : Option Int64) (settings : Settings) (s : Store) :
    (∀ e, query op id settings s = .error e ↔
      (Context.start settings).execute s op = .error e) ∧
    ∀ c, (Context.start settings).execute s op = .ok c →
      ∃ r, query op id settings s = .ok r ∧ r.Reports id settings.maxDepth c := by
  -- a context that ran to its end always has a report
  have hanswer : ∀ c, (Context.start settings).execute s op = .ok c →
      ∃ r, query op id settings s = .ok r ∧ r.Reports id settings.maxDepth c := by
    intro c hc
    obtain ⟨r, hr, hreports⟩ := ExecutionResult.reports_ofContext id (Context.possible_of_execute hc)
    refine ⟨r, ?_, hreports⟩
    rw [query, hc]
    exact hr
  refine ⟨fun e => ?_, hanswer⟩
  cases h : (Context.start settings).execute s op with
  | error f =>
    have hquery : query op id settings s = .error f := by
      rw [query, h]
      rfl
    rw [hquery, Except.error.injEq, Except.error.injEq]
  | ok c =>
    obtain ⟨r, hr, -⟩ := hanswer c h
    rw [hr]
    constructor
    · intro hquery
      cases hquery
    · intro hexecute
      cases hexecute

/-- A program in which a closure without a name calls `inner`, which looks up a symbol that is bound to
nothing. -/
def failInside : Cell :=
  let inner : Name := ⟨"inner", by decide, by decide⟩
  let nowhere : Name := ⟨"nowhere", by decide, by decide⟩
  let ops (cells : List Cell) : Ref := .of (Vec.of cells).cell
  let closure (body : Cell) : Cell := .op (.lambda (symbolVector []) (.of body))
  let call (f : Cell) : Cell := .op (.invoke (ops [f]))
  .op (.sequence (ops [.op (.define inner (.of (closure (Op.ofLookup nowhere)))),
    call (closure (call (Op.ofLookup inner)))]))

/-- The result names the two closures that the error has left, innermost first. -/
theorem query_reports_failInside : ∃ r v, ∃ texts : List Text,
    query failInside (some 7) {} .empty = .ok r ∧ r.id = some 7 ∧ r.isError = true ∧
      r.errorCode = some Code.undeclared ∧ r.trace = some v ∧
      v.toList = .ok (texts.map Cell.text) ∧
      texts.map Text.val = ["In function: inner", "In function: <anonymous>"] := by
  obtain ⟨c, f, hc, hout, hcode, htrace⟩ : ∃ c f,
      (Context.start {}).execute .empty failInside = .ok c ∧
        c.outcome = .exceptional (.error f) ∧ f.code = Code.undeclared ∧
        f.trace = ["In function: inner", "In function: <anonymous>"] :=
    ⟨_, _, rfl, rfl, rfl, rfl⟩
  obtain ⟨r, hr, hreports⟩ := (query_reports failInside (some 7) {} .empty).2 c hc
  have herror : r.isError = true := by
    rw [hreports.isError, Context.isExceptional, Context.value?, hout]
    rfl
  have hfields := hreports.fields
  rw [hout] at hfields
  obtain ⟨record, id, value, code, trace⟩ := r
  cases hfields with
  | error hstates =>
    cases trace with
    | none =>
      rw [ExecutionResult.States, htrace] at hstates
      cases hstates
    | some v =>
      obtain ⟨-, texts, hlist, hval⟩ := hstates
      exact ⟨_, v, texts, hr, hreports.givenId, herror, congrArg some hcode, rfl, hlist,
        hval.trans htrace⟩

end CellMachine
