import CellMachine.Proofs.Eval.Complaints
import CellMachine.Proofs.Eval.Frames
import CellMachine.Proofs.Eval.Metering
import CellMachine.Proofs.Eval.Results
import CellMachine.Proofs.Table.Entries
import CellMachine.Proofs.Vec.Elements

/-!
# What ops yield and raise

What an op yields comes from its own parts, from what is bound, or out of a core function that is paid for. It has
few ways to end without a value: it complains, it calls a core function that ends so, or it hands on the exit of a
part, to which a line of the trace is added if the part is the body of a closure. So a property of values that is
kept by the operations on them holds of all that an op binds and yields, and a property of exits that complaints
have and that is handed on in these ways holds of the exits of an op (`Eval.Raising.step`), whatever its parts are
and however they are evaluated.

Both properties may depend on the juice that is left, which only decreases. A *budget* says which values may be
held while so much juice is left (`Budget`): the less there is, the more may be held, and a core function may use
up what its price buys. A step stays *within* a budget if it does so from every machine that the budget allows, and
ends as it should (`Eval.Within`).

Main statement: `Eval.Raising.step`.
-/

namespace CellMachine

/-! ## Budgets -/

/-- What may be held while a certain amount of juice is left. -/
structure Budget where
  /-- The amounts of juice that there may be. -/
  juice : Nat → Prop
  /-- The values that may be held. -/
  value : Nat → Cell → Prop

namespace Budget

/-- A machine with an amount of juice that there may be, and with bindings of values that may be held then. -/
structure Allows (B : Budget) (m : Machine) : Prop where
  juice : B.juice m.juice
  env : m.env.Every (B.value m.juice)
  scope : m.scope.Every (B.value m.juice)

/-- What a reference holds may be held. -/
def Reaches (B : Budget) (j : Nat) (r : Ref) : Prop := ∀ d, r.held? = some d → B.value j d

/-- A number of elements that a vector which may be held has listed. -/
def Counts (B : Budget) (j n : Nat) : Prop :=
  ∃ (v : Vec) (l : List Cell), B.value j v.cell ∧ v.toList = .ok l ∧ n ≤ l.length

/-- A budget that evaluation can stay within: what may be held may be taken apart, bound and put into closures, it
may still be held when there is less juice, and a core function makes no more of it than its price pays for. By the
time that it is called, the call has been paid already. -/
structure Sound (B : Budget) : Prop where
  lessJuice {j k : Nat} (h : B.juice j) (hk : k ≤ j) : B.juice k
  mono {j k : Nat} {c : Cell} (h : B.value j c) (hk : k ≤ j) : B.value k c
  part {j : Nat} {c d : Cell} (h : B.value j c) (hd : c.Contains d) : B.value j d
  nil (j : Nat) : B.value j .nil
  core (j : Nat) (f : CoreFn) : B.value j (.core f)
  named {j : Nat} {v : Cell} (h : B.value j v) (symbol : Name) : B.value j (Eval.named v symbol)
  table {j : Nat} {es : List (Name × Cell)} {t : Table} (hes : ∀ e ∈ es, B.value j e.2)
    (h : Table.ofList (es.map fun e => (.symbol e.1, e.2)) = .ok t) : B.value j t.cell
  closure {j : Nat} {params : Vec} {body c : Cell} {env : Table} (hparams : B.value j params.cell)
    (hbody : B.value j body) (henv : B.value j env.cell) (h : Closure.create params body env none = .ok c) :
    B.value j c
  call {j : Nat} {f : CoreFn} {args : List Cell} {c : Cell} (hj : B.juice (j + Juice.invoke))
    (hargs : ∀ a ∈ args, B.value j a) (hpaid : f.price args ≤ j) (h : f.run args = .ok c) :
    B.value (j - f.price args) c

variable {B : Budget} {j k : Nat}

namespace Sound
variable (hB : B.Sound)
include hB

/-- A scope that holds values for one amount of juice holds them for less. -/
theorem every {b : Bindings} (h : b.Every (B.value j)) (hk : k ≤ j) : b.Every (B.value k) :=
  h.imp fun _ hv => hB.mono hv hk

theorem all {cs : List Cell} (h : ∀ c ∈ cs, B.value j c) (hk : k ≤ j) : ∀ c ∈ cs, B.value k c :=
  fun c hc => hB.mono (h c hc) hk

/-- What may be counted with some juice left may be counted with less. -/
theorem counts {n : Nat} (h : B.Counts j n) (hk : k ≤ j) : B.Counts k n := by
  obtain ⟨v, l, hv, hl, hn⟩ := h
  exact ⟨v, l, hB.mono hv hk, hl, hn⟩

/-- The references of a cell that may be held. -/
theorem reaches {c : Cell} {r : Ref} (h : B.value j c) (hr : r ∈ c.refs) : B.Reaches j r :=
  fun _ hd => hB.part h (Cell.contains_of_held hr hd)

end Sound

theorem Counts.of_le {n n' : Nat} (h : B.Counts j n) (hn : n' ≤ n) : B.Counts j n' := by
  obtain ⟨v, l, hv, hl, hle⟩ := h
  exact ⟨v, l, hv, hl, Nat.le_trans hn hle⟩

/-- What reading a part gives is what the part holds. -/
theorem Reaches.cell {r : Ref} {c : Cell} (h : B.Reaches j r) (hc : r.cell = .ok c) : B.value j c :=
  h c (Ref.cell_eq_ok_iff.1 hc)

theorem Reaches.vec {r : Ref} {v : Vec} (h : B.Reaches j r) (hv : r.vec = .ok v) : B.value j v.cell :=
  h v.cell (Ref.vec_eq_ok_iff.1 hv)

end Budget

namespace Eval

variable {α β : Type} {B : Budget} {E : Nat → Exit → Prop} {Q : Nat → α → Prop} {R : Nat → β → Prop} {j : Nat}

/-! ## Steps within a budget -/

/-- An end with no more juice than `j`, on a machine that the budget allows, in a result as `Q` says of the juice
that is left, or in an exit as `E` says. -/
inductive EndsWithin (B : Budget) (E : Nat → Exit → Prop) (j : Nat) (Q : Nat → α → Prop) : End α → Prop where
  | ok {a : α} {m : Machine} (hj : m.juice ≤ j) (hm : B.Allows m) (h : Q m.juice a) :
    EndsWithin B E j Q (.ok a m)
  | error {e : Exit} {m : Machine} (hj : m.juice ≤ j) (hm : B.Allows m) (h : E m.juice e) :
    EndsWithin B E j Q (.error e m)

/-- A step that ends so from every machine with the juice `j` that the budget allows. -/
def Within (B : Budget) (E : Nat → Exit → Prop) (j : Nat) (Q : Nat → α → Prop) (x : Eval α) : Prop :=
  ∀ m, m.juice = j → B.Allows m → EndsWithin B E j Q (x m)

theorem EndsWithin.mono {j' : Nat} {r : End α} (h : EndsWithin B E j Q r) (hj : j ≤ j') :
    EndsWithin B E j' Q r := by
  cases h with
  | ok hm hallows h => exact .ok (Nat.le_trans hm hj) hallows h
  | error hm hallows h => exact .error (Nat.le_trans hm hj) hallows h

theorem within_pure {a : α} (h : Q j a) : Within B E j Q (pure a : Eval α) := by
  rintro m rfl hm
  exact .ok (Nat.le_refl _) hm h

theorem within_throw {e : Exit} (h : E j e) : Within B E j Q (throw e : Eval α) := by
  rintro m rfl hm
  exact .error (Nat.le_refl _) hm h

/-- What is worked out without the machine is judged for the juice that is left. -/
theorem within_ofExcept {r : Except Exit α} (h : Keeps (E j) (Q j) r) : Within B E j Q (ofExcept r) := by
  cases r with
  | ok a => exact within_pure h
  | error e => exact within_throw h

/-- There may be as much juice as there is. -/
theorem within_of_juice {x : Eval α} (h : B.juice j → Within B E j Q x) : Within B E j Q x := by
  rintro m rfl hm
  exact h hm.juice m rfl hm

/-- Less may be said of what is raised and of what is yielded. -/
theorem Within.imp {E' : Nat → Exit → Prop} {Q' : Nat → α → Prop} {x : Eval α} (h : Within B E j Q x)
    (hE : ∀ k e, E k e → E' k e) (hQ : ∀ k a, Q k a → Q' k a) : Within B E' j Q' x := by
  intro m hj hm
  have hends := h m hj hm
  generalize x m = r at hends ⊢
  cases hends with
  | ok hafter hallows ha => exact .ok hafter hallows (hQ _ _ ha)
  | error hafter hallows he => exact .error hafter hallows (hE _ _ he)

/-- The second of two steps goes on with the juice that the first one leaves. -/
theorem Within.bind {x : Eval α} {f : α → Eval β} (hx : Within B E j Q x)
    (hf : ∀ k, k ≤ j → ∀ a, Q k a → Within B E k R (f a)) : Within B E j R (x >>= f) := by
  intro m hj hm
  have hfirst := hx m hj hm
  cases hend : x m with
  | ok a after =>
    rw [hend] at hfirst
    rw [bind_of_ok hend]
    cases hfirst with
    | ok hafter hallows ha => exact (hf _ hafter a ha after rfl hallows).mono hafter
  | error e after =>
    rw [hend] at hfirst
    rw [bind_of_error hend]
    cases hfirst with
    | error hafter hallows he => exact .error hafter hallows he

/-- Nothing is kept of the elements: the lists that are gone through in this way are of symbols. -/
theorem within_mapM {f : β → Eval α} (hf : ∀ k b, Within B E k (fun _ _ => True) (f b)) (l : List β) :
    Within B E j (fun _ _ => True) (l.mapM f) := by
  induction l generalizing j with
  | nil => exact within_pure trivial
  | cons b l ih =>
    rw [List.mapM_cons]
    exact (hf j b).bind fun _ _ _ _ => ih.bind fun _ _ _ _ => within_pure trivial

/-- What is kept of the accumulator is kept for the juice that is left after each element. -/
theorem within_foldlM {f : α → β → Eval α} {l : List β} {a : α}
    (hf : ∀ k, k ≤ j → ∀ a, Q k a → ∀ b ∈ l, Within B E k Q (f a b)) (ha : Q j a) :
    Within B E j Q (l.foldlM f a) := by
  induction l generalizing j a with
  | nil => exact within_pure ha
  | cons b l ih =>
    rw [List.foldlM_cons]
    refine (hf j (Nat.le_refl j) a ha b List.mem_cons_self).bind fun k hk a' ha' => ih ?_ ha'
    exact fun k' hk' a'' ha'' c hc => hf k' (Nat.le_trans hk' hk) a'' ha'' c (List.mem_cons_of_mem b hc)

/-- A step that looks at the machine first. -/
theorem within_get_bind {f : Machine → Eval α}
    (h : ∀ m, m.juice = j → B.Allows m → Within B E j Q (f m)) : Within B E j Q (get >>= f) :=
  fun m hj hm => h m hj hm m hj hm

/-! ## What steps do to machines -/

section Machines
variable (hB : B.Sound)
include hB

/-- Paying for an op leaves the rest of the juice, or none. -/
theorem within_charge (hjuice : E 0 (.signal .outOfJuice)) (price : Nat) :
    Within B E j (fun k _ => k + price = j) (charge price) := by
  rintro m rfl hm
  unfold Eval.charge
  by_cases hlt : m.juice < price
  · rw [if_pos hlt]
    have hle := Nat.zero_le m.juice
    exact .error hle ⟨hB.lessJuice hm.juice hle, hB.every hm.env hle, hB.every hm.scope hle⟩ hjuice
  · rw [if_neg hlt]
    have hle := Nat.sub_le m.juice price
    exact .ok hle ⟨hB.lessJuice hm.juice hle, hB.every hm.env hle, hB.every hm.scope hle⟩
      (Nat.sub_add_cancel (Nat.le_of_not_lt hlt))

omit hB in
/-- A definition spends nothing and must be a value for the juice that is left. -/
theorem within_define (symbol : Name) {v : Cell} (hv : B.value j v) :
    Within B E j (fun k _ => k = j) (define symbol v) := by
  rintro m rfl hm
  exact .ok (Nat.le_refl _) ⟨hm.juice, hm.env.insert symbol hv, hm.scope⟩ rfl

omit hB in
theorem within_declare (symbol : Name) {v : Cell} (hv : B.value j v) :
    Within B E j (fun k _ => k = j) (declare symbol v) := by
  rintro m rfl hm
  exact .ok (Nat.le_refl _) ⟨hm.juice, hm.env, hm.scope.insert symbol hv⟩ rfl

/-- The scope that comes back may be held with less juice, too. -/
theorem Within.inScope {x : Eval α} (hx : Within B E j Q x) {scope : Bindings}
    (hscope : scope.Every (B.value j)) : Within B E j Q (inScope scope x) := by
  rintro m rfl hm
  have hends := hx { m with scope := scope } rfl ⟨hm.juice, hm.env, hscope⟩
  simp only [Eval.inScope]
  generalize x { m with scope := scope } = r at hends ⊢
  cases hends with
  | ok hafter hallows ha =>
    exact .ok hafter ⟨hallows.juice, hallows.env, hB.every hm.scope hafter⟩ ha
  | error hafter hallows he =>
    exact .error hafter ⟨hallows.juice, hallows.env, hB.every hm.scope hafter⟩ he

/-- The scope that is saved is one that the budget allows already. -/
theorem Within.enclosed {x : Eval α} (hx : Within B E j Q x) : Within B E j Q (enclosed x) := by
  rintro m rfl hm
  exact hx.inScope hB hm.scope m rfl hm

/-- Giving definitions back keeps the budget: the old ones are values for the juice that is left,
since they were for more. -/
theorem Within.rollback {x : Eval α} (hx : Within B E j Q x) : Within B E j Q (rollback x) := by
  rintro m rfl hm
  have hends := hx m rfl hm
  simp only [Eval.rollback]
  generalize x m = r at hends ⊢
  cases hends with
  | ok hafter hallows ha => exact .ok hafter hallows ha
  | @error e after hafter hallows he =>
    cases e with
    | fault f => exact .error hafter hallows he
    | signal s =>
      by_cases herror : s.isError = true
      · simp only [if_pos herror]
        exact .error hafter ⟨hallows.juice, hB.every hm.env hafter, hallows.scope⟩ he
      · simp only [if_neg herror]
        exact .error hafter hallows he

end Machines

/-! ## What evaluation raises by itself -/

/-- A property of exits that all of those have which do not come from a part, among values that may be held. -/
structure Lenient (B : Budget) (E : Nat → Exit → Prop) : Prop where
  sound : B.Sound
  fault (j : Nat) (f : Fault) : E j (.fault f)
  outOfJuice (j : Nat) : E j (.signal .outOfJuice)
  undeclared (j : Nat) (symbol : Name) : E j (Complaint.undeclared symbol).exit
  scopeLimit (j : Nat) {entries : List (Cell × Cell)} {n : Nat}
    (h : Table.ofList entries = .error (.violation (.mapSize n maxEncoding))) : E j (Complaint.scopeLimit n).exit
  parameters {j n : Nat} {c : Closure} {params : List Name} (hc : B.value j (.fn c))
    (hparams : c.paramNames = .ok params) (hn : B.Counts j n) : E j (Complaint.parameters params.length n).exit
  notFunction {j : Nat} {v : Cell} (h : B.value j v) : E j (Complaint.notFunction v).exit
  call {j : Nat} {f : CoreFn} {args : List Cell} {e : Exit} (hargs : ∀ c ∈ args, B.value j c)
    (hlen : B.Counts j args.length) (h : f.Ends args e) : E j e

namespace Lenient
variable (h : Lenient B E)
include h

/-- Faults are never complaints, so any may be raised. -/
theorem within_fault (f : Fault) : Within B E j Q (Eval.fault f : Eval α) := within_throw (h.fault j f)

theorem within_charge (price : Nat) : Within B E j (fun k _ => k + price = j) (charge price) :=
  Eval.within_charge h.sound (h.outOfJuice 0) price

/-- Reading data costs nothing, so that what may be held can go on being held. -/
theorem ofData_bind {r : Except DataError α} {f : α → Eval β} (hf : ∀ a, r = .ok a → Within B E j R (f a)) :
    Within B E j R (ofData r >>= f) := by
  cases r with
  | ok a => exact hf a rfl
  | error e => exact h.within_fault _

/-- Reading a part of a cell raises a fault or yields what the part holds. -/
theorem within_ofData {r : Except DataError α} (hr : ∀ a, r = .ok a → Q j a) : Within B E j Q (ofData r) := by
  cases r with
  | ok a => exact within_pure (hr a rfl)
  | error e => exact h.within_fault _

/-- Reading the ops of a vector makes their number one that may be counted. -/
theorem opList_bind {r : Ref} (hr : B.Reaches j r) {f : List Cell → Eval β}
    (hf : ∀ ops, (∀ op ∈ ops, B.value j op) → B.Counts j ops.length → Within B E j R (f ops)) :
    Within B E j R (opList r >>= f) := by
  unfold opList
  rw [bind_assoc]
  refine h.ofData_bind fun v hv => h.ofData_bind fun ops hops => ?_
  have hvec := hr.vec hv
  exact hf ops (fun op hop => h.sound.part hvec (Vec.contains_of_toList hops hop))
    ⟨v, ops, hvec, hops, Nat.le_refl _⟩

theorem within_symbolList {r : Ref} (hr : B.Reaches j r) :
    Within B E j (fun _ _ => True) (symbolList r) := by
  refine h.opList_bind hr fun cells _ _ => within_mapM (fun _ c => ?_) cells
  cases c with
  | symbol name => exact within_pure trivial
  | _ => exact h.within_fault _

/-- A symbol that is bound nowhere is the one thing a lookup complains about. -/
theorem within_resolve (symbol : Name) : Within B E j B.value (resolve symbol) := by
  refine within_get_bind fun m hj hm => ?_
  subst hj
  cases hscope : m.scope.find? symbol with
  | some v => exact within_pure (hm.scope.find? hscope)
  | none =>
    cases henv : m.env.find? symbol with
    | some v => exact within_pure (hm.env.find? henv)
    | none =>
      cases CoreFn.ofName? symbol.val with
      | some f => exact within_pure (h.sound.core _ f)
      | none => exact within_throw (h.undeclared _ symbol)

/-- The only limit that the map of the scope can exceed is that of its encoding. -/
theorem within_captureScope : Within B E j (fun k t => B.value k t.cell) captureScope := by
  refine within_get_bind fun m hj hm => ?_
  subst hj
  cases hmap : Table.ofList (m.scope.entries.map fun e => (.symbol e.1, e.2)) with
  | ok t => exact within_pure (h.sound.table hm.scope hmap)
  | error e =>
    obtain ⟨n, rfl⟩ := Table.exists_of_ofList_eq_error hmap
    exact within_throw (h.scopeLimit _ hmap)

/-- Bindings made from a map bind symbols to its values. -/
theorem within_bindingsOf {entries : List (Cell × Cell)} (hentries : ∀ e ∈ entries, B.value j e.2) :
    Within B E j (fun k b => b.Every (B.value k)) (bindingsOf entries) := by
  refine within_foldlM (fun k hk b hb e he => ?_) Bindings.every_empty
  obtain ⟨key, value⟩ := e
  have hvalue : B.value k value := h.sound.mono (hentries _ he) hk
  cases key with
  | symbol name => exact within_pure (hb.insert name hvalue)
  | _ => exact h.within_fault _

/-- A call is paid before it is made. -/
theorem within_callCore (hj : B.juice (j + Juice.invoke)) (f : CoreFn) {args : List Cell}
    (hargs : ∀ c ∈ args, B.value j c) (hlen : B.Counts j args.length) : Within B E j B.value (callCore f args) := by
  refine (h.within_charge _).bind fun k hk _ hpaid => within_ofExcept ?_
  cases hrun : f.run args with
  | ok c =>
    have hvalue := h.sound.call hj hargs (Nat.le.intro ((Nat.add_comm _ _).trans hpaid)) hrun
    rwa [← hpaid, Nat.add_sub_cancel] at hvalue
  | error e => exact h.call (h.sound.all hargs hk) (h.sound.counts hlen hk) (CoreFn.ends_of_run hrun)

end Lenient

/-! ## Ops, given what their parts yield and raise -/

/-- What parts raise, and what an op raises in turn. -/
structure Raising (B : Budget) (eval : Cell → Eval Cell) (E E' : Nat → Exit → Prop) : Prop where
  parts {j : Nat} {c : Cell} (hc : B.value j c) : Within B E j B.value (eval c)
  lenient : Lenient B E'
  pass {j : Nat} {e : Exit} (h : E j e) : E' j e
  leaving {j : Nat} {f : Failure} (h : E j (.signal (.error f))) (name : Option Name) :
    E' j (.signal (.error { f with trace := f.trace ++ [traceLine name] }))
  left {j : Nat} {v : Cell} (h : E j (.signal (.leave v))) : B.value j v

namespace Raising
variable {settings : Settings} {eval : Cell → Eval Cell} {E' : Nat → Exit → Prop} (h : Raising B eval E E')
include h

theorem sound : B.Sound := h.lenient.sound

/-- A part raises what it may raise by itself, and that passes through. -/
theorem part {c : Cell} (hc : B.value j c) : Within B E' j B.value (eval c) :=
  (h.parts hc).imp (fun _ _ => h.pass) fun _ _ hv => hv

/-- The values before the last are forgotten, and the ops left over are values for less juice too.
-/
theorem runAll {last : Cell} (hlast : B.value j last) {ops : List Cell} (hops : ∀ op ∈ ops, B.value j op) :
    Within B E' j B.value (runAll eval last ops) := by
  induction ops generalizing j last with
  | nil => exact within_pure hlast
  | cons op ops ih =>
    obtain ⟨hop, hops⟩ := List.forall_mem_cons.1 hops
    exact (h.part hop).bind fun k hk v hv => ih hv (h.sound.all hops hk)

/-- There are as many results as ops. -/
theorem runEach {ops : List Cell} (hops : ∀ op ∈ ops, B.value j op) :
    Within B E' j (fun k vs => (∀ v ∈ vs, B.value k v) ∧ vs.length = ops.length) (runEach eval ops) := by
  induction ops generalizing j with
  | nil => exact within_pure ⟨fun _ hv => (List.not_mem_nil hv).elim, rfl⟩
  | cons op ops ih =>
    obtain ⟨hop, hops⟩ := List.forall_mem_cons.1 hops
    refine (h.part hop).bind fun k hk v hv => (ih (h.sound.all hops hk)).bind fun k' hk' vs hvs => ?_
    exact within_pure ⟨List.forall_mem_cons.2 ⟨h.sound.mono hv hk', hvs.1⟩, congrArg Nat.succ hvs.2⟩

/-- A value that is bound is a value for the ops behind it, which have less juice. -/
theorem runBind (symbols : List Name) {ops : List Cell} (hops : ∀ op ∈ ops, B.value j op) :
    Within B E' j B.value (runBind eval symbols ops) := by
  induction symbols generalizing j ops with
  | nil => exact h.runAll (h.sound.nil j) hops
  | cons symbol symbols ih =>
    cases ops with
    | nil => exact h.runAll (h.sound.nil j) hops
    | cons op ops =>
      obtain ⟨hop, hops⟩ := List.forall_mem_cons.1 hops
      refine (h.part hop).bind fun k hk v hv => ?_
      refine (within_declare symbol (h.sound.named hv symbol)).bind fun k' hk' _ _ => ?_
      exact ih (h.sound.all hops (Nat.le_trans hk' hk))

/-- Whichever branch is taken runs with what the test left. -/
theorem runChoose {j : Nat} {ops : List Cell} (hops : ∀ op ∈ ops, B.value j op) :
    Within B E' j B.value (runChoose eval ops) := by
  -- tests and branches come in pairs, so the recursion takes two ops at a time
  match ops, hops with
  | [], _ => exact within_pure (h.sound.nil j)
  | [default], hops => exact h.part (hops default List.mem_cons_self)
  | test :: branch :: rest, hops =>
    obtain ⟨htest, hops⟩ := List.forall_mem_cons.1 hops
    obtain ⟨hbranch, hrest⟩ := List.forall_mem_cons.1 hops
    refine (h.part htest).bind fun k hk v _ => ?_
    by_cases hv : v.isTruthy = true
    · rw [if_pos hv]
      exact h.part (h.sound.mono hbranch hk)
    · rw [if_neg hv]
      exact runChoose (h.sound.all hrest hk)

/-- The body of a closure is the one part whose errors gain a line, unless traces are not recorded. The value that
it is left with is the value of the call. -/
theorem catchReturn {x : Eval Cell} (hx : Within B E j B.value x) (name : Option Name) :
    Within B E' j B.value (catchReturn settings name x) := by
  rintro m rfl hm
  have hends := hx m rfl hm
  simp only [Eval.catchReturn]
  generalize x m = r at hends ⊢
  cases hends with
  | ok hafter hallows hv => exact .ok hafter hallows hv
  | @error e after hafter hallows he =>
    cases e with
    | fault f => exact .error hafter hallows (h.pass he)
    | signal s =>
      cases s with
      -- a value that leaves the body is the value of the call
      | leave v => exact .ok hafter hallows (h.left he)
      | outOfJuice | halt v => exact .error hafter hallows (h.pass he)
      | error f =>
        refine .error hafter hallows ?_
        by_cases hrecord : settings.recordTrace = true
        · rw [if_pos hrecord]
          exact h.leaving he name
        · rw [if_neg hrecord]
          exact h.pass he

/-- A call complains about the number of its arguments, and otherwise raises what its body raises,
with its name added. -/
theorem callClosure {c : Closure} (hc : B.value j (.fn c)) {args : List Cell} (hargs : ∀ a ∈ args, B.value j a)
    (hlen : B.Counts j args.length) : Within B E' j B.value (callClosure settings eval (.fn c) c args) := by
  have hl := h.lenient
  refine hl.ofData_bind fun params hparams => ?_
  by_cases hne : params.length ≠ args.length
  · rw [if_pos hne]
    exact within_throw (hl.parameters hc hparams hlen)
  · rw [if_neg hne]
    refine hl.ofData_bind fun table htable => hl.ofData_bind fun entries hentries => ?_
    have htable := h.sound.part hc (Table.contains_of_bindings htable)
    -- what was captured is inside the closure
    have hentries : ∀ e ∈ entries, B.value j e.2 := fun e he =>
      h.sound.part htable (Table.contains_of_toList hentries e he)
    refine (hl.within_bindingsOf hentries).bind fun k hk captured hcaptured => ?_
    refine hl.ofData_bind fun body hbody => ?_
    have hclosure := h.sound.mono hc hk
    have hbody : B.value k body :=
      (h.sound.reaches hclosure (List.mem_cons_of_mem _ List.mem_cons_self)).cell hbody
    -- the names are bound to the arguments, which were worked out with more juice left
    have hzip : ∀ e ∈ params.zip args, B.value k e.2 := fun e he =>
      h.sound.mono (hargs e.2 (List.of_mem_zip he).2) hk
    exact h.catchReturn ((h.parts hbody).inScope h.sound (hcaptured.frame c.name hclosure hzip)) c.name

/-- The number of arguments may be counted, since they were elements of a vector in an op. -/
theorem apply (hj : B.juice (j + Juice.invoke)) {f : Cell} (hf : B.value j f) {args : List Cell}
    (hargs : ∀ c ∈ args, B.value j c) (hlen : B.Counts j args.length) :
    Within B E' j B.value (apply settings eval f args) := by
  cases f with
  | core g => exact h.lenient.within_callCore hj g hargs hlen
  | fn c => exact h.callClosure hf hargs hlen
  | _ => exact within_throw (h.lenient.notFunction hf)

/-- An op that may be held stays within the budget, and complains, hands on the exit of a part, or ends as a core
function does. -/
theorem step {o : Op} (ho : B.value j (.op o)) : Within B E' j B.value (o.step settings eval) := by
  have hl := h.lenient
  -- what the references of an op hold may be held whatever the op has spent
  have hpart {k : Nat} (hk : k ≤ j) {r : Ref} (hr : r ∈ o.refs) : B.Reaches k r :=
    h.sound.reaches (h.sound.mono ho hk) hr
  cases o with
  | constant value =>
    refine (hl.within_charge _).bind fun k hk _ _ => ?_
    exact hl.within_ofData fun v hv => (hpart hk List.mem_cons_self).cell hv
  | lookup symbol => exact (hl.within_charge _).bind fun _ _ _ _ => hl.within_resolve symbol
  | sequence ops =>
    refine (hl.within_charge _).bind fun k hk _ _ => ?_
    exact hl.opList_bind (hpart hk List.mem_cons_self) fun cells hcells _ => h.runAll (h.sound.nil k) hcells
  | define symbol value =>
    refine (hl.within_charge _).bind fun k hk _ _ => ?_
    refine hl.ofData_bind fun op hop => ?_
    refine (h.part ((hpart hk List.mem_cons_self).cell hop)).bind fun k' _ v hv => ?_
    have hnamed := h.sound.named hv symbol
    refine (within_define symbol hnamed).bind fun k'' hk'' _ _ => ?_
    exact within_pure (h.sound.mono hnamed hk'')
  | bind symbols ops =>
    refine (hl.within_charge _).bind fun k hk _ _ => ?_
    refine (hl.within_symbolList (hpart hk List.mem_cons_self)).bind fun k' hk' names _ => ?_
    have hops := hpart (Nat.le_trans hk' hk) (List.mem_cons_of_mem symbols List.mem_cons_self)
    refine hl.opList_bind hops fun cells hcells _ => ?_
    by_cases hlen : cells.length < names.length
    · rw [if_pos hlen]
      exact hl.within_fault _
    · rw [if_neg hlen]
      exact (h.runBind names hcells).enclosed h.sound
  | choose ops =>
    refine (hl.within_charge _).bind fun k hk _ _ => ?_
    exact hl.opList_bind (hpart hk List.mem_cons_self) fun cells hcells _ => h.runChoose hcells
  | invoke ops =>
    refine within_of_juice fun hj => (hl.within_charge _).bind fun k hk _ hpaid => ?_
    refine hl.opList_bind (hpart hk List.mem_cons_self) fun cells hcells hcount => ?_
    cases cells with
    | nil => exact hl.within_fault _
    | cons function args =>
      obtain ⟨hfunction, hargs⟩ := List.forall_mem_cons.1 hcells
      refine (h.part hfunction).bind fun k' hk' f hf => ?_
      refine (h.runEach (h.sound.all hargs hk')).bind fun k'' hk'' values hvalues => ?_
      have hlater := Nat.le_trans hk'' hk'
      -- the price of the invocation is still missing from the juice
      have hjuice := h.sound.lessJuice hj (Nat.le_trans (Nat.add_le_add_right hlater _) (Nat.le_of_eq hpaid))
      have hlen : B.Counts k'' values.length :=
        (h.sound.counts hcount hlater).of_le (Nat.le_trans (Nat.le_of_eq hvalues.2) (Nat.le_succ _))
      exact h.apply hjuice (h.sound.mono hf hk'') hvalues.1 hlen
  | lambda params body =>
    refine (hl.within_charge _).bind fun k hk _ _ => ?_
    refine hl.ofData_bind fun names hnames => ?_
    refine hl.within_captureScope.bind fun k' hk' captured hcaptured => ?_
    refine hl.ofData_bind fun op hop => ?_
    have hlater := Nat.le_trans hk' hk
    exact hl.within_ofData fun c hc => h.sound.closure ((hpart hlater List.mem_cons_self).vec hnames)
      ((hpart hlater (List.mem_cons_of_mem params List.mem_cons_self)).cell hop) hcaptured hc

end Raising

end Eval

end CellMachine
