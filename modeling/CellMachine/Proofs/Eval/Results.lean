import CellMachine.Proofs.Eval.Complaints
import CellMachine.Proofs.Outcome

/-!
# What core functions yield

Core functions have no choice about what they yield. It is a value without parts, a vector of arguments, or an
element of one; or a complaint, a fault of the data, or the signal to halt or to leave with an argument, and only
`fail` raises an error with an argument (`CoreFn.Ends`). What a call complains of is the number of its arguments or
one of them (`CoreFn.Complains`). Vectors get longer by the elements that the price of the call is for
(`CoreFn.added`). So what is true of values without parts and is kept by the operations on vectors is true of the
value of a call if it is true of its arguments, even if it depends on the number of elements that have been added.

A result *keeps* two such properties, one of exits and one of what else is yielded, if it has the one that it
should have (`Keeps`). A call that can be paid comes to its result whatever the machine (`CoreFn.returns_iff`,
`CoreFn.raises_iff`).

Main statement: `CoreFn.Regular.keeps_run`.
-/

namespace CellMachine

/-- A result as `Q` says, or an exit as `E` says. -/
def Keeps (E : Exit → Prop) {α : Type} (Q : α → Prop) : Except Exit α → Prop
  | .ok a => Q a
  | .error e => E e

section Results
variable {E : Exit → Prop} {α β : Type} {Q : α → Prop} {R : β → Prop}

theorem Keeps.imp {E' : Exit → Prop} {Q' : α → Prop} {r : Except Exit α} (h : Keeps E Q r)
    (hE : ∀ e, E e → E' e) (hQ : ∀ a, Q a → Q' a) : Keeps E' Q' r := by
  cases r with
  | ok a => exact hQ a h
  | error e => exact hE e h

/-- What a step promises of its result is what the next step may use. -/
theorem Keeps.bind {r : Except Exit α} {f : α → Except Exit β} (hr : Keeps E Q r)
    (hf : ∀ a, Q a → Keeps E R (f a)) : Keeps E R (r >>= f) := by
  cases r with
  | ok a => exact hf a hr
  | error e => exact hr

/-- A list of results is as long as the list they come from. -/
theorem keeps_mapM {f : α → Except Exit β} {l : List α} (hf : ∀ a ∈ l, Keeps E (fun _ => True) (f a)) :
    Keeps E (fun bs => bs.length = l.length) (l.mapM f) := by
  induction l with
  | nil => exact rfl
  | cons a l ih =>
    obtain ⟨ha, hl⟩ := List.forall_mem_cons.1 hf
    rw [List.mapM_cons]
    refine ha.bind fun b _ => (ih hl).bind fun bs hbs => ?_
    exact congrArg Nat.succ hbs

end Results

namespace CoreFn

/-- Either all members of a list have a property, or there is a first one that has not. -/
theorem all_or_first {α : Type} (P : α → Prop) (as : List α) : (∀ a ∈ as, P a) ∨
    ∃ before a rest, as = before ++ a :: rest ∧ (∀ b ∈ before, P b) ∧ ¬ P a := by
  induction as with
  | nil => exact .inl fun _ h => nomatch h
  | cons a as ih =>
    by_cases ha : P a
    · obtain hall | ⟨before, b, rest, rfl, hbefore, hb⟩ := ih
      · exact .inl (List.forall_mem_cons.2 ⟨ha, hall⟩)
      · exact .inr ⟨a :: before, b, rest, rfl, List.forall_mem_cons.2 ⟨ha, hbefore⟩, hb⟩
    · exact .inr ⟨[], a, as, rfl, fun _ h => (List.not_mem_nil h).elim, ha⟩

/-! ## How calls end -/

/-- What a call can complain of: the number of its arguments, an argument of the wrong kind, a position outside of
an argument, for which `nil` stands in for the empty vector, or the encoding of an argument. -/
inductive Complains (f : CoreFn) (args : List Cell) : Complaint → Prop where
  | arity (expected : String) (known : expected ∈ arities) : Complains f args (.arity f expected known args.length)
  | cast {arg : Cell} (h : arg ∈ args) : Complains f args (.cast f arg)
  | bounds {v : Vec} (h : v = .empty ∨ v.cell ∈ args) (i : Int64) : Complains f args (.bounds i v.count)
  | blobLimit {arg : Cell} (h : arg ∈ args) : Complains f args (.blobLimit f arg.encode.length)

/-- The exits of a call. A signal that carries a value carries an argument, or `nil` if there is none. -/
inductive Ends (f : CoreFn) (args : List Cell) : Exit → Prop where
  | complaint {p : Complaint} (h : f.Complains args p) : Ends f args p.exit
  | data (e : DataError) : Ends f args (.fault (.data e))
  | fail (hf : f = .fail) (code : Name) {message : Cell} (h : message = .nil ∨ message ∈ args) :
    Ends f args (.signal (.ofValue code message))
  | halt {v : Cell} (h : v = .nil ∨ v ∈ args) : Ends f args (.signal (.halt v))
  | leave {v : Cell} (h : v = .nil ∨ v ∈ args) : Ends f args (.signal (.leave v))

section Ends
variable {f : CoreFn} {args : List Cell}

/-- An argument of the wrong kind is complained about by its description. -/
theorem ends_cast {arg : Cell} (h : arg ∈ args) : f.Ends args (f.castError arg) := .complaint (.cast h)

/-- A wrong number of arguments is complained about with the number that is wanted. -/
theorem ends_arity (expected : String) (known : expected ∈ arities) :
    f.Ends args (f.arityError expected args.length) :=
  .complaint (.arity expected known)

/-- Data that cannot be read ends in a fault or in a complaint about its size. -/
theorem keeps_access {α : Type} {Q : α → Prop} {r : Except DataError α} (hr : ∀ a, r = .ok a → Q a) :
    Keeps (f.Ends args) Q (access r) := by
  cases r with
  | ok a => exact hr a rfl
  | error e => exact .data e

theorem keeps_longs : Keeps (f.Ends args) (fun ns => ns.length = args.length) (f.longs args) := by
  refine keeps_mapM fun c hc => ?_
  cases c with
  | long i => trivial
  | _ => exact ends_cast hc

theorem keeps_only : Keeps (f.Ends args) (fun x => x ∈ args) (f.only args) := by
  match args with
  | [x] => exact List.mem_cons_self
  | [] => exact ends_arity "1" (by decide)
  | _ :: _ :: _ => exact ends_arity "1" (by decide)

theorem keeps_both : Keeps (f.Ends args) (fun p => p.1 ∈ args ∧ p.2 ∈ args) (f.both args) := by
  match args with
  | [x, y] => exact ⟨List.mem_cons_self, List.mem_cons_of_mem x List.mem_cons_self⟩
  | [] => exact ends_arity "2" (by decide)
  | [_] => exact ends_arity "2" (by decide)
  | _ :: _ :: _ :: _ => exact ends_arity "2" (by decide)

theorem keeps_optional : Keeps (f.Ends args) (fun x => x = .nil ∨ x ∈ args) (f.optional args) := by
  match args with
  | [] => exact .inl rfl
  | [x] => exact .inr List.mem_cons_self
  | _ :: _ :: _ => exact ends_arity "0 or 1" (by decide)

/-- Where a vector is wanted it comes from an argument, and has the elements that the argument is charged for. -/
theorem keeps_sequence {c : Cell} (hc : c ∈ args) :
    Keeps (f.Ends args) (fun v => (v = .empty ∨ v.cell = c) ∧ v.count = elementCount c) (f.sequence c) := by
  cases c with
  | nil => exact ⟨.inl rfl, rfl⟩
  | vector v => exact ⟨.inr rfl, rfl⟩
  | _ => exact ends_cast hc

/-- There is no value that `fail` yields. -/
theorem keeps_runFail {Q : Cell → Prop} (hf : f = .fail) : Keeps (f.Ends args) Q (f.runFail args) := by
  match args with
  | [] => exact .fail hf _ (.inl rfl)
  | [message] => exact .fail hf _ (.inr List.mem_cons_self)
  | [code, message] =>
    cases code with
    | keyword name => exact .fail hf name (.inr (List.mem_cons_of_mem _ List.mem_cons_self))
    | _ => exact ends_cast List.mem_cons_self
  | _ :: _ :: _ :: _ => exact ends_arity "0 to 2" (by decide)

end Ends

/-! ## What calls keep -/

/-- The elements that a call adds to vectors, beyond those of its first argument. -/
def added (f : CoreFn) (args : List Cell) : Nat :=
  match f with
  | vector => args.length
  | conj => args.length - 1
  | concat => total ((args.drop 1).map elementCount)
  | _ => 0

/-- The values that core functions make out of nothing. -/
inductive Plain : Cell → Prop where
  | nil : Plain .nil
  | bool (b : Bool) : Plain (.bool b)
  | long (n : Int64) : Plain (.long n)
  | blob (b : Blob) : Plain (.blob b)
  | empty : Plain Vec.empty.cell

/-- Properties of values that core functions keep, where `T w` may depend on a number `w` of elements that have been
added to vectors. A copy of a vector adds none. -/
structure Regular (T : Nat → Cell → Prop) : Prop where
  mono {w w' : Nat} {c : Cell} (h : T w c) (hw : w ≤ w') : T w' c
  plain {c : Cell} (h : Plain c) (w : Nat) : T w c
  vector {w : Nat} {items : List Cell} (h : ∀ c ∈ items, T w c) : T (w + items.length) (Vec.of items).cell
  push {w : Nat} {v u : Vec} {c : Cell} (hv : T w v.cell) (hc : T w c) (h : v.push c = .ok u) : T (w + 1) u.cell
  copy {w : Nat} {v u : Vec} (hv : T w v.cell) (h : Vec.empty.append v = .ok u) : T w u.cell
  append {w : Nat} {v t u : Vec} (hv : T w v.cell) (ht : T w t.cell) (h : v.append t = .ok u) :
    T (w + t.count) u.cell
  element {w : Nat} {v : Vec} {i : Nat} {c : Cell} (hv : T w v.cell) (h : v.get i = .ok c) : T w c

namespace Regular
variable {f : CoreFn} {T : Nat → Cell → Prop} (h : Regular T) {w : Nat} {args : List Cell}
include h

/-- A vector that comes from an argument has what the argument has. -/
theorem vec {v : Vec} {c : Cell} (hc : T w c) (hv : v = .empty ∨ v.cell = c) : T w v.cell := by
  obtain rfl | rfl := hv
  · exact h.plain .empty w
  · exact hc

/-- Bytes that do not fit in a blob are complained about by their number. -/
theorem keeps_bytesCell {bs : Bytes} (hbs : maxPayloadSize < bs.length → f.Complains args (.blobLimit f bs.length)) :
    Keeps (f.Ends args) (T w) (f.bytesCell bs) := by
  unfold bytesCell Blob.ofBytes
  cases hblob : Blob.ofBytes? bs with
  | some b => exact h.plain (.blob b) w
  | none =>
    refine .complaint (hbs (Nat.lt_of_not_le fun hfits => ?_))
    unfold Blob.ofBytes? at hblob
    rw [dif_pos hfits] at hblob
    cases hblob

/-- The first number is subtracted from, so there must be one. -/
theorem keeps_runSub : Keeps (f.Ends args) (T w) (f.runSub args) := by
  refine keeps_longs.bind fun ns hns => ?_
  match ns, hns with
  | [], hns =>
    rw [List.length_nil] at hns
    show f.Ends args (f.arityError "at least 1" 0)
    rw [hns]
    exact ends_arity _ (by decide)
  | [i], _ => exact h.plain (.long _) w
  | i :: j :: rest, _ => exact h.plain (.long _) w

/-- Whatever is counted, the result is a number. -/
theorem keeps_runCount : Keeps (f.Ends args) (T w) (f.runCount args) := by
  refine keeps_only.bind fun c hc => ?_
  cases c with
  | nil | vector | text | blob | map => exact h.plain (.long _) w
  | _ => exact ends_cast hc

/-- Every element that is pushed adds one. -/
theorem of_foldlM_push {v u : Vec} {items : List Cell} (hv : T w v.cell) (hitems : ∀ c ∈ items, T w c)
    (hu : items.foldlM Vec.push v = .ok u) : T (w + items.length) u.cell := by
  induction items generalizing v w with
  | nil =>
    cases hu
    exact hv
  | cons c items ih =>
    obtain ⟨hc, hitems⟩ := List.forall_mem_cons.1 hitems
    rw [List.foldlM_cons, bind_eq_ok_iff] at hu
    obtain ⟨t, ht, hu⟩ := hu
    have hrest := ih (h.push hv hc ht) (fun c hc => h.mono (hitems c hc) (Nat.le_add_right w 1)) hu
    rwa [Nat.add_assoc, Nat.add_comm 1] at hrest

section Args
variable (hargs : ∀ c ∈ args, T w c)
include hargs

/-- An element is taken out of the sequence, if the index is in range. -/
theorem keeps_runNth : Keeps (f.Ends args) (T w) (f.runNth args) := by
  refine keeps_both.bind fun (coll, index) hboth => ?_
  refine (keeps_sequence hboth.1).bind fun v hv => ?_
  have hvec := h.vec (hargs coll hboth.1) hv.1
  cases index with
  | long i =>
    by_cases hi : i.toInt < 0 ∨ (v.count : Int) ≤ i.toInt
    -- the complaint names the number of elements, so it must say where the vector comes from
    · simp only [if_pos hi]
      refine .complaint (p := .bounds i v.count) (.bounds (hv.1.imp_right fun heq => ?_) i)
      rw [heq]
      exact hboth.1
    · simp only [if_neg hi]
      exact keeps_access fun c hc => h.element hvec hc
  | _ => exact ends_cast hboth.2

theorem keeps_runConj : Keeps (f.Ends args) (T (w + (args.length - 1))) (f.runConj args) := by
  cases args with
  | nil => exact ends_arity "at least 1" (by decide)
  | cons coll items =>
    obtain ⟨hcoll, hitems⟩ := List.forall_mem_cons.1 hargs
    refine (keeps_sequence List.mem_cons_self).bind fun v hv => ?_
    have hpushed : Keeps (f.Ends (coll :: items)) (fun u => T (w + items.length) u.cell)
        (access (items.foldlM Vec.push v)) :=
      keeps_access fun u hu => h.of_foldlM_push (h.vec hcoll hv.1) hitems hu
    exact hpushed.bind fun u hu => hu

/-- Each further vector adds its elements. -/
theorem keeps_foldlM_append {rest : List Cell} (hrest : ∀ c ∈ rest, c ∈ args) {w' : Nat} (hw : w ≤ w') {v : Vec}
    (hv : T w' v.cell) :
    Keeps (f.Ends args) (fun u => T (w' + total (rest.map elementCount)) u.cell)
      (rest.foldlM (fun acc x => do
        let t ← f.sequence x
        access (acc.append t)) v) := by
  induction rest generalizing v w' with
  | nil => exact hv
  | cons c rest ih =>
    obtain ⟨hc, hrest⟩ := List.forall_mem_cons.1 hrest
    have hstep : Keeps (f.Ends args) (fun u : Vec => T (w' + elementCount c) u.cell)
        (f.sequence c >>= fun t => access (v.append t)) := by
      refine (keeps_sequence hc).bind fun t ht => keeps_access fun u hu => ?_
      rw [← ht.2]
      exact h.append hv (h.mono (h.vec (hargs c hc) ht.1) hw) hu
    rw [List.foldlM_cons]
    refine hstep.bind fun u hu => ?_
    have hafter := ih hrest (Nat.le_trans hw (Nat.le_add_right w' _)) hu
    rwa [Nat.add_assoc] at hafter

/-- Every vector but the first adds its elements. -/
theorem keeps_runConcat :
    Keeps (f.Ends args) (T (w + total ((args.drop 1).map elementCount))) (f.runConcat args) := by
  unfold runConcat
  cases args with
  | nil => exact h.plain .empty _
  | cons c rest =>
    rw [List.foldlM_cons]
    -- the elements of the first vector are only copied
    have hfirst : Keeps (f.Ends (c :: rest)) (fun u : Vec => T w u.cell)
        (f.sequence c >>= fun t => access (Vec.empty.append t)) := by
      refine (keeps_sequence List.mem_cons_self).bind fun t ht => keeps_access fun u hu => ?_
      exact h.copy (h.vec (hargs c List.mem_cons_self) ht.1) hu
    have hall := hfirst.bind fun u hu =>
      h.keeps_foldlM_append hargs (fun _ => List.mem_cons_of_mem c) (Nat.le_refl w) hu
    exact hall.bind fun u hu => hu

/-- A call ends in a value that has what its arguments have, or as calls end. -/
theorem keeps_run : Keeps (f.Ends args) (T (w + f.added args)) (f.run args) := by
  cases f with
  | add | mul => exact keeps_longs.bind fun _ _ => h.plain (.long _) w
  | lt | gt => exact keeps_longs.bind fun _ _ => h.plain (.bool _) w
  | sub => exact h.keeps_runSub
  | eq => exact h.plain (.bool _) w
  | vector => exact h.vector hargs
  | not => exact keeps_only.bind fun _ _ => h.plain (.bool _) w
  | count => exact h.keeps_runCount
  | nth => exact h.keeps_runNth hargs
  | conj => exact h.keeps_runConj hargs
  | concat => exact h.keeps_runConcat hargs
  | fail => exact keeps_runFail rfl
  | halt => exact keeps_optional.bind fun _ hv => .halt hv
  | «return» => exact keeps_optional.bind fun _ hv => .leave hv
  | hash =>
    refine keeps_only.bind fun c _ => h.keeps_bytesCell fun hlong => ?_
    -- a hash is never too long for a byte string
    rw [c.hash.size_eq] at hlong
    exact absurd hlong (by decide)
  | encoding => exact keeps_only.bind fun _ hc => h.keeps_bytesCell fun _ => .blobLimit hc

end Args

end Regular

/-- A call that ends in an exit ends as calls do. -/
theorem ends_of_run {f : CoreFn} {args : List Cell} {e : Exit} (h : f.run args = .error e) : f.Ends args e := by
  have hregular : Regular fun _ _ => True := ⟨fun _ _ => trivial, fun _ _ => trivial, fun _ => trivial,
    fun _ _ _ => trivial, fun _ _ => trivial, fun _ _ _ => trivial, fun _ _ => trivial⟩
  have hkeeps := hregular.keeps_run (w := 0) (f := f) fun c (_ : c ∈ args) => trivial
  rw [h] at hkeeps
  exact hkeeps

/-! ## Calls that can be paid -/

/-- A call yields a value, whatever the machine, if the machine can pay its price, which is taken. -/
def Returns (f : CoreFn) (args : List Cell) (c : Cell) : Prop :=
  ∀ m : Machine, f.price args ≤ m.juice →
    Eval.callCore f args m = .ok c { m with juice := m.juice - f.price args }

/-- A call ends in an exit, whatever the machine, if the machine can pay its price, which is taken. -/
def Raises (f : CoreFn) (args : List Cell) (e : Exit) : Prop :=
  ∀ m : Machine, f.price args ≤ m.juice →
    Eval.callCore f args m = .error e { m with juice := m.juice - f.price args }

section Paid
variable {f : CoreFn} {args : List Cell}

/-- A call that can be paid is charged and then run. -/
theorem callCore_of_le {m : Machine} (h : f.price args ≤ m.juice) :
    Eval.callCore f args m = Eval.ofExcept (f.run args) { m with juice := m.juice - f.price args } :=
  Eval.bind_of_ok (Eval.charge_of_le h)

/-- What a call returns does not depend on the machine, so it is settled by one run. -/
theorem returns_iff {c : Cell} : f.Returns args c ↔ f.run args = .ok c := by
  constructor
  · intro h
    -- any machine that can pay will do; this one has exactly the price
    have hcall := h ⟨.empty, .empty, f.price args⟩ (Nat.le_refl _)
    rw [callCore_of_le (Nat.le_refl _)] at hcall
    cases hrun : f.run args with
    | ok d =>
      rw [hrun] at hcall
      cases hcall
      rfl
    | error e =>
      rw [hrun] at hcall
      cases hcall
  · intro h m hm
    rw [callCore_of_le hm, h]
    rfl

theorem raises_iff {e : Exit} : f.Raises args e ↔ f.run args = .error e := by
  constructor
  · intro h
    have hcall := h ⟨.empty, .empty, f.price args⟩ (Nat.le_refl _)
    rw [callCore_of_le (Nat.le_refl _)] at hcall
    cases hrun : f.run args with
    | ok d =>
      rw [hrun] at hcall
      cases hcall
    | error e' =>
      rw [hrun] at hcall
      cases hcall
      rfl
  · intro h m hm
    rw [callCore_of_le hm, h]
    rfl

end Paid

end CoreFn

end CellMachine
