import CellMachine.Eval.Core
import CellMachine.Proofs.Eval.Twins

/-!
# Core functions on twins

A core function sees of its arguments their kinds and payloads, their counts, their hashes and
encodings, and their descriptions when it refuses them. All of this is the same for twins, so a call
costs the same and ends in the same way: with twins, or with an exit that carries twins. It never ends
in a fault, since nothing is missing from its arguments.

Main statements: `CoreFn.price_eq` and `CoreFn.run_twin`.
-/

namespace CellMachine

variable {strict : Prop}

/-- Signals of the same kind that carry twins. -/
inductive Signal.Twin (strict : Prop) : Signal → Signal → Prop where
  | error {f g : Failure} (code : g.code = f.code) (trace : g.trace = f.trace)
    (message : f.message.Twin strict g.message) : Signal.Twin strict (.error f) (.error g)
  | outOfJuice : Signal.Twin strict .outOfJuice .outOfJuice
  | halt {v w : Cell} (h : v.Twin strict w) : Signal.Twin strict (.halt v) (.halt w)
  | leave {v w : Cell} (h : v.Twin strict w) : Signal.Twin strict (.leave v) (.leave w)

/-- Exits that cannot be told apart; there are no faults where programs are well-formed. -/
inductive Exit.Twin (strict : Prop) : Exit → Exit → Prop where
  | signal {s t : Signal} (h : s.Twin strict t) : Exit.Twin strict (.signal s) (.signal t)
  | fault (f : Fault) (h : ¬ strict) : Exit.Twin strict (.fault f) (.fault f)

theorem Signal.twin_ofText (code : Name) (message : String) :
    (Signal.ofText code message).Twin strict (.ofText code message) :=
  .error rfl rfl (Cell.twin_text _)

theorem Signal.twin_ofValue (code : Name) {v w : Cell} (h : v.Twin strict w) :
    (Signal.ofValue code v).Twin strict (.ofValue code w) :=
  .error rfl rfl h

theorem Exit.twin_ofText (code : Name) (message : String) :
    (Exit.signal (.ofText code message)).Twin strict (.signal (.ofText code message)) :=
  .signal (Signal.twin_ofText code message)

/-- A function that does not tell twins apart yields the same on lists of twins. -/
theorem map_eq_of_twins {β : Type} {g : Cell → β} (hg : ∀ c d, Cell.Twin strict c d → g d = g c)
    {cs ds : List Cell} (h : List.Forall₂ (Cell.Twin strict) cs ds) : ds.map g = cs.map g := by
  induction h with
  | nil => rfl
  | cons hcd _ ih => rw [List.map_cons, List.map_cons, hg _ _ hcd, ih]

namespace CoreFn

variable (f : CoreFn) {args args' : List Cell}

/-! ## Prices -/

/-- Elements are counted from the count of a vector, and twins have the same one. -/
theorem elementCount_eq {c d : Cell} (h : c.Twin strict d) : elementCount d = elementCount c := by
  cases h.alike with
  | @vector v u _ => exact Vec.count_eq_of_twin h
  | _ => rfl

/-- A call with twins for arguments costs the same. -/
theorem price_eq (h : List.Forall₂ (Cell.Twin strict) args args') : f.price args' = f.price args := by
  have hlength : args'.length = args.length := h.length_eq.symm
  have hcounts := map_eq_of_twins (fun _ _ hcd => elementCount_eq hcd) (List.forall₂_drop 1 h)
  have hbytes := map_eq_of_twins (g := fun c => c.encode.length)
    (fun c d hcd => by rw [hcd.same.encode_eq]) h
  cases f <;> simp only [price, hlength, hcounts, hbytes]

/-! ## Arguments -/

/-- Results of two calls that cannot be told apart. -/
abbrev Results (strict : Prop) {α : Type} (Q : α → α → Prop) :
    Except Exit α → Except Exit α → Prop :=
  Paired (Exit.Twin strict) Q

/-- The description in the message is the same, so twins are refused in the same words. -/
theorem castError_twin {c d : Cell} (h : c.Twin strict d) :
    (f.castError c).Twin strict (f.castError d) := by
  rw [castError, castError, h.same.describe_eq]
  exact Exit.twin_ofText _ _

/-- How many arguments there are is all that the message says of them. -/
theorem arityError_twin (expected : String) {n m : Nat} (h : n = m) :
    (f.arityError expected n).Twin strict (f.arityError expected m) := by
  subst h
  exact Exit.twin_ofText _ _

theorem only_twin (h : List.Forall₂ (Cell.Twin strict) args args') :
    Results strict (Cell.Twin strict) (f.only args) (f.only args') := by
  -- the message names the number of arguments, which is the same on both sides
  have hlength := h.length_eq
  cases h with
  | nil => exact .error (f.arityError_twin "1" hlength)
  | cons hx h =>
    cases h with
    | nil => exact .ok hx
    | cons hy h => exact .error (f.arityError_twin "1" hlength)

theorem both_twin (h : List.Forall₂ (Cell.Twin strict) args args') :
    Results strict (fun p q => Cell.Twin strict p.1 q.1 ∧ Cell.Twin strict p.2 q.2) (f.both args)
      (f.both args') := by
  have hlength := h.length_eq
  cases h with
  | nil => exact .error (f.arityError_twin "2" hlength)
  | cons hx h =>
    cases h with
    | nil => exact .error (f.arityError_twin "2" hlength)
    | cons hy h =>
      cases h with
      | nil => exact .ok ⟨hx, hy⟩
      | cons hz h => exact .error (f.arityError_twin "2" hlength)

/-- An argument that may be left out is read in step, and stands for nil on both sides if it is. -/
theorem optional_twin (h : List.Forall₂ (Cell.Twin strict) args args') :
    Results strict (Cell.Twin strict) (f.optional args) (f.optional args') := by
  have hlength := h.length_eq
  cases h with
  | nil => exact .ok Cell.twin_nil
  | cons hx h =>
    cases h with
    | nil => exact .ok hx
    | cons hy h => exact .error (f.arityError_twin "0 or 1" hlength)

/-- Numbers are the same on both sides, not only twins. -/
theorem longs_twin (h : List.Forall₂ (Cell.Twin strict) args args') :
    Results strict Eq (f.longs args) (f.longs args') := by
  unfold longs
  refine Paired.imp (Q := List.Forall₂ Eq) (Paired.mapM h fun c d hcd => ?_) fun ns ms _ _ hns => ?_
  · have hcast := f.castError_twin hcd
    cases hcd.alike with
    | long n => exact .ok rfl
    | _ => exact .error hcast
  · rwa [List.forall₂_eq_eq_eq] at hns

/-- Both arguments are sequences or neither is, and nil stands for the empty vector. -/
theorem sequence_twin {c d : Cell} (h : c.Twin strict d) :
    Results strict (fun v u => v.cell.Twin strict u.cell) (f.sequence c) (f.sequence d) := by
  have hcast := f.castError_twin h
  cases h.alike with
  | nil => exact .ok Vec.twin_empty
  | vector _ => exact .ok h
  | _ => exact .error hcast

/-- The bytes are the same, and a blob has no parts to differ in. -/
theorem bytesCell_twin (bs : Bytes) :
    Results strict (Cell.Twin strict) (f.bytesCell bs) (f.bytesCell bs) := by
  unfold bytesCell Blob.ofBytes
  cases Blob.ofBytes? bs with
  | some b => exact .ok (Cell.twin_blob b)
  | none => exact .error (Exit.twin_ofText _ _)

/-! ## Results -/

theorem runSub_twin (h : List.Forall₂ (Cell.Twin strict) args args') :
    Results strict (Cell.Twin strict) (f.runSub args) (f.runSub args') := by
  refine (f.longs_twin h).bind fun ns ms hns => ?_
  subst hns
  match ns with
  | [] => exact .error (f.arityError_twin "at least 1" rfl)
  | [x] => exact .ok (Cell.twin_long _)
  | x :: y :: ns => exact .ok (Cell.twin_long _)

/-- What is counted is the same in twins: elements, associations, characters or bytes. -/
theorem runCount_twin (h : List.Forall₂ (Cell.Twin strict) args args') :
    Results strict (Cell.Twin strict) (f.runCount args) (f.runCount args') := by
  refine (f.only_twin h).bind fun c d hcd => ?_
  have hcast := f.castError_twin hcd
  cases hcd.alike with
  | nil => exact .ok (Cell.twin_long _)
  | @vector v u _ =>
    show Results strict _ (.ok (countCell v.count)) (.ok (countCell u.count))
    rw [Vec.count_eq_of_twin hcd]
    exact .ok (Cell.twin_long _)
  | text s => exact .ok (Cell.twin_long _)
  | blob b => exact .ok (Cell.twin_long _)
  | @map es es' hes =>
    show Results strict _ (.ok (countCell es.length)) (.ok (countCell es'.length))
    rw [hes.length_eq]
    exact .ok (Cell.twin_long _)
  | _ => exact .error hcast

/-- The index is the same on both sides, so both are in range or neither is. -/
theorem runNth_twin (h : List.Forall₂ (Cell.Twin strict) args args') :
    Results strict (Cell.Twin strict) (f.runNth args) (f.runNth args') := by
  refine (f.both_twin h).bind fun p q hpq => ?_
  refine (f.sequence_twin hpq.1).bind fun v u hvu => ?_
  have hcast := f.castError_twin hpq.2
  obtain ⟨coll, index⟩ := p
  obtain ⟨coll', index'⟩ := q
  cases hpq.2.alike with
  | long i =>
    -- in range of the one vector is in range of the other
    simp only [Vec.count_eq_of_twin hvu]
    by_cases hout : i.toInt < 0 ∨ (v.count : Int) ≤ i.toInt
    · rw [if_pos hout, if_pos hout]
      exact .error (Exit.twin_ofText _ _)
    · rw [if_neg hout, if_neg hout]
      obtain ⟨c, d, hc, hd, hcd⟩ := Vec.twin_get hvu (i := i.toInt.toNat) (by omega)
      rw [hc, hd]
      exact .ok hcd
  | _ => exact .error hcast

/-- Pushing succeeds on both sides, since vectors of twins are of one shape. -/
theorem runConj_twin (h : List.Forall₂ (Cell.Twin strict) args args') :
    Results strict (Cell.Twin strict) (f.runConj args) (f.runConj args') := by
  cases h with
  | nil => exact .error (f.arityError_twin "at least 1" rfl)
  | cons hcoll hitems =>
    refine (f.sequence_twin hcoll).bind fun v u hvu => ?_
    obtain ⟨v', u', hv', hu', hvu'⟩ := Vec.twin_pushAll hvu hitems
    rw [hv', hu']
    exact .ok hvu'

/-- The vectors are appended one after another, and each step keeps the two results twins. -/
theorem runConcat_twin (h : List.Forall₂ (Cell.Twin strict) args args') :
    Results strict (Cell.Twin strict) (f.runConcat args) (f.runConcat args') := by
  have hall : Results strict (fun v u => v.cell.Twin strict u.cell)
      (args.foldlM (fun acc x => do access (acc.append (← f.sequence x))) Vec.empty)
      (args'.foldlM (fun acc x => do access (acc.append (← f.sequence x))) Vec.empty) := by
    -- an argument that is no sequence stops both sides at the same place
    refine Paired.foldlM h (fun v u c d hvu hcd => ?_) Vec.twin_empty
    refine (f.sequence_twin hcd).bind fun t s hts => ?_
    obtain ⟨v', u', hv', hu', hvu'⟩ := Vec.twin_append hvu hts
    rw [hv', hu']
    exact .ok hvu'
  exact hall.bind fun v u hvu => .ok hvu

/-- A code is a keyword, the same on both sides, and the value of the error is whatever was given.
-/
theorem runFail_twin (h : List.Forall₂ (Cell.Twin strict) args args') :
    Results strict (Cell.Twin strict) (f.runFail args) (f.runFail args') := by
  have hlength := h.length_eq
  cases h with
  | nil => exact .error (.signal (Signal.twin_ofValue _ Cell.twin_nil))
  | cons hcode h =>
    cases h with
    | nil => exact .error (.signal (Signal.twin_ofValue _ hcode))
    | cons hmessage h =>
      cases h with
      | nil =>
        have hcast := f.castError_twin hcode
        cases hcode.alike with
        | keyword n => exact .error (.signal (Signal.twin_ofValue n hmessage))
        | _ => exact .error hcast
      | cons hx h => exact .error (f.arityError_twin "0 to 2" hlength)

/-- A call with twins for arguments yields twins or ends in exits that cannot be told apart. -/
theorem run_twin (h : List.Forall₂ (Cell.Twin strict) args args') :
    Results strict (Cell.Twin strict) (f.run args) (f.run args') := by
  cases f with
  | add | mul =>
    refine (longs_twin _ h).bind fun ns ms hns => ?_
    subst hns
    exact .ok (Cell.twin_long _)
  | lt | gt =>
    refine (longs_twin _ h).bind fun ns ms hns => ?_
    subst hns
    exact .ok (Cell.twin_bool _)
  | sub => exact runSub_twin _ h
  | eq =>
    rw [run, run, map_eq_of_twins (fun c d hcd => hcd.same.hash_eq) h]
    exact .ok (Cell.twin_bool _)
  | not =>
    refine (only_twin _ h).bind fun c d hcd => ?_
    rw [hcd.isTruthy_eq]
    exact .ok (Cell.twin_bool _)
  | vector => exact .ok (Vec.twin_of h)
  | count => exact runCount_twin _ h
  | nth => exact runNth_twin _ h
  | conj => exact runConj_twin _ h
  | concat => exact runConcat_twin _ h
  | fail => exact runFail_twin _ h
  | halt => exact (optional_twin _ h).bind fun c d hcd => .error (.signal (.halt hcd))
  | «return» => exact (optional_twin _ h).bind fun c d hcd => .error (.signal (.leave hcd))
  | hash =>
    refine (only_twin _ h).bind fun c d hcd => ?_
    rw [hcd.same.hash_eq]
    exact bytesCell_twin _ _
  | encoding =>
    refine (only_twin _ h).bind fun c d hcd => ?_
    rw [hcd.same.encode_eq]
    exact bytesCell_twin _ _

end CoreFn

end CellMachine
