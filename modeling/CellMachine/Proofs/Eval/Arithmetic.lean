import Mathlib.Algebra.BigOperators.Group.List.Basic
import Mathlib.Data.Int.ModEq
import Mathlib.Data.Set.List
import CellMachine.Proofs.Eval.Results

/-!
# Arithmetic and comparison

Numbers have 64 bits, and arithmetic on them is arithmetic on integers modulo `2 ^ 64`: folding a list of
numbers with an operation of theirs gives the number that is congruent to what folding the integers gives
(`congruent_foldl`), however often the numbers overflow on the way. There is only one such number
(`Represents`), so sums and products do not depend on the order. Comparing each number with the next one
compares each with all later ones, since the order of the numbers is transitive, and so is equality of hashes
(`CoreFn.adjacent_iff`).

Main statement: `CoreFn.arithmetic_exact`.
-/

namespace CellMachine

/-! ## Numbers as integers modulo `2 ^ 64` -/

/-- The number is the one that is congruent to an integer. -/
structure Represents (n : Int64) (i : Int) : Prop where
  congruent : n.toInt ≡ i [ZMOD 2 ^ 64]
  unique (k : Int64) (h : k.toInt ≡ i [ZMOD 2 ^ 64]) : k = n

theorem eq_of_congruent {n k : Int64} (h : n.toInt ≡ k.toInt [ZMOD 2 ^ 64]) : n = k := by
  have hn := n.toInt_lt
  have hn' := n.le_toInt
  have hk := k.toInt_lt
  have hk' := k.le_toInt
  have hmod : n.toInt % 2 ^ 64 = k.toInt % 2 ^ 64 := h
  exact Int64.toInt_inj.1 (by omega)

/-- A 64-bit integer is determined by what it is congruent to. -/
theorem represents_of {n : Int64} {i : Int} (h : n.toInt ≡ i [ZMOD 2 ^ 64]) : Represents n i :=
  ⟨h, fun _ hk => eq_of_congruent (hk.trans h.symm)⟩

/-- Wrapping does not change an integer modulo `2 ^ 64`. -/
theorem bmod_congruent (i : Int) : i.bmod (2 ^ 64) ≡ i [ZMOD 2 ^ 64] := Int.bmod_emod

/-- The operations of the machine are those on integers, up to congruence. -/
theorem congruent_add (a b : Int64) : (a + b).toInt ≡ a.toInt + b.toInt [ZMOD 2 ^ 64] := by
  rw [Int64.toInt_add]
  exact bmod_congruent _

theorem congruent_mul (a b : Int64) : (a * b).toInt ≡ a.toInt * b.toInt [ZMOD 2 ^ 64] := by
  rw [Int64.toInt_mul]
  exact bmod_congruent _

theorem congruent_sub (a b : Int64) : (a - b).toInt ≡ a.toInt - b.toInt [ZMOD 2 ^ 64] := by
  rw [Int64.toInt_sub]
  exact bmod_congruent _

theorem congruent_neg (a : Int64) : (-a).toInt ≡ -a.toInt [ZMOD 2 ^ 64] := by
  rw [Int64.toInt_neg]
  exact bmod_congruent _

/-- An operation on numbers that is one on integers up to congruence stays so along a list. -/
theorem congruent_foldl {op : Int64 → Int64 → Int64} {op' : Int → Int → Int}
    (h : ∀ a b, (op a b).toInt ≡ op' a.toInt b.toInt [ZMOD 2 ^ 64])
    (hcongr : ∀ i j k, i ≡ j [ZMOD 2 ^ 64] → op' i k ≡ op' j k [ZMOD 2 ^ 64]) (ns : List Int64)
    {a : Int64} {i : Int} (ha : a.toInt ≡ i [ZMOD 2 ^ 64]) :
    (ns.foldl op a).toInt ≡ (ns.map Int64.toInt).foldl op' i [ZMOD 2 ^ 64] := by
  induction ns generalizing a i with
  | nil => exact ha
  | cons n ns ih => exact ih ((h a n).trans (hcongr _ _ _ ha))

/-- Subtracting one after another is subtracting the sum. -/
theorem foldl_sub (is : List Int) (i : Int) : is.foldl (· - ·) i = i - is.sum := by
  induction is generalizing i with
  | nil => exact (Int.sub_zero i).symm
  | cons j is ih =>
    rw [List.foldl_cons, ih, List.sum_cons]
    omega

/-- Adding up 64-bit integers wraps around as adding up integers does in the end. -/
theorem represents_sum (ns : List Int64) :
    Represents (ns.foldl (· + ·) 0) (ns.map Int64.toInt).sum := by
  refine represents_of ?_
  rw [List.sum_eq_foldl]
  exact congruent_foldl congruent_add (fun _ _ k h => h.add_right k) ns (Int.ModEq.refl _)

theorem represents_product (ns : List Int64) :
    Represents (ns.foldl (· * ·) 1) (ns.map Int64.toInt).prod := by
  refine represents_of ?_
  rw [List.prod_eq_foldl]
  exact congruent_foldl congruent_mul (fun _ _ k h => h.mul_right k) ns (Int.ModEq.refl _)

theorem represents_difference (n : Int64) (ns : List Int64) :
    Represents (ns.foldl (· - ·) n) (n.toInt - (ns.map Int64.toInt).sum) := by
  refine represents_of ?_
  rw [← foldl_sub]
  exact congruent_foldl congruent_sub (fun _ _ k h => h.sub_right k) ns (Int.ModEq.refl _)

/-! ## Lists of arguments -/

namespace CoreFn

/-- A transitive relation that holds from each member of a list to the next holds from each to all later ones. -/
theorem adjacent_iff {α : Type} {r : α → α → Bool} {R : α → α → Prop} [IsTrans α R]
    (hr : ∀ a b, r a b = true ↔ R a b) (as : List α) : adjacent r as = true ↔ as.Pairwise R := by
  rw [← List.isChain_iff_pairwise]
  induction as with
  | nil => exact ⟨fun _ => .nil, fun _ => rfl⟩
  | cons a as ih =>
    cases as with
    | nil => exact ⟨fun _ => .singleton a, fun _ => rfl⟩
    | cons b as =>
      rw [adjacent, Bool.and_eq_true, hr, ih, List.isChain_cons_cons]

theorem longs_map (f : CoreFn) (ns : List Int64) : f.longs (ns.map Cell.long) = .ok ns := by
  refine mapM_eq_ok_iff.2 ?_
  rw [List.forall₂_map_left_iff, List.forall₂_same]
  exact fun _ _ => rfl

/-- The first argument that is no number stops the reading of numbers. -/
theorem longs_append (f : CoreFn) (ns : List Int64) {c : Cell} (hc : ∀ n, c ≠ .long n) (rest : List Cell) :
    f.longs (ns.map Cell.long ++ c :: rest) = .error (f.castError c) := by
  induction ns with
  | nil =>
    cases c with
    | long n => exact absurd rfl (hc n)
    | _ => rfl
  | cons n ns ih =>
    have hrest : List.mapM _ (ns.map Cell.long ++ c :: rest) = _ := ih
    rw [longs, List.map_cons, List.cons_append, List.mapM_cons, hrest]
    rfl

/-- A list of cells that are all numbers is a list of numbers. -/
theorem exists_numbers {args : List Cell} (h : ∀ c ∈ args, ∃ n, c = .long n) :
    ∃ ns : List Int64, args = ns.map Cell.long := by
  have hrange : args ∈ Set.range (List.map Cell.long) := by
    rw [Set.range_list_map]
    exact fun c hc => (h c hc).imp fun _ hn => hn.symm
  exact hrange.imp fun _ hns => hns.symm

/-- The functions that want numbers. -/
def WantsNumbers (f : CoreFn) : Prop := f = add ∨ f = sub ∨ f = mul ∨ f = lt ∨ f = gt

/-- The functions on numbers look at their arguments before anything else. -/
theorem run_of_longs_error {f : CoreFn} (hf : f.WantsNumbers) {args : List Cell} {e : Exit}
    (h : f.longs args = .error e) : f.run args = .error e := by
  obtain rfl | rfl | rfl | rfl | rfl := hf <;> simp only [run, runSub, h] <;> rfl

/-! ## Calls on numbers -/

section Numbers
variable (ns : List Int64)

/-- The call computes in the machine; what its result represents is shown apart. -/
theorem returns_add : add.Returns (ns.map Cell.long) (.long (ns.foldl (· + ·) 0)) := by
  rw [returns_iff, run, longs_map]
  rfl

theorem returns_mul : mul.Returns (ns.map Cell.long) (.long (ns.foldl (· * ·) 1)) := by
  rw [returns_iff, run, longs_map]
  rfl

/-- The first argument is the one that is subtracted from. -/
theorem returns_sub (n k : Int64) :
    sub.Returns ((n :: k :: ns).map Cell.long) (.long ((k :: ns).foldl (· - ·) n)) := by
  rw [returns_iff, run, runSub, longs_map]
  rfl

theorem returns_lt : lt.Returns (ns.map Cell.long)
    (.bool (adjacent (fun x y => decide (x < y)) ns)) := by
  rw [returns_iff, run, longs_map]
  rfl

theorem returns_gt : gt.Returns (ns.map Cell.long)
    (.bool (adjacent (fun x y => decide (y < x)) ns)) := by
  rw [returns_iff, run, longs_map]
  rfl

end Numbers

/-- Adding and multiplying yield the same in every order. -/
theorem run_perm {f : CoreFn} (hf : f = add ∨ f = mul) {ns ks : List Int64} (h : ns.Perm ks) :
    f.run (ns.map Cell.long) = f.run (ks.map Cell.long) := by
  have hints : (ns.map Int64.toInt).Perm (ks.map Int64.toInt) := h.map _
  obtain rfl | rfl := hf
  · have hsum := represents_sum ks
    rw [← hints.sum_eq] at hsum
    have hsame := hsum.unique _ (represents_sum ns).congruent
    rw [returns_iff.1 (returns_add ns), returns_iff.1 (returns_add ks), hsame]
  · have hproduct := represents_product ks
    rw [← hints.prod_eq] at hproduct
    have hsame := hproduct.unique _ (represents_product ns).congruent
    rw [returns_iff.1 (returns_mul ns), returns_iff.1 (returns_mul ks), hsame]

/-- Arithmetic and comparison of any number of arguments, wherever the call can be paid:

* `+` and `*` yield the number that is congruent to the sum and to the product of the numbers, and the same in
  every order;
* `-` yields the number that is congruent to the negation of its only argument, or to the first argument less
  the sum of the others;
* `<` and `>` are true exactly if every argument is less, or greater, than every later one, and `=` of any
  values exactly if every argument has the hash of every later one;
* the first argument that is no number, where numbers are wanted, is named by an error. -/
theorem arithmetic_exact :
    (∀ ns : List Int64, ∃ n, add.Returns (ns.map .long) (.long n) ∧
      Represents n (ns.map Int64.toInt).sum) ∧
    (∀ ns : List Int64, ∃ n, mul.Returns (ns.map .long) (.long n) ∧
      Represents n (ns.map Int64.toInt).prod) ∧
    (∀ ns ks : List Int64, ns.Perm ks → ∀ n,
      (add.Returns (ns.map .long) (.long n) ↔ add.Returns (ks.map .long) (.long n)) ∧
      (mul.Returns (ns.map .long) (.long n) ↔ mul.Returns (ks.map .long) (.long n))) ∧
    (∀ x : Int64, ∃ n, sub.Returns [.long x] (.long n) ∧ Represents n (-x.toInt)) ∧
    (∀ (x : Int64) (ys : List Int64), ys ≠ [] → ∃ n,
      sub.Returns (.long x :: ys.map .long) (.long n) ∧
        Represents n (x.toInt - (ys.map Int64.toInt).sum)) ∧
    (∀ ns : List Int64, ∃ b, lt.Returns (ns.map .long) (.bool b) ∧
      (b = true ↔ ns.Pairwise fun x y => x.toInt < y.toInt)) ∧
    (∀ ns : List Int64, ∃ b, gt.Returns (ns.map .long) (.bool b) ∧
      (b = true ↔ ns.Pairwise fun x y => y.toInt < x.toInt)) ∧
    (∀ args : List Cell, ∃ b, eq.Returns args (.bool b) ∧
      (b = true ↔ args.Pairwise fun c d => c.hash = d.hash)) ∧
    (∀ f : CoreFn, f.WantsNumbers → ∀ args : List Cell,
      (∃ c ∈ args, ∀ n, c ≠ .long n) →
        ∃ (ns : List Int64) (c : Cell) (rest : List Cell), args = ns.map .long ++ c :: rest ∧
          (∀ n, c ≠ .long n) ∧
          f.Raises args (.signal (.ofText Code.cast (f.name ++ " cannot use " ++ c.describe)))) := by
  have htransLt : IsTrans Int64 fun x y => x.toInt < y.toInt := ⟨fun _ _ _ h h' => h.trans h'⟩
  have htransGt : IsTrans Int64 fun x y => y.toInt < x.toInt := ⟨fun _ _ _ h h' => h'.trans h⟩
  have htransEq : IsTrans Hash fun g h => g = h := ⟨fun _ _ _ h h' => h.trans h'⟩
  refine ⟨fun ns => ⟨_, returns_add ns, represents_sum ns⟩,
    fun ns => ⟨_, returns_mul ns, represents_product ns⟩, fun ns ks h n => ⟨?_, ?_⟩,
    fun x => ⟨-x, ?_, represents_of (congruent_neg x)⟩, fun x ys hys => ?_,
    fun ns => ⟨_, returns_lt ns, adjacent_iff (fun _ _ => ?_) ns⟩,
    fun ns => ⟨_, returns_gt ns, adjacent_iff (fun _ _ => ?_) ns⟩, fun args => ⟨_, returns_iff.2 rfl, ?_⟩,
    fun f hf args hargs => ?_⟩
  · rw [returns_iff, returns_iff, run_perm (.inl rfl) h]
  · rw [returns_iff, returns_iff, run_perm (.inr rfl) h]
  · rw [returns_iff]
    rfl
  · obtain _ | ⟨y, ys⟩ := ys
    · exact absurd rfl hys
    · exact ⟨_, returns_sub ys x y, represents_difference x (y :: ys)⟩
  · rw [decide_eq_true_eq, Int64.lt_iff_toInt_lt]
  · rw [decide_eq_true_eq, Int64.lt_iff_toInt_lt]
  -- neighbours are compared, which is enough for all pairs since the relations are transitive
  · rw [adjacent_iff (R := fun g h => g = h) fun _ _ => beq_iff_eq, List.pairwise_map]
  -- the arguments in front of the first one that is no number are numbers
  · obtain hall | ⟨before, c, rest, rfl, hbefore, hc⟩ := all_or_first (fun c => ∃ n, c = .long n) args
    · obtain ⟨c, hmem, hnot⟩ := hargs
      obtain ⟨n, hn⟩ := hall c hmem
      exact absurd hn (hnot n)
    · obtain ⟨ns, rfl⟩ := exists_numbers hbefore
      have hnot : ∀ n, c ≠ .long n := not_exists.1 hc
      exact ⟨ns, c, rest, rfl, hnot, raises_iff.2 (run_of_longs_error hf (longs_append f ns hnot rest))⟩

/-- A sum that overflows in the middle, the least number negated, a chain that breaks between neighbours, and
an argument that is no number. -/
theorem arithmetic_exact_overflow :
    add.Returns [.long Int64.maxValue, .long 1, .long (-3)] (.long (Int64.maxValue - 2)) ∧
    sub.Returns [.long Int64.minValue] (.long Int64.minValue) ∧
    lt.Returns [.long 1, .long 3, .long 2] (.bool false) ∧
    add.Raises [.long 1, .nil] (.signal (.ofText Code.cast "+ cannot use nil")) := by
  obtain ⟨hadd, -, -, hneg, -, hlt, -, -, hcast⟩ := arithmetic_exact
  obtain ⟨n, hn, hsum⟩ := hadd [Int64.maxValue, 1, -3]
  obtain rfl := hsum.unique (Int64.maxValue - 2) (by decide)
  obtain ⟨k, hk, hminus⟩ := hneg Int64.minValue
  obtain rfl := hminus.unique Int64.minValue (by decide)
  obtain ⟨b, hb, hless⟩ := hlt [1, 3, 2]
  have hbroken : b = false := Bool.eq_false_iff.2 fun h => absurd (hless.1 h) (by decide)
  obtain ⟨ns, c, rest, hargs, hc, hraises⟩ := hcast add (.inl rfl) [.long 1, .nil]
    ⟨.nil, List.mem_cons_of_mem _ List.mem_cons_self, fun n h => nomatch h⟩
  have hfirst : c = .nil := by
    obtain _ | ⟨x, _ | ⟨y, ns⟩⟩ := ns
    · cases hargs
      exact absurd rfl (hc 1)
    · cases hargs
      rfl
    · cases hargs
  subst hbroken hfirst
  exact ⟨hn, hk, hb, hraises⟩

end CoreFn

end CellMachine
