import CellMachine.Eval.Bindings

/-!
# Bindings in the order of their symbols

Bindings increase by their symbols, whatever is bound in them and however often. The order leaves no choice:
what is bound settles the bindings (`Bindings.Ordered.eq_of_perm`), so that they come back when their entries
are bound again in any other order (`Bindings.Ordered.insertAll_empty`).

A call has bindings of its own, its *frame*: those that the closure captured, hidden by the closure under its
own name, hidden by the arguments under the parameters, of which the last one counts (`Bindings.find?_frame`).
-/

namespace CellMachine

namespace Name

variable {a b c : Name}

theorem lt_irrefl (a : Name) : ¬ a < a := String.lt_irrefl a.val

theorem lt_trans (h : a < b) (h' : b < c) : a < c := String.lt_trans h h'

/-- The order of names is that of their texts, and a name is its text. -/
theorem lt_trichotomy (a b : Name) : a < b ∨ a = b ∨ b < a := by
  by_cases hlt : a < b
  · exact .inl hlt
  · by_cases hgt : b < a
    · exact .inr (.inr hgt)
    · exact .inr (.inl (val_injective (String.le_antisymm (String.not_lt.1 hgt) (String.not_lt.1 hlt))))

end Name

namespace Bindings

variable {b b' : Bindings} {es : List (Name × Cell)}

/-- Bindings whose symbols increase. -/
def Ordered (b : Bindings) : Prop := b.entries.Pairwise fun x y => x.1 < y.1

theorem ordered_empty : empty.Ordered := .nil

/-- A binding after an insertion is the new one or one that was there. -/
theorem mem_insertEntry {symbol : Name} {value : Cell} {e : Name × Cell}
    (he : e ∈ insertEntry symbol value es) : e = (symbol, value) ∨ e ∈ es := by
  induction es with
  | nil => exact .inl (List.mem_singleton.1 he)
  | cons x es ih =>
    obtain ⟨s, v⟩ := x
    rw [insertEntry] at he
    split at he
    · rcases List.mem_cons.1 he with rfl | he
      · exact .inl rfl
      · exact .inr (List.mem_cons_of_mem _ he)
    · split at he
      · rcases List.mem_cons.1 he with rfl | he
        · exact .inr List.mem_cons_self
        · exact (ih he).imp_right (List.mem_cons_of_mem _)
      · exact List.mem_cons.1 he

/-- What a symbol is bound to stands among the bindings. -/
theorem mem_of_findEntry {n : Name} {v : Cell} {es : List (Name × Cell)} (h : findEntry n es = some v) :
    (n, v) ∈ es := by
  induction es with
  | nil => cases h
  | cons e es ih =>
    obtain ⟨s, u⟩ := e
    rw [findEntry] at h
    split at h
    · next heq =>
      subst heq
      cases h
      exact List.mem_cons_self
    · exact List.mem_cons_of_mem _ (ih h)

/-- A symbol goes in before the first that is greater, or takes the place of itself. -/
theorem Ordered.insert (h : b.Ordered) (symbol : Name) (value : Cell) : (b.insert symbol value).Ordered := by
  obtain ⟨es⟩ := b
  show (insertEntry symbol value es).Pairwise _
  induction es with
  | nil => exact List.pairwise_singleton _ _
  | cons x es ih =>
    obtain ⟨s, v⟩ := x
    obtain ⟨hfirst, hes⟩ := List.pairwise_cons.1 h
    rw [insertEntry]
    split
    · next heq =>
      subst heq
      exact List.pairwise_cons.2 ⟨hfirst, hes⟩
    · next hne =>
      split
      · next hlt =>
        refine List.pairwise_cons.2 ⟨fun e he => ?_, ih hes⟩
        rcases mem_insertEntry he with rfl | he
        · exact hlt
        · exact hfirst e he
      · next hge =>
        -- the new symbol comes first
        have hlt : symbol < s := ((Name.lt_trichotomy s symbol).resolve_left hge).resolve_left hne
        refine List.pairwise_cons.2 ⟨fun e he => ?_, h⟩
        rcases List.mem_cons.1 he with rfl | he
        · exact hlt
        · exact Name.lt_trans hlt (hfirst e he)

theorem Ordered.insertAll (h : b.Ordered) (es : List (Name × Cell)) : (b.insertAll es).Ordered := by
  induction es generalizing b with
  | nil => exact h
  | cons e es ih => exact ih (h.insert e.1 e.2)

/-! ## Properties of what is bound -/

/-- Everything that is bound has a property. -/
def Every (P : Cell → Prop) (b : Bindings) : Prop := ∀ e ∈ b.entries, P e.2

section Every
variable {P : Cell → Prop}

theorem every_empty : empty.Every P := fun _ he => by cases he

theorem Every.imp {Q : Cell → Prop} (h : b.Every P) (hPQ : ∀ v, P v → Q v) : b.Every Q :=
  fun e he => hPQ e.2 (h e he)

/-- What holds of the new value and of the others holds of all. -/
theorem Every.insert (h : b.Every P) (n : Name) {v : Cell} (hv : P v) : (b.insert n v).Every P := by
  intro e he
  rcases mem_insertEntry he with rfl | he
  · exact hv
  · exact h e he

theorem Every.insertAll (h : b.Every P) {es : List (Name × Cell)} (hes : ∀ e ∈ es, P e.2) :
    (b.insertAll es).Every P := by
  induction es generalizing b with
  | nil => exact h
  | cons e es ih =>
    obtain ⟨he, hes⟩ := List.forall_mem_cons.1 hes
    exact ih (h.insert e.1 he) hes

/-- What holds of all values holds of the one that a symbol is bound to. -/
theorem Every.find? (h : b.Every P) {n : Name} {v : Cell} (hv : b.find? n = some v) : P v :=
  h _ (mem_of_findEntry hv)

end Every

/-! ## What settles bindings -/

/-- In order there is only one arrangement of bindings. -/
theorem Ordered.eq_of_perm (h : b.Ordered) (h' : b'.Ordered) (hperm : b.entries.Perm b'.entries) : b = b' := by
  obtain ⟨es⟩ := b
  obtain ⟨es'⟩ := b'
  have heq : es = es' := hperm.eq_of_pairwise
    (fun x y _ _ hlt hgt => absurd (Name.lt_trans hlt hgt) (Name.lt_irrefl _)) h h'
  rw [heq]

/-- A symbol that is bound for the first time adds an entry. -/
theorem perm_insertEntry {symbol : Name} (value : Cell) (hnew : ∀ e ∈ es, e.1 ≠ symbol) :
    (insertEntry symbol value es).Perm ((symbol, value) :: es) := by
  induction es with
  | nil => exact .refl _
  | cons x es ih =>
    obtain ⟨s, v⟩ := x
    obtain ⟨hx, hes⟩ := List.forall_mem_cons.1 hnew
    rw [insertEntry, if_neg hx]
    split
    · exact ((ih hes).cons (s, v)).trans (.swap (symbol, value) (s, v) es)
    · exact .refl _

/-- New symbols are added to those that are there, each once. -/
theorem perm_insertAll (hes : es.Pairwise fun x y => x.1 ≠ y.1)
    (hnew : ∀ x ∈ b.entries, ∀ y ∈ es, x.1 ≠ y.1) :
    (b.insertAll es).entries.Perm (es ++ b.entries) := by
  induction es generalizing b with
  | nil => exact .refl _
  | cons e es ih =>
    obtain ⟨hfirst, hes⟩ := List.pairwise_cons.1 hes
    have hone := perm_insertEntry e.2 fun x hx => hnew x hx e List.mem_cons_self
    -- the first symbol is one of those that are there for the others, which differ from it too
    have hrest := ih (b := b.insert e.1 e.2) hes fun x hx y hy => by
      rcases mem_insertEntry hx with rfl | hx
      · exact hfirst y hy
      · exact hnew x hx y (List.mem_cons_of_mem _ hy)
    exact hrest.trans ((hone.append_left es).trans List.perm_middle)

/-- Binding the entries of bindings once more, in whatever order, gives the same bindings. -/
theorem Ordered.insertAll_empty (h : b.Ordered) (hperm : es.Perm b.entries) : empty.insertAll es = b := by
  have hdistinct : es.Pairwise fun x y => x.1 ≠ y.1 := by
    refine hperm.symm.pairwise (h.imp fun hlt heq => ?_) fun hne heq => hne heq.symm
    rw [heq] at hlt
    exact Name.lt_irrefl _ hlt
  refine (ordered_empty.insertAll es).eq_of_perm h ?_
  have hall : (empty.insertAll es).entries.Perm (es ++ []) := perm_insertAll hdistinct fun x hx => by cases hx
  rw [List.append_nil] at hall
  exact hall.trans hperm

/-! ## Frames -/

/-- The first binding of a symbol is looked for in the one list and then in the other. -/
theorem findEntry_append (symbol : Name) (es es' : List (Name × Cell)) :
    findEntry symbol (es ++ es') = (findEntry symbol es).or (findEntry symbol es') := by
  induction es with
  | nil => rfl
  | cons e es ih =>
    rw [List.cons_append, findEntry, findEntry]
    split
    · rfl
    · exact ih

/-- The last binding of a symbol counts. -/
theorem find?_insertAll (b : Bindings) (es : List (Name × Cell)) (symbol : Name) :
    (b.insertAll es).find? symbol = (findEntry symbol es.reverse).or (b.find? symbol) := by
  induction es generalizing b with
  | nil => rfl
  | cons e es ih =>
    show ((b.insert e.1 e.2).insertAll es).find? symbol = _
    rw [ih, find?_insert, List.reverse_cons, findEntry_append, Option.or_assoc, findEntry]
    by_cases heq : e.1 = symbol
    · rw [if_pos heq, if_pos heq, Option.some_or]
    · rw [if_neg heq, if_neg heq]
      rfl

/-- The bindings of a call of `f`, which captured some bindings and may have a name. -/
def frame (captured : Bindings) (name : Option Name) (f : Cell) (args : List (Name × Cell)) : Bindings :=
  (match name with
    | some n => captured.insert n f
    | none => captured).insertAll args

theorem Ordered.frame (h : b.Ordered) (name : Option Name) (f : Cell) (args : List (Name × Cell)) :
    (b.frame name f args).Ordered := by
  cases name with
  | none => exact h.insertAll args
  | some n => exact (h.insert n f).insertAll args

/-- A frame holds what the closure captured, the closure itself and the arguments. -/
theorem Every.frame {P : Cell → Prop} (h : b.Every P) (name : Option Name) {f : Cell} (hf : P f)
    {args : List (Name × Cell)} (hargs : ∀ e ∈ args, P e.2) : (b.frame name f args).Every P := by
  cases name with
  | none => exact h.insertAll hargs
  | some n => exact (h.insert n hf).insertAll hargs

/-- Arguments hide the name of the closure, which hides what the closure captured. -/
theorem find?_frame (b : Bindings) (name : Option Name) (f : Cell) (args : List (Name × Cell))
    (symbol : Name) : (b.frame name f args).find? symbol =
      (findEntry symbol args.reverse).or (if name = some symbol then some f else b.find? symbol) := by
  cases name with
  | none => exact find?_insertAll b args symbol
  | some n =>
    simp only [Bindings.frame, find?_insertAll, find?_insert, Option.some.injEq]

end Bindings

end CellMachine
