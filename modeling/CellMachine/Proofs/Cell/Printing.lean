import CellMachine.Proofs.Vec.Same

/-!
# Printing shows content only

A value prints by its own payload, by what its parts print, and by its hash where a part is missing.
None of this tells cells of the same content apart. Nor does a description, which in addition looks at
the size of a value and at whether its parts are written inside it.

Main statements: `Cell.Same.print_eq` and `Cell.Same.describe_eq`.
-/

namespace CellMachine

/-! ## Parts that are held -/

section Held
variable {r : Ref} {c : Cell} (h : r.held? = some c)
include h

/-- A reference prints as the cell that it holds. -/
theorem Ref.print_of_held : r.print = c.print := by
  cases r with
  | remote => cases h
  | _ =>
    cases h
    rw [Ref.print]

theorem refElementsText_of_held (hc : c.isVector = false) : refElementsText r = c.print := by
  cases r with
  | remote => cases h
  | _ =>
    cases h
    cases c with
    | vector v => cases hc
    | _ =>
      rw [refElementsText]
      exact fun _ hv => by cases hv

theorem refTexts_of_held (hc : c.isVector = false) : refTexts r = none := by
  cases r with
  | remote => cases h
  | _ =>
    cases h
    cases c with
    | vector v => cases hc
    | _ => rw [refTexts] <;> rintro _ _ _ ⟨⟩

/-- Items are listed only if all of them are held. -/
theorem heldTexts_cons_of_held (rs : List Ref) :
    heldTexts (r :: rs) = (heldTexts rs).map (c.print :: ·) := by
  cases r with
  | remote => cases h
  | _ =>
    cases h
    rw [heldTexts]

/-- A reference to stored content makes a cell depend on the store. -/
theorem Ref.selfContained_of_held : r.selfContained = (r.isEmbedded && c.selfContained) := by
  cases r with
  | remote => cases h
  | embedded =>
    cases h
    rw [Ref.selfContained]
    rfl
  | _ =>
    rw [Ref.selfContained]
    · rfl
    · rintro _ _ _ ⟨⟩

end Held

/-- The elements of a vector are listed, or it is shown by its hash if some are missing. -/
theorem refElementsText_of_vector {r : Ref} {v : Vec} (h : r.held? = some (.vector v)) :
    refElementsText r = match vecTexts v with
      | some ts => " ".intercalate ts
      | none => "[" ++ v.hash.placeholder ++ "]" := by
  cases r with
  | remote => cases h
  | _ =>
    cases h
    unfold refElementsText
    rfl

theorem refTexts_of_vector {r : Ref} {v : Vec} (h : r.held? = some (.vector v)) :
    refTexts r = vecTexts v := by
  cases r with
  | remote => cases h
  | _ =>
    cases h
    rw [refTexts]

/-! ## Self-contained cells -/

theorem refsSelfContained_eq (rs : List Ref) : refsSelfContained rs = rs.all Ref.selfContained := by
  induction rs with
  | nil => rfl
  | cons r rs ih => rw [refsSelfContained, ih, List.all_cons]

theorem entriesSelfContained_eq (es : List (Ref × Ref)) :
    entriesSelfContained es = (Cell.map es).refs.all Ref.selfContained := by
  induction es with
  | nil => rfl
  | cons e es ih =>
    obtain ⟨k, v⟩ := e
    rw [entriesSelfContained, ih, Bool.and_assoc]
    rfl

/-- A vector is self-contained if its references are. -/
theorem Vec.selfContained_eq (v : Vec) : v.selfContained = v.refs.all Ref.selfContained := by
  cases v with
  | chunk items | tree _ items => rw [Vec.selfContained, refsSelfContained_eq, Vec.refs]
  | tailed _ front items =>
    rw [Vec.selfContained, refsSelfContained_eq, Vec.refs, List.all_append, List.all_cons, List.all_nil,
      Bool.and_true]

/-- A cell is self-contained if all of its parts are. -/
theorem Cell.selfContained_eq (c : Cell) : c.selfContained = c.refs.all Ref.selfContained := by
  cases c with
  | vector v => rw [Cell.selfContained, v.selfContained_eq, Cell.refs]
  | map entries => rw [Cell.selfContained, entriesSelfContained_eq]
  | record format fields => rw [Cell.selfContained, refsSelfContained_eq, Cell.refs]
  | op o =>
    rw [Cell.selfContained, Cell.refs]
    cases o <;> simp [Op.selfContained, Op.refs]
  | fn f =>
    obtain ⟨params, body, env, name⟩ := f
    simp [Cell.selfContained, Cell.refs, Closure.refs, Bool.and_assoc]
  | _ => simp [Cell.selfContained, Cell.refs]

theorem Cell.Alike.selfContained_eq {R : Ref → Ref → Prop} {c d : Cell} (h : c.Alike R d)
    (hR : ∀ r ∈ c.refs, ∀ s ∈ d.refs, R r s → s.selfContained = r.selfContained) :
    d.selfContained = c.selfContained := by
  have hrefs := (h.imp_of_mem (S := fun r s => s.selfContained = r.selfContained) hR).refs
  rw [c.selfContained_eq, d.selfContained_eq]
  generalize c.refs = rs, d.refs = ss at hrefs
  induction hrefs with
  | nil => rfl
  | cons hr _ ih => rw [List.all_cons, List.all_cons, hr, ih]

/-! ## References that print alike -/

/-- References to held cells that no printed form and no description tells apart. -/
structure Ref.PrintsAs (r s : Ref) : Prop where
  print : s.print = r.print
  inside : refElementsText s = refElementsText r
  texts : refTexts s = refTexts r
  contained : s.selfContained = r.selfContained
  held : ∃ c d, r.held? = some c ∧ s.held? = some d ∧ d.print = c.print

/-- What a printed form or a description shows of a cell itself. -/
structure Cell.PrintsAs (c d : Cell) : Prop where
  print : d.print = c.print
  texts : ∀ v u, c = .vector v → d = .vector u → vecTexts u = vecTexts v
  contained : d.selfContained = c.selfContained

theorem Cell.PrintsAs.of_not_vector {c d : Cell} (hc : c.isVector = false)
    (hprint : d.print = c.print) (hcontained : d.selfContained = c.selfContained) :
    c.PrintsAs d := by
  refine ⟨hprint, fun v u hv => ?_, hcontained⟩
  subst hv
  cases hc

/-- References to cells that print alike print alike, whether they hold vectors or not. -/
theorem Ref.printsAs_of {R : Ref → Ref → Prop} {r s : Ref} {c d : Cell} (hc : r.held? = some c)
    (hd : s.held? = some d) (hembedded : s.isEmbedded = r.isEmbedded) (halike : c.Alike R d)
    (hhash : d.hash = c.hash) (hprints : c.PrintsAs d) : r.PrintsAs s := by
  refine ⟨?_, ?_, ?_, ?_, c, d, hc, hd, hprints.print⟩
  · rw [Ref.print_of_held hc, Ref.print_of_held hd, hprints.print]
  -- vectors are shown by their elements, other cells as a whole
  · cases halike with
    | @vector v u _ =>
      rw [refElementsText_of_vector hc, refElementsText_of_vector hd, hprints.texts v u rfl rfl,
        Vec.hash, Vec.hash, hhash]
    | _ => rw [refElementsText_of_held hc rfl, refElementsText_of_held hd rfl, hprints.print]
  · cases halike with
    | @vector v u _ =>
      rw [refTexts_of_vector hc, refTexts_of_vector hd, hprints.texts v u rfl rfl]
    | _ => rw [refTexts_of_held hc rfl, refTexts_of_held hd rfl]
  · rw [Ref.selfContained_of_held hc, Ref.selfContained_of_held hd, hembedded, hprints.contained]

section Lists
variable {rs ss : List Ref} (h : List.Forall₂ Ref.PrintsAs rs ss)
include h

theorem heldTexts_eq_of_forall₂ : heldTexts ss = heldTexts rs := by
  induction h with
  | nil => rfl
  | cons hr _ ih =>
    obtain ⟨c, d, hc, hd, hprint⟩ := hr.held
    rw [heldTexts_cons_of_held hc, heldTexts_cons_of_held hd, ih, hprint]

theorem refsTexts_eq_of_forall₂ : refsTexts ss = refsTexts rs := by
  induction h with
  | nil => rfl
  | cons hr _ ih => rw [refsTexts, refsTexts, hr.texts, ih]

/-- Fields are printed behind the keys of the format, which is the same. -/
theorem fieldTexts_eq_of_forall₂ (keys : List String) : fieldTexts keys ss = fieldTexts keys rs := by
  induction h generalizing keys with
  | nil => rfl
  | cons hr _ ih =>
    cases keys with
    | nil => rw [fieldTexts, fieldTexts] <;> rintro _ _ _ _ ⟨⟩
    | cons key keys => rw [fieldTexts, fieldTexts, hr.print, ih]

end Lists

section Entries
variable {es es' : List (Ref × Ref)}
  (h : List.Forall₂ (fun e e' => Ref.PrintsAs e.1 e'.1 ∧ Ref.PrintsAs e.2 e'.2) es es')
include h

theorem entryTexts_eq_of_forall₂ : entryTexts es' = entryTexts es := by
  induction h with
  | nil => rfl
  | @cons e e' _ _ he _ ih =>
    obtain ⟨k, v⟩ := e
    obtain ⟨k', v'⟩ := e'
    rw [entryTexts, entryTexts, he.1.print, he.2.print, ih]

end Entries

/-! ## Cells that print alike -/

/-- The elements of a vector are listed from the front to the tail. -/
theorem Vec.Alike.texts_eq {v u : Vec} (h : v.Alike Ref.PrintsAs u) : vecTexts u = vecTexts v := by
  cases h with
  | chunk hitems => rw [vecTexts, vecTexts, heldTexts_eq_of_forall₂ hitems]
  | tailed hfront hitems =>
    rw [vecTexts, vecTexts, hfront.texts, heldTexts_eq_of_forall₂ hitems]
  | tree hchildren => rw [vecTexts, vecTexts, refsTexts_eq_of_forall₂ hchildren]

/-- Ops print their parts: the elements of a vector of them, or a single one. -/
theorem Op.Alike.print_eq {o p : Op} (h : o.Alike Ref.PrintsAs p) : p.print = o.print := by
  cases h with
  | constant h => rw [Op.print, Op.print, h.print]
  | define h => rw [Op.print, Op.print, h.print]
  | lambda h hs => rw [Op.print, Op.print, h.print, hs.print]
  | bind h hs => rw [Op.print, Op.print, h.inside, hs.inside]
  | lookup symbol => rfl
  | _ h => rw [Op.print, Op.print, h.inside]

/-- Cells of one hash whose parts print alike print alike. -/
theorem Cell.Alike.printsAs {c d : Cell} (h : c.Alike Ref.PrintsAs d) (hhash : d.hash = c.hash) :
    c.PrintsAs d := by
  have hcontained : d.selfContained = c.selfContained :=
    h.selfContained_eq fun _ _ _ _ hr => hr.contained
  cases h with
  | @vector v u h =>
    refine ⟨?_, fun _ _ hv hu => ?_, hcontained⟩
    -- a vector is summed up by its hash where its elements cannot be listed
    · rw [print, print, Vec.hash, Vec.hash, hhash, h.texts_eq]
    · cases hv
      cases hu
      exact h.texts_eq
  | map h =>
    refine .of_not_vector rfl ?_ hcontained
    rw [print, print, entryTexts_eq_of_forall₂ h]
  | record h =>
    refine .of_not_vector rfl ?_ hcontained
    rw [print, print, fieldTexts_eq_of_forall₂ h]
  | op h =>
    refine .of_not_vector rfl ?_ hcontained
    rw [print, print, h.print_eq]
  | @fn f g h =>
    obtain ⟨params, body, env, name⟩ := f
    -- what a closure has captured is not printed
    obtain ⟨params', body', env', name'⟩ := g
    obtain ⟨hparams, hbody, -, -⟩ := h
    refine .of_not_vector rfl ?_ hcontained
    rw [print, print, hparams.print, hbody.print]
  | _ => exact .of_not_vector rfl rfl rfl

namespace Cell
variable {c d : Cell}

/-- Cells with the same content print alike, and so do their parts. -/
theorem Same.printsAs (h : c.Same d) : c.PrintsAs d := by
  -- on the cell: its parts print alike, whichever references lead to them
  induction c using Cell.induction generalizing d with
  | step c ih =>
    have halike : c.Alike Ref.PrintsAs d := h.alike.mono fun r hr s hsame => by
      obtain ⟨e, f, he, hf, hpart⟩ := hsame.held
      exact Ref.printsAs_of he hf hsame.embedded hpart.alike hpart.hash_eq (ih r hr e he hpart)
    exact halike.printsAs h.hash_eq

/-- Cells of the same content print alike. -/
theorem Same.print_eq (h : c.Same d) : d.print = c.print := h.printsAs.print

/-- Sizes are counts of elements and associations, or of the bytes of a payload. -/
theorem Alike.sizeText_eq {R : Ref → Ref → Prop} (h : c.Alike R d) : d.sizeText = c.sizeText := by
  cases h with
  | vector h =>
    rw [sizeText, sizeText, h.count_eq]
  | map h =>
    rw [sizeText, sizeText, h.length_eq]
  | _ => rfl

theorem Alike.summaryText_eq {R : Ref → Ref → Prop} (h : c.Alike R d) (hhash : d.hash = c.hash) :
    d.summaryText = c.summaryText := by
  have hkind : d.kind = c.kind := by
    cases h <;> rfl
  rw [summaryText, summaryText, hhash, h.sizeText_eq, hkind]

/-- Messages mention cells of the same content in the same way. -/
theorem Same.describe_eq (h : c.Same d) : d.describe = c.describe := by
  rw [describe, describe, h.isEmbeddable_eq, h.printsAs.contained, h.print_eq,
    h.alike.summaryText_eq h.hash_eq]

end Cell

end CellMachine
