import CellMachine.Proofs.Cell.Same
import CellMachine.Proofs.Vec.Comparing
import CellMachine.Proofs.Vec.Elements

/-!
# Vectors of the same content

Vectors have the same content exactly if their elements have, one by one. So an operation that does to
two lists of elements what another does to lists of the same content, does the same to the content of
vectors.

Main statements: `Vec.Lists.same` and `Vec.Lists.forall₂_same`; every intact cell has the same content
as itself (`Cell.Intact.same_refl`).
-/

namespace CellMachine

/-- References of the same content hold cells of the same content. -/
theorem Ref.Same.of_held {r s : Ref} {c d : Cell} (h : r.Same s) (hc : r.held? = some c)
    (hd : s.held? = some d) : c.Same d := by
  obtain ⟨e, f, he, hf, hsame⟩ := h.held
  cases hc.symm.trans he
  cases hd.symm.trans hf
  exact hsame

/-- References that tell the truth about cells of the same content hold it in the same way. -/
theorem Ref.Describes.same {r s : Ref} {c d : Cell} (hr : r.Describes c) (hs : s.Describes d)
    (hc : r.held? = some c) (hd : s.held? = some d) (h : c.Same d) : r.Same s :=
  ⟨by rw [hr.hash, hs.hash, h.hash_eq], by rw [hr.embedded, hs.embedded, h.isEmbeddable_eq],
    c, d, hc, hd, h⟩

/-- An intact cell has the content that it has. -/
theorem Cell.Intact.same_refl {c : Cell} (h : c.Intact) : c.Same c := by
  induction c using Cell.induction with
  | step c ih =>
    refine same_iff.2 (Cell.Alike.refl fun r hr => ?_)
    obtain ⟨d, hd, hintact, hdescribes⟩ := h.exists_held hr
    exact hdescribes.same hdescribes hd hd (ih r hr d hd hintact)

namespace Vec

variable {v u : Vec} {xs ys : List Cell}

/-- Intact vectors whose elements have the same content have the same content. -/
theorem Lists.same (hv : v.Lists xs) (hu : u.Lists ys) (h : List.Forall₂ Cell.Same xs ys) :
    v.cell.Same u.cell := by
  obtain ⟨w, hvalid⟩ := hv.intact.valid
  obtain ⟨w', hvalid'⟩ := hu.intact.valid
  refine Cell.same_iff.2 (.vector ?_)
  exact alike_of_toList (fun _ _ halike => Cell.same_iff.2 (.vector halike))
    (fun _ _ _ _ hc hd hr hs hsame => hr.same hs hc hd hsame) hvalid hvalid' hv.toList hu.toList h

/-- Items of the same content are elements of the same content. -/
theorem forall₂_same_of_items {items items' : List Ref} (h : List.Forall₂ Ref.Same items items')
    (hx : List.Forall₂ (fun r c => r.held? = some c) items xs)
    (hy : List.Forall₂ (fun r c => r.held? = some c) items' ys) : List.Forall₂ Cell.Same xs ys := by
  induction h generalizing xs ys with
  | nil =>
    cases hx
    cases hy
    exact .nil
  | cons hr _ ih =>
    cases hx with
    | cons hc hx =>
      cases hy with
      | cons hd hy => exact .cons (hr.of_held hc hd) (ih hx hy)

/-- Children of the same content have elements of the same content, by what is known of each child.
-/
theorem forall₂_same_of_parts {children children' : List Ref} {parts parts' : List (List Cell)}
    (h : List.Forall₂ Ref.Same children children')
    (hnode : ∀ r ∈ children, ∀ s ys zs, r.Same s → r.LeadsTo ys → s.LeadsTo zs →
      List.Forall₂ Cell.Same ys zs)
    (hx : List.Forall₂ Ref.LeadsTo children parts)
    (hy : List.Forall₂ Ref.LeadsTo children' parts') :
    List.Forall₂ Cell.Same parts.flatten parts'.flatten := by
  induction h generalizing parts parts' with
  | nil =>
    cases hx
    cases hy
    exact .nil
  | cons hr _ ih =>
    obtain ⟨hfirst, hnode⟩ := List.forall_mem_cons.1 hnode
    cases hx with
    | cons hys hx =>
      cases hy with
      | cons hzs hy => exact List.rel_append (hfirst _ _ _ hr hys hzs) (ih hnode hx hy)

/-- The elements of vectors of the same content have the same content. -/
theorem forall₂_same_of_toList (h : v.cell.Same u.cell) (hx : v.toList = .ok xs)
    (hy : u.toList = .ok ys) : List.Forall₂ Cell.Same xs ys := by
  induction v using Vec.induction generalizing u xs ys with
  | step v ih =>
    -- below a child the induction applies
    have hnode : ∀ r ∈ v.refs, ∀ s zs zs', r.Same s → r.LeadsTo zs → s.LeadsTo zs' →
        List.Forall₂ Cell.Same zs zs' := by
      rintro r hr s zs zs' hsame ⟨t, ht, hzs⟩ ⟨t', ht', hzs'⟩
      exact ih r hr t ht (hsame.of_held (Ref.vec_eq_ok_iff.1 ht) (Ref.vec_eq_ok_iff.1 ht')) hzs hzs'
    cases h.alike with
    | vector halike =>
      cases halike with
      | chunk hitems =>
        exact forall₂_same_of_items hitems (toList_chunk_eq_ok_iff.1 hx)
          (toList_chunk_eq_ok_iff.1 hy)
      | tailed hfront hitems =>
        obtain ⟨t, before, after, ht, hbefore, hafter, rfl⟩ := toList_tailed_eq_ok_iff.1 hx
        obtain ⟨t', before', after', ht', hbefore', hafter', rfl⟩ := toList_tailed_eq_ok_iff.1 hy
        exact List.rel_append (hnode _ front_mem_refs _ _ _ hfront ⟨t, ht, hbefore⟩
          ⟨t', ht', hbefore'⟩) (forall₂_same_of_items hitems hafter hafter')
      | tree hchildren =>
        obtain ⟨parts, hparts, rfl⟩ := toList_tree_eq_ok_iff.1 hx
        obtain ⟨parts', hparts', rfl⟩ := toList_tree_eq_ok_iff.1 hy
        exact forall₂_same_of_parts hchildren hnode hparts hparts'

/-- Vectors of the same content have elements of the same content. -/
theorem Lists.forall₂_same (hv : v.Lists xs) (hu : u.Lists ys) (h : v.cell.Same u.cell) :
    List.Forall₂ Cell.Same xs ys :=
  forall₂_same_of_toList h hv.toList hu.toList

end Vec

end CellMachine
