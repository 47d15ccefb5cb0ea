import CellMachine.Proofs.Built
import CellMachine.Proofs.Vec.Comparing

/-!
# One form for every sequence

Valid vectors with the same elements are alike on every level, since the count settles the shape
(`Vec.alike_of_toList`), and a valid reference is written in one way only, whoever made it. So a
sequence of elements has one encoding, whatever the vector that has it went through
(`Vec.encode_eq_of_toList`).

Main statement: `Built.toList_canonical`.
-/

namespace CellMachine

variable {w : Nat}

/-! ## References are written in one way -/

/-- A new parent writes cells of the same encoding in the same way. -/
theorem Ref.encode_of_congr {c d : Cell} (h : c.encode = d.encode) :
    (Ref.of c).encode = (Ref.of d).encode := by
  rw [encode_of, encode_of, Cell.isEmbeddable, Cell.isEmbeddable, Cell.hash, Cell.hash, h]

/-- A reference that tells the truth is written as a new parent would write it. -/
theorem Ref.Describes.encode_eq {r : Ref} {c : Cell} (h : r.Describes c) (hc : r.held? = some c) :
    r.encode = (Ref.of c).encode := by
  rw [encode_of, ← h.embedded, ← h.hash]
  cases r with
  | embedded hash loaded d =>
    cases hc
    rw [Ref.encode]
    rfl
  | direct | cached | remote =>
    rw [Ref.encode]
    rfl

namespace Vec

/-! ## One encoding for a sequence of elements -/

/-- Valid vectors with the same elements have the same encoding. -/
theorem encode_eq_of_toList {v u : Vec} {xs ys : List Cell} (hv : v.Valid w) (hu : u.Valid w)
    (hx : v.toList = .ok xs) (hy : u.toList = .ok ys)
    (h : xs.map Cell.encode = ys.map Cell.encode) : v.cell.encode = u.cell.encode := by
  have hwritten : List.Forall₂ (fun c d => d.encode = c.encode) xs ys := by
    rw [← List.forall₂_eq_eq_eq, List.forall₂_map_left_iff, List.forall₂_map_right_iff] at h
    exact h.imp fun _ _ => Eq.symm
  have halike : v.Alike (fun r s => s.encode = r.encode) u := by
    refine alike_of_toList (fun v u h => ?_) (fun r s c d hc hd hr hs hq => ?_) hv hu hx hy hwritten
    · rw [Cell.encode, Cell.encode, h.encode_eq fun _ _ hr => hr]
    · rw [hr.encode_eq hc, hs.encode_eq hd]
      exact Ref.encode_of_congr hq
  rw [Cell.encode, Cell.encode, halike.encode_eq fun _ _ hr => hr]

/-- A valid vector has the encoding of the vector that is built from its elements. -/
theorem Valid.encode_of_toList {v : Vec} {xs : List Cell} (hv : v.Valid w)
    (h : v.toList = .ok xs) : (Vec.of xs).cell.encode = v.cell.encode := by
  have hmono := Nat.le_add_right w xs.length
  have hxs : ∀ x ∈ xs, x.Valid (w + xs.length) := fun x hx =>
    ((spec_of_toList hv h).2 x hx).mono hmono
  have hof := (valid_of hxs (Nat.le_add_left _ _)).1
  exact encode_eq_of_toList hof (hv.mono hmono) (toList_of xs) h rfl

end Vec

/-- Vectors have a canonical form. A loaded vector, whether it was built by operations, decoded or
loaded from a store, lists as many elements as its count says, and the vector that is built from
this list has its encoding and its hash. So has any other vector with the same elements, whatever
it came about from. -/
theorem Built.toList_canonical {stores : List Store} {w : Nat} {v : Vec}
    (h : Built stores w v.cell) (hloaded : v.cell.loaded = true) :
    ∃ xs, v.toList = .ok xs ∧ xs.length = v.count ∧
      (Vec.of xs).cell.encode = v.cell.encode ∧ (Vec.of xs).hash = v.hash ∧
      ∀ (stores' : List Store) (w' : Nat) (u : Vec) (ys : List Cell), Built stores' w' u.cell →
        u.toList = .ok ys → ys.map Cell.encode = xs.map Cell.encode →
          u.cell.encode = v.cell.encode := by
  have hvalid : v.Valid (w + 2 ^ 59) := h.valid (.inr (Nat.le_refl _))
  obtain ⟨xs, hxs⟩ := Vec.exists_toList hvalid hloaded
  have hsame := hvalid.encode_of_toList hxs
  refine ⟨xs, hxs, (Vec.spec_of_toList hvalid hxs).1, hsame, ?_, ?_⟩
  · rw [Vec.hash, Vec.hash, Cell.hash, Cell.hash, hsame]
  · intro stores' w' u ys hu hys hmap
    have huvalid : u.Valid (w' + 2 ^ 59) := hu.valid (.inr (Nat.le_refl _))
    exact Vec.encode_eq_of_toList (w := max (w + 2 ^ 59) (w' + 2 ^ 59))
      (huvalid.mono (Nat.le_max_right _ _)) (hvalid.mono (Nat.le_max_left _ _)) hys hxs hmap

/-- A vector with an element pushed onto it is the vector of its elements. -/
theorem Built.toList_canonical_pushed :
    ∃ v, (Vec.of [.long 5, .nil]).push (.bool true) = .ok v ∧ v.cell.loaded = true ∧
      ∃ xs, v.toList = .ok xs ∧ xs.length = v.count ∧
        (Vec.of xs).cell.encode = v.cell.encode ∧ (Vec.of xs).hash = v.hash ∧
        ∀ (stores' : List Store) (w' : Nat) (u : Vec) (ys : List Cell), Built stores' w' u.cell →
          u.toList = .ok ys → ys.map Cell.encode = xs.map Cell.encode →
            u.cell.encode = v.cell.encode := by
  have hitems : ∀ c ∈ [Cell.long 5, .nil], Built [] 0 c :=
    List.forall_mem_cons.2 ⟨.long 5, List.forall_mem_singleton.2 .nil⟩
  have hbuilt := Built.push (.vector hitems) (.mono (.bool true) (Nat.zero_le _)) rfl
  exact ⟨_, rfl, rfl, hbuilt.toList_canonical rfl⟩

end CellMachine
