import CellMachine.Proofs.Cell.Alike
import CellMachine.Proofs.Vec.Listing

/-!
# Comparing vectors by their elements

The count of a valid vector settles its shape, on every level, and how the elements are divided among
the nodes below. So two valid vectors whose elements are related one by one are alike on every level:
whatever relation holds between the elements, and is handed up from related parts to their parents,
holds between nodes in the same places (`Vec.alike_of_toList`).
-/

namespace CellMachine.Vec

section Compare
variable {R : Ref → Ref → Prop} {Q : Cell → Cell → Prop} {w w' : Nat}

theorem forall₂_of_items {items items' : List Ref} {xs ys : List Cell}
    (hitem : ∀ r ∈ items, ∀ s ∈ items', ∀ c d, r.held? = some c → s.held? = some d → Q c d → R r s)
    (hx : List.Forall₂ (fun r c => r.held? = some c) items xs)
    (hy : List.Forall₂ (fun r c => r.held? = some c) items' ys) (h : List.Forall₂ Q xs ys) :
    List.Forall₂ R items items' := by
  induction h generalizing items items' with
  | nil =>
    cases hx
    cases hy
    exact .nil
  | cons hq _ ih =>
    cases hx with
    | cons hr hx =>
      cases hy with
      | cons hs hy =>
        -- the items are those of one position in both lists
        refine .cons (hitem _ List.mem_cons_self _ List.mem_cons_self _ _ hr hs hq) (ih ?_ hx hy)
        exact fun r hr s hs =>
          hitem r (List.mem_cons_of_mem _ hr) s (List.mem_cons_of_mem _ hs)

/-- Lists of related elements fall into related lists of the same lengths. -/
theorem forall₂_append {xs xs' ys ys' : List Cell} (h : List.Forall₂ Q (xs ++ xs') (ys ++ ys'))
    (hlen : xs.length = ys.length) : List.Forall₂ Q xs ys ∧ List.Forall₂ Q xs' ys' := by
  have htake := List.forall₂_take xs.length h
  have hdrop := List.forall₂_drop xs.length h
  rw [List.take_left' rfl, List.take_left' hlen.symm] at htake
  rw [List.drop_left' rfl, List.drop_left' hlen.symm] at hdrop
  exact ⟨htake, hdrop⟩

/-- Children that cut up related elements in the same way are related. -/
theorem forall₂_of_tiles {size n : Nat} {rs ss : List Ref} {xs ys : List Cell}
    (hrs : ∀ r ∈ rs, r.Valid w) (hss : ∀ s ∈ ss, s.Valid w') (hr : Tiles size n rs)
    (hs : Tiles size n ss)
    (hnode : ∀ r ∈ rs, ∀ s ∈ ss, ∀ v u zs zs', r.vec = .ok v → s.vec = .ok u → v.Valid w →
      u.Valid w' → v.toList = .ok zs → u.toList = .ok zs' → List.Forall₂ Q zs zs' → R r s)
    (hx : refsTraverse .ok rs = .ok xs) (hy : refsTraverse .ok ss = .ok ys)
    (h : List.Forall₂ Q xs ys) : List.Forall₂ R rs ss := by
  induction rs generalizing n ss xs ys with
  | nil =>
    have hn : n = 0 := hr
    cases ss with
    | nil => exact .nil
    | cons s ss =>
      have hpos : 0 < n := hs.1
      omega
  | cons r rs ih =>
    obtain ⟨hpos, hold, hr⟩ := hr
    cases ss with
    | nil =>
      have hn : n = 0 := hs
      omega
    | cons s ss =>
      obtain ⟨-, hold', hs⟩ := hs
      obtain ⟨hrv, hrs⟩ := List.forall_mem_cons.1 hrs
      obtain ⟨hsv, hss⟩ := List.forall_mem_cons.1 hss
      obtain ⟨v, first, rest, hv, hfirst, hrest, rfl⟩ := refsTraverse_cons_eq_ok_iff.1 hx
      obtain ⟨u, first', rest', hu, hfirst', hrest', rfl⟩ := refsTraverse_cons_eq_ok_iff.1 hy
      obtain ⟨hvv, hvcount⟩ := hrv.vec hold hv
      obtain ⟨huv, hucount⟩ := hsv.vec hold' hu
      -- the first two children hold equally many elements
      have hlen : first.length = first'.length := by
        rw [(spec_of_toList hvv hfirst).1, (spec_of_toList huv hfirst').1, hvcount, hucount]
      obtain ⟨hsame, hsame'⟩ := forall₂_append h hlen
      refine .cons (hnode r List.mem_cons_self s List.mem_cons_self v u first first' hv hu hvv huv
        hfirst hfirst' hsame) (ih hrs hss hr hs ?_ hrest hrest' hsame')
      exact fun r hr s hs => hnode r (List.mem_cons_of_mem _ hr) s (List.mem_cons_of_mem _ hs)

/-- Valid vectors with related elements are alike, if parents of alike parts are related and
references that tell the truth about related cells are. -/
theorem alike_of_toList (hvec : ∀ v u : Vec, v.Alike R u → Q v.cell u.cell)
    (href : ∀ (r s : Ref) (c d : Cell), r.held? = some c → s.held? = some d → r.Describes c →
      s.Describes d → Q c d → R r s)
    {v u : Vec} {xs ys : List Cell} (hv : v.Valid w) (hu : u.Valid w') (hx : v.toList = .ok xs)
    (hy : u.toList = .ok ys) (h : List.Forall₂ Q xs ys) : v.Alike R u := by
  induction v using Vec.induction generalizing u xs ys with
  | step v ih =>
    have hcount : u.count = v.count := by
      rw [← (spec_of_toList hv hx).1, ← (spec_of_toList hu hy).1, h.length_eq]
    have hitem : ∀ r ∈ v.refs, ∀ s ∈ u.refs, ∀ c d, r.held? = some c → s.held? = some d →
        Q c d → R r s := fun r hr s hs c d hc hd =>
      href r s c d hc hd (hv.refs hr c hc).1 (hu.refs hs d hd).1
    have hnode : ∀ r ∈ v.refs, ∀ s ∈ u.refs, ∀ t t' zs zs', r.vec = .ok t → s.vec = .ok t' →
        t.Valid w → t'.Valid w' → t.toList = .ok zs → t'.toList = .ok zs' →
        List.Forall₂ Q zs zs' → R r s := by
      intro r hr s hs t t' zs zs' ht ht' htv htv' hzs hzs' hq
      exact hitem r hr s hs _ _ (Ref.vec_eq_ok_iff.1 ht) (Ref.vec_eq_ok_iff.1 ht')
        (hvec t t' (ih r hr t ht htv htv' hzs hzs' hq))
    cases v with
    | chunk items =>
      obtain ⟨items', rfl⟩ := hu.shaped.exists_chunk hcount hv.shaped
      exact .chunk (forall₂_of_items hitem (toList_chunk_eq_ok_iff.1 hx)
        (toList_chunk_eq_ok_iff.1 hy) h)
    | tailed n front items =>
      obtain ⟨hn, -, hlen, hold⟩ := id hv.shaped
      have hcount : u.count = n := hcount
      obtain ⟨front', items', rfl⟩ := hu.shaped.exists_tailed hcount hn hv.shaped.mod_ne_zero
      obtain ⟨-, -, hlen', hold'⟩ := id hu.shaped
      obtain ⟨t, before, after, ht, hbefore, hafter, rfl⟩ := toList_tailed_eq_ok_iff.1 hx
      obtain ⟨t', before', after', ht', hbefore', hafter', rfl⟩ := toList_tailed_eq_ok_iff.1 hy
      obtain ⟨htv, htcount⟩ := hv.front.vec hold ht
      obtain ⟨htv', htcount'⟩ := hu.front.vec hold' ht'
      -- the fronts hold equally many elements
      have hfront : before.length = before'.length := by
        rw [(spec_of_toList htv hbefore).1, (spec_of_toList htv' hbefore').1, htcount, htcount',
          hlen, hlen']
      obtain ⟨hsame, hsame'⟩ := forall₂_append h hfront
      refine .tailed ?_ (forall₂_of_items (fun r hr s hs => ?_) hafter hafter' hsame')
      · exact hnode front front_mem_refs front' front_mem_refs t t' before before' ht ht' htv htv'
          hbefore hbefore' hsame
      · exact hitem r (item_mem_refs hr) s (item_mem_refs hs)
    | tree n children =>
      obtain ⟨hn, hmod, htiles⟩ := id hv.shaped
      have hcount : u.count = n := hcount
      obtain ⟨children', rfl⟩ := hu.shaped.exists_tree hcount hn hmod
      obtain ⟨-, -, htiles'⟩ := id hu.shaped
      rw [toList_tree] at hx hy
      exact .tree (forall₂_of_tiles (fun r hr => hv.refs hr) (fun r hr => hu.refs hr) htiles htiles'
        hnode hx hy h)

end Compare

end CellMachine.Vec
