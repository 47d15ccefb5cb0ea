import CellMachine.Proofs.Cell.Compound
import CellMachine.Proofs.Cell.Printing
import CellMachine.Proofs.Table.Entries

/-!
# Well-formed programs, and cells that cannot be told apart

An op is *proper* if ops stand where ops are evaluated and symbols where symbols are bound, and a
closure if moreover symbols are the keys of its bindings. A cell is *well-formed* if it is intact and
every op and closure inside it is proper. The constructors see to all of this; the structural checks do
not look into vectors and leave some of it open.

Two cells are *twins* if both are intact and have the same content. Evaluation is studied by running two
machines side by side, on twins. A parameter says whether the cells are well-formed as well: `strict` is
any proposition, and only if it is true is anything claimed about ops and closures. So one pass over the
evaluator serves for running one program twice in different places, where nothing is known of it, and
for running a well-formed program at all, beside itself.

What the constructors of vectors, maps and closures make of twins are twins.
-/

namespace CellMachine

/-! ## Proper ops and closures -/

/-- A symbol. -/
def Cell.IsSymbol (c : Cell) : Prop := ∃ n, c = .symbol n

/-- A reference to a vector all of whose elements are symbols. -/
def Ref.HoldsSymbols (r : Ref) : Prop := ∃ xs, r.LeadsTo xs ∧ ∀ x ∈ xs, x.IsSymbol

/-- A reference to an op. -/
def Ref.HoldsOp (r : Ref) : Prop := ∃ c, r.held? = some c ∧ c.isOp = true

/-- An op with ops where ops are evaluated and symbols where symbols are bound, with an op for each
symbol that it binds and with a function to invoke. -/
def Op.Proper : Op → Prop
  | .constant _ | .lookup _ => True
  | .define _ value => value.HoldsOp
  | .sequence ops | .choose ops => ∃ xs, ops.LeadsTo xs ∧ ∀ x ∈ xs, x.isOp = true
  | .invoke ops => ∃ xs, ops.LeadsTo xs ∧ xs ≠ [] ∧ ∀ x ∈ xs, x.isOp = true
  | .bind symbols ops => ∃ ys xs, symbols.LeadsTo ys ∧ ops.LeadsTo xs ∧ ys.length ≤ xs.length ∧
      (∀ y ∈ ys, y.IsSymbol) ∧ ∀ x ∈ xs, x.isOp = true
  | .lambda params body => params.HoldsSymbols ∧ body.HoldsOp

/-- A closure whose parameters are symbols, whose body is an op and whose bindings are those of
symbols. -/
def Closure.Proper (c : Closure) : Prop :=
  c.params.HoldsSymbols ∧ c.body.HoldsOp ∧ ∃ entries, c.env.held? = some (.map entries) ∧
    ∀ e ∈ entries, ∃ k, e.1.held? = some k ∧ k.IsSymbol

/-- A cell that is proper if it is an op or a closure. -/
def Cell.Proper : Cell → Prop
  | .op o => o.Proper
  | .fn c => c.Proper
  | _ => True

/-- An intact cell in which all ops and closures are proper, at any depth. -/
structure Cell.WellFormed (c : Cell) : Prop where
  intact : c.Intact
  proper : ∀ d, c.Contains d → d.Proper

/-- An intact cell, which is well-formed if `strict` holds. -/
structure Cell.Fit (strict : Prop) (c : Cell) : Prop where
  intact : c.Intact
  proper : strict → ∀ d, c.Contains d → d.Proper

/-- Cells that evaluation cannot tell apart. -/
structure Cell.Twin (strict : Prop) (c d : Cell) : Prop where
  left : c.Fit strict
  right : d.Fit strict
  same : c.Same d

/-- References that are held in the same way and hold twins. -/
structure Ref.Twin (strict : Prop) (r s : Ref) : Prop where
  same : r.Same s
  held : ∃ c d, r.held? = some c ∧ s.held? = some d ∧ c.Twin strict d

variable {strict : Prop}

theorem Cell.IsSymbol.symbol?_isSome {c : Cell} (h : c.IsSymbol) : c.symbol?.isSome = true := by
  obtain ⟨n, rfl⟩ := h
  rfl

/-- A reference leads to one list of elements at most. -/
theorem Ref.LeadsTo.unique {r : Ref} {xs ys : List Cell} (h : r.LeadsTo xs) (h' : r.LeadsTo ys) :
    xs = ys := by
  obtain ⟨u, hu, hxs⟩ := h
  obtain ⟨u', hu', hys⟩ := h'
  cases hu.symm.trans hu'
  cases hxs.symm.trans hys
  rfl

namespace Cell
variable {c d : Cell}

/-- Of well-formed programs every op and closure must be proper. -/
theorem fit_true_iff : c.Fit True ↔ c.WellFormed :=
  ⟨fun h => ⟨h.intact, h.proper trivial⟩, fun h => ⟨h.intact, fun _ => h.proper⟩⟩

theorem fit_false_iff : c.Fit False ↔ c.Intact :=
  ⟨fun h => h.intact, fun h => ⟨h, False.elim⟩⟩

theorem Fit.of_contains (hc : c.Fit strict) (h : c.Contains d) : d.Fit strict :=
  ⟨hc.intact.of_contains h, fun hs e he => hc.proper hs e (h.trans he)⟩

/-- A valid cell is fit if it is proper and the cells that it holds are fit. -/
theorem fit_of_refs (hvalid : ∃ w, c.Valid w) (hproper : strict → c.Proper)
    (h : ∀ r ∈ c.refs, ∃ d, r.held? = some d ∧ d.Fit strict) : c.Fit strict := by
  obtain ⟨w, hvalid⟩ := hvalid
  refine ⟨⟨loaded_iff.2 fun r hr => ?_, w, hvalid⟩, fun hs d hd => ?_⟩
  · obtain ⟨d, hd, hfit⟩ := h r hr
    rw [(hvalid.refs hr d hd).1.loaded]
    exact hfit.intact.loaded
  · obtain rfl | ⟨r, hr, e, he, hcontains⟩ := contains_iff.1 hd
    · exact hproper hs
    · obtain ⟨e', he', hfit⟩ := h r hr
      cases he.symm.trans he'
      exact hfit.proper hs d hcontains

theorem Fit.twin_self (h : c.Fit strict) : c.Twin strict c := ⟨h, h, h.intact.same_refl⟩

/-- Intact cells of the same content are twins, whatever they are as programs. -/
theorem Intact.twin (hc : c.Intact) (hd : d.Intact) (h : c.Same d) : c.Twin False d :=
  ⟨fit_false_iff.2 hc, fit_false_iff.2 hd, h⟩

/-- A valid cell without references is its own twin. -/
theorem twin_of_no_refs (shaped : c.Shaped) (room : c.Room 0) (hproper : c.Proper)
    (h : c.refs = []) : c.Twin strict c := by
  refine (fit_of_refs ⟨0, valid_of_no_refs shaped room h⟩ (fun _ => hproper) fun r hr => ?_).twin_self
  rw [h] at hr
  cases hr

theorem twin_nil : nil.Twin strict nil := twin_of_no_refs rfl trivial trivial rfl
theorem twin_bool (b : Bool) : (bool b).Twin strict (bool b) :=
  twin_of_no_refs rfl trivial trivial rfl
theorem twin_long (n : Int64) : (long n).Twin strict (long n) :=
  twin_of_no_refs rfl trivial trivial rfl
theorem twin_text (s : Text) : (text s).Twin strict (text s) :=
  twin_of_no_refs rfl trivial trivial rfl
theorem twin_blob (b : Blob) : (blob b).Twin strict (blob b) :=
  twin_of_no_refs rfl trivial trivial rfl
theorem twin_symbol (n : Name) : (symbol n).Twin strict (symbol n) :=
  twin_of_no_refs rfl trivial trivial rfl
theorem twin_core (f : CoreFn) : (core f).Twin strict (core f) :=
  twin_of_no_refs rfl trivial trivial rfl

/-- The references of twins hold twins. -/
theorem Twin.alike (h : c.Twin strict d) : c.Alike (Ref.Twin strict) d := by
  refine h.same.alike.imp_of_mem fun r hr s hs hsame => ⟨hsame, ?_⟩
  obtain ⟨e, f, he, hf, hpart⟩ := hsame.held
  exact ⟨e, f, he, hf, h.left.of_contains (contains_of_held hr he),
    h.right.of_contains (contains_of_held hs hf), hpart⟩

/-- Fit cells are twins if they are alike and their references hold twins. -/
theorem Alike.twin (h : c.Alike (Ref.Twin strict) d) (hc : c.Fit strict) (hd : d.Fit strict) :
    c.Twin strict d :=
  ⟨hc, hd, same_iff.2 (h.mono fun _ _ _ hr => hr.same)⟩

/-- The structure of a twin has been checked already. -/
theorem Twin.check_eq (h : c.Twin strict d) : c.check = .ok () := by
  obtain ⟨w, hvalid⟩ := h.left.intact.valid
  exact hvalid.shaped.check

theorem Twin.isTruthy_eq (h : c.Twin strict d) : d.isTruthy = c.isTruthy := by
  cases h.alike <;> rfl

theorem Twin.isOp_eq (h : c.Twin strict d) : d.isOp = c.isOp := by
  cases h.alike <;> rfl

end Cell

/-- New parents of twins hold them by references that are twins. -/
theorem Ref.twin_of {c d : Cell} (h : c.Twin strict d) : (Ref.of c).Twin strict (Ref.of d) :=
  ⟨Ref.same_of h.same, c, d, Ref.held?_of c, Ref.held?_of d, h⟩

/-! ## Vectors of twins -/

namespace Vec
variable {v u : Vec} {xs ys : List Cell}

/-- A vector of fit elements is fit. -/
theorem Lists.fit (h : v.Lists xs) (hxs : ∀ x ∈ xs, x.Fit strict) : v.cell.Fit strict := by
  refine ⟨h.intact, fun hs d hd => ?_⟩
  obtain ⟨u, -, rfl, -⟩ | ⟨x, hx, hcontains⟩ := Vec.mem_of_contains h.toList hd
  · exact trivial
  · exact (hxs x hx).proper hs d hcontains

/-- Vectors of twins are twins, since what they hold fixes their shape. -/
theorem twin_of_lists (hv : v.Lists xs) (hu : u.Lists ys)
    (h : List.Forall₂ (Cell.Twin strict) xs ys) : v.cell.Twin strict u.cell := by
  refine ⟨hv.fit fun x hx => ?_, hu.fit fun y hy => ?_, hv.same hu (h.imp fun _ _ hxy => hxy.same)⟩
  · obtain ⟨y, -, hxy⟩ := exists_of_forall₂_left h hx
    exact hxy.left
  · obtain ⟨x, -, hxy⟩ := exists_of_forall₂_right h hy
    exact hxy.right

/-- The elements of twins are twins. -/
theorem exists_lists_of_twin (h : v.cell.Twin strict u.cell) :
    ∃ xs ys, v.Lists xs ∧ u.Lists ys ∧ List.Forall₂ (Cell.Twin strict) xs ys := by
  obtain ⟨xs, hv⟩ := exists_lists h.left.intact
  obtain ⟨ys, hu⟩ := exists_lists h.right.intact
  refine ⟨xs, ys, hv, hu, ?_⟩
  have hsame := hv.forall₂_same hu h.same
  refine List.forall₂_iff_get.2 ⟨hsame.length_eq, fun i hi hi' => ?_⟩
  have hx := contains_of_toList hv.toList (xs.get_mem ⟨i, hi⟩)
  have hy := contains_of_toList hu.toList (ys.get_mem ⟨i, hi'⟩)
  exact ⟨h.left.of_contains hx, h.right.of_contains hy, hsame.get hi hi'⟩

theorem count_eq_of_twin (h : v.cell.Twin strict u.cell) : u.count = v.count := by
  obtain ⟨xs, ys, hv, hu, hxs⟩ := exists_lists_of_twin h
  rw [← hv.length_eq, ← hu.length_eq, hxs.length_eq]

theorem twin_of (h : List.Forall₂ (Cell.Twin strict) xs ys) :
    (Vec.of xs).cell.Twin strict (Vec.of ys).cell := by
  refine twin_of_lists (lists_of fun x hx => ?_) (lists_of fun y hy => ?_) h
  · obtain ⟨y, -, hxy⟩ := exists_of_forall₂_left h hx
    exact hxy.left.intact
  · obtain ⟨x, -, hxy⟩ := exists_of_forall₂_right h hy
    exact hxy.right.intact

theorem twin_empty : empty.cell.Twin strict empty.cell := twin_of_lists lists_empty lists_empty .nil

/-- Pushing twins onto twins gives twins. -/
theorem twin_push (h : v.cell.Twin strict u.cell) {c d : Cell} (hc : c.Twin strict d) :
    ∃ v' u', v.push c = .ok v' ∧ u.push d = .ok u' ∧ v'.cell.Twin strict u'.cell := by
  obtain ⟨xs, ys, hv, hu, hxs⟩ := exists_lists_of_twin h
  obtain ⟨v', hv', hlist⟩ := hv.push hc.left.intact
  obtain ⟨u', hu', hlist'⟩ := hu.push hc.right.intact
  exact ⟨v', u', hv', hu', twin_of_lists hlist hlist' (List.rel_append hxs (.cons hc .nil))⟩

/-- So does pushing them one after another. -/
theorem twin_pushAll (h : v.cell.Twin strict u.cell) {cs ds : List Cell}
    (hcs : List.Forall₂ (Cell.Twin strict) cs ds) : ∃ v' u', cs.foldlM Vec.push v = .ok v' ∧
      ds.foldlM Vec.push u = .ok u' ∧ v'.cell.Twin strict u'.cell := by
  induction hcs generalizing v u with
  | nil => exact ⟨v, u, rfl, rfl, h⟩
  | cons hcd _ ih =>
    obtain ⟨v', u', hv', hu', hvu⟩ := twin_push h hcd
    rw [List.foldlM_cons, List.foldlM_cons, hv', hu']
    exact ih hvu

/-- Appending twins to twins gives twins. -/
theorem twin_append (h : v.cell.Twin strict u.cell) {t s : Vec} (ht : t.cell.Twin strict s.cell) :
    ∃ v' u', v.append t = .ok v' ∧ u.append s = .ok u' ∧ v'.cell.Twin strict u'.cell := by
  obtain ⟨xs, ys, hv, hu, hxs⟩ := exists_lists_of_twin h
  obtain ⟨zs, zs', ht, hs, hzs⟩ := exists_lists_of_twin ht
  obtain ⟨v', hv', hlist⟩ := hv.append ht
  obtain ⟨u', hu', hlist'⟩ := hu.append hs
  exact ⟨v', u', hv', hu', twin_of_lists hlist hlist' (List.rel_append hxs hzs)⟩

/-- Elements of twins at the same position are twins. -/
theorem twin_get (h : v.cell.Twin strict u.cell) {i : Nat} (hi : i < v.count) :
    ∃ c d, v.get i = .ok c ∧ u.get i = .ok d ∧ c.Twin strict d := by
  obtain ⟨xs, ys, hv, hu, hxs⟩ := exists_lists_of_twin h
  have hx : i < xs.length := by rwa [hv.length_eq]
  have hy : i < ys.length := by rwa [← hxs.length_eq]
  exact ⟨xs[i], ys[i], hv.get hx, hu.get hy, hxs.get hx hy⟩

end Vec

/-- References to vectors lead to vectors that are twins. -/
theorem Ref.Twin.exists_vec {r s : Ref} (h : r.Twin strict s) {expected : String}
    (hkind : r.requireKind expected Cell.isVector = .ok ()) :
    ∃ v u, r.vec = .ok v ∧ s.vec = .ok u ∧ v.cell.Twin strict u.cell := by
  obtain ⟨c, d, hc, hd, htwin⟩ := h.held
  have hvec := Ref.requireKind_eq_ok_iff.1 hkind c hc
  cases htwin.alike with
  | @vector v u _ => exact ⟨v, u, Ref.vec_eq_ok_iff.2 hc, Ref.vec_eq_ok_iff.2 hd, htwin⟩
  | _ => cases hvec

/-- The elements of the vectors behind references are twins. -/
theorem Ref.Twin.exists_elements {r s : Ref} (h : r.Twin strict s) {expected : String}
    (hkind : r.requireKind expected Cell.isVector = .ok ()) :
    ∃ xs ys, r.LeadsTo xs ∧ s.LeadsTo ys ∧ List.Forall₂ (Cell.Twin strict) xs ys := by
  obtain ⟨v, u, hv, hu, htwin⟩ := h.exists_vec hkind
  obtain ⟨xs, ys, hxs, hys, htwins⟩ := Vec.exists_lists_of_twin htwin
  exact ⟨xs, ys, ⟨v, hv, hxs.toList⟩, ⟨u, hu, hys.toList⟩, htwins⟩

/-! ## Maps of twins -/

namespace Table

/-- Keys with the same hashes go in at the same place. -/
theorem forall₂_insertEntry {R S : Ref → Ref → Prop} (hR : ∀ r s, R r s → s.hash = r.hash)
    {es es' : List (Ref × Ref)} (h : List.Forall₂ (fun e e' => R e.1 e'.1 ∧ S e.2 e'.2) es es')
    {k k' v v' : Ref} (hk : R k k') (hv : S v v') :
    List.Forall₂ (fun e e' => R e.1 e'.1 ∧ S e.2 e'.2) (insertEntry k v es)
      (insertEntry k' v' es') := by
  induction h with
  | nil => exact .cons ⟨hk, hv⟩ .nil
  | @cons e e' es es' he hes ih =>
    obtain ⟨l, x⟩ := e
    obtain ⟨l', x'⟩ := e'
    rw [insertEntry, insertEntry, hR k k' hk, hR l l' he.1]
    -- both sides compare the same two hashes, by `hR`
    by_cases hlt : l.hash < k.hash
    · rw [if_pos hlt, if_pos hlt]
      exact .cons he ih
    · rw [if_neg hlt, if_neg hlt]
      by_cases heq : l.hash = k.hash
      · rw [if_pos heq, if_pos heq]
        exact .cons ⟨he.1, hv⟩ hes
      · rw [if_neg heq, if_neg heq]
        exact .cons ⟨hk, hv⟩ (.cons he hes)

/-- Maps with twins for entries are checked with the same result. -/
theorem checked_twin {t t' : Table}
    (h : List.Forall₂ (fun e e' => Ref.Twin strict e.1 e'.1 ∧ Ref.Twin strict e.2 e'.2) t.entries
      t'.entries)
    (hfit : ∀ u, t.checked = .ok u → u.cell.Fit strict)
    (hfit' : ∀ u, t'.checked = .ok u → u.cell.Fit strict) :
    Paired (fun e e' => e' = e ∧ ∃ v, e = .violation v)
      (fun u u' => u.cell.Twin strict u'.cell) t.checked t'.checked := by
  have halike : t.cell.Alike (Ref.Twin strict) t'.cell := .map h
  have hencode : t'.cell.encode = t.cell.encode :=
    (Cell.same_iff.2 (halike.mono fun _ _ _ hr => hr.same)).encode_eq
  unfold checked at *
  simp only [hencode] at *
  by_cases hlong : maxEncoding < t.cell.encode.length
  · rw [if_pos hlong, if_pos hlong]
    exact .error ⟨rfl, _, rfl⟩
  · rw [if_neg hlong, if_neg hlong] at *
    exact .ok (halike.twin (hfit t rfl) (hfit' t' rfl))

/-- A map of fit keys and values is fit. -/
theorem fit_ofList {es : List (Cell × Cell)} (h : ∀ e ∈ es, e.1.Fit strict ∧ e.2.Fit strict)
    {t : Table} (ht : ofList es = .ok t) : t.cell.Fit strict := by
  obtain ⟨w, hw⟩ : ∃ w, ∀ e ∈ es, e.1.Valid w ∧ e.2.Valid w := by
    have hkeys : ∀ c ∈ es.map Prod.fst, c.Intact :=
      List.forall_mem_map.2 fun e he => (h e he).1.intact
    have hvalues : ∀ c ∈ es.map Prod.snd, c.Intact :=
      List.forall_mem_map.2 fun e he => (h e he).2.intact
    obtain ⟨w, hkeys⟩ := Cell.exists_valid hkeys
    obtain ⟨w', hvalues⟩ := Cell.exists_valid hvalues
    refine ⟨max w w', fun e he => ⟨?_, ?_⟩⟩
    · exact (hkeys e.1 (List.mem_map_of_mem he)).mono (Nat.le_max_left w w')
    · exact (hvalues e.2 (List.mem_map_of_mem he)).mono (Nat.le_max_right w w')
  -- an entry of the map is one of those that it was made of
  have hentries := forall_mem_ofList (P := fun r => ∃ d, r.held? = some d ∧ d.Fit strict)
    (Q := fun r => ∃ d, r.held? = some d ∧ d.Fit strict)
    (fun e he => ⟨⟨e.1, Ref.held?_of e.1, (h e he).1⟩, e.2, Ref.held?_of e.2, (h e he).2⟩) ht
  refine Cell.fit_of_refs ⟨w, valid_ofList hw ht⟩ (fun _ => trivial) fun r hr => ?_
  obtain ⟨e, he, rfl | rfl⟩ := Cell.mem_map_refs_iff.1 hr
  · exact (hentries e he).1
  · exact (hentries e he).2

/-- Lists of associations of twins make maps that are twins, or both are too long. -/
theorem twin_ofList {es es' : List (Cell × Cell)}
    (h : List.Forall₂ (fun e e' => Cell.Twin strict e.1 e'.1 ∧ Cell.Twin strict e.2 e'.2) es es') :
    Paired (fun e e' => e' = e ∧ ∃ v, e = .violation v)
      (fun u u' => u.cell.Twin strict u'.cell) (ofList es) (ofList es') := by
  refine checked_twin ?_ (fun u hu => fit_ofList (fun e he => ?_) hu)
    fun u hu => fit_ofList (fun e he => ?_) hu
  · refine List.rel_foldl (fun _ _ hes e e' he => ?_) .nil h
    exact forall₂_insertEntry (fun _ _ hr => hr.same.hash) hes (Ref.twin_of he.1) (Ref.twin_of he.2)
  · obtain ⟨e', -, hkey, hvalue⟩ := exists_of_forall₂_left h he
    exact ⟨hkey.left, hvalue.left⟩
  · obtain ⟨e', -, hkey, hvalue⟩ := exists_of_forall₂_right h he
    exact ⟨hkey.right, hvalue.right⟩

/-- The entries of twins are twins. -/
theorem exists_toList_of_twin {t t' : Table} (h : t.cell.Twin strict t'.cell) :
    ∃ es es', t.toList = .ok es ∧ t'.toList = .ok es' ∧
      List.Forall₂ (fun e e' => Cell.Twin strict e.1 e'.1 ∧ Cell.Twin strict e.2 e'.2) es es' := by
  obtain ⟨entries⟩ := t
  obtain ⟨entries'⟩ := t'
  have halike : (Cell.map entries).Alike (Ref.Twin strict) (.map entries') := h.alike
  simp only [toList_eq_ok_iff]
  clear h
  cases halike with
  | map hentries =>
    induction hentries with
    | nil => exact ⟨[], [], .nil, .nil, .nil⟩
    -- both references of an entry are held on both sides
    | cons he _ ih =>
      obtain ⟨es, es', hes, hes', htwins⟩ := ih
      obtain ⟨k, k', hk, hk', hkey⟩ := he.1.held
      obtain ⟨v, v', hv, hv', hvalue⟩ := he.2.held
      exact ⟨(k, v) :: es, (k', v') :: es', .cons ⟨hk, hv⟩ hes, .cons ⟨hk', hv'⟩ hes',
        .cons ⟨hkey, hvalue⟩ htwins⟩

/-- A map whose keys are symbols. -/
def OfSymbols (t : Table) : Prop := ∀ e ∈ t.entries, ∃ k, e.1.held? = some k ∧ k.IsSymbol

/-- A map that is made of associations from symbols has symbols for keys. -/
theorem ofSymbols_ofList {es : List (Cell × Cell)} (h : ∀ e ∈ es, e.1.IsSymbol) {t : Table}
    (ht : ofList es = .ok t) : t.OfSymbols := by
  have hkeys := forall_mem_ofList (P := fun r => ∃ k, r.held? = some k ∧ k.IsSymbol)
    (Q := fun _ => True) (fun e he => ⟨⟨e.1, Ref.held?_of e.1, h e he⟩, trivial⟩) ht
  exact fun e he => (hkeys e he).1

end Table

/-! ## Closures of twins -/

/-- Refusals in both of two runs, for the same reason, where nothing is claimed of programs. -/
def Refused (strict : Prop) {α : Type} (e e' : α) : Prop := e' = e ∧ ¬ strict

/-- Twins are ops together. If they are not, the refusal prints them alike. -/
theorem Cell.requireOp_twin {c d : Cell} (h : c.Twin strict d) (hop : strict → c.isOp = true) :
    Paired (Refused strict) (fun _ _ => True) c.requireOp d.requireOp := by
  unfold requireOp
  rw [h.isOp_eq, h.same.print_eq]
  by_cases hc : c.isOp = true
  · rw [if_pos hc]
    exact .ok trivial
  · rw [if_neg hc]
    exact .error ⟨rfl, fun hs => hc (hop hs)⟩

theorem Cell.requireSymbol_twin {c d : Cell} (h : c.Twin strict d) (hsymbol : strict → c.IsSymbol) :
    Paired (Refused strict) Eq c.requireSymbol d.requireSymbol := by
  have hprint := h.same.print_eq
  cases h.alike with
  | symbol n => exact .ok rfl
  | _ =>
    refine .error ⟨?_, fun hs => ?_⟩
    · rw [hprint]
    · cases (hsymbol hs).symbol?_isSome

theorem Cell.requireSymbol_eq_ok_iff {c : Cell} {n : Name} :
    c.requireSymbol = .ok n ↔ c = .symbol n := by
  constructor
  · intro h
    cases c with
    | symbol m =>
      cases h
      rfl
    | _ => cases h
  · rintro rfl
    rfl

namespace Closure

/-- The symbols of twin vectors are the same list. -/
theorem requireSymbols_twin {v u : Vec} (h : v.cell.Twin strict u.cell)
    (hsymbols : strict → ∀ xs, v.Lists xs → ∀ x ∈ xs, x.IsSymbol) :
    Paired (Refused strict) Eq (requireSymbols v) (requireSymbols u) := by
  obtain ⟨xs, ys, hv, hu, hxs⟩ := Vec.exists_lists_of_twin h
  rw [requireSymbols, requireSymbols, Vec.traverse_of_toList _ hv.toList,
    Vec.traverse_of_toList _ hu.toList]
  -- that the elements are symbols is asked on one side only; the other side follows
  have hpairs : List.Forall₂ (fun x y => (strict → x.IsSymbol) ∧ Cell.Twin strict x y) xs ys :=
    (List.forall₂_and_left xs ys).2 ⟨fun x hx hs => hsymbols hs xs hv x hx, hxs⟩
  have hnames := Paired.mapM hpairs fun x y hxy => Cell.requireSymbol_twin hxy.2 hxy.1
  exact hnames.imp fun _ _ _ _ hnames => by rwa [List.forall₂_eq_eq_eq] at hnames

theorem isSymbol_of_requireSymbols {v : Vec} {xs : List Cell} (hv : v.Lists xs) {names : List Name}
    (h : requireSymbols v = .ok names) : ∀ x ∈ xs, x.IsSymbol := by
  rw [requireSymbols, Vec.traverse_of_toList _ hv.toList, mapM_eq_ok_iff] at h
  intro x hx
  obtain ⟨n, -, hn⟩ := exists_of_forall₂_left h hx
  exact ⟨n, Cell.requireSymbol_eq_ok_iff.1 hn⟩

/-- A new closure is fit: its constructor asks for an op and for symbols. -/
theorem fit_of_create {params : Vec} {body c : Cell} {env : Table} {name : Option Name}
    (hparams : params.cell.Fit strict) (hbody : body.Fit strict) (henv : env.cell.Fit strict)
    (hkeys : strict → env.OfSymbols) (h : create params body env name = .ok c) : c.Fit strict := by
  have hparts : ∀ d ∈ [params.cell, body, env.cell], d.Fit strict := by
    simp only [List.mem_cons, List.not_mem_nil, or_false]
    rintro d (rfl | rfl | rfl)
    · exact hparams
    · exact hbody
    · exact henv
  -- the parts may have been built at different costs, so they are brought to a common one
  obtain ⟨w, hw⟩ := Cell.exists_valid fun d hd => (hparts d hd).intact
  obtain ⟨hpv, hbv, hev⟩ : params.cell.Valid w ∧ body.Valid w ∧ env.cell.Valid w := by
    simpa using hw
  have hvalid := valid_of_create hpv hbv hev h
  obtain ⟨⟨⟩, hop, h⟩ := bind_eq_ok_iff.1 h
  obtain ⟨names, hnames, h⟩ := bind_eq_ok_iff.1 h
  cases h
  obtain ⟨xs, hxs⟩ := Vec.exists_lists hparams.intact
  refine Cell.fit_of_refs ⟨w, hvalid⟩ (fun hs => ⟨⟨xs, Vec.leadsTo_of hxs.toList,
    isSymbol_of_requireSymbols hxs hnames⟩, ⟨body, Ref.held?_of body, Cell.requireOp_eq_ok hop⟩,
    env.entries, Ref.held?_of env.cell, hkeys hs⟩) ?_
  show ∀ r ∈ [params.cell, body, env.cell].map Ref.of, _
  refine List.forall_mem_map.2 fun d hd => ⟨d, Ref.held?_of d, hparts d hd⟩

/-- New closures with twins for parts are twins, or both are refused. -/
theorem create_twin {params params' : Vec} {body body' : Cell} {env env' : Table}
    {name : Option Name} (hparams : params.cell.Twin strict params'.cell)
    (hbody : body.Twin strict body') (henv : env.cell.Twin strict env'.cell)
    (hkeys : env.OfSymbols) (hkeys' : env'.OfSymbols)
    (hsymbols : strict → ∀ xs, params.Lists xs → ∀ x ∈ xs, x.IsSymbol)
    (hop : strict → body.isOp = true) :
    Paired (Refused strict) (Cell.Twin strict) (create params body env name)
      (create params' body' env' name) := by
  have halike : Paired (Refused strict) (Cell.Alike (Ref.Twin strict))
      (create params body env name) (create params' body' env' name) := by
    refine (Cell.requireOp_twin hbody hop).bind fun _ _ _ => ?_
    refine (requireSymbols_twin hparams hsymbols).bind fun _ _ _ => .ok ?_
    exact .fn ⟨Ref.twin_of hparams, Ref.twin_of hbody, Ref.twin_of henv, rfl⟩
  exact halike.imp fun c d hc hd h =>
    h.twin (fit_of_create hparams.left hbody.left henv.left (fun _ => hkeys) hc)
      (fit_of_create hparams.right hbody.right henv.right (fun _ => hkeys') hd)

/-- A closure passes its check if its three parts are of the kinds that they should be. -/
theorem check_eq_ok_iff {c : Closure} : c.check = .ok () ↔
    c.params.requireKind "vector of symbols" Cell.isVector = .ok () ∧
      c.body.requireKind "op" Cell.isOp = .ok () ∧ c.env.requireKind "map" Cell.isMap = .ok () := by
  rw [check, bind_eq_ok_iff]
  constructor
  · rintro ⟨⟨⟩, hparams, h⟩
    obtain ⟨⟨⟩, hbody, henv⟩ := bind_eq_ok_iff.1 h
    exact ⟨hparams, hbody, henv⟩
  · rintro ⟨hparams, hbody, henv⟩
    exact ⟨(), hparams, bind_eq_ok_iff.2 ⟨(), hbody, henv⟩⟩

/-- Closures that are twins have the same parameters. -/
theorem paramNames_twin {c c' : Closure} (h : c.params.Twin strict c'.params)
    (hkind : c.params.requireKind "vector of symbols" Cell.isVector = .ok ())
    (hsymbols : strict → c.params.HoldsSymbols) :
    Paired (Refused strict) Eq c.paramNames c'.paramNames := by
  obtain ⟨v, u, hv, hu, htwin⟩ := h.exists_vec hkind
  rw [paramNames, paramNames, paramVec, paramVec, hv, hu, ok_bind, ok_bind]
  refine requireSymbols_twin htwin fun hs xs hxs => ?_
  obtain ⟨ys, hys, hall⟩ := hsymbols hs
  cases Ref.LeadsTo.unique ⟨v, hv, hxs.toList⟩ hys
  exact hall

/-- What two twin closures captured are maps that are twins. -/
theorem exists_bindings {c c' : Closure} (h : c.env.Twin strict c'.env)
    (hkind : c.env.requireKind "map" Cell.isMap = .ok ()) :
    ∃ t t', c.bindings = .ok t ∧ c'.bindings = .ok t' ∧ c.env.held? = some t.cell ∧
      t.cell.Twin strict t'.cell := by
  obtain ⟨d, d', hd, hd', htwin⟩ := h.held
  -- the check has seen that the part is a map, so its twin is one too
  have hmap := Ref.requireKind_eq_ok_iff.1 hkind d hd
  rw [bindings, bindings, Ref.cell_eq_ok_iff.2 hd, Ref.cell_eq_ok_iff.2 hd', ok_bind, ok_bind]
  cases htwin.alike with
  | @map es es' _ => exact ⟨⟨es⟩, ⟨es'⟩, rfl, rfl, hd, htwin⟩
  | _ => cases hmap

/-- A name is not a part, so it changes nothing about what a closure holds. -/
theorem fit_rename {c : Closure} {n : Name} (h : (Cell.fn c).Fit strict) :
    (Cell.fn (c.rename n)).Fit strict := by
  obtain ⟨w, hvalid⟩ := h.intact.valid
  refine Cell.fit_of_refs ⟨w, valid_rename hvalid⟩ (fun hs => h.proper hs (.fn c) .self) fun r hr => ?_
  have hr : r ∈ (Cell.fn c).refs := hr
  obtain ⟨d, hd, -⟩ := h.intact.exists_held hr
  exact ⟨d, hd, h.of_contains (Cell.contains_of_held hr hd)⟩

end Closure

end CellMachine
