import CellMachine.Eval.Step
import CellMachine.Proofs.Cell.Throughout
import CellMachine.Proofs.Eval.Results
import CellMachine.Proofs.Table.Entries
import CellMachine.Proofs.Vec.Elements

/-!
# Code among values

Programs are data, and values may have ops in them: as they are, in vectors, or in what closures hold. But there
is one way only in which code that is carried around gets to run, and that is as the body of a closure that is
called. So a value is *tame* if the bodies of all closures in it are *confined* to certain ops. Whatever is made
of tame values is tame: core functions only put values together and take them apart, and a new closure has a
body from the code that is running.

* `Cell.Confined` is about code, `Cell.Tame` about values, and `Cell.Encloses` is containment that leaves out
  the cell itself.
* `Cell.Confined.tame` and `Cell.tame_of_encloses` say where tame values come from.

Main statement: `CoreFn.regular_tame` (core functions keep values tame).
-/

namespace CellMachine

variable {allowed : Op → Prop}

namespace Cell

/-- What can be reached inside of a cell, which leaves out the cell itself. -/
def Encloses (c d : Cell) : Prop := ∃ r ∈ c.refs, ∃ e, r.held? = some e ∧ e.Contains d

/-- Every op in the cell is an allowed one. -/
def Confined (allowed : Op → Prop) (c : Cell) : Prop := ∀ o, c.Contains (.op o) → allowed o

/-- The bodies of all closures in the cell are confined to allowed ops. -/
def Tame (allowed : Op → Prop) (c : Cell) : Prop :=
  ∀ f, c.Contains (.fn f) → ∀ body, f.body.held? = some body → body.Confined allowed

variable {c d : Cell} {r : Ref}

/-- What a part of a cell inside holds is enclosed. -/
theorem encloses_of_held (h : c.Contains d) (hr : r ∈ d.refs) {e : Cell} (he : r.held? = some e) :
    c.Encloses e := by
  -- either the cell itself holds it, or a cell further down does
  obtain rfl | ⟨s, hs, f, hf, hcontains⟩ := contains_iff.1 h
  · exact ⟨r, hr, e, he, .self⟩
  · exact ⟨s, hs, f, hf, .part hcontains hr he⟩

/-- What is inside an enclosed cell is enclosed. -/
theorem Encloses.trans (h : c.Encloses d) {e : Cell} (h' : d.Contains e) : c.Encloses e := by
  obtain ⟨r, hr, f, hf, hcontains⟩ := h
  exact ⟨r, hr, f, hf, hcontains.trans h'⟩

theorem Encloses.contains (h : c.Encloses d) : c.Contains d := by
  obtain ⟨r, hr, e, he, hcontains⟩ := h
  exact (contains_of_held hr he).trans hcontains

/-- Code whose parts are confined is confined if it is an allowed op, or none. -/
theorem confined_of_parts (parts : List Cell) (hrefs : c.refs = parts.map Ref.of)
    (hop : ∀ o, c = .op o → allowed o) (hparts : ∀ d ∈ parts, d.Confined allowed) : c.Confined allowed := by
  intro o ho
  obtain heq | ⟨r, hr, d, hd, hcontains⟩ := contains_iff.1 ho
  · exact hop o heq.symm
  · rw [hrefs] at hr
    obtain ⟨e, he, rfl⟩ := List.mem_map.1 hr
    obtain rfl : e = d := Option.some.inj ((Ref.held?_of e).symm.trans hd)
    exact hparts e he o hcontains

theorem Confined.of_contains (h : c.Confined allowed) (hd : c.Contains d) : d.Confined allowed :=
  fun o ho => h o (hd.trans ho)

theorem Confined.of_held (h : c.Confined allowed) (hr : r ∈ c.refs) (hd : r.held? = some d) :
    d.Confined allowed :=
  h.of_contains (contains_of_held hr hd)

theorem Tame.of_contains (h : c.Tame allowed) (hd : c.Contains d) : d.Tame allowed :=
  fun f hf => h f (hd.trans hf)

/-- It is enough that what is inside of a value is allowed: a value that is an op does not run. -/
theorem tame_of_encloses (h : ∀ o, c.Encloses (.op o) → allowed o) : c.Tame allowed := by
  intro f hf body hbody o ho
  have hmem : f.body ∈ (Cell.fn f).refs := List.mem_cons_of_mem _ List.mem_cons_self
  exact h o ((encloses_of_held hf hmem hbody).trans ho)

/-- Code that becomes a value brings no other code with it. -/
theorem Confined.tame (h : c.Confined allowed) : c.Tame allowed :=
  tame_of_encloses fun o ho => h o ho.contains

theorem tame_of_no_refs (h : c.refs = []) : c.Tame allowed := by
  refine tame_of_encloses fun o ho => ?_
  obtain ⟨r, hr, -⟩ := ho
  rw [h] at hr
  cases hr

theorem tame_nil : Cell.nil.Tame allowed := tame_of_no_refs rfl

end Cell

/-! ## Values inside values -/

/-- If the cell is a closure, its body is confined to allowed ops. -/
def Cell.TameHere (allowed : Op → Prop) (c : Cell) : Prop :=
  ∀ f, c = .fn f → ∀ body, f.body.held? = some body → body.Confined allowed

theorem Ref.renewed_tameHere : Ref.Renewed (Ref.Holds (Cell.TameHere allowed)) :=
  Ref.renewed_holds fun _ _ hf => nomatch hf

/-- Tameness is a property of what references hold, so it passes to new values as such properties
do. -/
theorem Cell.tame_iff {c : Cell} : c.Tame allowed ↔ (Ref.of c).Throughout (Ref.Holds (TameHere allowed)) := by
  rw [Ref.throughout_holds_iff]
  constructor
  · rintro h d hd f rfl
    exact h f hd
  · exact fun h f hf => h _ hf f rfl

section Values
variable {v u : Vec} {xs : List Cell}

theorem Vec.tame_iff : v.cell.Tame allowed ↔ v.cell.Throughout (Ref.Holds (Cell.TameHere allowed)) :=
  ⟨fun h => (Cell.tame_iff.1 h).here_of, fun h => Cell.tame_iff.2 (Ref.renewed_tameHere.throughout_vec h)⟩

theorem Vec.tame_of (h : ∀ x ∈ xs, x.Tame allowed) : (Vec.of xs).cell.Tame allowed :=
  Vec.tame_iff.2 (Vec.throughout_of Ref.renewed_tameHere fun x hx => Cell.tame_iff.1 (h x hx))

theorem Vec.tame_push {c : Cell} (hv : v.cell.Tame allowed) (hc : c.Tame allowed) (h : v.push c = .ok u) :
    u.cell.Tame allowed :=
  Vec.tame_iff.2 (Vec.throughout_push Ref.renewed_tameHere (Vec.tame_iff.1 hv) (Cell.tame_iff.1 hc) h)

theorem Vec.tame_append {w : Vec} (hv : v.cell.Tame allowed) (hw : w.cell.Tame allowed)
    (h : v.append w = .ok u) : u.cell.Tame allowed :=
  Vec.tame_iff.2 (Vec.throughout_extend Ref.renewed_tameHere (Vec.tame_iff.1 hw) (Vec.tame_iff.1 hv) h)

/-- A map of symbols. -/
theorem Table.tame_ofList {es : List (Name × Cell)} {t : Table} (hes : ∀ e ∈ es, e.2.Tame allowed)
    (h : ofList (es.map fun e => (.symbol e.1, e.2)) = .ok t) : t.cell.Tame allowed := by
  have hsymbols : ∀ e ∈ es.map fun e => (Cell.symbol e.1, e.2),
      (Ref.of e.1).Throughout (Ref.Holds (Cell.TameHere allowed)) ∧
        (Ref.of e.2).Throughout (Ref.Holds (Cell.TameHere allowed)) :=
    List.forall_mem_map.2 fun e he =>
      ⟨Cell.tame_iff.1 (Cell.tame_of_no_refs rfl), Cell.tame_iff.1 (hes e he)⟩
  exact Cell.tame_iff.2 (Ref.throughout_of (Ref.holds_of fun _ hf => nomatch hf) (throughout_ofList hsymbols h))

/-- A closure is tame if its body is confined, for that is the code it lets run. -/
theorem Closure.tame_create {params : Vec} {body c : Cell} {env : Table} {name : Option Name}
    (hparams : params.cell.Tame allowed) (hbody : body.Confined allowed) (henv : env.cell.Tame allowed)
    (h : create params body env name = .ok c) : c.Tame allowed := by
  have hparts := throughout_create (Cell.tame_iff.1 hparams) (Cell.tame_iff.1 hbody.tame)
    (Cell.tame_iff.1 henv) h
  refine Cell.tame_iff.2 (Ref.throughout_of (Ref.holds_of ?_) hparts)
  obtain ⟨-, -, h⟩ := bind_eq_ok_iff.1 h
  obtain ⟨-, -, h⟩ := bind_eq_ok_iff.1 h
  cases h
  rintro f hf d hd
  cases hf
  rw [Ref.held?_of] at hd
  cases hd
  exact hbody

/-- A name changes nothing about the body of a closure. -/
theorem Eval.tame_named {v : Cell} (h : v.Tame allowed) (symbol : Name) : (named v symbol).Tame allowed := by
  unfold named
  split
  · next params body env =>
    intro f hf
    obtain heq | ⟨r, hr, d, hd, hcontains⟩ := Cell.contains_iff.1 hf
    · cases heq
      exact h ⟨params, body, env, none⟩ .self
    · have hr : r ∈ (Cell.fn ⟨params, body, env, none⟩).refs := hr
      exact h f ((Cell.contains_of_held hr hd).trans hcontains)
  · exact h

end Values

/-! ## Core functions -/

/-- An exit that leaves the innermost closure with a tame value, if it leaves it with one. -/
def Exit.Tame (allowed : Op → Prop) : Exit → Prop
  | .signal (.leave v) => v.Tame allowed
  | _ => True

/-- Core functions keep values tame: they have no code of their own, and do not look into that of others. -/
theorem CoreFn.regular_tame : Regular fun _ => Cell.Tame allowed where
  mono h _ := h
  plain h _ := by cases h <;> exact Cell.tame_of_no_refs rfl
  vector := Vec.tame_of
  push := Vec.tame_push
  copy hv h := Vec.tame_append (Cell.tame_of_no_refs rfl) hv h
  append := Vec.tame_append
  element hv h := hv.of_contains (Vec.contains_of_get h)

/-- A call that leaves a closure leaves it with an argument, or with `nil`. -/
theorem CoreFn.Ends.tame {f : CoreFn} {args : List Cell} {e : Exit} (h : f.Ends args e)
    (hargs : ∀ c ∈ args, c.Tame allowed) : e.Tame allowed := by
  cases h with
  | leave h =>
    obtain rfl | hmem := h
    · exact Cell.tame_nil
    · exact hargs _ hmem
  | complaint | data | fail | halt => trivial

end CellMachine
