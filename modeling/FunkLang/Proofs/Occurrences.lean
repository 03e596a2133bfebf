-- Occurrences of parts. Two parts of a program can look the same, so an
-- occurrence goes by its path: by the numbers that the parts on the way to it
-- have, each among the parts of the one around it. A check comes to a path at
-- most once, and a run as often as its loops turn.
import FunkLang.Proofs.CheckVisit

namespace FunkLang

/-! ## Of a check -/

/-- The visit that the check of a program pays to the part at a path. The number of the innermost
part comes first. -/
inductive CheckedAt (room : Nat) (program : List Stmt) : List Nat → CheckVisit → Prop
  | top {i w} (h : (checkAll room program .start)[i]? = some w) : CheckedAt room program [i] w
  | part {path w i u} (h : CheckedAt room program path w) (hu : w.opens[i]? = some u) :
    CheckedAt room program (i :: path) u

/-- The type that the check of a program finds for the expression at a path. -/
def TypedAt (room : Nat) (program : List Stmt) (path : List Nat) (e : Expr) (t : Ty) : Prop :=
  ∃ k c c', CheckedAt room program path (checkExpr k e c) ∧ e.check k c = .ok t c'

section Checks

variable {room : Nat} {program : List Stmt} {path : List Nat} {w w' : CheckVisit}

theorem CheckedAt.ne_nil (h : CheckedAt room program path w) : path ≠ [] := by
  cases h with
  | top => exact List.cons_ne_nil _ _
  | part => exact List.cons_ne_nil _ _

theorem CheckedAt.unique (h : CheckedAt room program path w) (h' : CheckedAt room program path w') :
    w = w' := by
  induction h generalizing w' with
  | top hw =>
    cases h' with
    | top hw' => exact Option.some.inj (hw.symm.trans hw')
    | part h' => exact absurd rfl h'.ne_nil
  | part h hu ih =>
    cases h' with
    | top => exact absurd rfl h.ne_nil
    | part h' hu' =>
      rw [ih h'] at hu
      exact Option.some.inj (hu.symm.trans hu')

/-- An occurrence has one type. -/
theorem TypedAt.unique {e e' : Expr} {t t' : Ty} (h : TypedAt room program path e t)
    (h' : TypedAt room program path e' t') : e = e' ∧ t = t' := by
  obtain ⟨k, c, c1, hvisit, ht⟩ := h
  obtain ⟨k', c', c1', hvisit', ht'⟩ := h'
  have hsame := hvisit.unique hvisit'
  cases hsame
  rw [ht] at ht'
  cases ht'
  exact ⟨rfl, rfl⟩

end Checks

/-! ## Of a run -/

/-- The number of the part that a visit goes to when it opens its visit at an index. A choice goes
from its condition to one of two parts, and a loop comes to its parts again and again. -/
def Visit.partNumber (limits : Limits) (v : Visit) (index : Nat) : Nat :=
  match v.part, index with
  | .expr (.choice condition _ _), 1 | .stmt (.if_ _ condition _ _), 1 =>
    match condition.eval limits (v.room - 3) v.machine with
    | .ok (.bool false) _ => 2
    | _ => 1
  | .stmt (.while_ _ _ _), index => index % 2
  | .stmt (.for_ _ _ _ _), index => min index 1
  | _, index => index

/-- A visit that the run of a program pays to the part at a path. -/
inductive VisitedAt (limits : Limits) (m : Machine) (program : List Stmt) :
    List Nat → Visit → Prop
  | top {i v} (h : (topVisits limits m program)[i]? = some v) : VisitedAt limits m program [i] v
  | part {path v i u} (h : VisitedAt limits m program path v) (hu : (v.opens limits)[i]? = some u) :
    VisitedAt limits m program (v.partNumber limits i :: path) u

/-- Every visit of a run is paid to a part at some path. -/
theorem exists_visitedAt {limits : Limits} {m : Machine} {program : List Stmt} {v : Visit}
    (h : Visited limits m program v) : ∃ path, VisitedAt limits m program path v := by
  obtain ⟨top, htop, hreach⟩ := h
  induction hreach with
  | refl =>
    obtain ⟨i, hi⟩ := List.mem_iff_getElem?.mp htop
    exact ⟨[i], .top hi⟩
  | tail _ hopens ih =>
    obtain ⟨path, hpath⟩ := ih
    obtain ⟨i, hi⟩ := List.mem_iff_getElem?.mp hopens
    exact ⟨_, .part hpath hi⟩

end FunkLang
