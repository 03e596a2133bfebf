-- Where control joins. A check goes through a program once, in the order of
-- its text, and a run takes other ways too: past a branch or an operand, and
-- back to the start of a loop. Joins agree if on each of these ways every name
-- has the type that the check has for it where the way ends, or is of unknown
-- type there.
import FunkLang.Proofs.Fading

namespace FunkLang

/-! ## Ways that are not those of the text -/

/-- The context that a visit leaves, if what stands there passes. -/
def CheckVisit.after? (w : CheckVisit) : Option Context :=
  match w.part with
  | .expr e =>
    match e.check w.room w.context with
    | .ok _ c => some c
    | .error _ _ => none
  | .stmt s =>
    match s.check w.room w.context with
    | .ok _ c => some c
    | .error _ _ => none

/-- The ways that a run can take in a part past one of its parts, or back to one, where the check
leaves the part with the context `after`: where each way starts, and where it ends. -/
def CheckVisit.jumps (w : CheckVisit) (after : Context) : List (Context × Context) :=
  match w.part, w.opens with
  | .expr (.logical _ _ _), [_, right] => [(right.context, after)]
  | .expr (.choice _ _ _), [_, yes, no] | .stmt (.if_ _ _ _ _), [_, yes, no] =>
    [(yes.context, no.context), (no.context, after)]
  | .stmt (.if_ _ _ _ _), [_, yes] => [(yes.context, after)]
  | .stmt (.while_ _ _ _), [condition, body] =>
    [(body.context, after), (after, condition.context)]
  | .stmt (.for_ _ _ _ _), [_, body] =>
    [(body.context.outer, after), (after, body.context.outer)]
  | _, _ => []

/-- On all of these ways every name has the type that it has at the end, or is of unknown type
there. -/
def CheckVisit.JoinsAgree (w : CheckVisit) : Prop :=
  ∀ after ∈ w.after?, ∀ jump ∈ w.jumps after, jump.1.FadesTo jump.2

/-- The joins agree in all parts of a program. -/
def JoinsAgree (room : Nat) (program : List Stmt) : Prop :=
  ∀ w, Checked room program w → w.JoinsAgree

/-- The joins agree in a part and in all parts of it. -/
def CheckVisit.JoinsAgreeInside (w : CheckVisit) : Prop := ∀ u, w.Reaches u → u.JoinsAgree

section Joins

variable {w u : CheckVisit} {k : Nat} {e : Expr} {s : Stmt} {c c' : Context} {t : Ty}

theorem CheckVisit.JoinsAgreeInside.opens (h : w.JoinsAgreeInside) (hu : u ∈ w.opens) :
    u.JoinsAgreeInside := fun _ hv => h _ (hv.head hu)

/-- The ways of an expression that passes. -/
theorem CheckVisit.JoinsAgreeInside.expr (h : (checkExpr k e c).JoinsAgreeInside)
    (hcheck : e.check k c = .ok t c') :
    ∀ jump ∈ (checkExpr k e c).jumps c', jump.1.FadesTo jump.2 := by
  apply h _ .refl
  simp only [after?, checkExpr, hcheck]
  rfl

/-- The ways of a statement that passes. -/
theorem CheckVisit.JoinsAgreeInside.stmt (h : (checkStmt k s c).JoinsAgreeInside)
    (hcheck : s.check k c = .ok () c') :
    ∀ jump ∈ (checkStmt k s c).jumps c', jump.1.FadesTo jump.2 := by
  apply h _ .refl
  simp only [after?, checkStmt, hcheck]
  rfl

end Joins

/-! ## Deciding whether joins agree -/

section Deciding

instance (t t' : Ty) : Decidable (t.FadesTo t') := inferInstanceAs (Decidable (_ ∨ _))

/-- Do two tables have a name alike? -/
def Table.fadesAt (s s' : Table Ty) (name : String) : Bool :=
  match s.get? name, s'.get? name with
  | none, none => true
  | some t, some t' => decide (t.FadesTo t')
  | _, _ => false

theorem Table.fadesAt_iff {s s' : Table Ty} {name : String} :
    s.fadesAt s' name = true ↔ Option.Rel Ty.FadesTo (s.get? name) (s'.get? name) := by
  unfold Table.fadesAt
  cases s.get? name with
  | none =>
    cases s'.get? name with
    | none => exact iff_of_true rfl .none
    | some t' => exact iff_of_false Bool.false_ne_true nofun
  | some t =>
    cases s'.get? name with
    | none => exact iff_of_false Bool.false_ne_true nofun
    | some t' =>
      rw [decide_eq_true_iff]
      constructor
      · exact .some
      · rintro ⟨⟩
        assumption

theorem Table.fadesTo_iff {s s' : Table Ty} :
    s.FadesTo s' ↔ ∀ name ∈ s.names ++ s'.names, s.fadesAt s' name = true := by
  constructor
  · exact fun h name _ => fadesAt_iff.mpr (h name)
  · intro h name
    by_cases hname : name ∈ s.names ++ s'.names
    · exact fadesAt_iff.mp (h name hname)
    · -- A name of neither table stands for nothing in both.
      rw [List.mem_append, not_or] at hname
      have hnone : s.get? name = none :=
        Option.eq_none_iff_forall_ne_some.mpr fun _ ht =>
          hname.1 (List.mem_map_of_mem (mem_of_findEntry ht))
      have hnone' : s'.get? name = none :=
        Option.eq_none_iff_forall_ne_some.mpr fun _ ht =>
          hname.2 (List.mem_map_of_mem (mem_of_findEntry ht))
      rw [hnone, hnone']
      exact .none

instance (s s' : Table Ty) : Decidable (s.FadesTo s') := decidable_of_iff _ Table.fadesTo_iff.symm

instance (c c' : Context) : Decidable (c.FadesTo c') :=
  inferInstanceAs (Decidable (List.Forall₂ _ _ _))

instance (w : CheckVisit) : Decidable w.JoinsAgree :=
  inferInstanceAs (Decidable (∀ after ∈ w.after?, ∀ jump ∈ w.jumps after, _))

theorem joinsAgree_iff {room : Nat} {program : List Stmt} : JoinsAgree room program ↔
    ∀ w ∈ (checkAll room program .start).flatMap (CheckVisit.within room), w.JoinsAgree := by
  constructor
  · intro agree w hw
    obtain ⟨top, htop, hw⟩ := List.mem_flatMap.mp hw
    exact agree w ⟨top, htop, reaches_of_mem hw⟩
  · rintro all w ⟨top, htop, hreach⟩
    have hroom : top.room ≤ room := Nat.le_of_eq (stmts_room htop)
    exact all w (List.mem_flatMap.mpr ⟨top, htop, mem_within hroom hreach⟩)

instance (room : Nat) (program : List Stmt) : Decidable (JoinsAgree room program) :=
  decidable_of_iff _ joinsAgree_iff.symm

end Deciding

end FunkLang
