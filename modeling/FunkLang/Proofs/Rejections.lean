-- Where a check rejects a program. A check looks at the first parts of a part
-- before it goes on to the others, so it comes to fewer parts of one that it
-- rejects than of one that passes. The rejected part is the one that fails
-- although what the check has come to inside of it passes.
import FunkLang.Proofs.CheckScopes
import FunkLang.Proofs.Parts

namespace FunkLang

/-! ## The parts that a check comes to -/

/-- What the types of the first parts of a part have to be for its check to go on to the next. -/
def Part.wants : Part → List (Ty → Bool)
  | expr (.assignIndex ..) => [(·.fits .list), (·.fits .number)]
  | expr (.assignField ..) => [(·.fits .record)]
  | expr (.call ..) => [(·.fits .function)]
  | expr (.index ..) => [fun t => t.fits .list || t.fits .string]
  | expr (.choice ..) | stmt (.if_ ..) | stmt (.while_ ..) => [(·.fits .boolean)]
  | stmt (.for_ ..) => [(· == .unknown)]
  | _ => []

namespace CheckVisit

/-- Does a visit find a type as it is wanted? -/
def finds (want : Ty → Bool) (w : CheckVisit) : Bool :=
  match w.part with
  | .expr e =>
    match e.check w.room w.context with
    | .ok t _ => want t
    | .error _ _ => false
  | .stmt _ => false

/-- The first visits, up to one that does not find what is wanted of it. -/
def whileWanted : List (Ty → Bool) → List CheckVisit → List CheckVisit
  | want :: wants, w :: ws => w :: if w.finds want then whileWanted wants ws else []
  | _, ws => ws

/-- The visits that the check of a part opens until it finds something wrong. -/
def examined (w : CheckVisit) : List CheckVisit := whileWanted w.part.wants w.opens

/-- Why the check of a part fails, if it does. -/
def error? (w : CheckVisit) : Option TypeError :=
  match w.part with
  | .expr e => FunkLang.error? (e.check w.room w.context)
  | .stmt s => FunkLang.error? (s.check w.room w.context)

theorem whileWanted_nil (wants : List (Ty → Bool)) : whileWanted wants [] = [] := by
  cases wants with
  | nil => rfl
  | cons want wants => rfl

theorem whileWanted_prefix (wants : List (Ty → Bool)) (ws : List CheckVisit) :
    whileWanted wants ws <+: ws := by
  induction wants generalizing ws with
  | nil =>
    cases ws with
    | nil => exact List.prefix_refl _
    | cons w ws => exact List.prefix_refl _
  | cons want wants ih =>
    cases ws with
    | nil => exact List.prefix_refl _
    | cons w ws =>
      unfold whileWanted
      refine List.cons_prefix_cons.mpr ⟨rfl, ?_⟩
      split
      · exact ih ws
      · exact List.nil_prefix

theorem examined_prefix (w : CheckVisit) : w.examined <+: w.opens := whileWanted_prefix _ _

theorem part_of_opens {w u : CheckVisit} (h : u ∈ w.opens) : u.part ∈ w.part.subparts :=
  (opens_sublist w).subset (List.mem_map.mpr ⟨u, h, rfl⟩)

/-- What follows an expression is examined if the expression is of the type that is wanted. -/
theorem whileWanted_first (want : Ty → Bool) (wants : List (Ty → Bool)) (k : Nat) (e : Expr)
    (c : Context) (next : Ty → Context → List CheckVisit) :
    whileWanted (want :: wants) (checkExpr k e c :: andThen (e.check k c) next) =
      checkExpr k e c :: andThen (e.check k c) fun t c1 =>
        if want t then whileWanted wants (next t c1) else [] := by
  have hfinds : (checkExpr k e c).finds want = match e.check k c with
      | .ok t _ => want t
      | .error _ _ => false := rfl
  rw [whileWanted, hfinds]
  cases e.check k c with
  | ok t c1 => rfl
  | error err c1 => rfl

end CheckVisit

/-! ## Failures of parts -/

/-- Of these visits only the last can fail, and where it does, the check around them fails with the
same error. -/
def FailsByLast {α : Type} (ws : List CheckVisit) (r : EStateM.Result TypeError Context α) : Prop :=
  ∀ i w, ws[i]? = some w → w.error? ≠ none → ws.length = i + 1 ∧ error? r = w.error?

section Failures

open CheckVisit

variable {α β : Type} {w : CheckVisit} {ws : List CheckVisit} {k : Nat} {c : Context} {e : Expr}

theorem andThen_nil (r : EStateM.Result TypeError Context α) :
    andThen r (fun _ _ => ([] : List CheckVisit)) = [] := by
  cases r <;> rfl

theorem failsByLast_nil {r : EStateM.Result TypeError Context α} : FailsByLast [] r := by
  intro i w hw
  cases hw

/-- A part is checked, and then come others if it passes. -/
theorem failsByLast_bind {x : Check α} {f : α → Check β} {next : α → Context → List CheckVisit}
    (hw : w.error? = error? (x c))
    (h : ∀ a c1, x c = .ok a c1 → FailsByLast (next a c1) (f a c1)) :
    FailsByLast (w :: andThen (x c) next) ((x >>= f) c) := by
  intro i u hu hfails
  cases hx : x c with
  | ok a c1 =>
    rw [hx] at hw hu
    rw [bind_of_ok hx]
    cases i with
    | zero =>
      cases hu
      exact absurd hw hfails
    | succ i =>
      obtain ⟨hlength, herror⟩ := h a c1 hx i u hu hfails
      exact ⟨congrArg (· + 1) hlength, herror⟩
  | error err c1 =>
    rw [hx] at hw hu
    rw [bind_of_error hx]
    cases i with
    | zero =>
      cases hu
      exact ⟨rfl, hw.symm⟩
    | succ i => cases hu

theorem failsByLast_first {f : Ty → Check β} {next : Ty → Context → List CheckVisit}
    (h : ∀ t c1, FailsByLast (next t c1) (f t c1)) :
    FailsByLast (checkExpr k e c :: andThen (e.check k c) next) ((e.check k >>= f) c) :=
  failsByLast_bind rfl fun t c1 _ => h t c1

/-- A part is the only one. -/
theorem failsByLast_only {f : Ty → Check β} :
    FailsByLast [checkExpr k e c] ((e.check k >>= f) c) := by
  rw [← andThen_nil (e.check k c)]
  exact failsByLast_first fun _ _ => failsByLast_nil

/-- A part is checked, and then come others if its type is as it is wanted. -/
theorem failsByLast_wanted {want : Ty → Bool} {wants : List (Ty → Bool)}
    {problem : Ty → TypeProblem} {line : Int} {f : Ty → Check β} {next : Ty → Context → List CheckVisit}
    (h : ∀ t c1, FailsByLast (whileWanted wants (next t c1)) (f t c1)) :
    FailsByLast (whileWanted (want :: wants) (checkExpr k e c :: andThen (e.check k c) next))
      ((do
        let t ← e.check k
        Check.ensure (want t) (problem t) line
        f t : Check β) c) := by
  rw [whileWanted_first]
  refine failsByLast_first fun t c1 => ?_
  cases hwant : want t with
  | true => exact h t c1
  | false => exact failsByLast_nil

/-- A part is the last one, and the check around it answers as it does. -/
theorem failsByLast_last :
    FailsByLast (eachVisit (checkExpr k) (fun e => e.check k) [e] c) (e.check k c) := by
  have h := failsByLast_first (f := pure) (k := k) (e := e) (c := c) fun _ _ => failsByLast_nil
  rw [bind_pure] at h
  exact h

theorem failsByLast_exprs (items : List Expr) (f : PUnit → Check β) :
    FailsByLast (eachVisit (checkExpr k) (fun e => e.check k) items c)
      (((items.forM fun e => do let _ ← e.check k : Check PUnit) >>= f) c) := by
  induction items generalizing c with
  | nil => exact failsByLast_nil
  | cons e rest ih =>
    change FailsByLast _ ((((do let _ ← e.check k : Check PUnit) >>= fun _ => rest.forM _) >>= f) c)
    simp only [bind_assoc, pure_bind]
    exact failsByLast_first fun _ _ => ih

theorem failsByLast_stmts (room : Nat) (body : List Stmt) :
    FailsByLast (eachVisit (checkStmt room) (fun s => s.check room) body c)
      (body.forM (fun s => s.check room) c) := by
  induction body generalizing c with
  | nil => exact failsByLast_nil
  | cons s rest ih =>
    exact failsByLast_bind (x := s.check room) rfl fun _ _ _ => ih

theorem failsByLast_all (room : Nat) (body : List Stmt) :
    FailsByLast (checkAll room body c) (Check.list (fun s => s.check room) body c) := by
  rw [list_eq]
  exact failsByLast_stmts room body

theorem error?_inScope (body : Check α) :
    error? (Check.inScope body c) = error? (body c.inner) := by
  unfold Check.inScope Context.inner
  cases body { c with scopes := .empty :: c.scopes } <;> rfl

theorem failsByLast_inScope {body : Check α} (h : FailsByLast ws (body c.inner)) :
    FailsByLast ws (Check.inScope body c) := by
  intro i w hw hfails
  rw [error?_inScope]
  exact h i w hw hfails

theorem Expr.check_if (holds : Bool) (room room' : Nat) (e : Expr) :
    (if holds then e.check room else e.check room') = e.check (if holds then room else room') := by
  cases holds <;> rfl

/-- The parts of an expression fail as the expression does. -/
theorem failsByLast_expr (room : Nat) (e : Expr) (c : Context) :
    FailsByLast (checkExpr room e c).examined (e.check room c) := by
  unfold examined CheckVisit.opens
  dsimp only [checkExpr]
  cases hroom : e.innerRoom? room with
  | none =>
    rw [whileWanted_nil]
    exact failsByLast_nil
  | some k =>
    dsimp only
    cases e with
    | atom mark => exact failsByLast_nil
    | unary op operand =>
      obtain _ | _ | _ | room := room <;> cases hroom
      simp only [Expr.check]
      exact failsByLast_first fun _ _ => failsByLast_nil
    | binary left op right =>
      obtain _ | _ | _ | _ | room := room <;> cases hroom
      simp only [Expr.check, Expr.check_if]
      exact failsByLast_first fun _ _ => failsByLast_first fun _ _ => failsByLast_nil
    | logical op left right =>
      obtain _ | _ | _ | _ | room := room <;> cases hroom
      simp only [Expr.check]
      exact failsByLast_first fun _ _ => failsByLast_first fun _ _ => failsByLast_nil
    | assign name value =>
      obtain _ | _ | _ | room := room <;> cases hroom
      simp only [Expr.check]
      exact failsByLast_first fun _ _ => failsByLast_nil
    | assignIndex collection place value =>
      obtain _ | _ | _ | room := room <;> cases hroom
      simp only [Expr.check]
      exact failsByLast_wanted fun _ _ => failsByLast_wanted fun _ _ => failsByLast_last
    | assignField collection key value =>
      obtain _ | _ | _ | room := room <;> cases hroom
      simp only [Expr.check]
      exact failsByLast_wanted fun _ _ => failsByLast_last
    | choice condition yes no =>
      obtain _ | _ | _ | room := room <;> cases hroom
      simp only [Expr.check]
      refine failsByLast_wanted fun _ _ => ?_
      exact failsByLast_first fun _ _ => failsByLast_first fun _ _ => failsByLast_nil
    | call callee arguments =>
      obtain _ | _ | _ | room := room <;> cases hroom
      simp only [Expr.check]
      exact failsByLast_wanted fun _ _ => failsByLast_exprs _ _
    | list line elements =>
      obtain _ | _ | _ | room := room <;> cases hroom
      simp only [Expr.check]
      exact failsByLast_exprs _ _
    | record line entries =>
      obtain _ | _ | _ | room := room <;> cases hroom
      simp only [Expr.check]
      have hvalues : (entries.forM fun entry => (do let _ ← entry.2.check k : Check PUnit)) =
          (entries.map (·.2)).forM fun e => (do let _ ← e.check k : Check PUnit) := by
        simp
      rw [hvalues]
      exact failsByLast_exprs _ _
    | index collection place =>
      obtain _ | _ | _ | room := room <;> cases hroom
      simp only [Expr.check]
      refine failsByLast_wanted fun _ _ => failsByLast_first fun _ _ => failsByLast_nil
    | field collection key =>
      obtain _ | _ | _ | room := room <;> cases hroom
      simp only [Expr.check]
      exact failsByLast_first fun _ _ => failsByLast_nil

/-- A statement is the last one, and the check around it passes as it does. -/
theorem failsByLast_body (room : Nat) (s : Stmt) :
    FailsByLast [checkStmt room s c] (s.check room c) := by
  have h : FailsByLast [checkStmt room s c] ((s.check room >>= pure) c) := by
    rw [← andThen_nil (s.check room c)]
    exact failsByLast_bind rfl fun _ _ _ => failsByLast_nil
  rw [bind_pure] at h
  exact h

/-- The parts of a statement fail as the statement does. -/
theorem failsByLast_stmt (room : Nat) (s : Stmt) (c : Context) :
    FailsByLast (checkStmt room s c).examined (s.check room c) := by
  unfold examined CheckVisit.opens
  dsimp only [checkStmt]
  split
  case h_1 e room heq => cases heq
  case h_2 line value room heq =>
    cases heq
    simp only [Stmt.check]
    exact failsByLast_only
  case h_3 line value room heq =>
    cases heq
    simp only [Stmt.check]
    exact failsByLast_only
  case h_4 line name value room heq =>
    cases heq
    simp only [Stmt.check]
    exact failsByLast_only
  case h_5 line value room heq =>
    cases heq
    simp only [Stmt.check]
    exact failsByLast_only
  case h_6 line body room heq =>
    cases heq
    simp only [Stmt.check]
    exact failsByLast_inScope (failsByLast_all _ _)
  case h_7 line condition yes no room heq =>
    cases heq
    cases no with
    | none =>
      simp only [Stmt.check]
      refine failsByLast_wanted fun _ _ => ?_
      exact failsByLast_bind (x := yes.check room) rfl fun _ _ _ => failsByLast_nil
    | some no =>
      simp only [Stmt.check]
      refine failsByLast_wanted fun _ _ => failsByLast_bind rfl fun _ c2 _ => ?_
      change FailsByLast (checkStmt room no c2 :: andThen (no.check room c2) fun _ _ => []) _
      rw [andThen_nil]
      exact failsByLast_body room no
  case h_8 line condition body room heq =>
    cases heq
    simp only [Stmt.check]
    exact failsByLast_wanted fun _ _ => failsByLast_body room body
  case h_9 line name params bodyLine body room heq =>
    cases heq
    simp only [Stmt.check]
    change FailsByLast _ (Check.inScope _ (c.declare name.text .function))
    refine failsByLast_inScope ?_
    rw [bind_of_ok ((declareAll_eq_ok (u := ⟨⟩)).mpr rfl)]
    exact failsByLast_all _ _
  case h_10 line value name body room heq =>
    cases heq
    simp only [Stmt.check]
    exact failsByLast_first fun _ _ => failsByLast_inScope (failsByLast_body room body)
  case h_11 line name items body room heq =>
    cases heq
    simp only [Stmt.check]
    exact failsByLast_wanted fun _ _ => failsByLast_inScope (failsByLast_body room body)
  case h_12 =>
    rw [whileWanted_nil]
    exact failsByLast_nil

/-- Of the parts that the check of a part comes to, only the last can fail, and where it does, the
whole part fails with the same error. -/
theorem examined_failsByLast {i : Nat} {u : CheckVisit} (hu : w.examined[i]? = some u)
    (hfails : u.error? ≠ none) : w.examined.length = i + 1 ∧ w.error? = u.error? := by
  obtain ⟨part, room, c⟩ := w
  cases part with
  | expr e => exact failsByLast_expr room e c i u hu hfails
  | stmt s => exact failsByLast_stmt room s c i u hu hfails

/-- A list of statements fails with one of them. -/
theorem exists_failing {room : Nat} {body : List Stmt} {err : TypeError} {c c' : Context}
    (h : body.forM (fun s => s.check room) c = .error err c') :
    ∃ w ∈ eachVisit (checkStmt room) (fun s => s.check room) body c, w.error? = some err := by
  induction body generalizing c with
  | nil => cases h
  | cons s rest ih =>
    rw [eachVisit]
    cases hs : s.check room c with
    | error err1 c1 =>
      have hfirst := bind_of_error (f := fun _ => rest.forM fun s => s.check room) hs
      cases hfirst.symm.trans h
      exact ⟨_, List.mem_cons_self, congrArg error? hs⟩
    | ok u c1 =>
      have hfirst := bind_of_ok (f := fun _ => rest.forM fun s => s.check room) hs
      obtain ⟨w, hw, herr⟩ := ih (hfirst.symm.trans h)
      exact ⟨w, List.mem_cons_of_mem _ hw, herr⟩

end Failures

/-! ## The rejected part -/

/-- The check of a program fails at the part at a path, with an error that is not that of the part
alone. The number of the innermost part comes first. -/
inductive FailsAt (room : Nat) (program : List Stmt) (err : TypeError) :
    List Nat → CheckVisit → Prop
  | top {i w} (h : (checkAll room program .start)[i]? = some w) (herr : w.error? = some err) :
    FailsAt room program err [i] w
  | part {path w i u} (h : FailsAt room program err path w) (hu : w.examined[i]? = some u)
    (herr : u.error? = some err) : FailsAt room program err (i :: path) u

/-- The check of a program rejects the part at a path: it fails there, and not in the parts of it
that it has come to. -/
structure RejectedAt (room : Nat) (program : List Stmt) (err : TypeError) (path : List Nat)
    (w : CheckVisit) : Prop where
  fails : FailsAt room program err path w
  parts : ∀ u ∈ w.examined, u.error? = none

section Rejected

variable {room : Nat} {program : List Stmt} {err : TypeError} {path path' : List Nat}
  {w w' : CheckVisit}

namespace FailsAt

theorem error (h : FailsAt room program err path w) : w.error? = some err := by
  cases h with
  | top _ herr => exact herr
  | part _ _ herr => exact herr

theorem ne_nil (h : FailsAt room program err path w) : path ≠ [] := by
  cases h with
  | top => exact List.cons_ne_nil _ _
  | part => exact List.cons_ne_nil _ _

/-- It fails at all parts on the way. -/
theorem around {i : Nat} (h : FailsAt room program err (i :: path) w) (hne : path ≠ []) :
    ∃ v, FailsAt room program err path v ∧ v.examined[i]? = some w := by
  cases h with
  | top => exact absurd rfl hne
  | part h hu => exact ⟨_, h, hu⟩

theorem suffix (h : FailsAt room program err path w) (hsuffix : path' <:+ path)
    (hne : path' ≠ []) : ∃ v, FailsAt room program err path' v := by
  induction h with
  | top hw herr =>
    rcases List.suffix_cons_iff.mp hsuffix with rfl | hnil
    · exact ⟨_, .top hw herr⟩
    · exact absurd (List.suffix_nil.mp hnil) hne
  | part h hu herr ih =>
    rcases List.suffix_cons_iff.mp hsuffix with rfl | hinner
    · exact ⟨_, .part h hu herr⟩
    · exact ih hinner

/-- At each depth it fails at one part. -/
theorem unique (h : FailsAt room program err path w) (h' : FailsAt room program err path' w')
    (hlength : path.length = path'.length) : path = path' ∧ w = w' := by
  induction h generalizing path' w' with
  | @top i w hw herr =>
    cases h' with
    | @top j w' hw' herr' =>
      have hi := failsByLast_all (c := .start) room program i w hw (by simp [herr])
      have hj := failsByLast_all (c := .start) room program j w' hw' (by simp [herr'])
      obtain rfl : i = j := Nat.succ.inj (hi.1.symm.trans hj.1)
      exact ⟨rfl, Option.some.inj (hw.symm.trans hw')⟩
    | part h' => exact absurd (List.length_eq_zero_iff.mp (by simpa using hlength.symm)) h'.ne_nil
  | @part path v i w h hw herr ih =>
    cases h' with
    | top => exact absurd (List.length_eq_zero_iff.mp (by simpa using hlength)) h.ne_nil
    | @part path' v' j w' h' hw' herr' =>
      obtain ⟨rfl, rfl⟩ := ih h' (Nat.succ.inj hlength)
      have hi := examined_failsByLast hw (by simp [herr])
      have hj := examined_failsByLast hw' (by simp [herr'])
      obtain rfl : i = j := Nat.succ.inj (hi.1.symm.trans hj.1)
      exact ⟨rfl, Option.some.inj (hw.symm.trans hw')⟩

/-- From a part at which it fails, there is a way to the rejected one. -/
theorem exists_rejectedAt (h : FailsAt room program err path w) :
    ∃ path w, RejectedAt room program err path w := by
  generalize hsize : sizeOf w.part = size
  induction size using Nat.strongRecOn generalizing path w with
  | ind size ih =>
    by_cases hparts : ∀ u ∈ w.examined, u.error? = none
    · exact ⟨path, w, h, hparts⟩
    · push Not at hparts
      obtain ⟨u, hu, hfails⟩ := hparts
      obtain ⟨i, hi⟩ := List.mem_iff_getElem?.mp hu
      have herr := (examined_failsByLast hi hfails).2
      rw [h.error] at herr
      have hlt := Part.sizeOf_lt (CheckVisit.part_of_opens (w.examined_prefix.subset hu))
      exact ih _ (hsize ▸ hlt) (.part h hi herr.symm) rfl

end FailsAt

/-- No part is rejected deeper inside than another. -/
theorem RejectedAt.length_le (h : RejectedAt room program err path w)
    (h' : FailsAt room program err path' w') : path'.length ≤ path.length := by
  by_contra hlt
  -- The part of the other one's way that is one step longer leads past the rejected part.
  obtain ⟨q, hq, hlength⟩ : ∃ q, q <:+ path' ∧ q.length = path.length + 1 :=
    ⟨path'.drop (path'.length - (path.length + 1)), List.drop_suffix _ _, by
      rw [List.length_drop]
      omega⟩
  cases q with
  | nil => cases hlength
  | cons i q =>
    have hne : q ≠ [] := by
      rintro rfl
      exact h.fails.ne_nil (List.length_eq_zero_iff.mp (Nat.succ.inj hlength).symm)
    obtain ⟨u, hu⟩ := h'.suffix hq (List.cons_ne_nil _ _)
    obtain ⟨v, hv, hopens⟩ := hu.around hne
    obtain ⟨rfl, rfl⟩ := h.fails.unique hv (Nat.succ.inj hlength).symm
    have hpasses := h.parts u (List.mem_of_getElem? hopens)
    rw [hu.error] at hpasses
    cases hpasses

/-- Where the check of a program fails, it rejects one part of the program. -/
theorem exists_one_rejectedAt {c : Context} (h : checkProgram room program .start = .error err c) :
    ∃ path w, RejectedAt room program err path w ∧
      ∀ path' w', RejectedAt room program err path' w' → path' = path ∧ w' = w := by
  unfold checkProgram at h
  rw [list_eq] at h
  obtain ⟨top, htop, herr⟩ := exists_failing h
  obtain ⟨i, hi⟩ := List.mem_iff_getElem?.mp htop
  obtain ⟨path, w, hrejected⟩ := (FailsAt.top hi herr).exists_rejectedAt
  refine ⟨path, w, hrejected, fun path' w' hrejected' => ?_⟩
  apply hrejected'.fails.unique hrejected.fails
  exact Nat.le_antisymm (hrejected.length_le hrejected'.fails)
    (hrejected'.length_le hrejected.fails)

end Rejected

end FunkLang
