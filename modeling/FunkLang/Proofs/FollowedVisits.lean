-- Visits that follow a check. Each visit of a run that the check can follow is
-- paid to a part that the check has come to, at the same place in the program,
-- and starts in the context that the check had there.
import FunkLang.Proofs.FollowedRuns
import FunkLang.Proofs.Occurrences

namespace FunkLang

/-! ## One visit -/

/-- The check comes to a part without functions, which passes with joins that agree. -/
inductive Part.Agrees : Part → CheckVisit → Prop
  | expr {k e c t c'} (h : e.Agrees k c t c') : Part.Agrees (.expr e) (checkExpr k e c)
  | stmt {k s c c'} (hs : s.functions = []) (h : s.Agrees k c c') :
    Part.Agrees (.stmt s) (checkStmt k s c)

/-- A part is visited on a machine that follows the check which has come to it. -/
structure Visit.Follows (v : Visit) (w : CheckVisit) : Prop where
  part : v.part.Agrees w
  machine : v.machine.Follows w.context

/-- A statement that the check has come to, and what the check visits in it. -/
theorem Part.Agrees.steps {s : Stmt} {w : CheckVisit} {m : Machine} (h : (Part.stmt s).Agrees w)
    (hm : m.Follows w.context) :
    s.functions = [] ∧ ∃ k c c', m.Follows c ∧ ∃ ws, w.opens = ws ∧ s.Steps k c c' ws := by
  cases h with
  | stmt hs h => exact ⟨hs, _, _, _, hm, h.steps hs⟩

/-! ## Lists of visits -/

/-- The visits of a run, one after the other, are paid to the parts with the numbers that are
given, and follow the visits of a check to these parts. -/
def FollowAll (number : Nat → Nat) (vs : List Visit) (ws : List CheckVisit) : Prop :=
  ∀ i u, vs[i]? = some u → ∃ w, ws[number i]? = some w ∧ u.Follows w

section Lists

open Run

variable {limits : Limits} {active room k : Nat} {m : Machine} {c c' c1 : Context} {t : Ty}
  {ts : List Ty} {number : Nat → Nat} {u : Visit} {w : CheckVisit} {vs : List Visit}
  {ws : List CheckVisit}

theorem followAll_nil : FollowAll number [] ws := by
  intro i u hu
  cases hu

theorem followAll_cons (hw : ws[number 0]? = some w) (hu : u.Follows w)
    (h : FollowAll (fun i => number (i + 1)) vs ws) : FollowAll number (u :: vs) ws := by
  intro i v hv
  cases i with
  | zero =>
    cases hv
    exact ⟨w, hw, hu⟩
  | succ i => exact h i v hv

theorem followAll_one (hw : ws[number 0]? = some w) (hu : u.Follows w) :
    FollowAll number [u] ws := followAll_cons hw hu followAll_nil

/-- Part by part, in the order of the text. -/
theorem FollowAll.cons (hu : u.Follows w) (h : FollowAll id vs ws) :
    FollowAll id (u :: vs) (w :: ws) := followAll_cons rfl hu h

/-- Again and again the same part. -/
theorem followAll_const (hw : ∀ i, ws[number i]? = some w) (h : ∀ u ∈ vs, u.Follows w) :
    FollowAll number vs ws := fun i u hu => ⟨w, hw i, h u (List.mem_of_getElem? hu)⟩

theorem followAll_andThen {α : Type} {r : EStateM.Result Stop Machine α}
    {good : α → Machine → Prop} {next : α → Machine → List Visit} (hr : Arrives good r)
    (h : ∀ a m1, r = .ok a m1 → good a m1 → FollowAll number (next a m1) ws) :
    FollowAll number (andThen r next) ws := by
  cases r with
  | ok a m1 => exact h a m1 rfl hr
  | error => exact followAll_nil

/-! ### Expressions -/

theorem visitExpr_follows {e : Expr} (he : e.Agrees k c t c') (hm : m.Follows c) :
    (visitExpr active room e m).Follows (checkExpr k e c) := ⟨.expr he, hm⟩

theorem eval_arrives {e : Expr} (he : e.Agrees k c t c') (hm : m.Follows c) :
    Arrives (fun w m' => w.Fits t ∧ m'.Follows c') (e.eval limits room m) :=
  (evaluation_arrives limits).1 room e k c t c' he m hm

/-- An expression is evaluated first, and then come the visits that its value leads to. -/
theorem follow_first {e : Expr} {next : Value → Machine → List Visit}
    (hw : ws[number 0]? = some (checkExpr k e c)) (he : e.Agrees k c t c') (hm : m.Follows c)
    (hnext : ∀ v m1, e.eval limits room m = .ok v m1 → v.Fits t → m1.Follows c' →
      FollowAll (fun i => number (i + 1)) (next v m1) ws) :
    FollowAll number (visitExpr active room e m :: andThen (e.eval limits room m) next) ws := by
  apply followAll_cons hw (visitExpr_follows he hm)
  exact followAll_andThen (eval_arrives he hm) fun v m1 h1 hv => hnext v m1 h1 hv.1 hv.2

theorem follow_each {items : List Expr} (h : AgreeingExprs k items c ts c') (hm : m.Follows c) :
    FollowAll id (eachVisit (visitExpr active room) (fun e => e.eval limits room) items m)
      (eachVisit (checkExpr k) (fun e => e.check k) items c) := by
  induction h generalizing m with
  | nil => exact followAll_nil
  | cons first _ ih =>
    rw [eachVisit, eachVisit, first.passes]
    exact follow_first rfl first hm fun v m1 _ _ hm1 => ih hm1

/-- All parts of an expression are evaluated, in the order of the text. -/
theorem follow_parts {e : Expr} (he : e.Agrees k c t c') (hm : m.Follows c) :
    FollowAll id (eachVisit (visitExpr active room) (fun e => e.eval limits room) e.parts m)
      (checkExpr k e c).opens := by
  obtain ⟨k', ts, c1, hparts, -, -, hopens⟩ := he.parts
  rw [hopens]
  exact follow_each hparts hm

/-- The only part of an expression is evaluated. -/
theorem follow_part {e part : Expr} (hpart : e.parts = [part]) (he : e.Agrees k c t c')
    (hm : m.Follows c) :
    FollowAll id [visitExpr active room part m] (checkExpr k e c).opens := by
  obtain ⟨k', ts, c1, hparts, -, -, hopens⟩ := he.parts
  rw [hpart] at hparts hopens
  obtain ⟨a, rfl, ha⟩ := agreeing_one hparts
  rw [hopens]
  exact followAll_one rfl (visitExpr_follows ha hm)

/-- A machine that follows a check knows no function that it could call. -/
theorem bodyVisits_eq_nil {callee : Value} {args : List Value} {line : Int} (hm : m.Follows c) :
    bodyVisits limits active room callee args line m = [] := by
  unfold bodyVisits
  split
  · rename_i i
    have hfunction : m.heap.function i = default := by
      unfold Heap.function
      rw [hm.functions]
      rfl
    dsimp only
    rw [hfunction]
    split
    · rfl
    · rfl
  · rfl

theorem bodies_eq_nil {callee : Value} {line : Int} {r : EStateM.Result Stop Machine (List Value)}
    (hr : Arrives (fun _ m' => m'.Follows c) r) :
    andThen r (fun args m => bodyVisits limits active room callee args line m) = [] := by
  cases r with
  | ok args m1 => exact bodyVisits_eq_nil hr
  | error => rfl

/-! ### Statements -/

theorem visitStmt_follows {s : Stmt} (hs : s.functions = []) (h : s.Agrees k c c')
    (hm : m.Follows c) : (visitStmt active room s m).Follows (checkStmt k s c) := ⟨.stmt hs h, hm⟩

theorem exec_arrives {s : Stmt} (hs : s.functions = []) (h : s.Agrees k c c') (hm : m.Follows c) :
    Arrives (fun flow m' => flow = .next → m'.Follows c') (s.exec limits room m) :=
  (evaluation_arrives limits).2 room s hs k c c' h m hm

theorem follow_statements {body : List Stmt} (hbody : functionsOfAll body = [])
    (h : AgreeingStmts k body c c') (hm : m.Follows c) :
    FollowAll id (turnVisits (visitStmt active room) (fun s => s.exec limits room) body m)
      (eachVisit (checkStmt k) (fun s => s.check k) body c) := by
  induction h generalizing m with
  | nil => exact followAll_nil
  | cons first _ ih =>
    rw [functionsOfAll, List.append_eq_nil_iff] at hbody
    rw [turnVisits, eachVisit, first.passes]
    apply FollowAll.cons (visitStmt_follows hbody.1 first hm)
    refine followAll_andThen (exec_arrives hbody.1 first hm) fun flow m1 _ hm1 => ?_
    cases flow with
    | next => exact ih hbody.2 (hm1 rfl)
    | returned w => exact followAll_nil

/-- A loop goes from its test to its body and back. -/
theorem follow_loop {condition : Expr} {body : Stmt} {line : Int}
    (hcondition : condition.Agrees k c t c1) (hs : body.functions = [])
    (hbody : body.Agrees k c1 c') (hback : c'.FadesTo c) (turns : Nat) (hm : m.Follows c) :
    FollowAll (· % 2)
      (loopVisits (visitExpr active room condition)
        (do Run.truth .while_ (← condition.eval limits room) line)
        (visitStmt active room body) (body.exec limits room) turns m)
      [checkExpr k condition c, checkStmt k body c1] := by
  induction turns generalizing m with
  | zero => exact followAll_nil
  | succ turns ih =>
    have htest : Arrives (fun _ m' => m'.Follows c1)
        ((do Run.truth .while_ (← condition.eval limits room) line : Run Bool) m) :=
      (eval_arrives hcondition hm).bind fun v m1 hv => arrives_local (local_truth _ _ _) hv.2
    unfold loopVisits
    apply followAll_cons rfl (visitExpr_follows hcondition hm)
    refine followAll_andThen htest fun holds m1 _ hm1 => ?_
    cases holds with
    | false => exact followAll_nil
    | true =>
      apply followAll_cons rfl (visitStmt_follows hs hbody hm1)
      refine followAll_andThen (exec_arrives hs hbody hm1) fun flow m2 _ hm2 => ?_
      cases flow with
      | next =>
        simp only [Nat.add_assoc, Nat.reduceAdd, Nat.add_mod_right]
        exact ih ((hm2 rfl).fade hback)
      | returned w => exact followAll_nil

/-- A loop over items goes to its body again and again. -/
theorem follow_turns {items : List Value} {body : Stmt} {name : String} (hs : body.functions = [])
    (hbody : body.Agrees k (c.inner.declare name .unknown) c') (hback : c'.outer.FadesTo c)
    (hm : m.Follows c) :
    ∀ u ∈ turnVisits (fun w m => visitStmt active room body (m.enclose m.scope [(name, w)]))
        (fun w => do Run.enclosed (← get).scope [(name, w)] (body.exec limits room)) items m,
      u.Follows (checkStmt k body (c.inner.declare name .unknown)) := by
  induction items generalizing m with
  | nil => exact List.forall_mem_nil _
  | cons w rest ih =>
    have hinner : (m.enclose m.scope [(name, w)]).Follows (c.inner.declare name .unknown) :=
      hm.innerNamed w.fits_unknown
    have hturn := arrives_enclosed (exec_keeps limits room body) hm (exec_arrives hs hbody hinner)
    rw [turnVisits, List.forall_mem_cons]
    refine ⟨visitStmt_follows hs hbody hinner, fun u hu => ?_⟩
    obtain ⟨flow, m1, h1, hu⟩ := mem_andThen.mp hu
    rw [h1] at hturn
    cases flow with
    | next => exact ih ((hturn rfl).fade hback) u hu
    | returned v => cases hu

end Lists

/-! ## What a visit opens -/

section Opens

variable {limits : Limits} {v : Visit} {w : CheckVisit}

/-- A visit that follows a check opens only such visits, each to the part that the check has
visited there. -/
theorem Visit.Follows.opens (h : v.Follows w) :
    FollowAll (v.partNumber limits) (v.opens limits) w.opens := by
  obtain ⟨part, room, m, active⟩ := v
  obtain ⟨hpart, hm⟩ := h
  unfold Visit.opens Visit.partNumber
  dsimp only at hm hpart ⊢
  split
  case h_1 op operand room =>
    cases hpart with
    | expr he => exact follow_part rfl he hm
  case h_2 left op right room =>
    cases hpart with
    | expr he =>
      obtain ⟨k', ts, c2, hparts, -, -, hopens⟩ := he.parts
      obtain ⟨a, b, c1, rfl, ha, hb⟩ := agreeing_two hparts
      simp only [Expr.parts, eachVisit, ha.passes, hb.passes, andThen] at hopens
      rw [hopens]
      refine follow_first rfl ha hm fun v m1 _ _ hm1 => ?_
      exact followAll_one rfl (visitExpr_follows hb hm1)
  case h_3 op left right room =>
    cases hpart with
    | expr he =>
      obtain ⟨k', a, b, c1, ha, hb, -, rfl, hopens⟩ := he.logical
      rw [hopens]
      refine follow_first rfl ha hm fun v m1 _ _ hm1 => ?_
      split
      · exact followAll_one rfl (visitExpr_follows hb hm1)
      · exact followAll_nil
  case h_4 name value room =>
    cases hpart with
    | expr he => exact follow_part rfl he hm
  case h_5 collection place value room =>
    cases hpart with
    | expr he => exact follow_parts he hm
  case h_6 collection key value room =>
    cases hpart with
    | expr he => exact follow_parts he hm
  case h_7 condition yes no room =>
    cases hpart with
    | expr he =>
      obtain ⟨k', b, a, a', c1, c2, hb, ha, ha', hpast, -, -, hopens⟩ := he.choice
      rw [hopens]
      refine follow_first rfl hb hm fun v m1 h1 _ hm1 => ?_
      cases v with
      | bool holds =>
        cases holds with
        | true =>
          refine followAll_one ?_ (visitExpr_follows ha hm1)
          simp [h1]
        | false =>
          refine followAll_one ?_ (visitExpr_follows ha' (hm1.fade hpast))
          simp [h1]
      | _ => exact followAll_nil
  case h_8 callee arguments room =>
    cases hpart with
    | expr he =>
      obtain ⟨k', ts, c2, hparts, -, -, hopens⟩ := he.parts
      cases hparts with
      | cons hf hargs =>
        simp only [Expr.parts, eachVisit, hf.passes, andThen] at hopens
        rw [hopens]
        refine follow_first rfl hf hm fun f m1 _ _ hm1 => ?_
        have harguments := arrives_exprs ((evaluation_arrives limits).1 (room + 1)) hargs hm1
        rw [bodies_eq_nil harguments, List.append_nil]
        exact follow_each hargs hm1
  case h_9 line elements room =>
    cases hpart with
    | expr he => exact follow_parts he hm
  case h_10 line entries room =>
    cases hpart with
    | expr he => exact follow_parts he hm
  case h_11 collection place room =>
    cases hpart with
    | expr he => exact follow_parts he hm
  case h_12 collection key room =>
    cases hpart with
    | expr he => exact follow_part rfl he hm
  case h_13 line value room =>
    obtain ⟨hs, k, c, c', hm, ws, hopens, hsteps⟩ := hpart.steps hm
    rw [hopens]
    cases hsteps with
    | expression hvalue => exact followAll_one rfl (visitExpr_follows hvalue hm)
  case h_14 line value room =>
    obtain ⟨hs, k, c, c', hm, ws, hopens, hsteps⟩ := hpart.steps hm
    rw [hopens]
    cases hsteps with
    | print hvalue => exact followAll_one rfl (visitExpr_follows hvalue hm)
  case h_15 line name value room =>
    obtain ⟨hs, k, c, c', hm, ws, hopens, hsteps⟩ := hpart.steps hm
    rw [hopens]
    cases hsteps with
    | makeValue hvalue => exact followAll_one rfl (visitExpr_follows hvalue hm)
  case h_16 line body room =>
    obtain ⟨hs, k, c, c', hm, ws, hopens, hsteps⟩ := hpart.steps hm
    rw [hopens]
    cases hsteps with
    | block hbody => exact follow_statements hs hbody hm.inner
  case h_17 line condition yes no room =>
    obtain ⟨hs, k, c, c', hm, ws, hopens, hsteps⟩ := hpart.steps hm
    rw [hopens]
    cases hsteps with
    | if_ hcondition hyes hpast =>
      refine follow_first rfl hcondition hm fun v m1 h1 _ hm1 => ?_
      split
      · refine followAll_one ?_ (visitStmt_follows hs hyes hm1)
        simp [h1]
      · exact followAll_nil
      · exact followAll_nil
    | ifElse hcondition hyes hno hpast hover =>
      obtain ⟨hsyes, hsno⟩ := List.append_eq_nil_iff.mp hs
      refine follow_first rfl hcondition hm fun v m1 h1 _ hm1 => ?_
      split
      · refine followAll_one ?_ (visitStmt_follows hsyes hyes hm1)
        simp [h1]
      · refine followAll_one ?_ (visitStmt_follows hsno hno (hm1.fade hpast))
        simp [h1]
      · exact followAll_nil
  case h_18 line condition body room =>
    obtain ⟨hs, k, c, c', hm, ws, hopens, hsteps⟩ := hpart.steps hm
    rw [hopens]
    cases hsteps with
    | while_ hcondition hbody _ hback =>
      have hfree : body.functions = [] := hs
      exact follow_loop hcondition hfree hbody hback _ hm
  case h_19 line value room =>
    obtain ⟨hs, k, c, c', hm, ws, hopens, hsteps⟩ := hpart.steps hm
    rw [hopens]
    cases hsteps with
    | returnValue hvalue => exact followAll_one rfl (visitExpr_follows hvalue hm)
  case h_20 line value name body room =>
    obtain ⟨hs, k, c, c', hm, ws, hopens, hsteps⟩ := hpart.steps hm
    rw [hopens]
    cases hsteps with
    | with_ hvalue hbody =>
      refine follow_first rfl hvalue hm fun v m1 _ hv hm1 => ?_
      exact followAll_one rfl (visitStmt_follows hs hbody (hm1.innerNamed hv))
  case h_21 line name items body room =>
    obtain ⟨hs, k, c, c', hm, ws, hopens, hsteps⟩ := hpart.steps hm
    rw [hopens]
    cases hsteps with
    | for_ hitems hbody _ hback =>
      refine follow_first rfl hitems hm fun v m1 _ _ hm1 => ?_
      split
      · exact followAll_const (fun i => by simp) (follow_turns hs hbody hback hm1)
      · exact followAll_nil
  case h_22 => exact followAll_nil

end Opens

end FunkLang
