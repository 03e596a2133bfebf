-- Checks that a run can follow. Where a part passes and all joins in it agree,
-- so do its parts, each from the context that the one before it has left, and
-- the ways past a part and back to one lead to contexts that have faded.
import FunkLang.Proofs.Joins

namespace FunkLang

/-! ## What passes, with joins that agree -/

/-- An expression passes, and all joins in it agree. -/
structure Expr.Agrees (k : Nat) (c : Context) (e : Expr) (t : Ty) (c' : Context) : Prop where
  passes : e.check k c = .ok t c'
  joins : (checkExpr k e c).JoinsAgreeInside

/-- A statement passes, and all joins in it agree. -/
structure Stmt.Agrees (k : Nat) (c : Context) (s : Stmt) (c' : Context) : Prop where
  passes : s.check k c = .ok () c'
  joins : (checkStmt k s c).JoinsAgreeInside

/-- Expressions that do so one after the other, with their types. -/
inductive AgreeingExprs (k : Nat) : List Expr → Context → List Ty → Context → Prop
  | nil {c} : AgreeingExprs k [] c [] c
  | cons {e rest c t c1 ts c'} (first : e.Agrees k c t c1)
    (others : AgreeingExprs k rest c1 ts c') : AgreeingExprs k (e :: rest) c (t :: ts) c'

/-- Statements that do so one after the other. -/
inductive AgreeingStmts (k : Nat) : List Stmt → Context → Context → Prop
  | nil {c} : AgreeingStmts k [] c c
  | cons {s rest c c1 c'} (first : s.Agrees k c c1)
    (others : AgreeingStmts k rest c1 c') : AgreeingStmts k (s :: rest) c c'

section Agreeing

variable {k : Nat} {c c' : Context} {t : Ty} {ts : List Ty}

theorem agreeing_exprs {items : List Expr} (h : Chain k items c ts c')
    (hjoins : ∀ u ∈ eachVisit (checkExpr k) (fun e => e.check k) items c, u.JoinsAgreeInside) :
    AgreeingExprs k items c ts c' := by
  induction h with
  | nil => exact .nil
  | cons first _ ih =>
    rw [eachVisit, first, List.forall_mem_cons] at hjoins
    exact .cons ⟨first, hjoins.1⟩ (ih hjoins.2)

theorem agreeing_stmts {body : List Stmt} (h : StmtChain k body c c')
    (hjoins : ∀ u ∈ eachVisit (checkStmt k) (fun s => s.check k) body c, u.JoinsAgreeInside) :
    AgreeingStmts k body c c' := by
  induction h with
  | nil => exact .nil
  | cons first _ ih =>
    rw [eachVisit, first, List.forall_mem_cons] at hjoins
    exact .cons ⟨first, hjoins.1⟩ (ih hjoins.2)

/-- The parts of an expression that passes with joins that agree do so too. -/
theorem Expr.Agrees.parts {e : Expr} (h : e.Agrees k c t c') :
    ∃ k' ts c1, AgreeingExprs k' e.parts c ts c1 ∧ e.leaves? t c1 = some c' ∧
      e.Rule (fun n t => c'.get? n = some t) ts t ∧
      (checkExpr k e c).opens = eachVisit (checkExpr k') (fun e => e.check k') e.parts c := by
  obtain ⟨k', ts, c1, hroom, hchain, hleaves, rule⟩ := rule_of_check k e c t c' h.passes
  have hopens : (checkExpr k e c).opens =
      eachVisit (checkExpr k') (fun e => e.check k') e.parts c := by
    simp only [CheckVisit.opens, checkExpr, hroom]
  refine ⟨k', ts, c1, agreeing_exprs hchain fun u hu => h.joins.opens ?_, hleaves, rule, hopens⟩
  rw [hopens]
  exact hu

theorem agreeing_one {e : Expr} (h : AgreeingExprs k [e] c ts c') :
    ∃ t, ts = [t] ∧ e.Agrees k c t c' := by
  obtain _ | ⟨first, _ | _⟩ := h
  exact ⟨_, rfl, first⟩

theorem agreeing_two {e e' : Expr} (h : AgreeingExprs k [e, e'] c ts c') :
    ∃ t t' c1, ts = [t, t'] ∧ e.Agrees k c t c1 ∧ e'.Agrees k c1 t' c' := by
  obtain _ | ⟨first, _ | ⟨second, _ | _⟩⟩ := h
  exact ⟨_, _, _, rfl, first, second⟩

theorem agreeing_three {e e' e'' : Expr} (h : AgreeingExprs k [e, e', e''] c ts c') :
    ∃ t t' t'' c1 c2, ts = [t, t', t''] ∧ e.Agrees k c t c1 ∧ e'.Agrees k c1 t' c2 ∧
      e''.Agrees k c2 t'' c' := by
  obtain _ | ⟨first, _ | ⟨second, _ | ⟨third, _ | _⟩⟩⟩ := h
  exact ⟨_, _, _, _, _, rfl, first, second, third⟩

/-- An operation that may leave its right operand out. -/
theorem Expr.Agrees.logical {op : LogicalOp} {left right : Expr}
    (h : (Expr.logical op left right).Agrees k c t c') :
    ∃ k' a b c1, left.Agrees k' c a c1 ∧ right.Agrees k' c1 b c' ∧ c1.FadesTo c' ∧ t = .boolean ∧
      (checkExpr k (.logical op left right) c).opens =
        [checkExpr k' left c, checkExpr k' right c1] := by
  obtain ⟨k', ts, c2, hparts, hleaves, rule, hopens⟩ := h.parts
  obtain ⟨a, b, c1, rfl, ha, hb⟩ := agreeing_two hparts
  cases hleaves
  cases rule
  simp only [Expr.parts, eachVisit, ha.passes, hb.passes, andThen] at hopens
  have hjoins := h.joins.expr h.passes
  unfold CheckVisit.jumps at hjoins
  rw [hopens] at hjoins
  exact ⟨k', a, b, c1, ha, hb, hjoins _ List.mem_cons_self, rfl, hopens⟩

/-- A choice between two parts. -/
theorem Expr.Agrees.choice {condition yes no : Expr}
    (h : (Expr.choice condition yes no).Agrees k c t c') :
    ∃ k' b a a' c1 c2, condition.Agrees k' c b c1 ∧ yes.Agrees k' c1 a c2 ∧ no.Agrees k' c2 a' c' ∧
      c1.FadesTo c2 ∧ c2.FadesTo c' ∧ t = (if a = a' then a else .unknown) ∧
      (checkExpr k (.choice condition yes no) c).opens =
        [checkExpr k' condition c, checkExpr k' yes c1, checkExpr k' no c2] := by
  obtain ⟨k', ts, c3, hparts, hleaves, rule, hopens⟩ := h.parts
  obtain ⟨b, a, a', c1, c2, rfl, hb, ha, ha'⟩ := agreeing_three hparts
  cases hleaves
  cases rule
  simp only [Expr.parts, eachVisit, hb.passes, ha.passes, ha'.passes, andThen] at hopens
  have hjoins := h.joins.expr h.passes
  unfold CheckVisit.jumps at hjoins
  rw [hopens] at hjoins
  have hpast := hjoins _ List.mem_cons_self
  have hover := hjoins _ (List.mem_cons_of_mem _ List.mem_cons_self)
  exact ⟨k', b, a, a', c1, c2, hb, ha, ha', hpast, hover, rfl, hopens⟩

/-! ### Statements -/

/-- How a statement passes, from one context to another, and what its check visits on the way.
Nothing is said of functions. -/
inductive Stmt.Steps : (k : Nat) → Stmt → Context → Context → List CheckVisit → Prop
  | expression {k line value c t c'} (h : value.Agrees k c t c') :
    Steps (k + 3) (.expression line value) c c' [checkExpr k value c]
  | print {k line value c t c'} (h : value.Agrees k c t c') :
    Steps (k + 3) (.print line value) c c' [checkExpr k value c]
  | make {k line name c c'} (hc : c'.scopes = (c.declare name.text .nil).scopes) :
    Steps (k + 3) (.make line name none) c c' []
  | makeValue {k line name value c t c1 c'} (h : value.Agrees k c t c1)
    (hc : c'.scopes = (c1.declare name.text t).scopes) :
    Steps (k + 3) (.make line name (some value)) c c' [checkExpr k value c]
  | return_ {k line c} : Steps (k + 3) (.return_ line none) c c []
  | returnValue {k line value c t c'} (h : value.Agrees k c t c') :
    Steps (k + 3) (.return_ line (some value)) c c' [checkExpr k value c]
  | block {k line body c c'} (h : AgreeingStmts k body c.inner c') :
    Steps (k + 6) (.block line body) c c'.outer
      (eachVisit (checkStmt k) (fun s => s.check k) body c.inner)
  | if_ {k line condition yes c t c1 c'} (h : condition.Agrees k c t c1)
    (hyes : yes.Agrees k c1 c') (hpast : c1.FadesTo c') :
    Steps (k + 3) (.if_ line condition yes none) c c' [checkExpr k condition c, checkStmt k yes c1]
  | ifElse {k line condition yes no c t c1 c2 c'} (h : condition.Agrees k c t c1)
    (hyes : yes.Agrees k c1 c2) (hno : no.Agrees k c2 c') (hpast : c1.FadesTo c2)
    (hover : c2.FadesTo c') :
    Steps (k + 3) (.if_ line condition yes (some no)) c c'
      [checkExpr k condition c, checkStmt k yes c1, checkStmt k no c2]
  | while_ {k line condition body c t c1 c'} (h : condition.Agrees k c t c1)
    (hbody : body.Agrees k c1 c') (hpast : c1.FadesTo c') (hback : c'.FadesTo c) :
    Steps (k + 3) (.while_ line condition body) c c'
      [checkExpr k condition c, checkStmt k body c1]
  | with_ {k line value name body c t c1 c'} (h : value.Agrees (k + 2) c t c1)
    (hbody : body.Agrees k (c1.inner.declare name.text t) c') :
    Steps (k + 5) (.with_ line value name body) c c'.outer
      [checkExpr (k + 2) value c, checkStmt k body (c1.inner.declare name.text t)]
  | for_ {k line name items body c t c1 c'} (h : items.Agrees (k + 2) c t c1)
    (hbody : body.Agrees k (c1.inner.declare name.text .unknown) c')
    (hpast : c1.FadesTo c'.outer) (hback : c'.outer.FadesTo c1) :
    Steps (k + 5) (.for_ line name items body) c c'.outer
      [checkExpr (k + 2) items c, checkStmt k body (c1.inner.declare name.text .unknown)]

theorem hoisting_eq {body : List Stmt} (h : functionsOfAll body = []) : c.hoisting body = c := by
  have hnone : functionNames body = [] := by
    rw [List.eq_nil_iff_forall_not_mem]
    intro name hname
    have hmem := functionNames_subset hname
    rw [h] at hmem
    cases hmem
  unfold Context.hoisting
  rw [hnone]
  rfl

theorem Stmt.Agrees.steps {s : Stmt} (h : s.Agrees k c c') (hs : s.functions = []) :
    ∃ visits, (checkStmt k s c).opens = visits ∧ s.Steps k c c' visits := by
  refine ⟨_, rfl, ?_⟩
  have hjoins := h.joins.stmt h.passes
  have hinside := fun u (hu : u ∈ (checkStmt k s c).opens) => h.joins.opens hu
  unfold CheckVisit.jumps at hjoins
  cases passes_of_check k s c c' h.passes with
  | @expression k line value c t c' hvalue =>
    exact .expression ⟨hvalue, hinside _ List.mem_cons_self⟩
  | @print k line value c t c' hvalue =>
    exact .print ⟨hvalue, hinside _ List.mem_cons_self⟩
  | make hc => exact .make hc
  | @makeValue k line name value c t c1 c' hvalue hc =>
    exact .makeValue ⟨hvalue, hinside _ List.mem_cons_self⟩ hc
  | return_ => exact .return_
  | @returnValue k line value c t c' hvalue =>
    exact .returnValue ⟨hvalue, hinside _ List.mem_cons_self⟩
  | @block k line body c c' hbody =>
    have hopens : (checkStmt (k + 6) (.block line body) c).opens =
        eachVisit (checkStmt k) (fun s => s.check k) body c.inner := by
      simp only [CheckVisit.opens, checkStmt, checkAll, hoisting_eq hs]
    rw [hoisting_eq hs] at hbody
    rw [hopens] at hinside ⊢
    exact .block (agreeing_stmts hbody hinside)
  | @if_ k line condition yes no c t c1 c' hcondition ht hbranches =>
    cases no with
    | none =>
      obtain _ | ⟨hyes, _ | _⟩ := hbranches
      have hopens : (checkStmt (k + 3) (.if_ line condition yes none) c).opens =
          [checkExpr k condition c, checkStmt k yes c1] := by
        simp [CheckVisit.opens, checkStmt, hcondition, andThen, eachVisit, hyes]
      rw [hopens] at hinside hjoins ⊢
      simp only [List.forall_mem_cons] at hinside
      exact .if_ ⟨hcondition, hinside.1⟩ ⟨hyes, hinside.2.1⟩ (hjoins _ List.mem_cons_self)
    | some no =>
      obtain _ | ⟨hyes, _ | ⟨hno, _ | _⟩⟩ := hbranches
      rename_i c2
      have hopens : (checkStmt (k + 3) (.if_ line condition yes (some no)) c).opens =
          [checkExpr k condition c, checkStmt k yes c1, checkStmt k no c2] := by
        simp [CheckVisit.opens, checkStmt, hcondition, andThen, eachVisit, hyes, hno]
      rw [hopens] at hinside hjoins ⊢
      simp only [List.forall_mem_cons] at hinside
      exact .ifElse ⟨hcondition, hinside.1⟩ ⟨hyes, hinside.2.1⟩ ⟨hno, hinside.2.2.1⟩
        (hjoins _ List.mem_cons_self) (hjoins _ (List.mem_cons_of_mem _ List.mem_cons_self))
  | @while_ k line condition body c t c1 c' hcondition ht hbody =>
    have hopens : (checkStmt (k + 3) (.while_ line condition body) c).opens =
        [checkExpr k condition c, checkStmt k body c1] := by
      simp [CheckVisit.opens, checkStmt, hcondition, andThen]
    rw [hopens] at hinside hjoins ⊢
    simp only [List.forall_mem_cons] at hinside
    exact .while_ ⟨hcondition, hinside.1⟩ ⟨hbody, hinside.2.1⟩ (hjoins _ List.mem_cons_self)
      (hjoins _ (List.mem_cons_of_mem _ List.mem_cons_self))
  | funk => cases hs
  | @with_ k line value name body c t c1 c' hvalue hbody =>
    have hopens : (checkStmt (k + 5) (.with_ line value name body) c).opens =
        [checkExpr (k + 2) value c, checkStmt k body (c1.inner.declare name.text t)] := by
      simp [CheckVisit.opens, checkStmt, hvalue, andThen]
    rw [hopens] at hinside ⊢
    simp only [List.forall_mem_cons] at hinside
    exact .with_ ⟨hvalue, hinside.1⟩ ⟨hbody, hinside.2.1⟩
  | @for_ k line name items body c c1 c' hitems hbody =>
    have hopens : (checkStmt (k + 5) (.for_ line name items body) c).opens =
        [checkExpr (k + 2) items c, checkStmt k body (c1.inner.declare name.text .unknown)] := by
      simp [CheckVisit.opens, checkStmt, hitems, andThen]
    rw [hopens] at hinside hjoins ⊢
    simp only [List.forall_mem_cons] at hinside
    exact .for_ ⟨hitems, hinside.1⟩ ⟨hbody, hinside.2.1⟩ (hjoins _ List.mem_cons_self)
      (hjoins _ (List.mem_cons_of_mem _ List.mem_cons_self))

end Agreeing

end FunkLang
