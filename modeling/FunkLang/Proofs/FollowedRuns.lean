-- Runs that follow a check. Where no function is declared and the joins agree,
-- a run stays with the check of the program part by part, however often it
-- comes to a part: the value of an expression is of the type that the check
-- found, and the machine follows the context that the check left.
import FunkLang.Proofs.AgreeingChecks
import FunkLang.Proofs.Evaluation
import FunkLang.Proofs.Following
import FunkLang.Proofs.ScopeDiscipline

namespace FunkLang

/-! ## Steps -/

/-- A run ends as `good` says, if it has an answer. -/
def Arrives {α : Type} (good : α → Machine → Prop) (r : EStateM.Result Stop Machine α) : Prop :=
  Ends good (fun _ _ => True) r

section Steps

open Run

variable {α β : Type} {good : α → Machine → Prop} {good' : β → Machine → Prop} {m : Machine}
  {c c' : Context} {v : Value} {t : Ty}

theorem Arrives.bind {x : Run α} {f : α → Run β} (hx : Arrives good (x m))
    (hf : ∀ a m1, good a m1 → Arrives good' (f a m1)) : Arrives good' ((x >>= f) m) := by
  unfold Arrives
  rw [ends_bind]
  exact Ends.imp hx hf fun _ _ _ => trivial

theorem Arrives.imp {r : EStateM.Result Stop Machine α} {good' : α → Machine → Prop}
    (h : Arrives good r) (himp : ∀ a m1, good a m1 → good' a m1) : Arrives good' r :=
  Ends.imp h himp fun _ _ _ => trivial

/-- A step that touches no scope. -/
theorem arrives_local {kind : FaultCause → Bool} {x : Run α} (hlocal : Local kind x)
    (hm : m.Follows c) : Arrives (fun _ m' => m'.Follows c) (x m) :=
  (hlocal m).imp (fun _ _ hs => hm.of_same hs) fun _ _ _ => trivial

/-- An operator is applied to values of their types. -/
theorem arrives_operator {kind : FaultCause → Bool} {x : Run α} {fact : α → Prop} {unsure : Prop}
    (hlocal : Local kind x) (answers : Answers fact unsure x) (hm : m.Follows c) :
    Arrives (fun a m' => fact a ∧ m'.Follows c) (x m) :=
  ((hlocal m).and (answers m)).imp (fun _ _ h => ⟨h.2, hm.of_same h.1⟩) fun _ _ _ => trivial

/-- A condition that has an answer is a truth value. -/
theorem arrives_truth {by_ : Condition} {line : Int} {next : Bool → Run β}
    (h : ∀ b, v = .bool b → Arrives good' (next b m)) :
    Arrives good' ((truth by_ v line >>= next) m) := by
  unfold Arrives
  rw [ends_bind]
  cases v with
  | bool b => exact h b rfl
  | _ => trivial

theorem arrives_atom {mark : Mark Atom}
    (rule : (Expr.atom mark).Rule (fun n t => c.get? n = some t) [] t) (hm : m.Follows c) :
    Arrives (fun w m' => w.Fits t ∧ m'.Follows c) (atom mark m) := by
  unfold atom
  cases rule with
  | number h | string h | boolean h | nil h =>
    rw [h]
    exact ⟨Or.inr rfl, hm⟩
  | name h ht =>
    have hrel := hm.get? mark.text
    rw [ht] at hrel
    rw [h]
    unfold Arrives lookup
    rw [ends_bind, ends_get]
    unfold ScopeTree.get
    cases hget : m.scopes.get? m.scope mark.text with
    | none => trivial
    | some w =>
      rw [hget] at hrel
      cases hrel with
      | some hw => exact ⟨hw, hm⟩

theorem arrives_assign {name : String} {line : Int} (hv : v.Fits t)
    (hassign : c.assign? name t = some c') (hm : m.Follows c) :
    Arrives (fun _ m' => m'.Follows c') (assign name v line m) := by
  unfold Arrives assign
  rw [ends_bind, ends_get]
  cases hhome : m.scopes.home? m.scope name with
  | none => trivial
  | some home => exact hm.assign hv hassign hhome

/-- Only built-in functions can be called, and they touch no scope. -/
theorem arrives_call {limits : Limits} {room : Nat} {run : Stmt → Run Flow} {args : List Value}
    {line : Int} (hm : m.Follows c) :
    Arrives (fun _ m' => m'.Follows c) (callValue limits room run v args line m) := by
  cases v with
  | builtin b => exact arrives_local (Builtin.local_call room b args line) hm
  | function i =>
    have hfunction : m.heap.function i = default := by
      unfold Heap.function
      rw [hm.functions]
      rfl
    unfold Arrives callValue
    rw [ends_bind, ends_get, hfunction]
    unfold callClosure
    split
    · trivial
    · rw [ends_bind, ends_get]
      split
      · trivial
      · -- The function that there is not has no statements.
        unfold note
        rw [ends_bind, ends_modify, ends_activation, ends_enclosed]
        have hroot : 0 < m.scopes.size := Nat.lt_of_le_of_lt (Nat.zero_le _) hm.inside
        have grounded := ScopeTree.enclose_grounded hm.grounded hroot
        refine hm.grown rfl ?_ grounded (fun s hs => ?_) (fun s _ => ?_) rfl
        · exact Nat.le_of_lt (Nat.lt_of_lt_of_eq (Nat.lt_succ_self _) (enclose_opened ..).symm)
        · exact (ScopeTree.parent?_enclose ..).trans (if_neg (Nat.ne_of_lt hs))
        · exact ScopeTree.table_enclose ..
  | _ => trivial

end Steps

/-! ## Sequences -/

/-- What is to be shown of an expression: its value is of the type that the check found, and the
machine follows the check. -/
def Expr.Arrives (limits : Limits) (room : Nat) (e : Expr) : Prop :=
  ∀ k c t c', e.Agrees k c t c' → ∀ m, m.Follows c →
    FunkLang.Arrives (fun w m' => w.Fits t ∧ m'.Follows c') (e.eval limits room m)

/-- What is to be shown of a statement. A return leaves the rest of the text out. -/
def Stmt.Arrives (limits : Limits) (room : Nat) (s : Stmt) : Prop :=
  s.functions = [] → ∀ k c c', s.Agrees k c c' → ∀ m, m.Follows c →
    FunkLang.Arrives (fun flow m' => flow = .next → m'.Follows c') (s.exec limits room m)

section Sequences

open Run

variable {limits : Limits} {k room : Nat} {m : Machine} {c c' : Context} {ts : List Ty}

theorem arrives_each {α β : Type} {part : α → Expr} {act : α → Run β} {items : List α}
    (each : ∀ a ∈ items, ∀ c t c1, (part a).Agrees k c t c1 → ∀ m, m.Follows c →
      Arrives (fun _ m' => m'.Follows c1) (act a m))
    (h : AgreeingExprs k (items.map part) c ts c') (hm : m.Follows c) :
    Arrives (fun _ m' => m'.Follows c') (items.mapM act m) := by
  induction items generalizing c ts m with
  | nil =>
    cases h
    exact hm
  | cons a rest ih =>
    cases h with
    | cons first others =>
      rw [List.forall_mem_cons] at each
      rw [List.mapM_cons]
      refine (each.1 _ _ _ first m hm).bind fun b m1 hm1 => ?_
      exact (ih each.2 others hm1).bind fun bs m2 hm2 => hm2

theorem arrives_exprs (ih : ∀ e : Expr, e.Arrives limits room) {items : List Expr}
    (h : AgreeingExprs k items c ts c') (hm : m.Follows c) :
    Arrives (fun _ m' => m'.Follows c') (items.mapM (fun e => e.eval limits room) m) := by
  rw [← List.map_id items] at h
  exact arrives_each (fun e _ c t c1 he m hm => (ih e k c t c1 he m hm).imp fun _ _ h => h.2) h hm

theorem arrives_statements (ih : ∀ s : Stmt, s.Arrives limits room) {body : List Stmt}
    (hbody : functionsOfAll body = []) (h : AgreeingStmts k body c c') (hm : m.Follows c) :
    Arrives (fun flow m' => flow = .next → m'.Follows c')
      (inTurn (fun s => s.exec limits room) body m) := by
  induction h generalizing m with
  | nil => exact fun _ => hm
  | @cons s rest c c1 c' first _ ihrest =>
    unfold inTurn
    rw [functionsOfAll, List.append_eq_nil_iff] at hbody
    refine (ih s hbody.1 k c c1 first m hm).bind fun flow m1 hm1 => ?_
    cases flow with
    | next => exact ihrest hbody.2 (hm1 rfl)
    | returned w => rintro ⟨⟩

/-- Turns that start in one context and leave one that fades to it. -/
theorem arrives_turns {α : Type} {act : α → Run Flow} {items : List α}
    (each : ∀ a ∈ items, ∀ m, m.Follows c →
      Arrives (fun flow m' => flow = .next → m'.Follows c) (act a m)) (hm : m.Follows c) :
    Arrives (fun flow m' => flow = .next → m'.Follows c) (inTurn act items m) := by
  induction items generalizing m with
  | nil => exact fun _ => hm
  | cons a rest ih =>
    unfold inTurn
    rw [List.forall_mem_cons] at each
    refine (each.1 m hm).bind fun flow m1 hm1 => ?_
    cases flow with
    | next => exact ih each.2 (hm1 rfl)
    | returned w => rintro ⟨⟩

/-- A loop whose test leads from the context before it to the one between test and body, and
whose body leads back. -/
theorem arrives_loop {test : Run Bool} {body : Run Flow} {between : Context}
    (htest : ∀ m, m.Follows c → Arrives (fun _ m' => m'.Follows between) (test m))
    (hbody : ∀ m, m.Follows between →
      Arrives (fun flow m' => flow = .next → m'.Follows c) (body m)) (turns : Nat)
    (hm : m.Follows c) :
    Arrives (fun flow m' => flow = .next → m'.Follows between) (whileHolds test body turns m) := by
  induction turns generalizing m with
  | zero => trivial
  | succ turns ih =>
    unfold whileHolds
    refine (htest m hm).bind fun holds m1 hm1 => ?_
    cases holds with
    | false => exact fun _ => hm1
    | true =>
      refine (hbody m1 hm1).bind fun flow m2 hm2 => ?_
      cases flow with
      | next => exact ih (hm2 rfl)
      | returned w => rintro ⟨⟩

/-- What runs in a scope of its own, and leaves it where the check leaves it. -/
theorem arrives_enclosed {bindings : List (String × Value)} {body : Run Flow}
    {added : List String} (hkeeps : Keeps (Kept added) body) (hm : m.Follows c)
    (h : Arrives (fun flow m' => flow = .next → m'.Follows c')
      (body (m.enclose m.scope bindings))) :
    Arrives (fun flow m' => flow = .next → m'.Follows c'.outer)
      ((do enclosed (← get).scope bindings body : Run Flow) m) := by
  unfold Arrives
  rw [ends_bind, ends_get, ends_enclosed]
  have hkept := hkeeps (m.enclose m.scope bindings)
  refine (hkept.and h).imp (fun flow m1 h1 hflow => ?_) fun _ _ _ => trivial
  exact (h1.2 hflow).back hm.inside h1.1

end Sequences

/-! ## All parts of a program -/

section Evaluation

open Run

theorem evaluation_arrives (limits : Limits) :
    (∀ room (e : Expr), e.Arrives limits room) ∧ (∀ room (s : Stmt), s.Arrives limits room) := by
  refine evaluation_induction limits ?shallowExpr ?shallowStmt ?atom ?unary ?binary ?logical ?assign
    ?assignIndex ?assignField ?choice ?call ?list ?record ?index ?field ?expression ?print ?make
    ?makeValue ?block ?if_ ?while_ ?funk ?return_ ?returnValue ?with_ ?for_
  case shallowExpr =>
    intro room e heq k c t c' _ m _
    rw [heq]
    trivial
  case shallowStmt =>
    intro room s heq _ k c c' _ m _
    rw [heq]
    trivial
  case atom =>
    intro room mark k c t c' h m hm
    obtain ⟨k', ts, c1, hparts, hleaves, rule, -⟩ := h.parts
    cases hparts
    cases hleaves
    simp only [Expr.eval]
    exact arrives_atom rule hm
  case unary =>
    intro room op operand ih k c t c' h m hm
    obtain ⟨k', ts, c1, hparts, hleaves, rule, -⟩ := h.parts
    obtain ⟨a, rfl, ha⟩ := agreeing_one hparts
    cases hleaves
    simp only [Expr.eval]
    refine (ih _ _ _ _ ha m hm).bind fun v m1 hv => ?_
    exact arrives_operator (local_unary op v) (answers_unary rule hv.1) hv.2
  case binary =>
    intro room left op right ihl ihr k c t c' h m hm
    obtain ⟨k', ts, c1, hparts, hleaves, rule, -⟩ := h.parts
    obtain ⟨a, b, c2, rfl, ha, hb⟩ := agreeing_two hparts
    cases hleaves
    simp only [Expr.eval]
    refine (ihl _ _ _ _ ha m hm).bind fun v m1 hv => ?_
    refine (ihr _ _ _ _ hb m1 hv.2).bind fun w m2 hw => ?_
    exact arrives_operator (local_binary _ _ _ _ _) (answers_binary rule hv.1 hw.1) hw.2
  case logical =>
    intro room op left right ihl ihr k c t c' h m hm
    obtain ⟨k', a, b, c1, ha, hb, hskip, rfl, -⟩ := h.logical
    simp only [Expr.eval]
    refine (ihl _ _ _ _ ha m hm).bind fun v m1 hv => arrives_truth fun holds _ => ?_
    split
    · exact ⟨Or.inr rfl, hv.2.fade hskip⟩
    · exact ⟨Or.inr rfl, hv.2.fade hskip⟩
    · refine (ihr _ _ _ _ hb m1 hv.2).bind fun w m2 hw => arrives_truth fun holds _ => ?_
      exact ⟨Or.inr rfl, hw.2⟩
  case assign =>
    intro room name value ih k c t c' h m hm
    obtain ⟨k', ts, c1, hparts, hleaves, rule, -⟩ := h.parts
    obtain ⟨a, rfl, ha⟩ := agreeing_one hparts
    simp only [Expr.eval]
    refine (ih _ _ _ _ ha m hm).bind fun v m1 hv => ?_
    cases rule with
    | assign =>
      exact (arrives_assign hv.1 hleaves hv.2).bind fun _ m2 hm2 => ⟨hv.1, hm2⟩
  case assignIndex =>
    intro room collection place value ihc ihp ihv k c t c' h m hm
    obtain ⟨k', ts, c1, hparts, hleaves, rule, -⟩ := h.parts
    obtain ⟨a, i, b, c2, c3, rfl, ha, hi, hb⟩ := agreeing_three hparts
    cases hleaves
    simp only [Expr.eval]
    refine (ihc _ _ _ _ ha m hm).bind fun v m1 hv => ?_
    refine (ihp _ _ _ _ hi m1 hv.2).bind fun w m2 hw => ?_
    refine (ihv _ _ _ _ hb m2 hw.2).bind fun u m3 hu => ?_
    exact arrives_operator (local_setElement _ _ _ _) (answers_setElement rule hv.1 hw.1 hu.1) hu.2
  case assignField =>
    intro room collection key value ihc ihv k c t c' h m hm
    obtain ⟨k', ts, c1, hparts, hleaves, rule, -⟩ := h.parts
    obtain ⟨a, b, c2, rfl, ha, hb⟩ := agreeing_two hparts
    cases hleaves
    simp only [Expr.eval]
    refine (ihc _ _ _ _ ha m hm).bind fun v m1 hv => ?_
    refine (ihv _ _ _ _ hb m1 hv.2).bind fun u m2 hu => ?_
    exact arrives_operator (local_setField _ _ _ _) (answers_setField rule hv.1 hu.1) hu.2
  case choice =>
    intro room condition yes no ihc ihy ihn k c t c' h m hm
    obtain ⟨k', b, a, a', c1, c2, hb, ha, ha', hpast, hover, rfl, -⟩ := h.choice
    simp only [Expr.eval]
    refine (ihc _ _ _ _ hb m hm).bind fun v m1 hv => arrives_truth fun holds _ => ?_
    cases holds with
    | true =>
      exact (ihy _ _ _ _ ha m1 hv.2).imp fun w m2 hw => ⟨.choice (Or.inl hw.1), hw.2.fade hover⟩
    | false =>
      have hm1 := hv.2.fade hpast
      exact (ihn _ _ _ _ ha' m1 hm1).imp fun w m2 hw => ⟨.choice (Or.inr hw.1), hw.2⟩
  case call =>
    intro room callee arguments ihf iha ihs k c t c' h m hm
    obtain ⟨k', ts, c1, hparts, hleaves, rule, -⟩ := h.parts
    cases hparts with
    | cons ha hargs =>
      cases hleaves
      cases rule
      simp only [Expr.eval]
      refine (ihf _ _ _ _ ha m hm).bind fun f m1 hf => ?_
      refine (arrives_exprs iha hargs hf.2).bind fun args m2 hm2 => ?_
      exact (arrives_call hm2).imp fun w m3 hm3 => ⟨w.fits_unknown, hm3⟩
  case list =>
    intro room line elements ih k c t c' h m hm
    obtain ⟨k', ts, c1, hparts, hleaves, rule, -⟩ := h.parts
    cases hleaves
    cases rule
    simp only [Expr.eval]
    refine (arrives_exprs ih hparts hm).bind fun vs m1 hm1 => ?_
    exact ⟨Or.inr rfl, hm1.of_eq rfl rfl rfl⟩
  case record =>
    intro room line entries ih k c t c' h m hm
    obtain ⟨k', ts, c1, hparts, hleaves, rule, -⟩ := h.parts
    cases hleaves
    cases rule
    simp only [Expr.eval]
    refine (arrives_each (fun entry _ c t c1 he m hm => ?_) hparts hm).bind fun fields m1 hm1 => ?_
    · exact (ih _ _ _ _ _ he m hm).bind fun w m1 hw => hw.2
    · exact ⟨Or.inr rfl, hm1.of_eq rfl rfl rfl⟩
  case index =>
    intro room collection place ihc ihp k c t c' h m hm
    obtain ⟨k', ts, c1, hparts, hleaves, rule, -⟩ := h.parts
    obtain ⟨a, i, c2, rfl, ha, hi⟩ := agreeing_two hparts
    cases hleaves
    simp only [Expr.eval]
    refine (ihc _ _ _ _ ha m hm).bind fun v m1 hv => ?_
    refine (ihp _ _ _ _ hi m1 hv.2).bind fun w m2 hw => ?_
    exact arrives_operator (local_element _ _ _) (answers_element rule hv.1 hw.1) hw.2
  case field =>
    intro room collection key ihc k c t c' h m hm
    obtain ⟨k', ts, c1, hparts, hleaves, rule, -⟩ := h.parts
    obtain ⟨a, rfl, ha⟩ := agreeing_one hparts
    cases hleaves
    simp only [Expr.eval]
    refine (ihc _ _ _ _ ha m hm).bind fun v m1 hv => ?_
    exact arrives_operator (local_field _ _ _) (answers_field rule hv.1) hv.2
  case expression =>
    intro room line value ih hs k c c' h m hm
    obtain ⟨visits, -, hsteps⟩ := h.steps hs
    cases hsteps with
    | expression hvalue =>
      simp only [Stmt.exec]
      exact (ih _ _ _ _ hvalue m hm).bind fun w m1 hw _ => hw.2
  case print =>
    intro room line value ih hs k c c' h m hm
    obtain ⟨visits, -, hsteps⟩ := h.steps hs
    cases hsteps with
    | print hvalue =>
      simp only [Stmt.exec]
      refine (ih _ _ _ _ hvalue m hm).bind fun w m1 hw => ?_
      have hwrite : Local FaultCause.ofOperator (writeLine room [w]) := local_writeLine room [w]
      exact (arrives_local hwrite hw.2).bind fun _ m2 hm2 _ => hm2
  case make =>
    intro room line name hs k c c' h m hm
    obtain ⟨visits, -, hsteps⟩ := h.steps hs
    cases hsteps with
    | make hc =>
      simp only [Stmt.exec]
      exact fun _ => (hm.declare (Or.inr rfl)).of_scopes hc
  case makeValue =>
    intro room line name value ih hs k c c' h m hm
    obtain ⟨visits, -, hsteps⟩ := h.steps hs
    cases hsteps with
    | makeValue hvalue hc =>
      simp only [Stmt.exec]
      refine (ih _ _ _ _ hvalue m hm).bind fun w m1 hw => ?_
      exact fun _ => (hw.2.declare hw.1).of_scopes hc
  case block =>
    intro room line body ih hs k c c' h m hm
    obtain ⟨visits, -, hsteps⟩ := h.steps hs
    cases hsteps with
    | block hbody =>
      simp only [Stmt.exec]
      exact arrives_enclosed (keeps_statements (exec_keeps limits room) body) hm
        (arrives_statements ih hs hbody hm.inner)
  case if_ =>
    intro room line condition yes no ihc ihy ihn hs k c c' h m hm
    simp only [Stmt.exec]
    obtain ⟨visits, -, hsteps⟩ := h.steps hs
    cases hsteps with
    | if_ hcondition hyes hpast =>
      refine (ihc _ _ _ _ hcondition m hm).bind fun v m1 hv => arrives_truth fun holds _ => ?_
      cases holds with
      | true => exact ihy hs _ _ _ hyes m1 hv.2
      | false => exact fun _ => hv.2.fade hpast
    | @ifElse _ _ _ _ no _ _ _ _ _ hcondition hyes hno hpast hover =>
      obtain ⟨hsyes, hsno⟩ := List.append_eq_nil_iff.mp hs
      refine (ihc _ _ _ _ hcondition m hm).bind fun v m1 hv => arrives_truth fun holds _ => ?_
      cases holds with
      | true =>
        exact (ihy hsyes _ _ _ hyes m1 hv.2).imp fun flow m2 hm2 hflow => (hm2 hflow).fade hover
      | false => exact ihn no hsno _ _ _ hno m1 (hv.2.fade hpast)
  case while_ =>
    intro room line condition body ihc ihb hs k c c' h m hm
    obtain ⟨visits, -, hsteps⟩ := h.steps hs
    cases hsteps with
    | while_ hcondition hbody hpast hback =>
      simp only [Stmt.exec]
      refine (arrives_loop (fun m hm => ?_) (fun m hm => ?_) limits.turns hm).imp
        fun flow m1 hm1 hflow => (hm1 hflow).fade hpast
      · refine (ihc _ _ _ _ hcondition m hm).bind fun v m1 hv => ?_
        exact arrives_local (local_truth _ _ _) hv.2
      · exact (ihb hs _ _ _ hbody m hm).imp fun flow m1 hm1 hflow => (hm1 hflow).fade hback
  case funk =>
    intro room line name params bodyLine body hs
    cases hs
  case return_ =>
    intro room line hs k c c' h m hm
    simp only [Stmt.exec]
    rintro ⟨⟩
  case returnValue =>
    intro room line value ih hs k c c' h m hm
    obtain ⟨visits, -, hsteps⟩ := h.steps hs
    cases hsteps with
    | returnValue hvalue =>
      simp only [Stmt.exec]
      refine (ih _ _ _ _ hvalue m hm).bind fun w m1 hw => ?_
      rintro ⟨⟩
  case with_ =>
    intro room line value name body ihv ihb hs k c c' h m hm
    obtain ⟨visits, -, hsteps⟩ := h.steps hs
    cases hsteps with
    | with_ hvalue hbody =>
      simp only [Stmt.exec]
      refine (ihv _ _ _ _ hvalue m hm).bind fun w m1 hw => ?_
      exact arrives_enclosed (exec_keeps limits room body) hw.2
        (ihb hs _ _ _ hbody _ (hw.2.innerNamed hw.1))
  case for_ =>
    intro room line name items body ihi ihb hs k c c' h m hm
    obtain ⟨visits, -, hsteps⟩ := h.steps hs
    cases hsteps with
    | @for_ _ _ _ _ _ _ _ _ _ hitems hbody hpast hback =>
      simp only [Stmt.exec]
      refine (ihi _ _ _ _ hitems m hm).bind fun w m1 hw => ?_
      cases w with
      | iter i =>
        refine (arrives_turns (fun v _ m hm => ?_) hw.2).imp fun flow m2 hm2 hflow =>
          (hm2 hflow).fade hpast
        refine (arrives_enclosed (exec_keeps limits room body) hm
          (ihb hs _ _ _ hbody _ (hm.innerNamed v.fits_unknown))).imp fun flow m3 hm3 hflow => ?_
        exact (hm3 hflow).fade hback
      | _ => trivial

end Evaluation

end FunkLang
