-- Returns, handed on and raised. The evaluator hands a return on from statement
-- to statement; that comes to the same as to raise it where it is met and to
-- take it in the call of the function.
import FunkLang.Proofs.Raising

namespace FunkLang
namespace Raising

variable {α β : Type}

/-! ## Lifted runs -/

/-- A run of statements, whose return is raised at its end. -/
def raised (x : Run Flow) : Raising Unit := fun m =>
  match x m with
  | .ok .next m => .ok () m
  | .ok (.returned v) m => .error (.returned v) m
  | .error stop m => .error (.stop stop) m

theorem lift_pure (a : α) : lift (pure a) = pure a := rfl

theorem lift_get : lift (get : Run Machine) = get := rfl

theorem lift_throw (stop : Stop) : lift (throw stop : Run α) = throw (.stop stop) := rfl

theorem lift_bind (x : Run α) (f : α → Run β) :
    lift (x >>= f) = lift x >>= fun a => lift (f a) := by
  funext m
  change signalled (EStateM.bind x f m) = EStateM.bind (lift x) _ m
  unfold EStateM.bind lift
  cases x m <;> rfl

theorem lift_mapM (f : α → Run β) (items : List α) :
    lift (items.mapM f) = items.mapM fun a => lift (f a) := by
  induction items with
  | nil => rfl
  | cons a rest ih => simp only [List.mapM_cons, lift_bind, lift_pure, ih]

theorem lift_forM (f : α → Run PUnit) (items : List α) :
    lift (items.forM f) = items.forM fun a => lift (f a) := by
  induction items with
  | nil => rfl
  | cons a rest ih =>
    change lift (f a >>= fun _ => rest.forM f) = lift (f a) >>= fun _ => rest.forM fun a => lift (f a)
    rw [lift_bind, ih]

theorem raised_next : raised (pure .next) = pure () := rfl

theorem raised_returned (v : Value) : raised (pure (.returned v)) = throw (.returned v) := rfl

theorem raised_throw (stop : Stop) : raised (throw stop) = throw (.stop stop) := rfl

theorem raised_bind (x : Run α) (f : α → Run Flow) :
    raised (x >>= f) = lift x >>= fun a => raised (f a) := by
  funext m
  change (match EStateM.bind x f m with
    | .ok .next m => .ok () m
    | .ok (.returned v) m => .error (.returned v) m
    | .error stop m => .error (.stop stop) m) = EStateM.bind (lift x) _ m
  unfold EStateM.bind lift
  cases x m <;> rfl

/-- What comes after statements runs only if they have not returned. -/
theorem raised_andThen (x : Run Flow) {f : Flow → Run Flow} {rest : Run Flow}
    (next : f .next = rest) (returned : ∀ v, f (.returned v) = pure (.returned v)) :
    raised (x >>= f) = raised x >>= fun _ => raised rest := by
  funext m
  rw [raised_bind]
  change EStateM.bind (lift x) _ m = EStateM.bind (raised x) _ m
  unfold EStateM.bind lift raised
  cases x m with
  | error stop m1 => rfl
  | ok flow m1 =>
    cases flow with
    | next => exact congrFun (congrArg raised next) m1
    | returned v => exact congrFun (congrArg raised (returned v)) m1

/-! ## Scopes, loops and calls -/

theorem raised_inTurn (act : α → Run Flow) (items : List α) :
    raised (Run.inTurn act items) = items.forM fun a => raised (act a) := by
  induction items with
  | nil => rfl
  | cons a rest ih =>
    change _ = raised (act a) >>= fun _ => rest.forM fun a => raised (act a)
    rw [← ih]
    exact raised_andThen (act a) rfl fun _ => rfl

theorem raised_whileHolds (test : Run Bool) (body : Run Flow) (turns : Nat) :
    raised (Run.whileHolds test body turns) = whileHolds (lift test) (raised body) turns := by
  induction turns with
  | zero => rfl
  | succ turns ih =>
    unfold Run.whileHolds whileHolds
    rw [raised_bind]
    congr 1
    funext holds
    cases holds with
    | false => rfl
    | true =>
      rw [← ih]
      exact raised_andThen body rfl fun _ => rfl

/-- What is done in the end is done after an answer and after a signal. -/
theorem tryFinally_eq (x : Raising α) (leave : Machine → Machine) (m : Machine) :
    tryFinally x (modify leave) m =
      match x m with
      | .ok a m => .ok a (leave m)
      | .error signal m => .error signal (leave m) := by
  simp only [tryFinally, tryFinally', Functor.map, EStateM.map]
  cases x m <;> rfl

theorem tryCatch_eq (x : Raising α) (handle : Signal → Raising α) (m : Machine) :
    tryCatch x handle m =
      match x m with
      | .ok a m => .ok a m
      | .error signal m => handle signal m := by
  change EStateM.tryCatch x handle m = _
  unfold EStateM.tryCatch
  cases x m <;> rfl

theorem raised_enclosed (parent : Nat) (bindings : List (String × Value)) (body : Run Flow) :
    raised (Run.enclosed parent bindings body) = enclosed parent bindings (raised body) := by
  funext m
  refine Eq.trans ?_ (tryFinally_eq (raised body) (fun m' => { m' with scope := m.scope })
    (m.enclose parent bindings)).symm
  unfold raised Run.enclosed
  cases body (m.enclose parent bindings) with
  | ok flow m1 => cases flow <;> rfl
  | error stop m1 => rfl

/-- A body that comes to its end without a return has the value `nil`. -/
theorem ended_eq (body : Run Flow) (m : Machine) :
    (raised body >>= fun _ => pure Value.nil) m =
      match body m with
      | .ok .next m => .ok .nil m
      | .ok (.returned v) m => .error (.returned v) m
      | .error stop m => .error (.stop stop) m := by
  change EStateM.bind _ _ m = _
  unfold EStateM.bind raised
  cases body m with
  | ok flow m1 => cases flow <;> rfl
  | error stop m1 => rfl

theorem lift_activation (name : String) (line : Int) (body : Run Flow) :
    lift (Run.activation name line body) = activation name line (raised body) := by
  funext m
  refine Eq.trans ?_ (tryFinally_eq _ (fun m' => { m' with depth := m'.depth - 1 })
    { m with depth := m.depth + 1 }).symm
  rw [tryCatch_eq, ended_eq]
  unfold lift Run.activation
  cases body { m with depth := m.depth + 1 } with
  | ok flow m1 => cases flow <;> rfl
  | error stop m1 => cases stop <;> rfl

theorem lift_callClosure (limits : Limits) {run : Stmt → Run Flow} {raising : Stmt → Raising Unit}
    (h : ∀ s, raising s = raised (run s)) (closure : Closure) (args : List Value) (line : Int) :
    lift (Run.callClosure limits run closure args line) =
      callClosure limits raising closure args line := by
  obtain rfl : raising = fun s => raised (run s) := funext h
  unfold Run.callClosure callClosure
  split
  · rfl
  · rw [lift_bind, lift_get]
    congr 1
    funext m
    split
    · rfl
    · rw [lift_bind, lift_activation, raised_enclosed, raised_inTurn]

theorem lift_callValue (limits : Limits) (room : Nat) {run : Stmt → Run Flow}
    {raising : Stmt → Raising Unit} (h : ∀ s, raising s = raised (run s)) (callee : Value)
    (args : List Value) (line : Int) :
    lift (Run.callValue limits room run callee args line) =
      callValue limits room raising callee args line := by
  unfold Run.callValue callValue
  cases callee with
  | function i =>
    dsimp only
    rw [lift_bind, lift_get]
    congr 1
    funext m
    exact lift_callClosure limits h _ args line
  | _ => rfl

end Raising

/-! ## All parts of a program -/

open Raising in
/-- An expression comes to the same in both evaluators, and a statement raises what it returns. -/
theorem evaluation_raises (limits : Limits) :
    (∀ room (e : Expr), e.evalRaising limits room = lift (e.eval limits room)) ∧
      (∀ room (s : Stmt), s.execRaising limits room = raised (s.exec limits room)) := by
  refine Expr.eval.mutual_induct
    (fun room e => e.evalRaising limits room = lift (e.eval limits room))
    (fun room s => s.execRaising limits room = raised (s.exec limits room))
    ?atom ?unary ?binary ?logical ?assign ?assignIndex ?assignField ?choice ?call ?list ?record
    ?index ?field ?tooDeepExpr ?expression ?print ?makeValue ?make ?block ?if_ ?while_ ?funk
    ?returnValue ?return_ ?with_ ?for_ ?tooDeepStmt
  case atom =>
    intro room mark
    simp only [Expr.evalRaising, Expr.eval]
  case unary =>
    intro room op operand ih
    simp only [Expr.evalRaising, Expr.eval, ih, lift_bind]
  case binary =>
    intro room left op right ihl ihr
    simp only [Expr.evalRaising, Expr.eval, ihl, ihr, lift_bind]
  case logical =>
    intro room op left right ihl ihr
    simp only [Expr.evalRaising, Expr.eval, ihl, ihr, lift_bind]
    congr 1
    funext v
    congr 1
    funext a
    cases op <;> cases a <;> simp only [lift_bind, lift_pure]
  case assign =>
    intro room name value ih
    simp only [Expr.evalRaising, Expr.eval, ih, lift_bind, lift_pure]
  case assignIndex =>
    intro room collection place value ihc ihp ihv
    simp only [Expr.evalRaising, Expr.eval, ihc, ihp, ihv, lift_bind]
  case assignField =>
    intro room collection key value ihc ihv
    simp only [Expr.evalRaising, Expr.eval, ihc, ihv, lift_bind]
  case choice =>
    intro room condition yes no ihc ihy ihn
    simp only [Expr.evalRaising, Expr.eval, ihc, ihy, ihn, lift_bind]
    congr 1
    funext v
    congr 1
    funext b
    cases b <;> rfl
  case call =>
    intro room callee arguments ihf iha ihs
    simp only [Expr.evalRaising, Expr.eval, ihf, iha, lift_bind, lift_mapM,
      lift_callValue limits room ihs]
  case list =>
    intro room line elements ih
    simp only [Expr.evalRaising, Expr.eval, ih, lift_bind, lift_mapM]
  case record =>
    intro room line entries ih
    simp only [Expr.evalRaising, Expr.eval, ih, lift_bind, lift_mapM, lift_pure]
  case index =>
    intro room collection place ihc ihp
    simp only [Expr.evalRaising, Expr.eval, ihc, ihp, lift_bind]
  case field =>
    intro room collection key ih
    simp only [Expr.evalRaising, Expr.eval, ih, lift_bind]
  case tooDeepExpr =>
    intro room e h1 h2 h3 h4 h5 h6 h7 h8 h9 h10 h11 h12 h13
    rw [Expr.evalRaising.eq_14 limits room e h1 h2 h3 h4 h5 h6 h7 h8 h9 h10 h11 h12 h13,
      Expr.eval.eq_14 limits room e h1 h2 h3 h4 h5 h6 h7 h8 h9 h10 h11 h12 h13, lift_throw]
  case expression =>
    intro room line value ih
    simp only [Stmt.execRaising, Stmt.exec, ih, raised_bind, raised_next]
  case print =>
    intro room line value ih
    simp only [Stmt.execRaising, Stmt.exec, ih, raised_bind, raised_next, bind_pure_unit]
  case makeValue =>
    intro room line name value ih
    simp only [Stmt.execRaising, Stmt.exec, ih, raised_bind, raised_next, bind_pure_unit]
  case make =>
    intro room line name
    simp only [Stmt.execRaising, Stmt.exec, raised_bind, raised_next, lift_pure, bind_pure_unit]
  case block =>
    intro room line body ih
    simp only [Stmt.execRaising, Stmt.exec, ih, raised_bind, lift_get, raised_enclosed,
      raised_inTurn]
  case if_ =>
    intro room line condition yes no ihc ihy ihn
    simp only [Stmt.execRaising, Stmt.exec, ihc, ihy, raised_bind]
    congr 1
    funext v
    congr 1
    funext b
    cases b with
    | true => rfl
    | false =>
      cases no with
      | none => rfl
      | some no => exact ihn no
  case while_ =>
    intro room line condition body ihc ihb
    simp only [Stmt.execRaising, Stmt.exec, ihc, ihb, raised_whileHolds, lift_bind]
  case funk =>
    intro room line name params bodyLine body
    simp only [Stmt.execRaising, Stmt.exec, raised_bind, raised_next, lift_get, bind_pure_unit]
  case returnValue =>
    intro room line value ih
    simp only [Stmt.execRaising, Stmt.exec, ih, raised_bind, raised_returned]
  case return_ =>
    intro room line
    simp only [Stmt.execRaising, Stmt.exec, raised_returned]
  case with_ =>
    intro room line value name body ihv ihb
    simp only [Stmt.execRaising, Stmt.exec, ihv, ihb, raised_bind, lift_get, raised_enclosed]
  case for_ =>
    intro room line name items body ihi ihb
    simp only [Stmt.execRaising, Stmt.exec, ihi, raised_bind]
    congr 1
    funext v
    cases v with
    | iter i =>
      simp only [ihb, raised_bind, lift_get, raised_enclosed, raised_inTurn]
    | _ => rfl
  case tooDeepStmt =>
    intro room s h1 h2 h3 h4 h5 h6 h7 h8 h9 h10
    rw [Stmt.execRaising.eq_14 limits room s h1 h2 h3 h4 h5 h6 h7 h8 h9 h10,
      Stmt.exec.eq_14 limits room s h1 h2 h3 h4 h5 h6 h7 h8 h9 h10, raised_throw]

/-! ## Programs -/

theorem execTop_raises (limits : Limits) (s : Stmt) :
    s.execTopRaising limits = Raising.lift (s.execTop limits) := by
  funext m
  refine (Raising.tryCatch_eq _ _ m).trans ?_
  rw [(evaluation_raises limits).2]
  unfold Raising.raised Raising.lift Stmt.execTop
  cases s.exec limits limits.room m with
  | ok flow m1 => cases flow <;> rfl
  | error stop m1 => cases stop <;> rfl

/-- Handing returns on from statement to statement comes to the same as raising them: in either
evaluator a program runs to the same machine and ends with the same fault if with any, and so does
every call, which has the same value; and a statement returns a value where it raises it. -/
theorem returns_are_raised (limits : Limits) :
    (∀ program, evaluateRaising limits program = Raising.lift (evaluate limits program)) ∧
      (∀ room callee args line,
        Raising.callValue limits room (fun s => s.execRaising limits room) callee args line =
          Raising.lift (Run.callValue limits room (fun s => s.exec limits room) callee args line)) ∧
        (∀ room (e : Expr), e.evalRaising limits room = Raising.lift (e.eval limits room)) ∧
          ∀ room (s : Stmt), s.execRaising limits room = Raising.raised (s.exec limits room) := by
  obtain ⟨hexpr, hstmt⟩ := evaluation_raises limits
  refine ⟨fun program => ?_, fun room callee args line => ?_, hexpr, hstmt⟩
  · unfold evaluateRaising evaluate
    rw [Raising.lift_bind, Raising.lift_forM, funext (execTop_raises limits)]
  · exact (Raising.lift_callValue limits room (hstmt room) callee args line).symm

end FunkLang
