-- The induction behind every law of a run. It follows the recursion of the
-- evaluator: a part of the tree is evaluated with less room than the whole,
-- also the body of a called function, which is no part of the call's tree.
import FunkLang.Eval
import FunkLang.Proofs.Outcome

namespace FunkLang

/-- What holds of a form of the tree, given that it holds of all that the form evaluates with the
room that is left, holds of the whole tree at any room. -/
theorem evaluation_induction (limits : Limits) {E : Nat → Expr → Prop} {S : Nat → Stmt → Prop}
    (shallowExpr : ∀ room e, e.eval limits room = throw .tooDeep → E room e)
    (shallowStmt : ∀ room s, s.exec limits room = throw .tooDeep → S room s)
    (atom : ∀ room mark, E (room + 3) (.atom mark))
    (unary : ∀ room op operand, E room operand → E (room + 3) (.unary op operand))
    (binary : ∀ room left op right, E room left → E room right →
      E (room + 3) (.binary left op right))
    (logical : ∀ room op left right, E room left → E room right →
      E (room + 3) (.logical op left right))
    (assign : ∀ room name value, E room value → E (room + 3) (.assign name value))
    (assignIndex : ∀ room collection place value, E room collection → E room place →
      E room value → E (room + 3) (.assignIndex collection place value))
    (assignField : ∀ room collection key value, E room collection → E room value →
      E (room + 3) (.assignField collection key value))
    (choice : ∀ room condition yes no, E room condition → E room yes → E room no →
      E (room + 3) (.choice condition yes no))
    (call : ∀ room callee arguments, E (room + 2) callee → (∀ a, E (room + 1) a) →
      (∀ s, S room s) → E (room + 5) (.call callee arguments))
    (list : ∀ room line elements, (∀ e, E room e) → E (room + 4) (.list line elements))
    (record : ∀ room line entries, (∀ e, E room e) → E (room + 3) (.record line entries))
    (index : ∀ room collection place, E room collection → E room place →
      E (room + 3) (.index collection place))
    (field : ∀ room collection key, E room collection → E (room + 3) (.field collection key))
    (expression : ∀ room line value, E room value → S (room + 3) (.expression line value))
    (print : ∀ room line value, E room value → S (room + 3) (.print line value))
    (make : ∀ room line name, S (room + 3) (.make line name none))
    (makeValue : ∀ room line name value, E room value → S (room + 3) (.make line name (some value)))
    (block : ∀ room line body, (∀ s, S room s) → S (room + 4) (.block line body))
    (if_ : ∀ room line condition yes no, E room condition → S room yes → (∀ s, S room s) →
      S (room + 3) (.if_ line condition yes no))
    (while_ : ∀ room line condition body, E room condition → S room body →
      S (room + 3) (.while_ line condition body))
    (funk : ∀ room line name params bodyLine body,
      S (room + 3) (.funk line name params bodyLine body))
    (return_ : ∀ room line, S (room + 3) (.return_ line none))
    (returnValue : ∀ room line value, E room value → S (room + 3) (.return_ line (some value)))
    (with_ : ∀ room line value name body, E (room + 1) value → S room body →
      S (room + 4) (.with_ line value name body))
    (for_ : ∀ room line name items body, E (room + 1) items → S room body →
      S (room + 4) (.for_ line name items body)) :
    (∀ room e, E room e) ∧ (∀ room s, S room s) := by
  refine Expr.eval.mutual_induct E S atom unary binary logical assign assignIndex assignField
    choice call list record index field ?tooDeepExpr expression print makeValue make block if_
    while_ funk returnValue return_ with_ for_ ?tooDeepStmt
  case tooDeepExpr =>
    intro room e h1 h2 h3 h4 h5 h6 h7 h8 h9 h10 h11 h12 h13
    exact shallowExpr room e
      (Expr.eval.eq_14 limits room e h1 h2 h3 h4 h5 h6 h7 h8 h9 h10 h11 h12 h13)
  case tooDeepStmt =>
    intro room s h1 h2 h3 h4 h5 h6 h7 h8 h9 h10
    exact shallowStmt room s
      (Stmt.exec.eq_14 limits room s h1 h2 h3 h4 h5 h6 h7 h8 h9 h10)

/-! ## Scopes and calls -/

namespace Run

variable {α : Type} {bad : Stop → Machine → Prop}

/-- What runs in a fresh scope ends as it does there, but back in the current scope. -/
theorem ends_enclosed {good : α → Machine → Prop} {parent : Nat}
    {bindings : List (String × Value)} {body : Run α} {m : Machine} :
    Ends good bad (enclosed parent bindings body m) ↔
      Ends (fun a m' => good a { m' with scope := m.scope })
        (fun stop m' => bad stop { m' with scope := m.scope })
        (body (m.enclose parent bindings)) := by
  unfold enclosed
  cases body (m.enclose parent bindings) with
  | ok a m' => simp
  | error stop m' => simp

/-- What a call stops for: its body may need more nesting than there is room for. -/
def ofCall (name : String) (line : Int) : Stop → Stop
  | .tooDeep => .fault ⟨.callTooDeep name, some line⟩
  | stop => stop

/-- The value of a call, whose body ends so. -/
def result : Flow → Value
  | .next => .nil
  | .returned v => v

theorem ends_activation {good : Value → Machine → Prop} {name : String} {line : Int}
    {body : Run Flow} {m : Machine} :
    Ends good bad (activation name line body m) ↔
      Ends (fun flow m' => good (result flow) { m' with depth := m'.depth - 1 })
        (fun stop m' => bad (ofCall name line stop) { m' with depth := m'.depth - 1 })
        (body { m with depth := m.depth + 1 }) := by
  unfold activation
  cases body { m with depth := m.depth + 1 } with
  | ok flow m' => cases flow <;> simp [result]
  | error stop m' => cases stop <;> simp [ofCall]

end Run

/-! ## Sequences and loops -/

section Sequences

variable {α : Type} {always : Machine → Prop} {bad : Stop → Machine → Prop}

theorem Yields.inTurn {act : α → Run Flow} {items : List α}
    (each : ∀ a ∈ items, Yields always (fun _ => True) bad (act a)) :
    Yields always (fun _ => True) bad (Run.inTurn act items) := by
  induction items with
  | nil => exact .pure trivial
  | cons a rest ih =>
    unfold Run.inTurn
    refine (each a List.mem_cons_self).bind fun flow _ => ?_
    cases flow with
    | next => exact ih fun b hb => each b (List.mem_cons_of_mem _ hb)
    | returned v => exact .pure trivial

theorem Yields.whileHolds {test : Run Bool} {body : Run Flow}
    (endless : ∀ m, always m → bad .endless m) (htest : Yields always (fun _ => True) bad test)
    (hbody : Yields always (fun _ => True) bad body) (turns : Nat) :
    Yields always (fun _ => True) bad (Run.whileHolds test body turns) := by
  induction turns with
  | zero => exact .throw endless
  | succ turns ih =>
    unfold Run.whileHolds
    refine htest.bind fun holds _ => ?_
    cases holds with
    | false => exact .pure trivial
    | true =>
      refine hbody.bind fun flow _ => ?_
      cases flow with
      | next => exact ih
      | returned v => exact .pure trivial

end Sequences
end FunkLang
