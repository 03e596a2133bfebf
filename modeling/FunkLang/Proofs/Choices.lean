-- Choices in a row. A value, and after it conditions that each have another value, are read as one
-- choice whose value where the condition holds is the choice of all that came before. So the last
-- condition is looked at first, and the first that does not hold has its value taken. No condition
-- before that one in the text, and no other value, is evaluated at all.
import FunkLang.Proofs.ReadDerivations
import FunkLang.Proofs.Respelling
import FunkLang.Proofs.Termination
import FunkLang.Proofs.Visit
import Mathlib.Data.List.Induction

namespace FunkLang

open Grammar (Symbol Derives)

/-! ## Rows of choices -/

/-- Tokens that are an expression with operators, but no choice, outside of all brackets. -/
structure Disjunction where
  tokens : List Token
  tree : Expr
  derived : Derives (.phrase .disjunction) tokens tree

/-- A condition after a value, and the value where it does not hold. -/
structure Alternative where
  opening : Token
  condition : Disjunction
  between : Token
  no : Disjunction
  opens : opening.kind = .word .if_
  parts : between.kind = .word .else_

def Alternative.tokens (l : Alternative) : List Token :=
  l.opening :: (l.condition.tokens ++ l.between :: l.no.tokens)

/-- A value and the alternatives to it. -/
structure Choices where
  first : Disjunction
  rest : List Alternative

namespace Choices

def tokens (x : Choices) : List Token := x.first.tokens ++ x.rest.flatMap Alternative.tokens

/-- Each alternative is one to all that came before it. -/
def tree (x : Choices) : Expr :=
  x.rest.foldl (fun yes l => .choice l.condition.tree yes l.no.tree) x.first.tree

/-- One alternative more. -/
def snoc (x : Choices) (l : Alternative) : Choices := ⟨x.first, x.rest ++ [l]⟩

theorem tree_snoc (x : Choices) (l : Alternative) :
    (x.snoc l).tree = .choice l.condition.tree x.tree l.no.tree := by
  unfold tree snoc
  rw [List.foldl_append]
  rfl

/-- What holds of a value alone, and with one alternative more if it held without it, holds of all
rows of choices. -/
theorem snoc_induction {P : Choices → Prop} (x : Choices) (alone : ∀ first, P ⟨first, []⟩)
    (more : ∀ x l, P x → P (x.snoc l)) : P x := by
  obtain ⟨first, rest⟩ := x
  induction rest using List.reverseRecOn with
  | nil => exact alone first
  | append_singleton rest l ih => exact more ⟨first, rest⟩ l ih

theorem line_tree (x : Choices) : x.tree.line = x.first.tree.line := by
  induction x using snoc_induction with
  | alone first => rfl
  | more x l ih =>
    rw [tree_snoc]
    exact ih

/-! ## Reading -/

theorem derives_alternatives (rest : List Alternative) :
    Derives (.many (.extension .choice)) (rest.flatMap Alternative.tokens)
      (rest.map fun l => .choice l.condition.tree l.no.tree) := by
  induction rest with
  | nil => exact .none
  | cons l rest ih =>
    exact .more (.choice l.opens l.condition.derived l.parts l.no.derived) ih

theorem derives_expression (x : Choices) : Derives (.phrase .expression) x.tokens x.tree := by
  have hchoice := Derives.extended rfl x.first.derived (derives_alternatives x.rest)
  rw [List.foldl_map] at hchoice
  exact .expression (.unassigned hchoice)

theorem settles_expression (x : Choices) {c c' : Cursor} (hspan : Span c x.tokens c')
    (hnext : Grammar.extends? c'.current.kind = none) :
    Reader.Settles (fun room => Reader.expression room c) x.tree c' :=
  Grammar.accepted_of_derives x.derives_expression trivial c c' hspan
    (Grammar.endsBefore_of_none hnext)

end Choices

/-! ## Deciding -/

/-- How a row of choices is decided, the last of its conditions first: the visits to the row itself,
each time without its last alternative, the visits to what is evaluated, in order, and the
result. -/
inductive Decides (limits : Limits) (active : Nat) : Choices → (room : Nat) → Machine →
    (rows evaluated : List Visit) → EStateM.Result Stop Machine Value → Prop
  | first {first : Disjunction} {room m} :
    Decides limits active ⟨first, []⟩ room m [] [visitExpr active room first.tree m]
      (first.tree.eval limits room m)
  | holds {x : Choices} {l : Alternative} {room m m1 rows evaluated r} :
    l.condition.tree.eval limits room m = .ok (.bool true) m1 →
    Decides limits active x room m1 rows evaluated r →
    Decides limits active (x.snoc l) (room + 3) m
      (visitExpr active (room + 3) (x.snoc l).tree m :: rows)
      (visitExpr active room l.condition.tree m :: evaluated) r
  | fails {x : Choices} {l : Alternative} {room m m1} :
    l.condition.tree.eval limits room m = .ok (.bool false) m1 →
    Decides limits active (x.snoc l) (room + 3) m
      [visitExpr active (room + 3) (x.snoc l).tree m]
      [visitExpr active room l.condition.tree m, visitExpr active room l.no.tree m1]
      (l.no.tree.eval limits room m1)
  | notBoolean {x : Choices} {l : Alternative} {room m} {v : Value} {m1} :
    l.condition.tree.eval limits room m = .ok v m1 →
    v.kind ≠ .boolean →
    Decides limits active (x.snoc l) (room + 3) m
      [visitExpr active (room + 3) (x.snoc l).tree m]
      [visitExpr active room l.condition.tree m]
      (.error (.fault ⟨.notBoolean .choice v.kind, some x.first.tree.line⟩) m1)
  | stops {x : Choices} {l : Alternative} {room m stop m1} :
    l.condition.tree.eval limits room m = .error stop m1 →
    Decides limits active (x.snoc l) (room + 3) m
      [visitExpr active (room + 3) (x.snoc l).tree m]
      [visitExpr active room l.condition.tree m] (.error stop m1)
  | tooDeep {x : Choices} {l : Alternative} {room m} :
    room < 3 →
    Decides limits active (x.snoc l) room m [visitExpr active room (x.snoc l).tree m] []
      (.error .tooDeep m)

section Choice

variable {limits : Limits} {k room : Nat} {m m1 : Machine} {condition yes no : Expr}

theorem eval_choice {b : Bool} (h : condition.eval limits room m = .ok (.bool b) m1) :
    (Expr.choice condition yes no).eval limits (room + 3) m =
      (if b then yes else no).eval limits room m1 := by
  rw [Expr.eval]
  refine (bind_of_ok h).trans ?_
  cases b <;> rfl

theorem eval_choice_notBoolean {v : Value} (h : condition.eval limits room m = .ok v m1)
    (hv : v.kind ≠ .boolean) : (Expr.choice condition yes no).eval limits (room + 3) m =
      .error (.fault ⟨.notBoolean .choice v.kind, some yes.line⟩) m1 := by
  rw [Expr.eval]
  refine (bind_of_ok h).trans ?_
  cases v with
  | bool b => exact absurd rfl hv
  | _ => rfl

theorem eval_choice_stops {stop : Stop} (h : condition.eval limits room m = .error stop m1) :
    (Expr.choice condition yes no).eval limits (room + 3) m = .error stop m1 := by
  rw [Expr.eval]
  exact bind_of_error h

theorem eval_choice_tooDeep (hroom : room < 3) :
    (Expr.choice condition yes no).eval limits room m = .error .tooDeep m := by
  rw [Expr.eval_of_lt_cost limits hroom]
  rfl

theorem opens_choice {b : Bool} (h : condition.eval limits room m = .ok (.bool b) m1) :
    (visitExpr k (room + 3) (.choice condition yes no) m).opens limits =
      [visitExpr k room condition m, visitExpr k room (if b then yes else no) m1] := by
  change _ :: andThen (condition.eval limits room m) _ = _
  rw [h]
  rfl

theorem opens_choice_notBoolean {v : Value} (h : condition.eval limits room m = .ok v m1)
    (hv : v.kind ≠ .boolean) :
    (visitExpr k (room + 3) (.choice condition yes no) m).opens limits =
      [visitExpr k room condition m] := by
  change _ :: andThen (condition.eval limits room m) _ = _
  rw [h]
  cases v with
  | bool b => exact absurd rfl hv
  | _ => rfl

theorem opens_choice_stops {stop : Stop} (h : condition.eval limits room m = .error stop m1) :
    (visitExpr k (room + 3) (.choice condition yes no) m).opens limits =
      [visitExpr k room condition m] := by
  change _ :: andThen (condition.eval limits room m) _ = _
  rw [h]
  rfl

theorem opens_choice_tooDeep (hroom : room < 3) :
    (visitExpr k room (.choice condition yes no) m).opens limits = [] := by
  obtain rfl | rfl | rfl : room = 0 ∨ room = 1 ∨ room = 2 := by omega
  all_goals rfl

end Choice

/-- A visit reaches itself, and what the visits that it opens reach. -/
theorem reaches_iff {limits : Limits} {v w : Visit} :
    v.Reaches limits w ↔ w = v ∨ ∃ u ∈ v.opens limits, u.Reaches limits w := by
  constructor
  · intro h
    rcases h.cases_head with rfl | ⟨u, hu, hreach⟩
    · exact Or.inl rfl
    · exact Or.inr ⟨u, hu, hreach⟩
  · rintro (rfl | ⟨u, hu, hreach⟩)
    · exact .refl
    · exact hreach.head hu

/-- What is visited from a visit is itself a row, or comes from one of those to what is
evaluated. -/
def Covers (limits : Limits) (v : Visit) (rows evaluated : List Visit) : Prop :=
  ∀ w, v.Reaches limits w ↔ w ∈ rows ∨ ∃ u ∈ evaluated, u.Reaches limits w

section Covers

variable {limits : Limits} {v u : Visit} {opened rows evaluated : List Visit}

theorem covers_self (limits : Limits) (v : Visit) : Covers limits v [] [v] := fun w => by simp

theorem covers_of_opens (h : v.opens limits = opened) : Covers limits v [v] opened := fun w => by
  rw [reaches_iff, h, List.mem_singleton]

/-- The last of the visits that are opened goes on with the row. -/
theorem covers_of_last (h : v.opens limits = [u, w]) (hlast : Covers limits w rows evaluated) :
    Covers limits v (v :: rows) (u :: evaluated) := by
  intro x
  rw [reaches_iff, h]
  simp only [List.mem_cons, List.not_mem_nil, or_false, exists_eq_or_imp, exists_eq_left, hlast x]
  tauto

end Covers

/-- A row of choices is decided, and nothing else is visited. -/
theorem exists_decides (limits : Limits) (k room : Nat) (x : Choices) (m : Machine) :
    ∃ rows evaluated, Decides limits k x room m rows evaluated (x.tree.eval limits room m) ∧
      Covers limits (visitExpr k room x.tree m) rows evaluated := by
  induction x using Choices.snoc_induction generalizing room m with
  | alone first => exact ⟨[], _, .first, covers_self limits _⟩
  | more x l ih =>
    by_cases hroom : room < 3
    · have hdecides : Decides limits k (x.snoc l) room m _ _ _ := .tooDeep hroom
      rw [x.tree_snoc l] at hdecides ⊢
      rw [eval_choice_tooDeep hroom]
      exact ⟨_, _, hdecides, covers_of_opens (opens_choice_tooDeep hroom)⟩
    · obtain ⟨room, rfl⟩ : ∃ less, room = less + 3 := ⟨room - 3, by omega⟩
      cases hcondition : l.condition.tree.eval limits room m with
      | error stop m1 =>
        have hdecides : Decides limits k (x.snoc l) (room + 3) m _ _ _ := .stops hcondition
        rw [x.tree_snoc l] at hdecides ⊢
        rw [eval_choice_stops hcondition]
        exact ⟨_, _, hdecides, covers_of_opens (opens_choice_stops hcondition)⟩
      | ok v m1 =>
        by_cases hv : v.kind = .boolean
        · obtain ⟨b, rfl⟩ : ∃ b, v = .bool b := by
            cases v with
            | bool b => exact ⟨b, rfl⟩
            | _ => cases hv
          cases b with
          | true =>
            obtain ⟨rows, evaluated, hrest, hcovers⟩ := @ih room m1
            have hdecides : Decides limits k (x.snoc l) (room + 3) m _ _ _ :=
              .holds hcondition hrest
            rw [x.tree_snoc l] at hdecides ⊢
            rw [eval_choice hcondition]
            exact ⟨_, _, hdecides, covers_of_last (opens_choice hcondition) hcovers⟩
          | false =>
            have hdecides : Decides limits k (x.snoc l) (room + 3) m _ _ _ := .fails hcondition
            rw [x.tree_snoc l] at hdecides ⊢
            rw [eval_choice hcondition]
            exact ⟨_, _, hdecides, covers_of_opens (opens_choice hcondition)⟩
        · have hdecides : Decides limits k (x.snoc l) (room + 3) m _ _ _ :=
            .notBoolean hcondition hv
          rw [x.tree_snoc l] at hdecides ⊢
          rw [eval_choice_notBoolean hcondition hv, x.line_tree]
          exact ⟨_, _, hdecides, covers_of_opens (opens_choice_notBoolean hcondition hv)⟩

/-- Choices in a row are read as the choice of the last condition, whose value where it holds is the
row before it, if there is room for the parts. At work, the conditions are looked at from the last
one on. The first that does not hold has its value taken, and if all hold the first value is. What
fails on the way, or is no boolean, ends it. There is no visit but to the row without some of its
last alternatives, and to what is evaluated for the decision. -/
theorem the_last_condition_that_fails_decides (x : Choices) :
    (∀ c c', Span c x.tokens c' → Grammar.extends? c'.current.kind = none →
      Reader.Settles (fun room => Reader.expression room c) x.tree c') ∧
    ∀ limits k room m, ∃ rows evaluated,
      Decides limits k x room m rows evaluated (x.tree.eval limits room m) ∧
        Covers limits (visitExpr k room x.tree m) rows evaluated :=
  ⟨fun _ _ hspan hnext => x.settles_expression hspan hnext,
    fun limits k room m => exists_decides limits k room x m⟩

/-! ## A long row -/

/-- A token that is an expression by itself. -/
def Disjunction.atom (t : Mark Atom) : Disjunction where
  tokens := [t.as (.atom t.kind)]
  tree := .atom t
  derived := by
    have hatom : Derives (.phrase .primary) [t.as (.atom t.kind)] (.atom t) := .atom rfl
    have hoperand : Grammar.operand? .choice = some .disjunction := rfl
    exact Grammar.derives_of_suffixed (Grammar.derives_operand rfl hatom) hoperand (by decide)

/-- The text `if true else 1`. -/
def orOne : Alternative where
  opening := ⟨.word .if_, "if", 1⟩
  condition := .atom ⟨.boolean, "true", 1⟩
  between := ⟨.word .else_, "else", 1⟩
  no := .atom ⟨.number, "1", 1⟩
  opens := rfl
  parts := rfl

/-- The digit `1`, and so many alternatives to it that are never taken. -/
def onesIfTrue (count : Nat) : Choices := ⟨.atom ⟨.number, "1", 1⟩, List.replicate count orOne⟩

theorem a_row_of_two_is_read_and_decided :
    let next : Token := ⟨.sign .semicolon, ";", 1⟩
    Grammar.extends? next.kind = none ∧
      (∃ c, Span c (onesIfTrue 2).tokens ⟨next, [endMark 1]⟩ ∧
        Reader.Settles (fun room => Reader.expression room c) (onesIfTrue 2).tree
          ⟨next, [endMark 1]⟩) ∧
      ∀ m, ∃ rows evaluated, Decides .standard 0 (onesIfTrue 2) standardRoom m rows evaluated
        ((onesIfTrue 2).tree.eval .standard standardRoom m) := by
  intro next
  obtain ⟨hread, hdecided⟩ := the_last_condition_that_fails_decides (onesIfTrue 2)
  obtain ⟨c, hspan⟩ := Span.exists_to (onesIfTrue 2).tokens (Cursor.closed_endMark next 1)
  refine ⟨rfl, ⟨c, hspan, hread c _ hspan rfl⟩, fun m => ?_⟩
  obtain ⟨rows, evaluated, hdecides, -⟩ := hdecided .standard 0 standardRoom m
  exact ⟨rows, evaluated, hdecides⟩

theorem onesIfTrue_succ (count : Nat) :
    onesIfTrue (count + 1) = (onesIfTrue count).snoc orOne := by
  unfold onesIfTrue Choices.snoc
  rw [List.replicate_succ']

/-- Every alternative takes some of the room, though none is taken. -/
theorem onesIfTrue_tooDeep {limits : Limits} {count room : Nat} (m : Machine)
    (hroom : room < 3 * count + 3) :
    (onesIfTrue count).tree.eval limits room m = .error .tooDeep m := by
  induction count generalizing room with
  | zero =>
    change Expr.eval limits room (.atom ⟨.number, "1", 1⟩) m = _
    rw [Expr.eval_of_lt_cost limits hroom]
    rfl
  | succ count ih =>
    rw [onesIfTrue_succ, Choices.tree_snoc]
    by_cases hless : room < 3
    · exact eval_choice_tooDeep hless
    · obtain ⟨room, rfl⟩ : ∃ less, room = less + 3 := ⟨room - 3, by omega⟩
      by_cases hcondition : room < 3
      · refine eval_choice_stops ?_
        change Expr.eval limits room (.atom ⟨.boolean, "true", 1⟩) m = _
        rw [Expr.eval_of_lt_cost limits hcondition]
        rfl
      · obtain ⟨room, rfl⟩ : ∃ less, room = less + 3 := ⟨room - 3, by omega⟩
        have htrue : orOne.condition.tree.eval limits (room + 3) m = .ok (.bool true) m := rfl
        rw [eval_choice htrue]
        exact ih (by omega)

/-- All conditions of a long row hold, and yet it does not come to the first value. -/
theorem a_long_row_of_choices_is_too_deep :
    let m := Machine.start "" 0
    (∀ l ∈ (onesIfTrue 8000).rest,
      l.condition.tree.eval .standard standardRoom m = .ok (.bool true) m) ∧
      (∃ v, (onesIfTrue 8000).first.tree.eval .standard standardRoom m = .ok v m) ∧
      (onesIfTrue 8000).tree.eval .standard standardRoom m = .error .tooDeep m := by
  intro m
  refine ⟨fun l hl => ?_, ?_, onesIfTrue_tooDeep m (by decide)⟩
  · rw [List.eq_of_mem_replicate hl]
    rfl
  · exact ⟨.number ((Number.ofLiteral? ['1']).getD .nan), rfl⟩

end FunkLang
