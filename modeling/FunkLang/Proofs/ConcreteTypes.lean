-- The types of a check as facts of a run. A check joins no contexts: after an
-- assignment a name has the type of the value in all of the text that follows,
-- also where the run goes past the assignment or comes back from it. Where the
-- types agree on all of these ways, a type other than `unknown` is a fact.
import FunkLang.Proofs.FollowedVisits
import FunkLang.Proofs.Sums

namespace FunkLang

section Programs

variable {limits : Limits} {room k : Nat} {program : List Stmt} {m : Machine} {c c' : Context}
  {path : List Nat} {v : Visit}

/-! ## The statements of a program -/

theorem execTop_arrives {s : Stmt} (hs : s.functions = []) (h : s.Agrees k c c')
    (hm : m.Follows c) : Arrives (fun _ m' => m'.Follows c') (s.execTop limits m) := by
  have hexec : Arrives (fun flow m' => flow = .next → m'.Follows c')
      (s.exec limits limits.room m) := exec_arrives hs h hm
  unfold Stmt.execTop
  split <;> rename_i heq <;> rw [heq] at hexec
  · exact hexec rfl
  · trivial
  · trivial
  · trivial

theorem follow_top (plain : functionsOfAll program = []) (h : AgreeingStmts k program c c')
    (hm : m.Follows c) :
    FollowAll id (eachVisit (visitStmt 0 limits.room) (Stmt.execTop limits) program m)
      (eachVisit (checkStmt k) (fun s => s.check k) program c) := by
  induction h generalizing m with
  | nil => exact followAll_nil
  | cons first _ ih =>
    rw [functionsOfAll, List.append_eq_nil_iff] at plain
    rw [eachVisit, eachVisit, first.passes]
    apply FollowAll.cons (visitStmt_follows plain.1 first hm)
    exact followAll_andThen (execTop_arrives plain.1 first hm) fun _ m1 _ hm1 => ih plain.2 hm1

/-- The statements of a program that passes are visited on machines that follow the check. -/
theorem topVisits_follow (accepted : checkProgram room program .start = .ok () c)
    (plain : functionsOfAll program = []) (joins : JoinsAgree room program)
    (hm : m.Follows .start) :
    FollowAll id (topVisits limits m program) (checkAll room program .start) := by
  have hinside : ∀ u ∈ checkAll room program .start, u.JoinsAgreeInside :=
    fun u hu w hw => joins w ⟨u, hu, hw⟩
  have hchain := stmtChain_of_list accepted
  unfold checkAll at hinside ⊢
  rw [hoisting_eq plain] at hinside hchain ⊢
  exact follow_top plain (agreeing_stmts hchain hinside) (hm.of_eq rfl rfl rfl)

/-- Whatever part a run comes to, the check has come to it, and the machine follows the check. -/
theorem VisitedAt.follows (accepted : checkProgram room program .start = .ok () c)
    (plain : functionsOfAll program = []) (joins : JoinsAgree room program)
    (hm : m.Follows .start) (h : VisitedAt limits m program path v) :
    ∃ w, CheckedAt room program path w ∧ v.Follows w := by
  induction h with
  | top hv =>
    obtain ⟨w, hw, hfollows⟩ := topVisits_follow accepted plain joins hm _ _ hv
    exact ⟨w, .top hw, hfollows⟩
  | part _ hu ih =>
    obtain ⟨w, hw, hfollows⟩ := ih
    obtain ⟨w', hw', hfollows'⟩ := hfollows.opens _ _ hu
    exact ⟨w', .part hw hw', hfollows'⟩

end Programs

/-! ## The types of occurrences -/

/-- In a program without functions that passes its check, and whose joins agree, every occurrence
of an expression that a run evaluates, in whatever turn of a loop, has a type, and its value is of
this type if it is known. -/
theorem concrete_types_are_facts {room : Nat} {program : List Stmt} {context : Context}
    (accepted : checkProgram room program .start = .ok () context)
    (plain : functionsOfAll program = []) (joins : JoinsAgree room program)
    (limits : Limits) (input : String) (clock : Nat) :
    (∀ path v e, VisitedAt limits (.start input clock) program path v → v.part = .expr e →
      (∃ t, TypedAt room program path e t) ∧
        ∀ t w m, TypedAt room program path e t → t ≠ .unknown →
          e.eval limits v.room v.machine = .ok w m →
            w.kind.name = t.name ∨ w.kind = .builtin ∧ t = .function) ∧
      ∀ v, Visited limits (.start input clock) program v →
        ∃ path, VisitedAt limits (.start input clock) program path v := by
  refine ⟨fun path v e hv hpart => ?_, fun v hv => exists_visitedAt hv⟩
  obtain ⟨u, hu, hfollows⟩ := hv.follows accepted plain joins (.start input clock)
  obtain ⟨hagrees, hm⟩ := hfollows
  rw [hpart] at hagrees
  cases hagrees with
  | @expr k _ c t c' he =>
    have htyped : TypedAt room program path e t := ⟨k, c, c', hu, he.passes⟩
    refine ⟨⟨t, htyped⟩, fun t' w m ht' known heval => ?_⟩
    obtain ⟨-, rfl⟩ := ht'.unique htyped
    have hvalue : Arrives (fun w m' => w.Fits t' ∧ m'.Follows c')
        (e.eval limits v.room v.machine) := eval_arrives he hm
    rw [heval] at hvalue
    exact hvalue.1.name known

/-- `make x = 1; x = 'a'; make i = 0; while i < 2 { make y = x; y = i; i = y + 1; } print x;`,
on eight lines. -/
def retypedProgram : List Stmt :=
  [.make 1 ⟨"x", 1⟩ (some (.atom ⟨.number, "1", 1⟩)),
    .expression 2 (.assign ⟨"x", 2⟩ (.atom ⟨.string, "a", 2⟩)),
    .make 3 ⟨"i", 3⟩ (some (.atom ⟨.number, "0", 3⟩)),
    .while_ 4 (.binary (.atom ⟨.name, "i", 4⟩) ⟨.less, "<", 4⟩ (.atom ⟨.number, "2", 4⟩))
      (.block 4
        [.make 5 ⟨"y", 5⟩ (some (.atom ⟨.name, "x", 5⟩)),
          .expression 6 (.assign ⟨"y", 6⟩ (.atom ⟨.name, "i", 6⟩)),
          .expression 7 (.assign ⟨"i", 7⟩
            (.binary (.atom ⟨.name, "y", 7⟩) ⟨.plus, "+", 7⟩ (.atom ⟨.number, "1", 7⟩)))]),
    .print 8 (.atom ⟨.name, "x", 8⟩)]

set_option maxRecDepth 2000 in
/-- In the second turn of the loop, `y` of the sum is a number, though it was made a string. -/
theorem a_retyped_name_is_of_its_new_type :
    (∃ context, checkProgram 30 retypedProgram .start = .ok () context) ∧
      functionsOfAll retypedProgram = [] ∧ JoinsAgree 30 retypedProgram ∧
        TypedAt 30 retypedProgram [0, 0, 0, 2, 1, 3] (.atom ⟨.name, "y", 7⟩) .number ∧
          ∃ v w m, VisitedAt ⟨10, 30, 5⟩ (.start "" 0) retypedProgram [0, 0, 0, 2, 1, 3] v ∧
            v.part = .expr (.atom ⟨.name, "y", 7⟩) ∧
            (Expr.atom ⟨.name, "y", 7⟩).eval ⟨10, 30, 5⟩ v.room v.machine = .ok w m ∧
            w.kind.name = "number" := by
  obtain ⟨context, accepted⟩ : ∃ context, checkProgram 30 retypedProgram .start = .ok () context :=
    ⟨_, rfl⟩
  have joins : JoinsAgree 30 retypedProgram := by decide +kernel
  have htyped : TypedAt 30 retypedProgram [0, 0, 0, 2, 1, 3] (.atom ⟨.name, "y", 7⟩) .number :=
    ⟨_, _, _, .part (.part (.part (.part (.part (.top rfl) rfl) rfl) rfl) rfl) rfl, rfl⟩
  obtain ⟨v, hv, hpart, w, m, heval⟩ :
      ∃ v, VisitedAt ⟨10, 30, 5⟩ (.start "" 0) retypedProgram [0, 0, 0, 2, 1, 3] v ∧
        v.part = .expr (.atom ⟨.name, "y", 7⟩) ∧
        ∃ w m, (Expr.atom ⟨.name, "y", 7⟩).eval ⟨10, 30, 5⟩ v.room v.machine = .ok w m := by
    have hloop : VisitedAt ⟨10, 30, 5⟩ (.start "" 0) retypedProgram [3] _ := .top rfl
    -- The visits of the loop: test, body, test and, at 3, the body once more.
    have hbody : VisitedAt ⟨10, 30, 5⟩ (.start "" 0) retypedProgram [1, 3] _ :=
      .part (i := 3) hloop rfl
    have hassign : VisitedAt ⟨10, 30, 5⟩ (.start "" 0) retypedProgram [2, 1, 3] _ :=
      .part (i := 2) hbody rfl
    have hvalue : VisitedAt ⟨10, 30, 5⟩ (.start "" 0) retypedProgram [0, 2, 1, 3] _ :=
      .part (i := 0) hassign rfl
    have hsum : VisitedAt ⟨10, 30, 5⟩ (.start "" 0) retypedProgram [0, 0, 2, 1, 3] _ :=
      .part (i := 0) hvalue rfl
    exact ⟨_, .part (i := 0) hsum rfl, rfl, _, _, rfl⟩
  have facts := (concrete_types_are_facts accepted rfl joins ⟨10, 30, 5⟩ "" 0).1 _ v _ hv hpart
  have hname : w.kind.name = "number" := by
    rcases facts.2 _ w m htyped (by decide) heval with hname | ⟨-, hfunction⟩
    · exact hname
    · cases hfunction
  exact ⟨⟨context, accepted⟩, rfl, joins, htyped, v, w, m, hv, hpart, heval, hname⟩

/-! ### An assignment that is not run -/

/-- `make x = 1;`, `if false { x = 'a'; }` and `print x;`, each on a line of its own -/
def skippedProgram : List Stmt :=
  [.make 1 ⟨"x", 1⟩ (some (.atom ⟨.number, "1", 1⟩)),
    .if_ 2 (.atom ⟨.boolean, "false", 2⟩)
      (.block 2 [.expression 2 (.assign ⟨"x", 2⟩ (.atom ⟨.string, "a", 2⟩))]) none,
    .print 3 (.atom ⟨.name, "x", 3⟩)]

/-- The tokens of this program. -/
def skippedTokens : List Token :=
  [⟨.word .make, "make", 1⟩, ⟨.atom .name, "x", 1⟩, ⟨.sign .equal, "=", 1⟩,
    ⟨.atom .number, "1", 1⟩, ⟨.sign .semicolon, ";", 1⟩, ⟨.word .if_, "if", 2⟩,
    ⟨.atom .boolean, "false", 2⟩, ⟨.sign .leftBrace, "\x7b", 2⟩, ⟨.atom .name, "x", 2⟩,
    ⟨.sign .equal, "=", 2⟩, ⟨.atom .string, "a", 2⟩, ⟨.sign .semicolon, ";", 2⟩,
    ⟨.sign .rightBrace, "\x7d", 2⟩, ⟨.word .print, "print", 3⟩, ⟨.atom .name, "x", 3⟩,
    ⟨.sign .semicolon, ";", 3⟩]

theorem readScript_skipped :
    readScript "make x = 1;\nif false \x7b x = 'a'; \x7d\nprint x;" = .ok skippedProgram := by
  have hscan : scan "make x = 1;\nif false \x7b x = 'a'; \x7d\nprint x;" =
      .ok (skippedTokens ++ [endMark 3]) := rfl
  have hended : Grammar.Ended skippedTokens (endMark 3) := ⟨rfl, by simp [skippedTokens]⟩
  have hparse : parseTokens 60 (skippedTokens ++ [endMark 3]) = .ok skippedProgram := rfl
  exact readScript_eq_ok.mpr ⟨_, hscan, Grammar.parseTokens_of_le hended hparse (by decide)⟩

/-- Past an assignment that is not run the check has a type that the value does not have. -/
theorem a_number_is_typed_as_a_string :
    readScript "make x = 1;\nif false \x7b x = 'a'; \x7d\nprint x;" = .ok skippedProgram ∧
      functionsOfAll skippedProgram = [] ∧
        (∃ context, checkProgram 20 skippedProgram .start = .ok () context) ∧
          TypedAt 20 skippedProgram [0, 2] (.atom ⟨.name, "x", 3⟩) .string ∧
            ∃ v w m, VisitedAt ⟨10, 30, 5⟩ (.start "" 0) skippedProgram [0, 2] v ∧
              v.part = .expr (.atom ⟨.name, "x", 3⟩) ∧
              (Expr.atom ⟨.name, "x", 3⟩).eval ⟨10, 30, 5⟩ v.room v.machine = .ok w m ∧
              w.kind.name = "number" := by
  have htyped : TypedAt 20 skippedProgram [0, 2] (.atom ⟨.name, "x", 3⟩) .string :=
    ⟨_, _, _, .part (.top rfl) rfl, rfl⟩
  have hvisited : ∃ v, VisitedAt ⟨10, 30, 5⟩ (.start "" 0) skippedProgram [0, 2] v ∧
      v.part = .expr (.atom ⟨.name, "x", 3⟩) ∧ ∃ x m,
        (Expr.atom ⟨.name, "x", 3⟩).eval ⟨10, 30, 5⟩ v.room v.machine = .ok (.number x) m := by
    have hprint : VisitedAt ⟨10, 30, 5⟩ (.start "" 0) skippedProgram [2] _ := .top rfl
    exact ⟨_, .part (i := 0) hprint rfl, rfl, _, _, rfl⟩
  obtain ⟨v, hv, hpart, x, m, heval⟩ := hvisited
  exact ⟨readScript_skipped, rfl, ⟨_, rfl⟩, htyped, v, _, m, hv, hpart, heval, rfl⟩

end FunkLang
