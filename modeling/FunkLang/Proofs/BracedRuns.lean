-- Runs of a program and of the same program in braces. Both go through the same
-- steps. A block around a single statement opens a blank scope, which shows in
-- nothing that the statement does.
import FunkLang.Program
import FunkLang.Proofs.BracedChecks
import FunkLang.Proofs.BracedSteps
import FunkLang.Proofs.Placement

namespace FunkLang

open Pairing

/-! ## Room for trees -/

/-- The least room that an expression is evaluated with. -/
def Expr.evalLeast : Expr → Nat
  | .call .. => 5
  | .list .. => 4
  | _ => 3

theorem Expr.eval_shallow {limits : Limits} {room : Nat} {e : Expr} (h : room < e.evalLeast) :
    e.eval limits room = throw .tooDeep := by
  cases e <;> simp only [evalLeast] at h
  case call =>
    match room, h with
    | 0, _ | 1, _ | 2, _ | 3, _ | 4, _ => rfl
  case list =>
    match room, h with
    | 0, _ | 1, _ | 2, _ | 3, _ => rfl
  all_goals
    match room, h with
    | 0, _ | 1, _ | 2, _ => rfl

/-- The least room that a statement runs with. -/
def Stmt.execLeast : Stmt → Nat
  | .block .. | .with_ .. | .for_ .. => 4
  | _ => 3

theorem Stmt.exec_shallow {limits : Limits} {room : Nat} {s : Stmt} (h : room < s.execLeast) :
    s.exec limits room = throw .tooDeep := by
  cases s <;> simp only [execLeast] at h
  case block | with_ | for_ =>
    match room, h with
    | 0, _ | 1, _ | 2, _ | 3, _ => rfl
  all_goals
    match room, h with
    | 0, _ | 1, _ | 2, _ => rfl

/-! ## Trees -/

/-- A current scope with names of its own, where a statement declares something in it. -/
def DeclaresIn (s : Stmt) (W : World) : Prop := s.isDeclaration = true → W.Open

theorem worldOpen_up (most : Nat) :
    ∀ W W', (mirroredRuns most).grows W W' → W.Open → W'.Open :=
  fun _ _ hgrows => World.Grows.open hgrows

theorem declaresIn_up (most : Nat) (s : Stmt) :
    ∀ W W', (mirroredRuns most).grows W W' → DeclaresIn s W → DeclaresIn s W' :=
  fun _ _ hgrows hopen hdeclares => World.Grows.open hgrows (hopen hdeclares)

section Trees

variable {most room : Nat} {limits limits' : Limits}

/-- Expressions, and statements with those in braces, run the same way with this room and with any
other, unless that is too little. -/
structure RunsAlike (most : Nat) (limits limits' : Limits) (room : Nat) : Prop where
  eval : ∀ (e : Expr) room', (mirroredRuns most).AlikeAt most 0 room room' (e.eval limits room)
    (e.eval limits' room')
  exec : ∀ (s t : Stmt) blocks room', Braced most blocks s t → s.Formed →
    ((mirroredRuns most).on (DeclaresIn s)).AlikeAt most blocks room room' (s.exec limits room)
      (t.exec limits' room')

theorem runsAlike_eval (hcalls : limits'.calls = limits.calls)
    (ih : ∀ r < room, RunsAlike most limits limits' r) (e : Expr) (room' : Nat) :
    (mirroredRuns most).AlikeAt most 0 room room' (e.eval limits room) (e.eval limits' room') := by
  refine .of_least (e := .tooDeep) (x := fun r => e.eval limits r) (y := fun r => e.eval limits' r)
    rfl (fun _ => Expr.eval_shallow) (fun _ => Expr.eval_shallow) id cramped_of_lt ?_
  rintro r r' rfl rfl
  have part (d : Nat) {k k' : Nat} (e' : Expr) (hd : 3 ≤ d := by omega)
      (hk : k + d = r + e.evalLeast := by rfl) (hk' : k' + d = r' + e.evalLeast := by rfl) :
      (mirroredRuns most).AlikeAt most 0 (r + e.evalLeast) (r' + e.evalLeast) (e'.eval limits k)
        (e'.eval limits' k') := by
    have hpart := ((ih k (by omega)).eval e' k').deeper (Nat.zero_le most) hd
    rwa [hk, hk'] at hpart
  cases e <;> simp only [Expr.evalLeast, Expr.eval] at part ⊢
  case atom mark => exact SameRun.atom mark
  case unary op operand =>
    exact (part 3 operand).bind fun v => SameRun.unary op v
  case binary left op right =>
    refine (part 3 left).bind fun a => ?_
    refine (part 3 right).bind fun b => ?_
    exact SameRun.binary (fun hlt => by omega) (fun hlt => cramped_of_lt (by omega)) op left a b
  case logical op left right =>
    refine (part 3 left).bind fun v => ?_
    refine (SameRun.truth _ _ _).bind fun a => ?_
    split
    · exact .pure _
    · exact .pure _
    · refine (part 3 right).bind fun w => ?_
      exact (SameRun.truth _ _ _).bind fun _ => .pure _
  case assign name value =>
    refine (part 3 value).bind fun v => ?_
    exact (SameRun.assign _ _ _).bind fun _ => .pure _
  case assignIndex collection place value =>
    refine (part 3 collection).bind fun c => ?_
    refine (part 3 place).bind fun i => ?_
    exact (part 3 value).bind fun v => SameRun.setElement _ _ _ _
  case assignField collection key value =>
    refine (part 3 collection).bind fun c => ?_
    exact (part 3 value).bind fun v => SameRun.setField _ _ _ _
  case choice condition yes no =>
    refine (part 3 condition).bind fun v => ?_
    refine (SameRun.truth _ _ _).bind fun b => ?_
    split
    · exact part 3 yes
    · exact part 3 no
  case call callee arguments =>
    refine (part 3 callee).bind fun f => ?_
    refine (Alike.mapM fun a _ => part 4 a).bind fun args => ?_
    -- The body is no part of the call, but it runs with less room.
    have hleft : r < r' → r + 5 < r' + 5 := by omega
    have hright (hlt : r' < r) : Cramped most 0 (r + 5) (r' + 5) := cramped_of_lt (by omega)
    refine sameRun_callValue hleft hright hcalls (fun s t blocks hbraced hformed => ?_) f args
      callee.line
    have hbody := ((ih r (show r < r + 5 by omega)).exec s t blocks r' hbraced hformed).deeper
      hbraced.le_most (show 3 ≤ 5 by omega)
    exact hbody.onto (worldOpen_up most) fun _ hopen _ => hopen
  case list line elements =>
    refine (Alike.mapM fun e _ => part 4 e).bind fun vs => ?_
    exact SameRun.allocate fun _ _ => rfl
  case record line entries =>
    refine (Alike.mapM fun entry _ => ?_).bind fun fields => SameRun.allocate fun _ _ => rfl
    exact (part 3 entry.2).bind fun _ => .pure _
  case index collection place =>
    refine (part 3 collection).bind fun c => ?_
    exact (part 3 place).bind fun i => SameRun.element _ _ _
  case field collection key =>
    exact (part 3 collection).bind fun c => SameRun.field _ _ _

/-- A block around a statement that declares nothing runs as the statement does. -/
theorem sameRun_braces {s t : Stmt} {blocks : Nat} (plain : s.isDeclaration = false)
    (h : ∀ r, ((mirroredRuns most).on (DeclaresIn s)).AlikeAt most blocks room r
      (s.exec limits room) (t.exec limits' r)) (room' : Nat) :
    ((mirroredRuns most).on (DeclaresIn s)).AlikeAt most (blocks + 1) room room'
      (s.exec limits room) ((Stmt.block s.line [t]).exec limits' room') := by
  refine .inside (e := .tooDeep) (y := fun r => (Stmt.block s.line [t]).exec limits' r) rfl
    (show 4 ≤ 6 by omega) (fun _ hr => Stmt.exec_shallow hr) (fun r => ?_) room'
  simp only [Stmt.exec]
  rw [inTurn_singleton]
  have halike : SameRun most (room < r) (Cramped most blocks room r) (s.exec limits room)
      (t.exec limits' r) :=
    (h r).off fun _ hdeclares => by simp [plain] at hdeclares
  exact (SameRun.enclosedBlank halike).on (declaresIn_up most s)

/-- A statement without braces around itself runs as without those in it, if its parts do. -/
theorem sameRun_form (hturns : limits'.turns = limits.turns)
    (ih : ∀ r < room, RunsAlike most limits limits' r) {s t : Stmt} (hbraced : Braced most 0 s t)
    (hformed : s.Formed) (room' : Nat) :
    ((mirroredRuns most).on (DeclaresIn s)).AlikeAt most 0 room room' (s.exec limits room)
      (t.exec limits' room') := by
  have hleast : t.execLeast = s.execLeast := by
    cases hbraced <;> rfl
  refine .of_least (e := .tooDeep) (x := fun r => s.exec limits r)
    (y := fun r => t.exec limits' r) rfl (fun _ => Stmt.exec_shallow)
    (fun _ hr => Stmt.exec_shallow (lt_of_lt_of_eq hr hleast.symm)) id cramped_of_lt ?_
  rintro r r' rfl rfl
  have value (d : Nat) {k k' : Nat} (e : Expr) (hd : 3 ≤ d := by omega)
      (hk : k + d = r + s.execLeast := by rfl) (hk' : k' + d = r' + s.execLeast := by rfl) :
      (mirroredRuns most).AlikeAt most 0 (r + s.execLeast) (r' + s.execLeast) (e.eval limits k)
        (e.eval limits' k') := by
    have hpart := ((ih k (by omega)).eval e k').deeper (Nat.zero_le most) hd
    rwa [hk, hk'] at hpart
  have inner (d : Nat) {k k' : Nat} {s' t' : Stmt} {blocks : Nat}
      (hbraced : Braced most blocks s' t') (hformed : s'.Formed)
      (hd : 3 ≤ d := by omega) (hk : k + d = r + s.execLeast := by rfl)
      (hk' : k' + d = r' + s.execLeast := by rfl) :
      ((mirroredRuns most).on (DeclaresIn s')).AlikeAt most 0 (r + s.execLeast)
        (r' + s.execLeast) (s'.exec limits k) (t'.exec limits' k') := by
    have hpart := ((ih k (by omega)).exec s' t' blocks k' hbraced hformed).deeper
      hbraced.le_most hd
    rwa [hk, hk'] at hpart
  have branch (d : Nat) {k k' : Nat} {s' t' : Stmt} {blocks : Nat}
      (hbraced : Braced most blocks s' t') (hformed : s'.Formed) (plain : s'.isDeclaration = false)
      (hd : 3 ≤ d := by omega) (hk : k + d = r + s.execLeast := by rfl)
      (hk' : k' + d = r' + s.execLeast := by rfl) :
      (mirroredRuns most).AlikeAt most 0 (r + s.execLeast) (r' + s.execLeast)
        (s'.exec limits k) (t'.exec limits' k') :=
    (inner d hbraced hformed hd hk hk').off fun _ hdeclares => by simp [plain] at hdeclares
  cases hbraced <;> simp only [Stmt.execLeast, Stmt.exec] at value inner branch ⊢
  case expression =>
    exact .on (declaresIn_up _ _) ((value 3 _).bind fun _ => .pure _)
  case print =>
    refine .on (declaresIn_up _ _) ((value 3 _).bind fun v => ?_)
    exact Alike.bind (SameRun.writeLine (fun hlt => by omega)
      (fun hlt => cramped_of_lt (by omega)) [v]) fun _ => .pure _
  case make line name init =>
    have named (v : Value) : ((mirroredRuns most).on (DeclaresIn (.make line name init))).AlikeAt
        most 0 (r + 3) (r' + 3) (do Run.declare name.text v; return Flow.next)
        (do Run.declare name.text v; return Flow.next) :=
      Alike.bind ((SameRun.declare _ _).onto (declaresIn_up _ _) fun _ hopen => hopen rfl)
        fun _ => .pure _
    cases init with
    | none =>
      exact Alike.bind (.pure Value.nil) named
    | some e =>
      exact Alike.bind (.on (declaresIn_up _ _) (value 3 e)) named
  case block line body body' hbody =>
    cases hformed with
    | block hformed =>
      refine .on (declaresIn_up _ _) (SameRun.enclosedHere (.inTurn ?_) [])
      exact hbody.forall₂ fun s' hs' t' blocks hbraced =>
        (inner 4 hbraced (hformed s' hs')).onto (worldOpen_up most)
          fun _ hopen _ => hopen
  case if_ line condition blocks yes yes' hyes =>
    cases hformed with
    | if_ hformed plain =>
      refine .on (declaresIn_up _ _) ((value 3 _).bind fun v => ?_)
      refine (SameRun.truth _ _ _).bind fun holds => ?_
      cases holds with
      | true => exact branch 3 hyes hformed plain
      | false => exact .pure _
  case ifElse line condition blocks yes yes' blocks' no no' hyes hno =>
    cases hformed with
    | if_ hformed plain hformed' plain' =>
      refine .on (declaresIn_up _ _) ((value 3 _).bind fun v => ?_)
      refine (SameRun.truth _ _ _).bind fun holds => ?_
      cases holds with
      | true => exact branch 3 hyes hformed plain
      | false => exact branch 3 hno (hformed' _ rfl) (plain' _ rfl)
  case while_ line condition blocks body body' hbody =>
    cases hformed with
    | while_ hformed plain =>
      rw [hturns]
      refine .on (declaresIn_up _ _) (.whileHolds ?_ ?_ _)
      · exact (value 3 _).bind fun v => SameRun.truth _ _ _
      · exact branch 3 hbody hformed plain
  case funk line name params bodyLine body body' hbody =>
    cases hformed with
    | funk hformed =>
      refine Alike.onto (declaresIn_up _ _) (fun _ hopen => hopen rfl) ?_
      exact SameRun.funk hbody hformed name.text (params.map (·.text))
  case return_ line value' =>
    refine .on (declaresIn_up _ _) ?_
    cases value' with
    | none =>
      exact .pure _
    | some e =>
      exact (value 3 e).bind fun _ => .pure _
  case with_ line subject name blocks body body' hbody =>
    cases hformed with
    | with_ hformed plain =>
      refine .on (declaresIn_up _ _) ((value 3 _).bind fun v => ?_)
      refine SameRun.enclosedHere (.on (worldOpen_up most) ?_) _
      exact branch 4 hbody hformed plain
  case for_ line name items blocks body body' hbody =>
    cases hformed with
    | for_ hformed plain =>
      refine .on (declaresIn_up _ _) ((value 3 _).bind fun v => ?_)
      split
      · refine SameRun.look fun W m m' hm => ?_
        rw [hm.iter]
        refine .inTurn (List.forall₂_same.mpr fun v _ => ?_)
        refine SameRun.enclosedHere (.on (worldOpen_up most) ?_) _
        exact branch 4 hbody hformed plain
      · exact SameRun.fail _ _

theorem runsAlike_exec (hturns : limits'.turns = limits.turns)
    (ih : ∀ r < room, RunsAlike most limits limits' r) (s t : Stmt) (blocks room' : Nat)
    (hbraced : Braced most blocks s t) (hformed : s.Formed) :
    ((mirroredRuns most).on (DeclaresIn s)).AlikeAt most blocks room room' (s.exec limits room)
      (t.exec limits' room') := by
  -- The first run takes no step into the braces, so its room stays the same here.
  induction blocks generalizing t room' with
  | zero => exact sameRun_form hturns ih hbraced hformed room'
  | succ blocks ihblocks =>
    cases hbraced with
    | braces _ plain hinner => exact sameRun_braces plain (fun r => ihblocks _ r hinner) room'

theorem runsAlike (hcalls : limits'.calls = limits.calls) (hturns : limits'.turns = limits.turns)
    (room : Nat) : RunsAlike most limits limits' room := by
  induction room using Nat.strongRecOn with
  | ind room ih => exact ⟨runsAlike_eval hcalls ih, runsAlike_exec hturns ih⟩

end Trees

/-! ## Programs -/

/-- A report of a run that ended for want of room. -/
def Report.Short (report : Report) : Prop :=
  ∃ f : Fault, report.failure = some (.fault f) ∧ f.cause.isDeep = true

section Programs

variable {most : Nat} {program braced : List Stmt}

theorem sameRun_execTop {limits limits' : Limits} (hcalls : limits'.calls = limits.calls)
    (hturns : limits'.turns = limits.turns) {s t : Stmt} {blocks : Nat}
    (hbraced : Braced most blocks s t) (hformed : s.Formed) :
    SameRunIf most World.Open (limits.room < limits'.room)
      (Cramped most most limits.room limits'.room) (s.execTop limits) (t.execTop limits') := by
  have hexec := ((runsAlike hcalls hturns limits.room).exec s t blocks limits'.room hbraced
    hformed).onto (worldOpen_up most) fun _ hopen _ => hopen
  intro W m m' hm
  have hend := hexec W m m' hm
  unfold Stmt.execTop
  rw [hbraced.line_eq]
  generalize s.exec limits limits.room m = r at hend ⊢
  generalize t.exec limits' limits'.room m' = r' at hend ⊢
  cases hend with
  | @ok flow _ _ _ hgrows hn =>
    cases flow with
    | next => exact .ok hgrows hn
    | returned v => exact .error hgrows hn
  | @error stop _ _ _ hgrows hn => cases stop <;> exact .error hgrows hn
  | @left stop _ _ hdeep hlt =>
    cases stop with
    | fault f => exact .left hdeep hlt
    | tooDeep => exact .left rfl hlt
    | endless => cases hdeep
  | @right stop _ _ hdeep hcramped =>
    have hcramped' := hcramped.outside hbraced.le_most
    cases stop with
    | fault f => exact .right hdeep hcramped'
    | tooDeep => exact .right rfl hcramped'
    | endless => cases hdeep

theorem sameRun_evaluate (limits limits' : Limits) (hcalls : limits'.calls = limits.calls)
    (hturns : limits'.turns = limits.turns) (hformed : ∀ s ∈ program, s.Formed)
    (hbraced : AllBraced most program braced) :
    SameRunIf most World.Open (limits.room < limits'.room)
      (Cramped most most limits.room limits'.room) (evaluate limits program)
      (evaluate limits' braced) := by
  unfold evaluate
  rw [hbraced.length_eq]
  refine Alike.bind (.on (worldOpen_up most) (SameRun.note _)) fun _ => .forM ?_
  exact hbraced.forall₂ fun s hs t blocks h => sameRun_execTop hcalls hturns h (hformed s hs)

/-- A machine before its run goes with itself. -/
theorem mirrors_start (most : Nat) (input : String) (clock : Nat) :
    ∃ W : World, Mirrors most W (.start input clock) (.start input clock) ∧ W.Open := by
  have inside : ScopeTree.rootScope < builtinScopes.size := Nat.zero_lt_one
  have twin (W : World) (hview : W.view 0 = 0) : Twin most default default W :=
    ⟨rfl, rfl, .nil, nofun, Nat.zero_lt_of_lt W.inside, hview.symm⟩
  exact ⟨_, ⟨.refl builtinScopes_grounded inside, rfl, rfl, rfl, fun _ => twin _ rfl, rfl⟩, trivial⟩

/-- A program runs as it does without the braces. -/
theorem run_of_braced (hformed : ∀ s ∈ program, s.Formed)
    (hbraced : AllBraced most program braced) (calls turns : Nat) (input : String) (clock : Nat) :
    SameButForRoom most Report.Short
      (fun room => runProgram ⟨calls, room, turns⟩ false input clock program)
      (fun room => runProgram ⟨calls, room, turns⟩ false input clock braced) := by
  refine .of_ends fun room room' => ?_
  obtain ⟨W, hstart, hopen⟩ := mirrors_start most input clock
  have hend := sameRun_evaluate ⟨calls, room, turns⟩ ⟨calls, room', turns⟩ rfl rfl hformed hbraced
    W _ _ ⟨hstart, hopen⟩
  have deep {stop : Stop} (hdeep : stop.isDeep = true) (output : String) :
      Report.Short ⟨output, some stop.failure⟩ := by
    cases stop with
    | fault f => exact ⟨f, rfl, hdeep⟩
    | tooDeep => exact ⟨_, rfl, rfl⟩
    | endless => cases hdeep
  simp only [runProgram, runOn, Bool.false_eq_true, if_false]
  generalize evaluate ⟨calls, room, turns⟩ program (.start input clock) = r at hend ⊢
  generalize evaluate ⟨calls, room', turns⟩ braced (.start input clock) = r' at hend ⊢
  cases hend with
  | ok hgrows hn => exact Or.inl (congrArg (Report.mk · none) hn.1.output)
  | error hgrows hn => exact Or.inl (congrArg (Report.mk · _) hn.1.output)
  | left hdeep hlt => exact Or.inr (Or.inl ⟨deep hdeep _, hlt⟩)
  | right hdeep hcramped => exact Or.inr (Or.inr ⟨deep hdeep _, hcramped⟩)

/-- Braces around single statements of a program that was read change nothing, wherever they stand
and however many of them: neither what the checker says, nor what the program writes and how it
fails, unless the nesting gets too deep. -/
theorem braces_change_nothing {readRoom : Nat} {tokens : List Token}
    (parsed : parseTokens readRoom tokens = .ok program)
    (hbraced : AllBraced most program braced) :
    (∀ c, SameButForRoom most CheckShort (fun room => checkProgram room program c)
      (fun room => checkProgram room braced c)) ∧
      ∀ calls turns input clock, SameButForRoom most Report.Short
        (fun room => runProgram ⟨calls, room, turns⟩ false input clock program)
        (fun room => runProgram ⟨calls, room, turns⟩ false input clock braced) :=
  ⟨check_of_braced (formed_of_parse parsed) hbraced, run_of_braced (formed_of_parse parsed) hbraced⟩

/-- A function with a return in a branch, and a call of it. -/
def branching : List Token :=
  [⟨.word .funk, "funk", 1⟩, ⟨.atom .name, "f", 1⟩, ⟨.sign .leftParen, "(", 1⟩,
    ⟨.sign .rightParen, ")", 1⟩, ⟨.sign .leftBrace, "\x7b", 1⟩, ⟨.word .if_, "if", 2⟩,
    ⟨.atom .boolean, "true", 2⟩, ⟨.word .return_, "return", 3⟩, ⟨.atom .string, "yes", 3⟩,
    ⟨.sign .semicolon, ";", 3⟩, ⟨.sign .rightBrace, "\x7d", 4⟩, ⟨.word .print, "print", 5⟩,
    ⟨.atom .name, "f", 5⟩, ⟨.sign .leftParen, "(", 5⟩, ⟨.sign .rightParen, ")", 5⟩,
    ⟨.sign .semicolon, ";", 5⟩, endMark 5]

def branchingTree : List Stmt :=
  [.funk 1 ⟨"f", 1⟩ [] 1
      [.if_ 2 (.atom ⟨.boolean, "true", 2⟩) (.return_ 3 (some (.atom ⟨.string, "yes", 3⟩))) none],
    .print 5 (.call (.atom ⟨.name, "f", 5⟩) [])]

/-- The same with braces around the branch, around the statement that it belongs to, and around the
call. -/
def branchingInBraces : List Stmt :=
  [.funk 1 ⟨"f", 1⟩ [] 1
      [.block 2 [.if_ 2 (.atom ⟨.boolean, "true", 2⟩)
        (.block 3 [.return_ 3 (some (.atom ⟨.string, "yes", 3⟩))]) none]],
    .block 5 [.print 5 (.call (.atom ⟨.name, "f", 5⟩) [])]]

theorem braces_around_a_branch_change_nothing :
    parseTokens 60 branching = .ok branchingTree ∧
      AllBraced 1 branchingTree branchingInBraces ∧
      runProgram ⟨10, 210, 10⟩ false "" 0 branchingInBraces =
        runProgram ⟨10, 60, 10⟩ false "" 0 branchingTree ∧
      (runProgram ⟨10, 60, 10⟩ false "" 0 branchingTree).output = "yes\n" := by
  have parsed : parseTokens 60 branching = .ok branchingTree := rfl
  have hbraced : AllBraced 1 branchingTree branchingInBraces := by
    have around (s : Stmt) (plain : s.isDeclaration = false) : Braced 1 1 s (.block s.line [s]) :=
      .braces Nat.zero_lt_one plain (braced_self 1 s)
    have branch (line : Int) (condition : Expr) (value : Option Expr) :
        Braced 1 0 (.if_ line condition (.return_ 3 value) none)
          (.if_ line condition (.block 3 [.return_ 3 value]) none) :=
      .if_ (around (.return_ 3 value) rfl)
    exact .cons (.funk (.cons (.braces Nat.zero_lt_one rfl (branch 2 _ _)) .nil))
      (.cons (around (.print 5 _) rfl) .nil)
  have ends : (runProgram ⟨10, 60, 10⟩ false "" 0 branchingTree).failure = none := rfl
  have enough : ¬ (runProgram ⟨10, 60, 10⟩ false "" 0 branchingTree).Short := by
    rintro ⟨f, hf, _⟩
    rw [ends] at hf
    cases hf
  have hruns := (braces_change_nothing parsed hbraced).2 10 10 "" 0
  exact ⟨parsed, hbraced, hruns.same 60 210 enough (hruns.enough 60 210 (by decide) enough), rfl⟩

end Programs
end FunkLang
