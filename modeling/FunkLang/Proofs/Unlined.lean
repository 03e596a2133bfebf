-- Lines go through the readers and are never looked at. Tokens without lines
-- are read as the same tree without lines, or the same is missed in them.
import FunkLang.Program
import FunkLang.Proofs.Respelling

namespace FunkLang

/-! ## Trees without lines -/

mutual

/-- The statement with line 0 for every line. -/
def Stmt.unlined : Stmt → Stmt
  | .expression _ value => .expression 0 value.unlined
  | .print _ value => .print 0 value.unlined
  | .make _ name value => .make 0 name.unlined (value.map Expr.unlined)
  | .block _ body => .block 0 (Stmt.allUnlined body)
  | .if_ _ condition yes no => .if_ 0 condition.unlined yes.unlined (Stmt.maybeUnlined no)
  | .while_ _ condition body => .while_ 0 condition.unlined body.unlined
  | .funk _ name params _ body =>
    .funk 0 name.unlined (params.map Name.unlined) 0 (Stmt.allUnlined body)
  | .return_ _ value => .return_ 0 (value.map Expr.unlined)
  | .with_ _ value name body => .with_ 0 value.unlined name.unlined body.unlined
  | .for_ _ name items body => .for_ 0 name.unlined items.unlined body.unlined

def Stmt.allUnlined : List Stmt → List Stmt
  | [] => []
  | s :: rest => s.unlined :: Stmt.allUnlined rest

def Stmt.maybeUnlined : Option Stmt → Option Stmt
  | none => none
  | some s => some s.unlined

end

theorem Stmt.allUnlined_eq_map (body : List Stmt) :
    Stmt.allUnlined body = body.map Stmt.unlined := by
  induction body with
  | nil => rfl
  | cons s rest ih => rw [Stmt.allUnlined, ih, List.map_cons]

theorem Stmt.maybeUnlined_eq_map (s? : Option Stmt) :
    Stmt.maybeUnlined s? = s?.map Stmt.unlined := by
  cases s? <;> rfl

def Cursor.unlined (c : Cursor) : Cursor := ⟨c.current.unlined, c.ahead.map Mark.unlined⟩

def ParseError.unlined (e : ParseError) : ParseError := ⟨e.problem, e.token.unlined⟩

theorem Cursor.unlined_advance (c : Cursor) : c.unlined.advance = c.advance.unlined := by
  obtain ⟨current, ahead⟩ := c
  cases ahead with
  | nil => rfl
  | cons next rest =>
    change (if current.kind = .finish then _ else _) =
      Cursor.unlined (if current.kind = .finish then _ else _)
    split
    · rfl
    · rfl

namespace Reader

variable {α α' β β' : Type}

/-- The end of a reading without lines, where `unline` takes the lines out of what was read. -/
def unlinedEnd (unline : α → α') :
    EStateM.Result ParseError Cursor α → EStateM.Result ParseError Cursor α'
  | .ok a c => .ok (unline a) c.unlined
  | .error e c => .error e.unlined c.unlined

/-- What `x` reads from tokens, `x'` reads from them without lines, but without lines. -/
def Lineless (unline : α → α') (x : Reader α) (x' : Reader α') : Prop :=
  ∀ c : Cursor, x' c.unlined = unlinedEnd unline (x c)

namespace Lineless

variable {unline : α → α'} {unline' : β → β'} {x : Reader α} {x' : Reader α'}

theorem pure {a : α} {a' : α'} (h : a' = unline a) :
    Lineless unline (Pure.pure a) (Pure.pure a') := by
  subst h
  exact fun _ => rfl

theorem bind {f : α → Reader β} {f' : α' → Reader β'} (hx : Lineless unline x x')
    (hf : ∀ a, Lineless unline' (f a) (f' (unline a))) :
    Lineless unline' (x >>= f) (x' >>= f') := by
  intro c
  change EStateM.bind x' f' c.unlined = unlinedEnd unline' (EStateM.bind x f c)
  unfold EStateM.bind
  rw [hx c]
  cases x c with
  | ok a c1 => exact hf a c1
  | error e c1 => rfl

theorem fail (problem : ParseProblem) :
    Lineless unline (Reader.fail problem) (Reader.fail problem) := fun _ => rfl

theorem peek : Lineless Mark.unlined Reader.peek Reader.peek := fun _ => rfl

theorem next : Lineless Mark.unlined Reader.next Reader.next := by
  intro c
  change EStateM.Result.ok c.current.unlined c.unlined.advance = _
  rw [Cursor.unlined_advance]
  rfl

theorem sees (kind : Kind) : Lineless id (Reader.sees kind) (Reader.sees kind) :=
  peek.bind fun _ => pure rfl

theorem choose {b : Bool} {y : Reader α} {y' : Reader α'} (hx : Lineless unline x x')
    (hy : Lineless unline y y') :
    Lineless unline (if b then x else y) (if b then x' else y') := by
  cases b with
  | true => exact hx
  | false => exact hy

theorem expect (kind : Kind) (what : Expectation) :
    Lineless Mark.unlined (Reader.expect kind what) (Reader.expect kind what) :=
  (sees kind).bind fun _ => choose next (fail _)

theorem name (what : Expectation) :
    Lineless Name.unlined (Reader.name what) (Reader.name what) :=
  (expect _ what).bind fun _ => pure rfl

theorem take? {κ : Type} (as? : Kind → Option κ) :
    Lineless (Option.map Mark.unlined) (Reader.take? as?) (Reader.take? as?) := by
  refine peek.bind fun first => ?_
  have hkind : first.unlined.kind = first.kind := rfl
  rw [hkind]
  cases as? first.kind with
  | some kind => exact next.bind fun _ => pure rfl
  | none => exact pure rfl

theorem skip (kind : Kind) : Lineless id (Reader.skip kind) (Reader.skip kind) :=
  (sees kind).bind fun _ => choose (next.bind fun _ => pure rfl) (pure rfl)

theorem led (kind : Kind) (h : Lineless unline x x') :
    Lineless (Option.map unline) (Reader.led kind x) (Reader.led kind x') :=
  (skip kind).bind fun _ => choose (h.bind fun _ => pure rfl) (pure rfl)

theorem unlessAt (kind : Kind) (h : Lineless unline x x') :
    Lineless (Option.map unline) (Reader.unlessAt kind x) (Reader.unlessAt kind x') :=
  (sees kind).bind fun _ => choose (pure rfl) (h.bind fun _ => pure rfl)

theorem gather {item : Reader (Option α)} {item' : Reader (Option α')}
    (h : Lineless (Option.map unline) item item') (bound : List Token) (found : List α) :
    Lineless (List.map unline) (Reader.gather item bound found)
      (Reader.gather item' (bound.map Mark.unlined) (found.map unline)) := by
  induction bound generalizing found with
  | nil => exact pure List.map_reverse.symm
  | cons t bound ih =>
    refine h.bind fun a? => ?_
    cases a? with
    | some a => exact ih (a :: found)
    | none => exact pure List.map_reverse.symm

theorem many {item : Reader (Option α)} {item' : Reader (Option α')}
    (h : Lineless (Option.map unline) item item') :
    Lineless (List.map unline) (Reader.many item) (Reader.many item') := fun c =>
  gather h (c.current :: c.ahead) [] c

theorem withComma (close : Sign) (what : Expectation) (h : Lineless unline x x') :
    Lineless unline (Reader.withComma close what x) (Reader.withComma close what x') :=
  h.bind fun _ => (sees _).bind fun _ =>
    choose (pure rfl) ((expect _ what).bind fun _ => pure rfl)

theorem separated (close : Sign) (what : Expectation) (h : Lineless unline x x') :
    Lineless (List.map unline) (Reader.separated close what x)
      (Reader.separated close what x') := many (unlessAt _ (withComma close what h))

end Lineless

/-! ## Expressions -/

theorem Extension.unlined_foldl (e : Expr) (all : List Extension) :
    (all.foldl apply e).unlined = (all.map unlined).foldl apply e.unlined := by
  induction all generalizing e with
  | nil => rfl
  | cons x rest ih => rw [List.foldl_cons, ih, unlined_apply, List.map_cons, List.foldl_cons]

namespace Lineless

/-- The same reader, which keeps lines but does not look at them. -/
abbrev Plain (x : Reader Expr) : Prop := Lineless Expr.unlined x x

variable {x y : Reader Expr} {extension? : Reader (Option Extension)}

theorem entry (h : Plain x) :
    Lineless (Prod.map Name.unlined Expr.unlined) (Reader.entry x) (Reader.entry x) :=
  (name _).bind fun _ => (expect _ _).bind fun _ => h.bind fun _ => pure rfl

theorem primary (hx : Plain x) (hy : Plain y) : Plain (Reader.primary x y) := by
  refine peek.bind fun first => ?_
  obtain ⟨kind, text, line⟩ := first
  unfold Mark.unlined
  dsimp only
  split
  · exact next.bind fun _ => pure rfl
  · refine next.bind fun _ => (separated _ _ hx).bind fun elements => ?_
    refine (expect _ _).bind fun _ => pure ?_
    rw [Expr.unlined, Expr.allUnlined_eq_map]
  · refine next.bind fun _ => (separated _ _ (entry hy)).bind fun entries => ?_
    refine (expect _ _).bind fun _ => pure ?_
    rw [Expr.unlined, Expr.entriesUnlined_eq_map]
  · exact next.bind fun _ => hy.bind fun _ => (expect _ _).bind fun _ => pure rfl
  · exact fail _

theorem suffix? (hx : Plain x) (hy : Plain y) :
    Lineless (Option.map Extension.unlined) (Reader.suffix? x y) (Reader.suffix? x y) := by
  refine peek.bind fun first => ?_
  obtain ⟨kind, text, line⟩ := first
  unfold Mark.unlined
  dsimp only
  split
  · exact next.bind fun _ => (separated _ _ hx).bind fun _ => (expect _ _).bind fun _ => pure rfl
  · exact next.bind fun _ => hy.bind fun _ => (expect _ _).bind fun _ => pure rfl
  · exact next.bind fun _ => (name _).bind fun _ => pure rfl
  · exact pure rfl

theorem binary? (tier : Tier) (h : Plain x) :
    Lineless (Option.map Extension.unlined) (Reader.binary? tier x) (Reader.binary? tier x) := by
  refine (take? _).bind fun op? => ?_
  cases op? with
  | some op => exact h.bind fun _ => pure rfl
  | none => exact pure rfl

theorem logical? (op : LogicalOp) (h : Plain x) :
    Lineless (Option.map Extension.unlined) (Reader.logical? op x) (Reader.logical? op x) :=
  led _ (h.bind fun _ => pure rfl)

theorem choice? (h : Plain x) :
    Lineless (Option.map Extension.unlined) (Reader.choice? x) (Reader.choice? x) :=
  led _ (h.bind fun _ => (expect _ _).bind fun _ => h.bind fun _ => pure rfl)

theorem extended (h : Plain x)
    (hextension : Lineless (Option.map Extension.unlined) extension? extension?) :
    Plain (Reader.extended x extension?) :=
  h.bind fun e => (many hextension).bind fun all => pure (Extension.unlined_foldl e all).symm

theorem assignTo (target : Expr) (equals : Token) (value : Expr) :
    Lineless Expr.unlined (Reader.assignTo target equals value)
      (Reader.assignTo target.unlined equals.unlined value.unlined) := by
  cases target with
  | atom mark =>
    obtain ⟨kind, text, line⟩ := mark
    cases kind with
    | name => exact pure rfl
    | _ => exact fun _ => rfl
  | index | field => exact pure rfl
  | _ => exact fun _ => rfl

theorem byRule : ∀ room rule, Plain (Reader.byRule room rule) := by
  intro room
  induction room with
  | zero => exact fun _ => fail _
  | succ room ih =>
    intro rule
    cases rule with
    | expression => exact ih .assignment
    | assignment =>
      refine (ih .choice).bind fun target => (sees _).bind fun _ => choose ?_ (pure rfl)
      exact next.bind fun equals => (ih .assignment).bind fun value => assignTo target equals value
    | choice => exact extended (ih .disjunction) (choice? (ih .disjunction))
    | disjunction => exact extended (ih .conjunction) (logical? .or (ih .conjunction))
    | conjunction => exact extended (ih .equality) (logical? .and (ih .equality))
    | equality => exact extended (ih .comparison) (binary? .equality (ih .comparison))
    | comparison => exact extended (ih .term) (binary? .comparison (ih .term))
    | term => exact extended (ih .factor) (binary? .term (ih .factor))
    | factor => exact extended (ih .unary) (binary? .factor (ih .unary))
    | unary =>
      refine (take? _).bind fun op? => ?_
      cases op? with
      | some op => exact (ih .unary).bind fun _ => pure rfl
      | none => exact ih .suffixed
    | suffixed => exact extended (ih .primary) (suffix? (ih .argument) (ih .expression))
    | primary => exact primary (ih .element) (ih .expression)
    | argument => exact ih .element
    | element => exact ih .expression

theorem expression (room : Nat) : Plain (Reader.expression room) := byRule room .expression

/-! ## Statements -/

variable {item : Reader Stmt}

theorem blockRest (h : Lineless Stmt.unlined item item) :
    Lineless Stmt.allUnlined (Reader.blockRest item) (Reader.blockRest item) := by
  refine (many ((sees _).bind fun _ => choose (pure rfl) (unlessAt _ h))).bind fun body => ?_
  exact (expect _ _).bind fun _ => pure (Stmt.allUnlined_eq_map body).symm

theorem parameters : Lineless (List.map Name.unlined) Reader.parameters Reader.parameters := by
  refine (sees _).bind fun _ => choose (pure rfl) ((name _).bind fun first => ?_)
  exact (many (led _ (name _))).bind fun rest => pure rfl

theorem functionRest (line : Int) (h : Lineless Stmt.unlined item item) :
    Lineless Stmt.unlined (Reader.functionRest line item) (Reader.functionRest 0 item) := by
  refine (name _).bind fun title => (expect _ _).bind fun _ => parameters.bind fun params => ?_
  refine (expect _ _).bind fun _ => (expect _ _).bind fun opening => ?_
  exact (blockRest h).bind fun body => pure rfl

theorem ended {α α' : Type} {unline : α → α'} {x : Reader α} {x' : Reader α'}
    (what : Expectation) (h : Lineless unline x x') :
    Lineless unline (Reader.ended what x) (Reader.ended what x') :=
  h.bind fun _ => (expect _ what).bind fun _ => pure rfl

theorem makeRest (line : Int) (h : Plain x) :
    Lineless Stmt.unlined (Reader.makeRest line x) (Reader.makeRest 0 x) :=
  (name _).bind fun _ => (ended _ (led _ h)).bind fun _ => pure rfl

theorem ifRest (line : Int) (h : Plain x) (hitem : Lineless Stmt.unlined item item) :
    Lineless Stmt.unlined (Reader.ifRest line x item) (Reader.ifRest 0 x item) := by
  refine h.bind fun condition => hitem.bind fun yes => (led _ hitem).bind fun no => pure ?_
  rw [Stmt.unlined, Stmt.maybeUnlined_eq_map]

theorem whileRest (line : Int) (h : Plain x) (hitem : Lineless Stmt.unlined item item) :
    Lineless Stmt.unlined (Reader.whileRest line x item) (Reader.whileRest 0 x item) :=
  h.bind fun _ => hitem.bind fun _ => pure rfl

theorem withRest (line : Int) (h : Plain x) (hitem : Lineless Stmt.unlined item item) :
    Lineless Stmt.unlined (Reader.withRest line x item) (Reader.withRest 0 x item) :=
  h.bind fun _ => (expect _ _).bind fun _ => (name _).bind fun _ => hitem.bind fun _ => pure rfl

theorem forRest (line : Int) (h : Plain x) (hitem : Lineless Stmt.unlined item item) :
    Lineless Stmt.unlined (Reader.forRest line x item) (Reader.forRest 0 x item) :=
  (name _).bind fun _ => (expect _ _).bind fun _ => h.bind fun _ => hitem.bind fun _ => pure rfl

theorem statement : ∀ room place,
    Lineless Stmt.unlined (Reader.statement room place) (Reader.statement room place) := by
  refine statement.induct _ ?list ?body ?shallow
  case list =>
    intro room ihlist ihbody
    unfold Reader.statement
    refine peek.bind fun first => ?_
    obtain ⟨kind, text, line⟩ := first
    unfold Mark.unlined
    dsimp only
    split
    · exact next.bind fun _ => functionRest line ihlist
    · exact next.bind fun _ => makeRest line (expression _)
    · exact ihbody
  case body =>
    intro room ihlist ihbody
    simp only [Reader.statement]
    refine peek.bind fun first => ?_
    obtain ⟨kind, text, line⟩ := first
    unfold Mark.unlined
    dsimp only
    split
    · exact next.bind fun _ => (ended _ (expression _)).bind fun _ => pure rfl
    · exact next.bind fun _ => (blockRest ihlist).bind fun _ => pure rfl
    · exact next.bind fun _ => ifRest line (expression _) ihbody
    · exact next.bind fun _ => whileRest line (expression _) ihbody
    · refine next.bind fun _ => (ended _ (unlessAt _ (expression _))).bind fun _ => pure rfl
    · exact next.bind fun _ => withRest line (expression _) ihbody
    · exact next.bind fun _ => forRest line (expression _) ihbody
    · exact (ended _ (expression _)).bind fun _ => pure rfl
  case shallow =>
    intro room place h1 h2
    rw [statement.eq_3 room place h1 h2]
    exact fail _

theorem program (room : Nat) :
    Lineless (List.map Stmt.unlined) (Reader.program room) (Reader.program room) :=
  many (unlessAt _ (statement room .list))

end Lineless
end Reader

/-! ## Programs -/

theorem Cursor.unlined_ofTokens {tokens : List Token} (h : tokens ≠ []) :
    ofTokens (tokens.map Mark.unlined) = (ofTokens tokens).unlined := by
  obtain ⟨first, rest, rfl⟩ := List.exists_cons_of_ne_nil h
  have hlast : ((first :: rest).map Mark.unlined).getLast (by simp) =
      ((first :: rest).getLast (by simp)).unlined := List.getLast_map _
  unfold ofTokens Cursor.unlined
  simp only [List.map_cons] at hlast ⊢
  rw [hlast]
  change Cursor.mk _ (if ((first :: rest).getLast _).kind = .finish then _ else _) = _
  split
  · rfl
  · rw [List.map_append]
    rfl

/-- What was read, without lines. -/
def Reading.unlined : Reading → Reading
  | .ok program => .ok (program.map Stmt.unlined)
  | .error (.parse e) => .error (.parse e.unlined)
  | .error failure => .error failure

/-- Tokens without lines are read as the same program without lines, or fail alike. -/
theorem readTokens_unlined {tokens : List Token} (h : tokens ≠ []) :
    readTokens (tokens.map Mark.unlined) = (readTokens tokens).unlined := by
  unfold readTokens parseTokens
  rw [Cursor.unlined_ofTokens h, Reader.Lineless.program]
  cases Reader.program standardRoom (Cursor.ofTokens tokens) with
  | ok program c => rfl
  | error e c => rfl

end FunkLang
