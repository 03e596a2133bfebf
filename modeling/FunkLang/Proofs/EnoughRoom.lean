-- Room that is enough for the tokens that are left. A rule is read by rules that stand lower, or
-- after a token is taken, so what it needs grows with the tokens only. From there on the room plays
-- no part any more: the outcome is always the same, and it is never that the nesting is too deep.
import FunkLang.Proofs.DerivedStatements
import FunkLang.Proofs.Settling

namespace FunkLang
namespace Reader

open Grammar (operand? extension? byRule_extended extension?_logical extension?_binary rule_cases
  readsAs_byRule ne_nil_of_derives)

/-! ## Outcomes that more room does not change -/

section Lasts

variable {α β κ : Type} {c d : Cursor} {least more count : Nat}

/-- From this much room on, the outcome at a cursor is the same, and not that it is too deep. -/
structure Lasts (least : Nat) (c : Cursor) (r : Nat → EStateM.Result ParseError Cursor α) :
    Prop where
  taken : ∃ ts, Span c ts (stateAfter (r least))
  same : ∀ room, least ≤ room → r room = r least
  shallow : ¬ TooDeep (r least)

/-- The same at every cursor that has at most so many tokens. -/
def LastsWithin (least count : Nat) (x : Nat → Reader α) : Prop :=
  ∀ c : Cursor, c.Closed → c.tokens.length ≤ count → Lasts least c fun room => x room c

namespace Lasts

theorem mono {r : Nat → EStateM.Result ParseError Cursor α} (h : Lasts least c r)
    (hle : least ≤ more) : Lasts more c r := by
  have hmore := h.same more hle
  refine ⟨hmore ▸ h.taken, fun room hroom => ?_, hmore ▸ h.shallow⟩
  rw [h.same room (Nat.le_trans hle hroom), hmore]

/-- What takes some room before it comes to another reading. -/
theorem shift {r : Nat → EStateM.Result ParseError Cursor α} (steps : Nat)
    (h : Lasts least c fun room => r (room + steps)) : Lasts (least + steps) c r := by
  refine ⟨h.taken, fun room hroom => ?_, h.shallow⟩
  obtain ⟨rest, rfl⟩ : ∃ rest, room = rest + steps := ⟨room - steps, by omega⟩
  exact h.same rest (by omega)

/-- A reading that has some room left over. -/
theorem spare {r : Nat → EStateM.Result ParseError Cursor α} (steps : Nat)
    (h : Lasts (least + steps) c r) : Lasts least c fun room => r (room + steps) := by
  refine ⟨h.taken, fun room hroom => ?_, h.shallow⟩
  exact h.same (room + steps) (Nat.add_le_add_right hroom steps)

theorem of_ok {a : α} {ts : List Token} (h : Span c ts d) :
    Lasts least c fun _ => .ok a d := by
  refine ⟨⟨ts, h⟩, fun _ _ => rfl, ?_⟩
  rintro ⟨t, d', heq⟩
  cases heq

theorem of_error {problem : ParseProblem} {t : Token} {ts : List Token} (h : Span c ts d)
    (hproblem : problem ≠ .tooDeep) :
    Lasts least c fun _ => (.error ⟨problem, t⟩ d : EStateM.Result ParseError Cursor α) := by
  refine ⟨⟨ts, h⟩, fun _ _ => rfl, ?_⟩
  rintro ⟨t', d', heq⟩
  cases heq
  exact hproblem rfl

/-- One reading after another: the other one begins where the first has ended. -/
theorem bind {x : Nat → Reader α} {f : Nat → α → Reader β}
    (hx : Lasts least c fun room => x room c)
    (hf : ∀ a d ts, x least c = .ok a d → Span c ts d → Lasts least d fun room => f room a d) :
    Lasts least c fun room => (x room >>= f room) c := by
  obtain ⟨⟨ts, hspan⟩, hsame, hshallow⟩ := hx
  cases h : x least c with
  | error e d =>
    rw [h] at hspan hsame hshallow
    have hrun (room : Nat) (hroom : least ≤ room) : (x room >>= f room) c = .error e d :=
      bind_of_error (hsame room hroom)
    have hleast := hrun least (Nat.le_refl _)
    refine ⟨⟨ts, ?_⟩, fun room hroom => (hrun room hroom).trans hleast.symm, ?_⟩
    · rw [hleast]
      exact hspan
    · rw [hleast]
      rintro ⟨t, d', heq⟩
      cases heq
      exact hshallow ⟨t, _, rfl⟩
  | ok a d =>
    rw [h] at hspan hsame
    have hrun (room : Nat) (hroom : least ≤ room) : (x room >>= f room) c = f room a d :=
      bind_of_ok (hsame room hroom)
    have hleast := hrun least (Nat.le_refl _)
    obtain ⟨⟨us, hspan'⟩, hsame', hshallow'⟩ := hf a d ts h hspan
    refine ⟨⟨ts ++ us, ?_⟩, fun room hroom => ?_, ?_⟩
    · rw [hleast]
      exact hspan.trans hspan'
    · rw [hrun room hroom, hleast]
      exact hsame' room hroom
    · rw [hleast]
      exact hshallow'

/-- The first reading leaves a few tokens only, and for those the room lasts. -/
theorem within {x : Nat → Reader α} {f : Nat → α → Reader β}
    (hx : Lasts least c fun room => x room c)
    (hleft : ∀ a d, x least c = .ok a d → d.tokens.length ≤ count)
    (hf : ∀ a, LastsWithin least count fun room => f room a) :
    Lasts least c fun room => (x room >>= f room) c :=
  hx.bind fun a d _ h hspan => hf a d hspan.closed (hleft a d h)

/-- The current token decides what comes next, and stays. -/
theorem peek {f : Nat → Token → Reader β} (h : Lasts least c fun room => f room c.current c) :
    Lasts least c fun room => (Reader.peek >>= f room) c := h

/-- After a token that is not an end mark there is one token less. -/
theorem next {f : Nat → Token → Reader β} (hclosed : c.Closed) (hkind : c.current.kind ≠ .finish)
    (hf : LastsWithin least (c.tokens.length - 1) fun room => f room c.current) :
    Lasts least c fun room => (Reader.next >>= f room) c := by
  have hspan := Span.next hclosed hkind
  have hfirst : Lasts least c fun _ => Reader.next c := of_ok hspan
  apply hfirst.bind
  intro t d ts hread hspan'
  obtain ⟨rfl, rfl⟩ := next_eq_ok.mp hread
  have hlength := hspan.length
  exact hf _ hspan.closed (by rw [List.length_singleton] at hlength; omega)

end Lasts

namespace LastsWithin

variable {x y : Nat → Reader α} {f : Nat → α → Reader β}

theorem pure (a : α) : LastsWithin least count fun _ => Pure.pure a :=
  fun _ hclosed _ => .of_ok (Span.refl hclosed)

theorem bind (hx : LastsWithin least count x)
    (hf : ∀ a, LastsWithin least count fun room => f room a) :
    LastsWithin least count fun room => x room >>= f room := by
  intro c hclosed hcount
  refine (hx c hclosed hcount).bind fun a d ts _ hspan => hf a d hspan.closed ?_
  have hlength := hspan.length
  omega

theorem fail {problem : ParseProblem} (h : problem ≠ .tooDeep) :
    LastsWithin least count fun _ => (Reader.fail problem : Reader α) :=
  fun _ hclosed _ => .of_error (Span.refl hclosed) h

theorem peek : LastsWithin least count fun _ => Reader.peek :=
  fun _ hclosed _ => .of_ok (Span.refl hclosed)

theorem next : LastsWithin least count fun _ => Reader.next := by
  intro c hclosed hcount
  by_cases hkind : c.current.kind = .finish
  · have hstays : Span c [] c.advance := (c.advance_of_finish hkind).symm ▸ Span.refl hclosed
    exact .of_ok hstays
  · exact .of_ok (Span.next hclosed hkind)

theorem choose {b : Bool} (hx : LastsWithin least count x) (hy : LastsWithin least count y) :
    LastsWithin least count fun room => if b then x room else y room := by
  cases b with
  | true => exact hx
  | false => exact hy

/-! ## Small readers -/

theorem sees (kind : Kind) : LastsWithin least count fun _ => Reader.sees kind :=
  peek.bind fun first => pure (first.kind == kind)

theorem expect (kind : Kind) (what : Expectation) :
    LastsWithin least count fun _ => Reader.expect kind what :=
  (sees kind).bind fun _ => choose next (fail nofun)

theorem name (what : Expectation) : LastsWithin least count fun _ => Reader.name what :=
  (expect _ what).bind fun _ => pure _

theorem skip (kind : Kind) : LastsWithin least count fun _ => Reader.skip kind :=
  (sees kind).bind fun _ => choose (next.bind fun _ => pure _) (pure _)

theorem led (kind : Kind) (h : LastsWithin least count x) :
    LastsWithin least count fun room => Reader.led kind (x room) :=
  (skip kind).bind fun _ => choose (h.bind fun _ => pure _) (pure _)

theorem unlessAt (kind : Kind) (h : LastsWithin least count x) :
    LastsWithin least count fun room => Reader.unlessAt kind (x room) :=
  (sees kind).bind fun _ => choose (pure _) (h.bind fun _ => pure _)

theorem take? (as? : Kind → Option κ) : LastsWithin least count fun _ => Reader.take? as? := by
  apply peek.bind
  intro first
  cases as? first.kind with
  | some kind => exact next.bind fun _ => pure _
  | none => exact pure _

theorem withComma (close : Sign) (what : Expectation) (h : LastsWithin least count x) :
    LastsWithin least count fun room => Reader.withComma close what (x room) := by
  apply h.bind
  intro a
  exact (sees _).bind fun _ => choose (pure _) ((expect _ what).bind fun _ => pure _)

theorem gather {item : Nat → Reader (Option α)} (h : LastsWithin least count item)
    (bound : List Token) (found : List α) :
    LastsWithin least count fun room => Reader.gather (item room) bound found := by
  induction bound generalizing found with
  | nil => exact pure _
  | cons t bound ih =>
    apply h.bind
    intro a?
    cases a? with
    | some a => exact ih (a :: found)
    | none => exact pure _

theorem many {item : Nat → Reader (Option α)} (h : LastsWithin least count item) :
    LastsWithin least count fun room => Reader.many (item room) :=
  fun c hclosed hcount => h.gather c.tokens [] c hclosed hcount

theorem separated (close : Sign) (what : Expectation) (h : LastsWithin least count x) :
    LastsWithin least count fun room => Reader.separated close what (x room) :=
  ((h.withComma close what).unlessAt _).many

end LastsWithin

end Lasts

/-! ## Expressions -/

section Expressions

variable {c : Cursor} {least count : Nat} {element inner value first : Nat → Reader Expr}
  {extend? : Nat → Reader (Option Extension)}

namespace LastsWithin

theorem entry (h : LastsWithin least count value) :
    LastsWithin least count fun room => Reader.entry (value room) :=
  (name _).bind fun _ => (expect _ _).bind fun _ => h.bind fun _ => pure _

theorem suffix? (helement : LastsWithin least count element)
    (hinner : LastsWithin least count inner) :
    LastsWithin least count fun room => Reader.suffix? (element room) (inner room) := by
  apply peek.bind
  intro opening
  cases opening.kind with
  | sign s =>
    cases s
    case leftParen =>
      apply next.bind
      intro _
      apply (helement.separated _ _).bind
      exact fun _ => (expect _ _).bind fun _ => pure _
    case leftBracket =>
      exact next.bind fun _ => hinner.bind fun _ => (expect _ _).bind fun _ => pure _
    case dot => exact next.bind fun _ => (name _).bind fun _ => pure _
    all_goals exact pure none
  | _ => exact pure none

theorem binary? (tier : Tier) (h : LastsWithin least count value) :
    LastsWithin least count fun room => Reader.binary? tier (value room) := by
  apply (take? _).bind
  intro op?
  cases op? with
  | some op => exact h.bind fun _ => pure _
  | none => exact pure _

theorem logical? (op : LogicalOp) (h : LastsWithin least count value) :
    LastsWithin least count fun room => Reader.logical? op (value room) :=
  led _ (h.bind fun _ => pure _)

theorem choice? (h : LastsWithin least count value) :
    LastsWithin least count fun room => Reader.choice? (value room) :=
  led _ (h.bind fun _ => (expect _ _).bind fun _ => h.bind fun _ => pure _)

theorem extension {rule operand : Rule} (hoperand : operand? rule = some operand)
    (hparts : ∀ rule, LastsWithin least count fun room => byRule room rule) :
    LastsWithin least count fun room => extension? room rule := by
  rcases rule_cases hoperand with rfl | ⟨op, rfl⟩ | ⟨tier, rfl⟩ | rfl
  · exact choice? (hparts _)
  · simp only [extension?_logical hoperand]
    exact logical? op (hparts _)
  · simp only [extension?_binary hoperand]
    exact binary? tier (hparts _)
  · exact suffix? (hparts _) (hparts _)

theorem assignTo (target : Expr) (equals : Token) (value : Expr) :
    LastsWithin least count fun _ => Reader.assignTo target equals value := by
  rw [Grammar.assignTo_eq]
  cases Grammar.assignment? value target with
  | some e => exact pure e
  | none => exact fun _ hclosed _ => .of_error (Span.refl hclosed) nofun

end LastsWithin

/-- The token that opens a primary expression is taken before anything is read inside it. -/
theorem Lasts.primary (hclosed : c.Closed)
    (helement : LastsWithin least (c.tokens.length - 1) element)
    (hinner : LastsWithin least (c.tokens.length - 1) inner) :
    Lasts least c fun room => Reader.primary (element room) (inner room) c := by
  have hmissing : Lasts least c fun _ => (fail (.expected .expression) : Reader Expr) c :=
    .of_error (Span.refl hclosed) nofun
  unfold Reader.primary
  apply Lasts.peek
  cases hkind : c.current.kind with
  | atom a => exact Lasts.next hclosed (by simp [hkind]) (.pure _)
  | sign s =>
    have hfinish : c.current.kind ≠ .finish := by simp [hkind]
    cases s
    case leftBracket =>
      apply Lasts.next hclosed hfinish
      apply (helement.separated _ _).bind
      exact fun _ => (LastsWithin.expect _ _).bind fun _ => .pure _
    case leftBrace =>
      apply Lasts.next hclosed hfinish
      apply (hinner.entry.separated _ _).bind
      exact fun _ => (LastsWithin.expect _ _).bind fun _ => .pure _
    case leftParen =>
      apply Lasts.next hclosed hfinish
      exact hinner.bind fun _ => (LastsWithin.expect _ _).bind fun _ => .pure _
    all_goals exact hmissing
  | _ => exact hmissing

/-- A reading that is derived takes a token at least. -/
theorem length_lt_of_readsAs {item : Grammar.Symbol} {read : Reader item.Tree} {a : item.Tree}
    {c' : Cursor} (hread : Grammar.ReadsAs item read) (hsingle : Grammar.Single item)
    (hclosed : c.Closed) (h : read c = .ok a c') : c'.tokens.length < c.tokens.length := by
  obtain ⟨ts, hspan, hts, -⟩ := hread c a c' hclosed h
  have hlength := hspan.length
  have hpos := List.length_pos_iff.mpr (ne_nil_of_derives hts hsingle)
  omega

/-- How many rules stand one inside the other where a rule is read from a single token. -/
def Rule.height : Rule → Nat
  | .primary => 1
  | .suffixed => 2
  | .unary => 3
  | .factor => 4
  | .term => 5
  | .comparison => 6
  | .equality => 7
  | .conjunction => 8
  | .disjunction => 9
  | .choice => 10
  | .assignment => 11
  | .expression => 12
  | .element => 13
  | .argument => 14

theorem Rule.height_pos (rule : Rule) : 0 < rule.height := by cases rule <;> decide

theorem Rule.height_le (rule : Rule) : rule.height ≤ 14 := by cases rule <;> decide

theorem Rule.height_operand {rule operand : Rule} (h : operand? rule = some operand) :
    operand.height < rule.height := by
  cases rule <;> cases h <;> decide

/-- An expression needs room for all rules once for each token that is left, and for the rules that
stand under its own one. -/
theorem lasts_byRule (rule : Rule) (hclosed : c.Closed) :
    Lasts (14 * c.tokens.length + rule.height) c fun room => byRule room rule c := by
  induction hneed : 14 * c.tokens.length + rule.height using Nat.strongRecOn
    generalizing c rule with
  | ind need ih =>
    subst hneed
    obtain ⟨height, hheight⟩ := Nat.exists_eq_add_of_lt rule.height_pos
    rw [Nat.zero_add] at hheight
    rw [hheight]
    -- A rule is read by rules that stand lower, or by any of them where a token has been taken.
    have lower (other : Rule) (hlt : other.height < rule.height) :
        Lasts (14 * c.tokens.length + height) c fun room => byRule room other c :=
      (ih _ (by omega) other hclosed rfl).mono (by omega)
    have later (other : Rule) : LastsWithin (14 * c.tokens.length + height) (c.tokens.length - 1)
        fun room => byRule room other := by
      intro d hd hcount
      have hpos : 0 < c.tokens.length := by simp [Cursor.tokens]
      have hother := other.height_le
      exact (ih _ (by omega) other hd rfl).mono (by omega)
    have afterwards (other : Rule) (e : Expr) (d : Cursor)
        (h : byRule (14 * c.tokens.length + height) other c = .ok e d) :
        d.tokens.length ≤ c.tokens.length - 1 := by
      have hlt := length_lt_of_readsAs (readsAs_byRule _ other) trivial hclosed h
      omega
    apply Lasts.shift 1
    cases hoperand : operand? rule with
    | some operand =>
      simp only [byRule_extended hoperand]
      apply (lower operand (Rule.height_operand hoperand)).within (afterwards operand)
      exact fun e => (LastsWithin.extension hoperand later).many.bind fun _ => .pure _
    | none =>
      cases rule with
      | expression => exact lower .assignment (by decide)
      | argument => exact lower .element (by decide)
      | element => exact lower .expression (by decide)
      | assignment =>
        apply (lower .choice (by decide)).within (afterwards .choice)
        intro target
        apply LastsWithin.bind (.sees _)
        intro seen
        refine .choose (LastsWithin.next.bind fun equals => ?_) (.pure target)
        exact (later .assignment).bind fun value => .assignTo target equals value
      | unary =>
        apply (LastsWithin.take? unaryOp? c hclosed (Nat.le_refl _)).bind
        intro op? d ts hread hspan
        rcases take?_eq_ok.mp hread with ⟨op, hop, rfl, rfl⟩ | ⟨-, rfl, rfl⟩
        · have hkind : c.current.kind ≠ .finish := by
            intro hfinish
            rw [hfinish] at hop
            cases hop
          have hlength := (Span.next hclosed hkind).length
          rw [List.length_singleton] at hlength
          exact (later .unary).bind (fun _ => .pure _) _ hspan.closed (by omega)
        · exact lower .suffixed (by decide)
      | primary => exact Lasts.primary hclosed (later .element) (later .expression)
      | _ => cases hoperand

theorem lasts_expression (hclosed : c.Closed) :
    Lasts (14 * c.tokens.length + 12) c fun room => expression room c :=
  lasts_byRule .expression hclosed

end Expressions

/-! ## Statements -/

section Statements

variable {c : Cursor} {least count : Nat} {item body : Nat → Reader Stmt}
  {value : Nat → Reader Expr}

namespace LastsWithin

theorem ended {α : Type} {x : Nat → Reader α} (what : Expectation)
    (h : LastsWithin least count x) :
    LastsWithin least count fun room => Reader.ended what (x room) :=
  h.bind fun _ => (expect _ what).bind fun _ => pure _

theorem blockRest (h : LastsWithin least count item) :
    LastsWithin least count fun room => Reader.blockRest (item room) := by
  have hitem := (sees .finish).bind fun seen =>
    choose (b := seen) (pure none) (h.unlessAt (.sign .rightBrace))
  exact hitem.many.bind fun _ => (expect _ _).bind fun _ => pure _

theorem parameters : LastsWithin least count fun _ => Reader.parameters := by
  apply (sees _).bind
  intro seen
  apply choose
  · exact pure []
  · exact (name _).bind fun _ => ((name _).led _).many.bind fun _ => pure _

theorem functionRest (line : Int) (h : LastsWithin least count item) :
    LastsWithin least count fun room => Reader.functionRest line (item room) := by
  apply (name _).bind
  intro title
  apply (expect _ _).bind
  intro _
  apply parameters.bind
  intro params
  apply (expect _ _).bind
  intro _
  exact (expect _ _).bind fun _ => h.blockRest.bind fun _ => pure _

theorem makeRest (line : Int) (h : LastsWithin least count value) :
    LastsWithin least count fun room => Reader.makeRest line (value room) :=
  (name _).bind fun _ => ((h.led _).ended _).bind fun _ => pure _

theorem ifRest (line : Int) (h : LastsWithin least count value)
    (hbody : LastsWithin least count body) :
    LastsWithin least count fun room => Reader.ifRest line (value room) (body room) :=
  h.bind fun _ => hbody.bind fun _ => (hbody.led _).bind fun _ => pure _

theorem whileRest (line : Int) (h : LastsWithin least count value)
    (hbody : LastsWithin least count body) :
    LastsWithin least count fun room => Reader.whileRest line (value room) (body room) :=
  h.bind fun _ => hbody.bind fun _ => pure _

theorem withRest (line : Int) (h : LastsWithin least count value)
    (hbody : LastsWithin least count body) :
    LastsWithin least count fun room => Reader.withRest line (value room) (body room) :=
  h.bind fun _ => (expect _ _).bind fun _ => (name _).bind fun _ => hbody.bind fun _ => pure _

theorem forRest (line : Int) (h : LastsWithin least count value)
    (hbody : LastsWithin least count body) :
    LastsWithin least count fun room => Reader.forRest line (value room) (body room) :=
  (name _).bind fun _ => (expect _ _).bind fun _ => h.bind fun _ => hbody.bind fun _ => pure _

end LastsWithin

/-- The word that opens a body is taken before anything is read inside it. Only an expression
begins where its statement does. -/
theorem lasts_body (hclosed : c.Closed) (hfirst : Lasts least c fun room => expression room c)
    (hvalue : LastsWithin least (c.tokens.length - 1) fun room => expression room)
    (hitem : LastsWithin least (c.tokens.length - 1) fun room => statement room .list)
    (hbody : LastsWithin least (c.tokens.length - 1) fun room => statement room .body) :
    Lasts least c fun room => statement (room + 2) .body c := by
  have hplain : Lasts least c fun room => (do
      return .expression c.current.line (← ended .statementEnd (expression room)) :
      Reader Stmt) c := by
    apply (hfirst.bind fun a d ts _ hspan => ?_).bind fun a d ts _ hspan => ?_
    · exact (LastsWithin.expect _ _).bind (fun _ => .pure a) d hspan.closed (Nat.le_refl _)
    · exact .of_ok (Span.refl hspan.closed)
  simp only [statement]
  apply Lasts.peek
  cases hkind : c.current.kind with
  | word w =>
    have hfinish : c.current.kind ≠ .finish := by simp [hkind]
    cases w
    case print => exact Lasts.next hclosed hfinish ((hvalue.ended _).bind fun _ => .pure _)
    case if_ => exact Lasts.next hclosed hfinish (.ifRest _ hvalue hbody)
    case while_ => exact Lasts.next hclosed hfinish (.whileRest _ hvalue hbody)
    case return_ =>
      exact Lasts.next hclosed hfinish (((hvalue.unlessAt _).ended _).bind fun _ => .pure _)
    case with_ => exact Lasts.next hclosed hfinish (.withRest _ hvalue hbody)
    case for_ => exact Lasts.next hclosed hfinish (.forRest _ hvalue hbody)
    all_goals exact hplain
  | sign s =>
    have hfinish : c.current.kind ≠ .finish := by simp [hkind]
    cases s
    case leftBrace => exact Lasts.next hclosed hfinish (hitem.blockRest.bind fun _ => .pure _)
    all_goals exact hplain
  | _ => exact hplain

/-- The same for a statement of a list, which may be a declaration. -/
theorem lasts_item (hclosed : c.Closed)
    (hbody : Lasts least c fun room => statement (room + 2) .body c)
    (hvalue : LastsWithin least (c.tokens.length - 1) fun room => expression (room + 1))
    (hitem : LastsWithin least (c.tokens.length - 1) fun room => statement room .list) :
    Lasts least c fun room => statement (room + 3) .list c := by
  unfold statement
  apply Lasts.peek
  cases hkind : c.current.kind with
  | word w =>
    have hfinish : c.current.kind ≠ .finish := by simp [hkind]
    cases w
    case funk => exact Lasts.next hclosed hfinish (.functionRest _ hitem)
    case make => exact Lasts.next hclosed hfinish (.makeRest _ hvalue)
    all_goals exact hbody
  | _ => exact hbody

/-- How many rules stand one inside the other where a statement is read from a single token. -/
def Place.height : Place → Nat
  | .body => 14
  | .list => 15

/-- A statement needs room for all rules once for each token that is left, and for those that
stand under it. -/
theorem lasts_statement (place : Place) (hclosed : c.Closed) :
    Lasts (14 * c.tokens.length + place.height) c fun room => statement room place c := by
  induction hneed : 14 * c.tokens.length + place.height using Nat.strongRecOn
    generalizing c place with
  | ind need ih =>
    subst hneed
    have hpos : 0 < c.tokens.length := by simp [Cursor.tokens]
    -- Past its first token there is room for all that the statement is made of.
    have later (other : Place) : LastsWithin (14 * c.tokens.length + 12) (c.tokens.length - 1)
        fun room => statement room other := by
      intro d hd hcount
      have hplace : 14 ≤ place.height := by cases place <;> decide
      have hother : other.height ≤ 15 := by cases other <;> decide
      exact (ih _ (by omega) other hd rfl).mono (by omega)
    have hvalue : LastsWithin (14 * c.tokens.length + 12) (c.tokens.length - 1)
        fun room => expression room :=
      fun d hd hcount => (lasts_expression hd).mono (by omega)
    have hbody := lasts_body hclosed (lasts_expression hclosed) hvalue (later .list) (later .body)
    cases place with
    | body => exact Lasts.shift 2 hbody
    | list =>
      have hmore : LastsWithin (14 * c.tokens.length + 12) (c.tokens.length - 1)
          fun room => expression (room + 1) :=
        fun d hd hcount => ((lasts_expression hd).mono (by omega)).spare 1
      exact Lasts.shift 3 (lasts_item hclosed hbody hmore (later .list))

/-- The same for a whole program. -/
theorem lasts_program (hclosed : c.Closed) :
    Lasts (14 * c.tokens.length + 15) c fun room => program room c := by
  have hitem : LastsWithin (14 * c.tokens.length + 15) c.tokens.length
      fun room => statement room .list :=
    fun d hd hcount => (lasts_statement .list hd).mono (by
      change 14 * d.tokens.length + 15 ≤ _
      omega)
  exact (hitem.unlessAt _).many c hclosed (Nat.le_refl _)

end Statements

end Reader
end FunkLang
