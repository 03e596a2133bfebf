-- The edges of a phrase: what can be its first token, and what can be the token
-- after it. A phrase of a rule ends where no token extends that rule or a
-- tighter one, so the token after it tells which rules are done.
import FunkLang.Proofs.Grammar

namespace FunkLang
namespace Grammar

open Reader (Rule Place Extension)

/-! ## Ranks -/

/-- How tightly a rule binds. -/
def rank : Rule → Nat
  | .expression | .argument | .element | .assignment => 0
  | .choice => 1
  | .disjunction => 2
  | .conjunction => 3
  | .equality => 4
  | .comparison => 5
  | .term => 6
  | .factor => 7
  | .unary => 8
  | .suffixed => 9
  | .primary => 10

theorem rank_operand {rule operand : Rule} (h : operand? rule = some operand) :
    rank operand = rank rule + 1 := by
  cases rule <;> cases h <;> rfl

/-- No other rule binds just as a rule with operands does. -/
theorem eq_of_rank {rule operand other : Rule} (h : operand? rule = some operand)
    (hrank : rank other = rank rule) : other = rule := by
  cases rule <;> cases h <;> cases other <;> first | rfl | cases hrank

/-! ## What comes after -/

/-- The rule whose expressions a token extends on their right. -/
def extends? : Kind → Option Rule
  | .sign .equal => some .assignment
  | .word .if_ => some .choice
  | .word .or => some .disjunction
  | .word .and => some .conjunction
  | .sign .leftParen | .sign .leftBracket | .sign .dot => some .suffixed
  | kind => (Reader.binaryOp? kind).map fun op => tierRule op.tier

/-- The kind of token that extends a rule, where there is one and no more. -/
def extender? : Rule → Option Kind
  | .assignment => some (.sign .equal)
  | .choice => some (.word .if_)
  | .disjunction => some (.word .or)
  | .conjunction => some (.word .and)
  | _ => none

theorem extends?_iff {rule : Rule} {kind only : Kind} (h : extender? rule = some only) :
    extends? kind = some rule ↔ kind = only := by
  constructor
  · intro hextends
    cases rule <;> cases h
    all_goals
      cases kind with
      | word w => cases w <;> first | rfl | cases hextends
      | sign s => cases s <;> first | rfl | cases hextends
      | _ => cases hextends
  · rintro rfl
    cases rule <;> cases h <;> rfl

theorem extends?_eq_tier {tier : Tier} {kind : Kind} :
    extends? kind = some (tierRule tier) ↔ ∃ op, Reader.tierOp? tier kind = some op := by
  constructor
  · intro h
    cases kind with
    | word w => cases tier <;> cases w <;> cases h
    | sign s => cases tier <;> cases s <;> first | exact ⟨_, rfl⟩ | cases h
    | _ => cases tier <;> cases h
  · rintro ⟨op, h⟩
    unfold Reader.tierOp? at h
    rw [Option.filter_eq_some_iff, beq_iff_eq] at h
    obtain ⟨hop, rfl⟩ := h
    cases kind with
    | sign s => cases s <;> cases hop <;> rfl
    | _ => cases hop

theorem extends?_eq_suffixed {kind : Kind} : extends? kind = some .suffixed ↔
    kind = .sign .leftParen ∨ kind = .sign .leftBracket ∨ kind = .sign .dot := by
  constructor
  · intro h
    cases kind with
    | word w => cases w <;> cases h
    | sign s => cases s <;> first | (cases h; done) | simp
    | _ => cases h
  · rintro (rfl | rfl | rfl) <;> rfl

/-- Tokens extend assignments and the rules with operands, and no others. -/
theorem operand?_of_extends {kind : Kind} {rule : Rule} (h : extends? kind = some rule) :
    rule = .assignment ∨ ∃ operand, operand? rule = some operand := by
  cases kind with
  | word w => cases w <;> cases h <;> simp [operand?]
  | sign s => cases s <;> cases h <;> simp [operand?, tierRule, BinaryOp.tier]
  | _ => cases h

theorem extends?_word (op : LogicalOp) :
    extends? (.word (Reader.word op)) = some (logicalRule op) := by
  cases op <;> rfl

/-- A token of this kind extends no phrase of the rule, and none inside such a phrase. -/
def EndsBefore (rule : Rule) (kind : Kind) : Prop :=
  ∀ other, extends? kind = some other → rank other < rank rule

theorem endsBefore_of_none {rule : Rule} {kind : Kind} (h : extends? kind = none) :
    EndsBefore rule kind := by
  intro other hother
  rw [h] at hother
  cases hother

/-- Nothing extends a phrase that can be extended by everything. -/
theorem EndsBefore.extends?_eq_none {rule : Rule} {kind : Kind} (h : EndsBefore rule kind)
    (hrank : rank rule = 0) : extends? kind = none := by
  cases hother : extends? kind with
  | none => rfl
  | some other =>
    have hlt := h other hother
    omega

/-- Once no token extends an operand, only one that extends the rule itself is in question. -/
theorem endsBefore_iff {rule operand : Rule} {kind : Kind} (h : operand? rule = some operand) :
    EndsBefore rule kind ↔ EndsBefore operand kind ∧ extends? kind ≠ some rule := by
  have hrank := rank_operand h
  constructor
  · intro hends
    refine ⟨fun other hother => ?_, fun hself => ?_⟩
    · have hlt := hends other hother
      omega
    · exact Nat.lt_irrefl _ (hends rule hself)
  · rintro ⟨hends, hself⟩ other hother
    have hlt := hends other hother
    have hne : rank other ≠ rank rule := by
      intro heq
      rw [eq_of_rank h heq] at hother
      exact hself hother
    omega

/-- A token that extends a rule extends none of its operands. -/
theorem endsBefore_of_extends {rule operand : Rule} {kind : Kind}
    (h : operand? rule = some operand) (hextends : extends? kind = some rule) :
    EndsBefore operand kind := by
  intro other hother
  have hrank := rank_operand h
  rw [hextends] at hother
  cases hother
  omega

/-- Whatever comes next extends no phrase that stands alone. -/
theorem endsBefore_primary {kind : Kind} : EndsBefore .primary kind := by
  intro other hother
  rcases operand?_of_extends hother with rfl | ⟨operand, hoperand⟩
  · decide
  · cases other <;> cases hoperand <;> decide

/-- What extends no suffixed expression extends none with an operator before it. -/
theorem endsBefore_unary {kind : Kind} (h : EndsBefore .suffixed kind) :
    EndsBefore .unary kind := by
  intro other hother
  have hlt := h other hother
  rcases operand?_of_extends hother with rfl | ⟨operand, hoperand⟩
  · decide
  · cases other <;> cases hoperand <;> revert hlt <;> decide

/-- A token that extends nothing does not go on with an expression. -/
theorem not_joins {kind : Kind} (h : extends? kind = none) : joins kind = false := by
  cases kind with
  | word w => cases w <;> first | rfl | cases h
  | sign s => cases s <;> first | rfl | cases h
  | _ => rfl

/-- A sign that closes a list. -/
def closes : Sign → Bool
  | .rightParen | .rightBracket | .rightBrace => true
  | _ => false

theorem extends?_of_closes {close : Sign} (h : closes close) : extends? (.sign close) = none := by
  cases close <;> first | rfl | cases h

/-- The kind of the token after what a symbol stands for does not let it go on. -/
def Follows : (s : Symbol) → s.Tree → Kind → Prop
  | .phrase rule, _, kind => EndsBefore rule kind
  | .extension rule, _, kind => ∀ operand, operand? rule = some operand → EndsBefore operand kind
  | .entry, _, kind => EndsBefore .expression kind
  | .parameters, names, kind =>
    kind ≠ .sign .comma ∧ (names = [] → kind = .sign .rightParen)
  | .nextName, _, _ => True
  | .statement _, s, kind => takesElse s = true → kind ≠ .word .else_
  | .many item, _, kind => ∀ a, Follows item a kind
  | .separated _, _, kind => ∃ close, kind = .sign close ∧ closes close

/-- A symbol for one item, not for a list of them. -/
def Single : Symbol → Prop
  | .parameters | .many _ | .separated _ => False
  | _ => True

/-- A comma, and a sign that closes a list, end every item. -/
theorem follows_of_sign {s : Symbol} {a : s.Tree} {sign : Sign} (hs : Single s)
    (h : extends? (.sign sign) = none) : Follows s a (.sign sign) := by
  cases s with
  | phrase rule => exact endsBefore_of_none h
  | extension rule => exact fun operand _ => endsBefore_of_none h
  | entry => exact endsBefore_of_none h
  | nextName => trivial
  | statement place => exact fun _ => Kind.noConfusion
  | parameters => cases hs
  | many item => cases hs
  | separated item => cases hs

/-! ## What comes first -/

/-- The first token of an expression that no unary operator opens. -/
def beginsPrimary : Kind → Bool
  | .atom _ | .sign .leftParen | .sign .leftBracket | .sign .leftBrace => true
  | _ => false

/-- The first token of an expression. -/
def beginsExpression (kind : Kind) : Bool := beginsPrimary kind || (Reader.unaryOp? kind).isSome

/-- The first token of a statement that is no declaration. -/
def beginsBody : Kind → Bool
  | .word .print | .word .if_ | .word .while_ | .word .return_ | .word .with_ | .word .for_ => true
  | kind => beginsExpression kind

/-- What the first token is, for a symbol that stands for no empty stretch. -/
def Begins : Symbol → Kind → Prop
  | .phrase .primary, kind | .phrase .suffixed, kind => beginsPrimary kind
  | .phrase _, kind => beginsExpression kind
  | .extension rule, kind => extends? kind = some rule
  | .entry, kind => kind = .atom .name
  | .nextName, kind => kind = .sign .comma
  | .statement .body, kind => beginsBody kind
  | .statement .list, kind => beginsBody kind ∨ kind = .word .funk ∨ kind = .word .make
  | _, _ => False

theorem begins_operand {rule operand : Rule} {kind : Kind} (h : operand? rule = some operand)
    (hbegins : Begins (.phrase operand) kind) : Begins (.phrase rule) kind := by
  cases rule <;> cases h <;> exact hbegins

theorem beginsExpression_of_phrase {rule : Rule} {kind : Kind} (h : Begins (.phrase rule) kind) :
    beginsExpression kind := by
  cases rule <;> first | exact h | simp_all [Begins, beginsExpression]

theorem beginsBody_of_expression {kind : Kind} (h : beginsExpression kind) : beginsBody kind := by
  cases kind with
  | word w => cases h
  | _ => exact h

/-- The words and signs that nothing begins with, and the end mark. -/
def neverBegins : Kind → Bool
  | .sign .rightParen | .sign .rightBracket | .sign .rightBrace | .sign .semicolon => true
  | .word .else_ | .finish => true
  | _ => false

theorem neverBegins_of_body {kind : Kind} (h : beginsBody kind) : neverBegins kind = false := by
  cases kind with
  | word w => cases w <;> first | rfl | cases h
  | sign s => cases s <;> first | rfl | cases h
  | finish => cases h
  | _ => rfl

theorem neverBegins_of_extends {kind : Kind} {rule : Rule} (h : extends? kind = some rule) :
    neverBegins kind = false := by
  cases kind with
  | word w => cases w <;> first | rfl | cases h
  | sign s => cases s <;> first | rfl | cases h
  | finish => cases h
  | _ => rfl

theorem neverBegins_of_begins {s : Symbol} {kind : Kind} (h : Begins s kind) :
    neverBegins kind = false := by
  cases s with
  | phrase rule =>
    exact neverBegins_of_body (beginsBody_of_expression (beginsExpression_of_phrase h))
  | extension rule => exact neverBegins_of_extends h
  | entry => rw [show kind = .atom .name from h]; rfl
  | nextName => rw [show kind = .sign .comma from h]; rfl
  | statement place =>
    cases place with
    | body => exact neverBegins_of_body h
    | list =>
      rcases h with h | rfl | rfl
      · exact neverBegins_of_body h
      · rfl
      · rfl
  | parameters => cases h
  | many item => cases h
  | separated item => cases h

theorem ne_of_begins {s : Symbol} {kind other : Kind} (h : Begins s kind)
    (hother : neverBegins other) : kind ≠ other := by
  rintro rfl
  rw [neverBegins_of_begins h] at hother
  cases hother

theorem Derives.begins {s : Symbol} {ts : List Token} {a : s.Tree} (h : Derives s ts a)
    (hs : Single s) : ∃ t rest, ts = t :: rest ∧ Begins s t.kind := by
  induction h with
  | expression _ ih | argument _ ih | element _ ih | unassigned _ ih => exact ih trivial
  | suffixed _ ih =>
    obtain ⟨t, rest, rfl, hbegins⟩ := ih trivial
    exact ⟨t, rest, rfl, beginsExpression_of_phrase hbegins⟩
  | assignment _ _ _ _ ih =>
    obtain ⟨t, rest, rfl, hbegins⟩ := ih trivial
    exact ⟨t, _, rfl, hbegins⟩
  | extended hoperand _ _ ih =>
    obtain ⟨t, rest, rfl, hbegins⟩ := ih trivial
    exact ⟨t, _, rfl, begins_operand hoperand hbegins⟩
  | unary hop =>
    refine ⟨_, _, rfl, ?_⟩
    unfold Begins beginsExpression
    simp [hop]
  | atom h | list h | record h | group h =>
    refine ⟨_, _, rfl, ?_⟩
    rw [h]
    rfl
  | entry hkey => exact ⟨_, _, rfl, hkey⟩
  | choice h | call h | index h | field h =>
    refine ⟨_, _, rfl, ?_⟩
    rw [h]
    rfl
  | logical h hrule =>
    refine ⟨_, _, rfl, ?_⟩
    rw [h, ← hrule]
    exact extends?_word _
  | binary h hrule =>
    refine ⟨_, _, rfl, ?_⟩
    rw [← hrule]
    exact extends?_eq_tier.mpr ⟨_, h⟩
  | none | more | empty | last | before | noParameters | someParameters => cases hs
  | print h | block h | if_ h | ifElse h | while_ h | return_ h | returnValue h | with_ h | for_ h =>
    refine ⟨_, _, rfl, ?_⟩
    rw [h]
    rfl
  | value _ _ _ ih =>
    obtain ⟨t, rest, hts, hbegins⟩ := ih trivial
    cases hts
    exact ⟨_, _, rfl, beginsBody_of_expression hbegins⟩
  | nextName h => exact ⟨_, _, rfl, h⟩
  | funk h => exact ⟨_, _, rfl, Or.inr (Or.inl h)⟩
  | make h | makeValue h => exact ⟨_, _, rfl, Or.inr (Or.inr h)⟩
  | body _ ih =>
    obtain ⟨t, rest, rfl, hbegins⟩ := ih trivial
    exact ⟨t, rest, rfl, Or.inl hbegins⟩

end Grammar
end FunkLang
