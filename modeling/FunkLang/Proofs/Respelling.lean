-- Tokens with the lexemes of an expression are derived as that expression, up to
-- lines. Its operations stand in parentheses, so each can be an operand of any
-- other. Its assignments do not, so none of them may be an operand.
import FunkLang.Proofs.Lexemes

namespace FunkLang

/-! ## Trees without lines -/

def Mark.unlined {κ : Type} (m : Mark κ) : Mark κ := ⟨m.kind, m.text, 0⟩

def Name.unlined (n : Name) : Name := ⟨n.text, 0⟩

mutual

/-- The expression with line 0 for every line. -/
def Expr.unlined : Expr → Expr
  | .atom mark => .atom mark.unlined
  | .unary op operand => .unary op.unlined operand.unlined
  | .binary left op right => .binary left.unlined op.unlined right.unlined
  | .logical op left right => .logical op left.unlined right.unlined
  | .assign name value => .assign name.unlined value.unlined
  | .assignIndex collection place value =>
    .assignIndex collection.unlined place.unlined value.unlined
  | .assignField collection key value =>
    .assignField collection.unlined key.unlined value.unlined
  | .choice condition yes no => .choice condition.unlined yes.unlined no.unlined
  | .call callee arguments => .call callee.unlined (Expr.allUnlined arguments)
  | .list _ elements => .list 0 (Expr.allUnlined elements)
  | .record _ entries => .record 0 (Expr.entriesUnlined entries)
  | .index collection place => .index collection.unlined place.unlined
  | .field collection key => .field collection.unlined key.unlined

def Expr.allUnlined : List Expr → List Expr
  | [] => []
  | e :: rest => e.unlined :: Expr.allUnlined rest

def Expr.entriesUnlined : List (Name × Expr) → List (Name × Expr)
  | [] => []
  | (key, value) :: rest => (key.unlined, value.unlined) :: Expr.entriesUnlined rest

end

theorem Expr.allUnlined_eq_map (all : List Expr) : Expr.allUnlined all = all.map Expr.unlined := by
  induction all with
  | nil => rfl
  | cons e rest ih => rw [Expr.allUnlined, ih, List.map_cons]

theorem Expr.entriesUnlined_eq_map (entries : List (Name × Expr)) :
    Expr.entriesUnlined entries = entries.map (Prod.map Name.unlined Expr.unlined) := by
  induction entries with
  | nil => rfl
  | cons entry rest ih => rw [Expr.entriesUnlined, ih, List.map_cons, Prod.map]

def Reader.Extension.unlined : Extension → Extension
  | .call arguments => .call (arguments.map Expr.unlined)
  | .index place => .index place.unlined
  | .field key => .field key.unlined
  | .binary op right => .binary op.unlined right.unlined
  | .logical op right => .logical op right.unlined
  | .choice condition no => .choice condition.unlined no.unlined

theorem Reader.Extension.unlined_apply (e : Expr) (x : Extension) :
    (x.apply e).unlined = x.unlined.apply e.unlined := by
  cases x with
  | call arguments => simp only [apply, unlined, Expr.unlined, Expr.allUnlined_eq_map]
  | _ => rfl

/-! ## Operands -/

/-- Is it an assignment, of whatever form? -/
def Expr.isAssignment : Expr → Bool
  | .assign _ _ | .assignIndex _ _ _ | .assignField _ _ _ => true
  | _ => false

/-- The parts that an expression is printed with as they are, next to signs that bind: the
operands of its operator, the parts of a choice, what is called, and what an index or a field is
taken of. -/
def Expr.operands : Expr → List Expr
  | .unary _ operand => [operand]
  | .binary left _ right | .logical _ left right => [left, right]
  | .choice condition yes no => [condition, yes, no]
  | .call callee _ => [callee]
  | .index collection _ | .field collection _ => [collection]
  | .assignIndex collection _ _ | .assignField collection _ _ => [collection]
  | _ => []

theorem lexemes_cons {ts : List Token} {kind : Kind} {text : List Char} {lexemes : List Lexeme}
    (h : ts.map Mark.lexeme = (kind, text) :: lexemes) :
    ∃ t us, ts = t :: us ∧ t.kind = kind ∧ t.text.toList = text ∧
      us.map Mark.lexeme = lexemes := by
  obtain ⟨t, us, rfl, ht, hus⟩ := List.map_eq_cons_iff.mp h
  obtain ⟨hkind, htext⟩ := Prod.mk.inj ht
  exact ⟨t, us, rfl, hkind, htext, hus⟩

theorem lexemes_brackets {ts : List Token} {opening closing : Sign} {inside : List Lexeme}
    (h : ts.map Mark.lexeme = opening.lexeme :: (inside ++ [closing.lexeme])) :
    ∃ t us t', ts = t :: (us ++ [t']) ∧ t.kind = .sign opening ∧ us.map Mark.lexeme = inside ∧
      t'.kind = .sign closing := by
  obtain ⟨t, us, rfl, hopening, -, hus⟩ := lexemes_cons h
  obtain ⟨vs, ws, rfl, hvs, hws⟩ := List.map_eq_append_iff.mp hus
  obtain ⟨t', rest, rfl, hclosing, -, hrest⟩ := lexemes_cons hws
  obtain rfl := List.map_eq_nil_iff.mp hrest
  exact ⟨t, vs, t', rfl, hopening, hvs, hclosing⟩

namespace Grammar

open Reader (Rule Extension)

/-! ## Rules that bind less tightly -/

section Rules

variable {ts us : List Token} {e : Expr}

theorem derives_operand {rule operand : Rule} (h : operand? rule = some operand)
    (hd : Derives (.phrase operand) ts e) : Derives (.phrase rule) ts e := by
  have hextended := Derives.extended h hd .none
  rwa [List.append_nil] at hextended

/-- What is derived by a rule of operators is derived as an expression. -/
theorem derives_expression {rule operand : Rule} (h : operand? rule = some operand)
    (hd : Derives (.phrase rule) ts e) : Derives (.phrase .expression) ts e := by
  have hchoice (h : Derives (.phrase .choice) ts e) : Derives (.phrase .expression) ts e :=
    .expression (.unassigned h)
  have hdisjunction (h : Derives (.phrase .disjunction) ts e) := hchoice (derives_operand rfl h)
  have hconjunction (h : Derives (.phrase .conjunction) ts e) :=
    hdisjunction (derives_operand rfl h)
  have hequality (h : Derives (.phrase .equality) ts e) := hconjunction (derives_operand rfl h)
  have hcomparison (h : Derives (.phrase .comparison) ts e) := hequality (derives_operand rfl h)
  have hterm (h : Derives (.phrase .term) ts e) := hcomparison (derives_operand rfl h)
  have hfactor (h : Derives (.phrase .factor) ts e) := hterm (derives_operand rfl h)
  have hsuffixed (h : Derives (.phrase .suffixed) ts e) :=
    hfactor (derives_operand rfl (.suffixed h))
  cases rule <;> cases h
  case choice => exact hchoice hd
  case disjunction => exact hdisjunction hd
  case conjunction => exact hconjunction hd
  case equality => exact hequality hd
  case comparison => exact hcomparison hd
  case term => exact hterm hd
  case factor => exact hfactor hd
  case suffixed => exact hsuffixed hd

/-- What can be called can be the operand of every operator. -/
theorem derives_of_suffixed (h : Derives (.phrase .suffixed) ts e) {rule operand : Rule}
    (hoperand : operand? rule = some operand) (hrule : rule ≠ .suffixed) :
    Derives (.phrase operand) ts e := by
  have hunary : Derives (.phrase .unary) ts e := .suffixed h
  have hfactor : Derives (.phrase .factor) ts e := derives_operand rfl hunary
  have hterm : Derives (.phrase .term) ts e := derives_operand rfl hfactor
  have hcomparison : Derives (.phrase .comparison) ts e := derives_operand rfl hterm
  have hequality : Derives (.phrase .equality) ts e := derives_operand rfl hcomparison
  have hconjunction : Derives (.phrase .conjunction) ts e := derives_operand rfl hequality
  have hdisjunction : Derives (.phrase .disjunction) ts e := derives_operand rfl hconjunction
  cases rule <;> cases hoperand <;> first | assumption | exact absurd rfl hrule

theorem derives_more {item : Symbol} {vs : List Token} {all : List item.Tree} {a : item.Tree}
    (h : Derives (.many item) us all) (ha : Derives item vs a) :
    Derives (.many item) (us ++ vs) (all ++ [a]) := by
  induction all generalizing us with
  | nil =>
    cases h
    have hlast := Derives.more ha .none
    rwa [List.append_nil] at hlast
  | cons first rest ih =>
    cases h with
    | more hfirst hrest =>
      rw [List.append_assoc]
      exact .more hfirst (ih hrest)

/-- One extension more. -/
theorem derives_suffix {x : Extension} (h : Derives (.phrase .suffixed) ts e)
    (hx : Derives (.extension .suffixed) us x) :
    Derives (.phrase .suffixed) (ts ++ us) (x.apply e) := by
  cases h with
  | extended hoperand hfirst hmany =>
    have hextended := Derives.extended hoperand hfirst (derives_more hmany hx)
    rw [List.foldl_append, ← List.append_assoc] at hextended
    exact hextended

end Rules

/-! ## The same tree on other lines -/

/-- Tokens with the lexemes of an expression are derived by a rule, as that expression up to
lines. -/
def Respelt (rule : Rule) (e : Expr) : Prop :=
  ∀ ts : List Token, ts.map Mark.lexeme = e.lexemes →
    ∃ e', Derives (.phrase rule) ts e' ∧ e'.unlined = e.unlined

section Forms

variable {e : Expr}

theorem Respelt.expression (h : Respelt .assignment e) : Respelt .expression e := by
  intro ts hts
  obtain ⟨e', he', hsame⟩ := h ts hts
  exact ⟨e', .expression he', hsame⟩

theorem Respelt.assignment (h : Respelt .suffixed e) : Respelt .assignment e := by
  intro ts hts
  obtain ⟨e', he', hsame⟩ := h ts hts
  have hoperand : operand? .choice = some .disjunction := rfl
  have hchoice := derives_operand hoperand (derives_of_suffixed he' hoperand nofun)
  exact ⟨e', .unassigned hchoice, hsame⟩

/-- Between parentheses, the tokens with these lexemes are derived as an expression. -/
def Inside (inside : List Lexeme) (e : Expr) : Prop :=
  ∀ ts : List Token, ts.map Mark.lexeme = inside →
    ∃ e', Derives (.phrase .expression) ts e' ∧ e'.unlined = e.unlined

theorem Inside.group {inside : List Lexeme} (h : Inside inside e)
    (hlexemes : e.lexemes = Sign.leftParen.lexeme :: (inside ++ [Sign.rightParen.lexeme])) :
    Respelt .suffixed e := by
  intro ts hts
  rw [hlexemes] at hts
  obtain ⟨t, us, t', rfl, hopening, hus, hclosing⟩ := lexemes_brackets hts
  obtain ⟨e', he', hsame⟩ := h us hus
  exact ⟨e', derives_operand rfl (.group hopening he' hclosing), hsame⟩

end Forms

/-! ### Lists -/

section Lists

variable {all : List Expr} {line : Int}

end Lists

/-! ### All expressions -/

end Grammar
end FunkLang
