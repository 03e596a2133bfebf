-- Reading an expression. The grammar is a ladder of rules, each of which
-- reads its parts by the rules below it; only what stands in brackets, and
-- the value of an assignment, goes up again. Every rule on the way takes one
-- step of the room for nesting.
import FunkLang.Tree.Cursor

namespace FunkLang
namespace Reader

/-! ## Operators of tokens -/

def unaryOp? : Kind → Option UnaryOp
  | .sign .minus => some .minus
  | .sign .bang => some .not
  | _ => none

def binaryOp? : Kind → Option BinaryOp
  | .sign .star => some .times
  | .sign .slash => some .divide
  | .sign .plus => some .plus
  | .sign .minus => some .minus
  | .sign .less => some .less
  | .sign .lessEqual => some .lessEqual
  | .sign .greater => some .greater
  | .sign .greaterEqual => some .greaterEqual
  | .sign .equalEqual => some .equal
  | .sign .bangEqual => some .unequal
  | _ => none

/-- The binary operators of one tier. -/
def tierOp? (tier : Tier) (kind : Kind) : Option BinaryOp :=
  (binaryOp? kind).filter (·.tier == tier)

/-- The reserved word of a logical operator. -/
def word : LogicalOp → Keyword
  | .and => .and
  | .or => .or

/-! ## Primary expressions -/

/-- Key, colon and value of a record. -/
def entry (value : Reader Expr) : Reader (Name × Expr) := do
  let key ← name .recordKey
  let _ ← expect (.sign .colon) .recordColon
  return (key, ← value)

/-- A single token, a list, a record, or an expression in parentheses. -/
def primary (element inner : Reader Expr) : Reader Expr := do
  let first ← peek
  match first.kind with
  | .atom a =>
    let _ ← next
    return .atom (first.as a)
  | .sign .leftBracket =>
    let _ ← next
    let elements ← separated .rightBracket .elementSeparator element
    let _ ← expect (.sign .rightBracket) .elementsEnd
    return .list first.line elements
  | .sign .leftBrace =>
    let _ ← next
    let entries ← separated .rightBrace .recordSeparator (entry inner)
    let _ ← expect (.sign .rightBrace) .recordEnd
    return .record first.line entries
  | .sign .leftParen =>
    let _ ← next
    let grouped ← inner
    let _ ← expect (.sign .rightParen) .groupEnd
    return grouped
  | _ => fail (.expected .expression)

/-! ## Extensions -/

/-- What may extend an expression on its right. -/
inductive Extension
  | call (arguments : List Expr)
  | index (place : Expr)
  | field (key : Name)
  | binary (op : Mark BinaryOp) (right : Expr)
  | logical (op : LogicalOp) (right : Expr)
  | choice (condition no : Expr)

def Extension.apply (e : Expr) : Extension → Expr
  | call arguments => .call e arguments
  | index place => .index e place
  | field key => .field e key
  | binary op right => .binary e op right
  | logical op right => .logical op e right
  | choice condition no => .choice condition e no

/-- A call, an index or a field, if one stands here. -/
def suffix? (argument inner : Reader Expr) : Reader (Option Extension) := do
  match (← peek).kind with
  | .sign .leftParen =>
    let _ ← next
    let arguments ← separated .rightParen .argumentSeparator argument
    let _ ← expect (.sign .rightParen) .argumentsEnd
    return some (.call arguments)
  | .sign .leftBracket =>
    let _ ← next
    let place ← inner
    let _ ← expect (.sign .rightBracket) .indexEnd
    return some (.index place)
  | .sign .dot =>
    let _ ← next
    return some (.field (← name .fieldName))
  | _ => return none

/-- A binary operator of a tier and its right operand, if one stands here. -/
def binary? (tier : Tier) (operand : Reader Expr) : Reader (Option Extension) := do
  match ← take? (tierOp? tier) with
  | some op => return some (.binary op (← operand))
  | none => return none

/-- A logical operator and its right operand, if it stands here. -/
def logical? (op : LogicalOp) (operand : Reader Expr) : Reader (Option Extension) :=
  led (.word (word op)) do return .logical op (← operand)

/-- The condition of a choice, and the value where it does not hold, if they stand here. The value
where it holds came before. -/
def choice? (part : Reader Expr) : Reader (Option Extension) :=
  led (.word .if_) do
    let condition ← part
    let _ ← expect (.word .else_) .elseOfChoice
    return .choice condition (← part)

/-- An expression and what extends it. Each extension takes all that came before. -/
def extended (first : Reader Expr) (extension? : Reader (Option Extension)) : Reader Expr := do
  let e ← first
  return (← many extension?).foldl Extension.apply e

/-! ## Assignments -/

/-- An assignment to a target, with the equals sign that stood between. -/
def assignTo (target : Expr) (equals : Token) (value : Expr) : Reader Expr :=
  match target with
  | .atom ⟨.name, text, line⟩ => return .assign ⟨text, line⟩ value
  | .index collection place => return .assignIndex collection place value
  | .field collection key => return .assignField collection key value
  | _ => throw ⟨.badTarget, equals⟩

/-! ## The grammar -/

/-- The rules for expressions, from the loosest to the tightest, and below
them what an argument or an element of a list is. -/
inductive Rule
  | expression | assignment | choice | disjunction | conjunction
  | equality | comparison | term | factor | unary | suffixed | primary
  | argument | element
deriving DecidableEq, Repr

/-- Reads an expression by a rule, through at most `room` rules one inside
the other. -/
def byRule : (room : Nat) → Rule → Reader Expr
  | 0, _ => fail .tooDeep
  | room + 1, rule =>
    match rule with
    | .expression => byRule room .assignment
    | .assignment => do
      let target ← byRule room .choice
      if ← sees (.sign .equal) then
        let equals ← next
        assignTo target equals (← byRule room .assignment)
      else return target
    | .choice => extended (byRule room .disjunction) (choice? (byRule room .disjunction))
    | .disjunction => extended (byRule room .conjunction) (logical? .or (byRule room .conjunction))
    | .conjunction => extended (byRule room .equality) (logical? .and (byRule room .equality))
    | .equality => extended (byRule room .comparison) (binary? .equality (byRule room .comparison))
    | .comparison => extended (byRule room .term) (binary? .comparison (byRule room .term))
    | .term => extended (byRule room .factor) (binary? .term (byRule room .factor))
    | .factor => extended (byRule room .unary) (binary? .factor (byRule room .unary))
    | .unary => do
      match ← take? unaryOp? with
      | some op => return .unary op (← byRule room .unary)
      | none => byRule room .suffixed
    | .suffixed =>
      extended (byRule room .primary) (suffix? (byRule room .argument) (byRule room .expression))
    | .primary => primary (byRule room .element) (byRule room .expression)
    | .argument => byRule room .element
    | .element => byRule room .expression

/-- Reads an expression. -/
def expression (room : Nat) : Reader Expr := byRule room .expression

end Reader
end FunkLang
