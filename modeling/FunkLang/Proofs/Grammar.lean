-- The grammar: which tokens are a program, and of which tree. It knows nothing
-- of cursors, of room or of an order to try its rules in. Four rules keep it
-- from having two trees for one list of tokens: what can be assigned to, that
-- an opening brace begins a block and not a record, that an else belongs to
-- the nearest if, and that a body stands apart from the expression before it.
import FunkLang.Tree.Statement

namespace FunkLang
namespace Grammar

open Reader (Rule Place Extension)

/-! ## Symbols -/

/-- What stands for a stretch of tokens. -/
inductive Symbol
  | phrase (rule : Rule)
  | extension (rule : Rule)
  | entry
  | parameters
  | nextName
  | statement (place : Place)
  | many (item : Symbol)
  | separated (item : Symbol)

/-- What a symbol is read as. -/
@[reducible] def Symbol.Tree : Symbol → Type
  | phrase _ => Expr
  | extension _ => Extension
  | entry => Name × Expr
  | parameters => List Name
  | nextName => Name
  | statement _ => Stmt
  | many item => List item.Tree
  | separated item => List item.Tree

/-- The rule for the operands of a rule whose expressions are extended on their right. -/
def operand? : Rule → Option Rule
  | .choice => some .disjunction
  | .disjunction => some .conjunction
  | .conjunction => some .equality
  | .equality => some .comparison
  | .comparison => some .term
  | .term => some .factor
  | .factor => some .unary
  | .suffixed => some .primary
  | _ => none

/-- The rule that a logical operator extends. -/
def logicalRule : LogicalOp → Rule
  | .and => .conjunction
  | .or => .disjunction

/-- The rule that the operators of a tier extend. -/
def tierRule : Tier → Rule
  | .factor => .factor
  | .term => .term
  | .comparison => .comparison
  | .equality => .equality

/-! ## What keeps the grammar to one tree -/

/-- The assignment of a value to an expression, if the expression is a name, an index or a
field. Parentheses around it leave no mark in the tree. -/
def assignment? (value : Expr) : Expr → Option Expr
  | .atom ⟨.name, text, line⟩ => some (.assign ⟨text, line⟩ value)
  | .index collection place => some (.assignIndex collection place value)
  | .field collection key => some (.assignField collection key value)
  | _ => none

/-- Could an else that comes next belong to this statement? -/
def takesElse : Stmt → Bool
  | .if_ _ _ _ none => true
  | .if_ _ _ _ (some no) => takesElse no
  | .while_ _ _ body => takesElse body
  | .with_ _ _ _ body => takesElse body
  | .for_ _ _ _ body => takesElse body
  | _ => false

/-- Could a token go on with the expression before it, as well as begin a statement? -/
def joins : Kind → Bool
  | .sign .leftParen | .sign .leftBracket | .sign .minus | .word .if_ => true
  | _ => false

/-- The tokens do not go on with an expression before them. -/
def Apart (ts : List Token) : Prop := ∀ t ∈ ts.head?, joins t.kind = false

/-! ## Derivations -/

/-- A token as a name. -/
def named (t : Token) : Name := ⟨t.text, t.line⟩

/-- The tokens are what a symbol stands for, and this is the tree of them. -/
inductive Derives : (s : Symbol) → List Token → s.Tree → Prop
  -- Expressions.
  | expression {ts e} :
    Derives (.phrase .assignment) ts e →
    Derives (.phrase .expression) ts e
  | assignment {equals : Token} {ts us target value e} :
    Derives (.phrase .disjunction) ts target →
    equals.kind = .sign .equal →
    Derives (.phrase .assignment) us value →
    assignment? value target = some e →
    Derives (.phrase .assignment) (ts ++ equals :: us) e
  | unassigned {ts e} :
    Derives (.phrase .choice) ts e →
    Derives (.phrase .assignment) ts e
  | extended {rule operand ts us first extensions} :
    operand? rule = some operand →
    Derives (.phrase operand) ts first →
    Derives (.many (.extension rule)) us extensions →
    Derives (.phrase rule) (ts ++ us) (extensions.foldl Extension.apply first)
  | unary {t : Token} {op ts operand} :
    Reader.unaryOp? t.kind = some op →
    Derives (.phrase .unary) ts operand →
    Derives (.phrase .unary) (t :: ts) (.unary (t.as op) operand)
  | suffixed {ts e} :
    Derives (.phrase .suffixed) ts e →
    Derives (.phrase .unary) ts e
  | atom {t : Token} {a} :
    t.kind = .atom a →
    Derives (.phrase .primary) [t] (.atom (t.as a))
  | list {opening closing : Token} {ts elements} :
    opening.kind = .sign .leftBracket →
    Derives (.separated (.phrase .element)) ts elements →
    closing.kind = .sign .rightBracket →
    Derives (.phrase .primary) (opening :: (ts ++ [closing])) (.list opening.line elements)
  | record {opening closing : Token} {ts entries} :
    opening.kind = .sign .leftBrace →
    Derives (.separated .entry) ts entries →
    closing.kind = .sign .rightBrace →
    Derives (.phrase .primary) (opening :: (ts ++ [closing])) (.record opening.line entries)
  | group {opening closing : Token} {ts e} :
    opening.kind = .sign .leftParen →
    Derives (.phrase .expression) ts e →
    closing.kind = .sign .rightParen →
    Derives (.phrase .primary) (opening :: (ts ++ [closing])) e
  | argument {ts e} :
    Derives (.phrase .element) ts e →
    Derives (.phrase .argument) ts e
  | element {ts e} :
    Derives (.phrase .expression) ts e →
    Derives (.phrase .element) ts e
  | entry {key colon : Token} {ts value} :
    key.kind = .atom .name →
    colon.kind = .sign .colon →
    Derives (.phrase .expression) ts value →
    Derives .entry (key :: colon :: ts) (named key, value)
  -- What extends an expression on its right.
  | choice {opening between : Token} {ts us condition no} :
    opening.kind = .word .if_ →
    Derives (.phrase .disjunction) ts condition →
    between.kind = .word .else_ →
    Derives (.phrase .disjunction) us no →
    Derives (.extension .choice) (opening :: (ts ++ between :: us)) (.choice condition no)
  | logical {t : Token} {rule operand op ts right} :
    t.kind = .word (Reader.word op) →
    logicalRule op = rule →
    operand? rule = some operand →
    Derives (.phrase operand) ts right →
    Derives (.extension rule) (t :: ts) (.logical op right)
  | binary {t : Token} {rule operand tier op ts right} :
    Reader.tierOp? tier t.kind = some op →
    tierRule tier = rule →
    operand? rule = some operand →
    Derives (.phrase operand) ts right →
    Derives (.extension rule) (t :: ts) (.binary (t.as op) right)
  | call {opening closing : Token} {ts arguments} :
    opening.kind = .sign .leftParen →
    Derives (.separated (.phrase .argument)) ts arguments →
    closing.kind = .sign .rightParen →
    Derives (.extension .suffixed) (opening :: (ts ++ [closing])) (.call arguments)
  | index {opening closing : Token} {ts place} :
    opening.kind = .sign .leftBracket →
    Derives (.phrase .expression) ts place →
    closing.kind = .sign .rightBracket →
    Derives (.extension .suffixed) (opening :: (ts ++ [closing])) (.index place)
  | field {dot key : Token} :
    dot.kind = .sign .dot →
    key.kind = .atom .name →
    Derives (.extension .suffixed) [dot, key] (.field (named key))
  -- Items one after another, and items with commas between them and perhaps after the last.
  | none {item} :
    Derives (.many item) [] []
  | more {item ts us first rest} :
    Derives item ts first →
    Derives (.many item) us rest →
    Derives (.many item) (ts ++ us) (first :: rest)
  | empty {item} :
    Derives (.separated item) [] []
  | last {item ts only} :
    Derives item ts only →
    Derives (.separated item) ts [only]
  | before {comma : Token} {item ts us first rest} :
    Derives item ts first →
    comma.kind = .sign .comma →
    Derives (.separated item) us rest →
    Derives (.separated item) (ts ++ comma :: us) (first :: rest)
  -- Statements.
  | print {opening closing : Token} {ts value} :
    opening.kind = .word .print →
    Derives (.phrase .expression) ts value →
    closing.kind = .sign .semicolon →
    Derives (.statement .body) (opening :: (ts ++ [closing])) (.print opening.line value)
  | block {opening closing : Token} {ts body} :
    opening.kind = .sign .leftBrace →
    Derives (.many (.statement .list)) ts body →
    closing.kind = .sign .rightBrace →
    Derives (.statement .body) (opening :: (ts ++ [closing])) (.block opening.line body)
  | if_ {opening : Token} {ts us condition yes} :
    opening.kind = .word .if_ →
    Derives (.phrase .expression) ts condition →
    Derives (.statement .body) us yes →
    Apart us →
    Derives (.statement .body) (opening :: (ts ++ us)) (.if_ opening.line condition yes none)
  | ifElse {opening between : Token} {ts us vs condition yes no} :
    opening.kind = .word .if_ →
    Derives (.phrase .expression) ts condition →
    Derives (.statement .body) us yes →
    Apart us →
    takesElse yes = false →
    between.kind = .word .else_ →
    Derives (.statement .body) vs no →
    Derives (.statement .body) (opening :: (ts ++ (us ++ between :: vs)))
      (.if_ opening.line condition yes (some no))
  | while_ {opening : Token} {ts us condition body} :
    opening.kind = .word .while_ →
    Derives (.phrase .expression) ts condition →
    Derives (.statement .body) us body →
    Apart us →
    Derives (.statement .body) (opening :: (ts ++ us)) (.while_ opening.line condition body)
  | return_ {opening closing : Token} :
    opening.kind = .word .return_ →
    closing.kind = .sign .semicolon →
    Derives (.statement .body) [opening, closing] (.return_ opening.line none)
  | returnValue {opening closing : Token} {ts value} :
    opening.kind = .word .return_ →
    Derives (.phrase .expression) ts value →
    closing.kind = .sign .semicolon →
    Derives (.statement .body) (opening :: (ts ++ [closing])) (.return_ opening.line (some value))
  | with_ {opening between title : Token} {ts us value body} :
    opening.kind = .word .with_ →
    Derives (.phrase .expression) ts value →
    between.kind = .word .as →
    title.kind = .atom .name →
    Derives (.statement .body) us body →
    Derives (.statement .body) (opening :: (ts ++ between :: title :: us))
      (.with_ opening.line value (named title) body)
  | for_ {opening title between : Token} {ts us items body} :
    opening.kind = .word .for_ →
    title.kind = .atom .name →
    between.kind = .word .in_ →
    Derives (.phrase .expression) ts items →
    Derives (.statement .body) us body →
    Apart us →
    Derives (.statement .body) (opening :: title :: between :: (ts ++ us))
      (.for_ opening.line (named title) items body)
  | value {first closing : Token} {ts e} :
    Derives (.phrase .expression) (first :: ts) e →
    first.kind ≠ .sign .leftBrace →
    closing.kind = .sign .semicolon →
    Derives (.statement .body) (first :: (ts ++ [closing])) (.expression first.line e)
  -- Declarations.
  | noParameters :
    Derives .parameters [] []
  | someParameters {first : Token} {ts rest} :
    first.kind = .atom .name →
    Derives (.many .nextName) ts rest →
    Derives .parameters (first :: ts) (named first :: rest)
  | nextName {comma title : Token} :
    comma.kind = .sign .comma →
    title.kind = .atom .name →
    Derives .nextName [comma, title] (named title)
  | funk {opening title before after brace closing : Token} {ts us params body} :
    opening.kind = .word .funk →
    title.kind = .atom .name →
    before.kind = .sign .leftParen →
    Derives .parameters ts params →
    after.kind = .sign .rightParen →
    brace.kind = .sign .leftBrace →
    Derives (.many (.statement .list)) us body →
    closing.kind = .sign .rightBrace →
    Derives (.statement .list)
      (opening :: title :: before :: (ts ++ after :: brace :: (us ++ [closing])))
      (.funk opening.line (named title) params brace.line body)
  | make {opening title closing : Token} :
    opening.kind = .word .make →
    title.kind = .atom .name →
    closing.kind = .sign .semicolon →
    Derives (.statement .list) [opening, title, closing] (.make opening.line (named title) none)
  | makeValue {opening title equals closing : Token} {ts value} :
    opening.kind = .word .make →
    title.kind = .atom .name →
    equals.kind = .sign .equal →
    Derives (.phrase .expression) ts value →
    closing.kind = .sign .semicolon →
    Derives (.statement .list) (opening :: title :: equals :: (ts ++ [closing]))
      (.make opening.line (named title) (some value))
  | body {ts s} :
    Derives (.statement .body) ts s →
    Derives (.statement .list) ts s

/-- The tokens of a program, without the end mark, and its statements. -/
def Program (ts : List Token) (body : List Stmt) : Prop :=
  Derives (.many (.statement .list)) ts body

end Grammar
end FunkLang
