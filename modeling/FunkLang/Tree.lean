-- The tree of a program. An expression keeps the marks of its operators and
-- names, so that messages and printed trees can show them as written. Where a
-- line can be found in a part, it is not stored: an expression stands on the
-- line of its first mark, grouping parentheses aside.
import FunkLang.Token

namespace FunkLang

/-! ## Operators -/

inductive UnaryOp
  | minus | not
deriving DecidableEq, Repr, Inhabited

inductive BinaryOp
  | times | divide | plus | minus | less | lessEqual | greater | greaterEqual | equal | unequal
deriving DecidableEq, Repr, Inhabited

/-- The operators that look at their right operand only if they need it. -/
inductive LogicalOp
  | and | or
deriving DecidableEq, Repr, Inhabited

/-- How tightly a binary operator binds. -/
inductive Tier
  | factor | term | comparison | equality
deriving DecidableEq, Repr, Inhabited

def BinaryOp.tier : BinaryOp → Tier
  | times | divide => .factor
  | plus | minus => .term
  | less | lessEqual | greater | greaterEqual => .comparison
  | equal | unequal => .equality

def LogicalOp.text : LogicalOp → String
  | and => "and"
  | or => "or"

/-- What takes a truth value and nothing else. -/
inductive Condition
  | not | logical (op : LogicalOp) | choice | if_ | while_
deriving DecidableEq, Repr

def Condition.text : Condition → String
  | not => "operator '!'"
  | logical op => "operator '" ++ op.text ++ "'"
  | choice => "if-expression"
  | if_ => "if"
  | while_ => "while"

/-! ## Expressions -/

/-- A name, of a variable, a field or a function, and the line it stands on. -/
structure Name where
  text : String
  line : Int
deriving DecidableEq, Repr, Inhabited

inductive Expr
  | atom (mark : Mark Atom)
  | unary (op : Mark UnaryOp) (operand : Expr)
  | binary (left : Expr) (op : Mark BinaryOp) (right : Expr)
  | logical (op : LogicalOp) (left right : Expr)
  | assign (name : Name) (value : Expr)
  | assignIndex (collection place value : Expr)
  | assignField (collection : Expr) (key : Name) (value : Expr)
  | choice (condition yes no : Expr)
  | call (callee : Expr) (arguments : List Expr)
  | list (line : Int) (elements : List Expr)
  | record (line : Int) (entries : List (Name × Expr))
  | index (collection place : Expr)
  | field (collection : Expr) (key : Name)
deriving Repr

instance : Inhabited Expr := ⟨.atom default⟩

/-- The line of the first mark of an expression. -/
def Expr.line : Expr → Int
  | atom mark => mark.line
  | unary op _ => op.line
  | binary left _ _ => left.line
  | logical _ left _ => left.line
  | assign name _ => name.line
  | assignIndex collection _ _ => collection.line
  | assignField collection _ _ => collection.line
  | choice _ yes _ => yes.line
  | call callee _ => callee.line
  | list line _ => line
  | record line _ => line
  | index collection _ => collection.line
  | field collection _ => collection.line

/-! ## Statements -/

/-- A statement, with the line of its first token. The body of a function is
a block of its own, which opens on a line of its own. -/
inductive Stmt
  | expression (line : Int) (value : Expr)
  | print (line : Int) (value : Expr)
  | make (line : Int) (name : Name) (value : Option Expr)
  | block (line : Int) (body : List Stmt)
  | if_ (line : Int) (condition : Expr) (yes : Stmt) (no : Option Stmt)
  | while_ (line : Int) (condition : Expr) (body : Stmt)
  | funk (line : Int) (name : Name) (params : List Name) (bodyLine : Int) (body : List Stmt)
  | return_ (line : Int) (value : Option Expr)
  | with_ (line : Int) (value : Expr) (name : Name) (body : Stmt)
  | for_ (line : Int) (name : Name) (items : Expr) (body : Stmt)
deriving Repr

instance : Inhabited Stmt := ⟨.block 0 []⟩

def Stmt.line : Stmt → Int
  | expression line _ | print line _ | make line _ _ | block line _ | if_ line _ _ _
  | while_ line _ _ | funk line _ _ _ _ | return_ line _ | with_ line _ _ _ | for_ line _ _ _ => line

/-- The names that the functions of a statement list go by, in order. -/
def functionNames (body : List Stmt) : List String :=
  body.filterMap fun
    | .funk _ name _ _ _ => some name.text
    | _ => none

end FunkLang
