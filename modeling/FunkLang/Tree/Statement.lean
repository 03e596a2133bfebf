-- Reading statements and whole programs. A declaration may stand only in a
-- list of statements, not as the body of a branch or a loop.
import FunkLang.Tree.Expression

namespace FunkLang
namespace Reader

/-- Where a statement stands. -/
inductive Place
  | list | body
deriving DecidableEq, Repr

/-- The statements of a block, after its opening brace, and the closing one. -/
def blockRest (item : Reader Stmt) : Reader (List Stmt) := do
  let body ← many do
    if ← sees .finish then return none
    unlessAt (.sign .rightBrace) item
  let _ ← expect (.sign .rightBrace) .blockEnd
  return body

/-- The parameters of a function, without the parentheses. -/
def parameters : Reader (List Name) := do
  if ← sees (.sign .rightParen) then return []
  let first ← name .firstParameter
  let rest ← many (led (.sign .comma) (name .nextParameter))
  return first :: rest

/-- The rest of a function, after the word that opens it. -/
def functionRest (line : Int) (item : Reader Stmt) : Reader Stmt := do
  let title ← name .functionName
  let _ ← expect (.sign .leftParen) .functionOpen
  let params ← parameters
  let _ ← expect (.sign .rightParen) .parametersEnd
  let opening ← expect (.sign .leftBrace) .functionBody
  return .funk line title params opening.line (← blockRest item)

/-- What ends with a semicolon. -/
def ended {α : Type} (what : Expectation) (item : Reader α) : Reader α := do
  let a ← item
  let _ ← expect (.sign .semicolon) what
  return a

/-- The rest of a variable declaration, after the word that opens it. -/
def makeRest (line : Int) (value : Reader Expr) : Reader Stmt := do
  let title ← name .makeName
  return .make line title (← ended .makeEnd (led (.sign .equal) value))

/-- The condition and the branches of an if. -/
def ifRest (line : Int) (condition : Reader Expr) (branch : Reader Stmt) : Reader Stmt := do
  let condition ← condition
  let yes ← branch
  let no ← led (.word .else_) branch
  return .if_ line condition yes no

/-- The condition and the body of a while. -/
def whileRest (line : Int) (condition : Reader Expr) (body : Reader Stmt) : Reader Stmt := do
  let condition ← condition
  return .while_ line condition (← body)

/-- The value of a with, the name that it goes by, and the body. -/
def withRest (line : Int) (value : Reader Expr) (body : Reader Stmt) : Reader Stmt := do
  let value ← value
  let _ ← expect (.word .as) .withAs
  let title ← name .withName
  return .with_ line value title (← body)

/-- The name of the items of a for, the items, and the body. -/
def forRest (line : Int) (items : Reader Expr) (body : Reader Stmt) : Reader Stmt := do
  let title ← name .loopName
  let _ ← expect (.word .in_) .loopIn
  let items ← items
  return .for_ line title items (← body)

/-- A statement of a list may be a declaration; every other one is read as a
body. The words that open a statement choose its form. -/
def statement : (room : Nat) → Place → Reader Stmt
  | room + 3, .list => do
    let first ← peek
    match first.kind with
    | .word .funk =>
      let _ ← next
      functionRest first.line (statement room .list)
    | .word .make =>
      let _ ← next
      makeRest first.line (expression (room + 1))
    | _ => statement (room + 2) .body
  | room + 2, .body => do
    let first ← peek
    match first.kind with
    | .word .print =>
      let _ ← next
      return .print first.line (← ended .printEnd (expression room))
    | .sign .leftBrace =>
      let _ ← next
      return .block first.line (← blockRest (statement room .list))
    | .word .if_ =>
      let _ ← next
      ifRest first.line (expression room) (statement room .body)
    | .word .while_ =>
      let _ ← next
      whileRest first.line (expression room) (statement room .body)
    | .word .return_ =>
      let _ ← next
      let value ← ended .returnEnd (unlessAt (.sign .semicolon) (expression room))
      return .return_ first.line value
    | .word .with_ =>
      let _ ← next
      withRest first.line (expression room) (statement room .body)
    | .word .for_ =>
      let _ ← next
      forRest first.line (expression room) (statement room .body)
    | _ => return .expression first.line (← ended .statementEnd (expression room))
  | _, _ => fail .tooDeep

/-- Statements up to the end of the input. -/
def program (room : Nat) : Reader (List Stmt) :=
  many (unlessAt .finish (statement room .list))

end Reader

/-- The program that a token list is. -/
def parseTokens (room : Nat) (tokens : List Token) : Except ParseError (List Stmt) :=
  match Reader.program room (Cursor.ofTokens tokens) with
  | .ok program _ => .ok program
  | .error e _ => .error e

end FunkLang
