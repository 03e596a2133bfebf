-- Reading tokens from left to right. A reader sees one token, the current
-- one; what it expected there and did not find is its error. The end of the
-- input is never passed, and it is found even where the list has no end mark.
import FunkLang.Text.Located
import FunkLang.Tree

namespace FunkLang

/-! ## Errors -/

/-- What a reader may miss. -/
inductive Expectation
  | expression | groupEnd | elseOfChoice
  | argumentSeparator | argumentsEnd | indexEnd | fieldName
  | elementSeparator | elementsEnd
  | recordKey | recordColon | recordSeparator | recordEnd
  | statementEnd | printEnd | makeName | makeEnd | returnEnd | blockEnd
  | functionName | functionOpen | firstParameter | nextParameter | parametersEnd | functionBody
  | withAs | withName | loopName | loopIn
deriving DecidableEq, Repr

def Expectation.text : Expectation → String
  | expression => "expression"
  | groupEnd => "')' after expression"
  | elseOfChoice => "'else' after if-expression condition"
  | argumentSeparator => "',' or ')' between elements"
  | argumentsEnd => "')' after arguments"
  | indexEnd => "']' after index"
  | fieldName => "field name after '.'"
  | elementSeparator => "',' or ']' between elements"
  | elementsEnd => "']' after list elements"
  | recordKey => "field name in record"
  | recordColon => "':' after field name"
  | recordSeparator => "',' or '\x7d' between record fields"
  | recordEnd => "'\x7d' after record fields"
  | statementEnd => "';' after expression"
  | printEnd => "';' after value"
  | makeName => "variable name after 'make'"
  | makeEnd => "';' after variable declaration"
  | returnEnd => "';' after return value"
  | blockEnd => "'\x7d' after block"
  | functionName => "function name after 'funk'"
  | functionOpen => "'(' after function name"
  | firstParameter => "parameter name in parameter list"
  | nextParameter => "parameter name after ','"
  | parametersEnd => "')' after parameters"
  | functionBody => "'\x7b' before function body"
  | withAs => "'as' after with value"
  | withName => "identifier after 'as'"
  | loopName => "loop variable after 'for'"
  | loopIn => "'in' after loop variable"

/-- Why a token list is no program. -/
inductive ParseProblem
  | expected (what : Expectation)
  | badTarget
  | tooDeep
deriving DecidableEq, Repr

/-- Why a token list is no program, and the token that shows it. -/
structure ParseError where
  problem : ParseProblem
  token : Token
deriving DecidableEq, Repr

/-- A token as a message names it. -/
def Token.described (t : Token) : String :=
  if t.kind = .finish then "end of input" else "'" ++ t.text ++ "'"

def ParseError.message (e : ParseError) : String :=
  match e.problem with
  | .expected what => "expected " ++ what.text ++ ", got " ++ e.token.described
  | .badTarget => "invalid assignment target"
  | .tooDeep => "program nested too deeply"

def ParseError.text (e : ParseError) : String := located e.message (some e.token.line)

/-! ## The cursor -/

/-- A place in a token list: the current token and those ahead of it. -/
structure Cursor where
  current : Token
  ahead : List Token
deriving DecidableEq, Repr

/-- The end of the input, on a line. -/
def endMark (line : Int) : Token := ⟨.finish, "", line⟩

/-- The start of a token list. A list that does not close with an end mark
gets one, on the line of its last token. -/
def Cursor.ofTokens : List Token → Cursor
  | [] => ⟨endMark 1, []⟩
  | first :: rest =>
    let last := (first :: rest).getLast (by simp)
    ⟨first, if last.kind = .finish then rest else rest ++ [endMark last.line]⟩

/-- The cursor one token further. It stays at the end of the input. -/
def Cursor.advance (c : Cursor) : Cursor :=
  match c.ahead with
  | [] => c
  | next :: rest => if c.current.kind = .finish then c else ⟨next, rest⟩

/-! ## Readers -/

/-- A reading that moves the cursor, and keeps it where it fails. -/
abbrev Reader := EStateM ParseError Cursor

namespace Reader

/-- The current token, left in place. -/
def peek : Reader Token := fun c => .ok c.current c

/-- Takes the current token. -/
def next : Reader Token := fun c => .ok c.current c.advance

/-- Fails at the current token. -/
def fail {α : Type} (problem : ParseProblem) : Reader α := fun c => .error ⟨problem, c.current⟩ c

/-- Is the current token of this kind? -/
def sees (kind : Kind) : Reader Bool := return (← peek).kind == kind

/-- Takes a token of this kind, which has to be there. -/
def expect (kind : Kind) (what : Expectation) : Reader Token := do
  if ← sees kind then next else fail (.expected what)

/-- Takes a name, which has to be there. -/
def name (what : Expectation) : Reader Name := do
  let token ← expect (.atom .name) what
  return ⟨token.text, token.line⟩

/-- Takes the current token if `as?` finds a use for its kind. -/
def take? {κ : Type} (as? : Kind → Option κ) : Reader (Option (Mark κ)) := do
  match as? (← peek).kind with
  | some kind => return some ((← next).as kind)
  | none => return none

/-- Takes the current token if it is of this kind. -/
def skip (kind : Kind) : Reader Bool := do
  if ← sees kind then
    let _ ← next
    return true
  else return false

/-- An item that comes after a token of this kind, if one stands here. -/
def led {α : Type} (kind : Kind) (item : Reader α) : Reader (Option α) := do
  if ← skip kind then return some (← item)
  return none

/-- An item, unless a token of this kind stands here. -/
def unlessAt {α : Type} (kind : Kind) (item : Reader α) : Reader (Option α) := do
  if ← sees kind then return none
  return some (← item)

/-- Reads items until there is none, at most as many as `bound` has tokens.
The items `found` come last one first. -/
def gather {α : Type} (item : Reader (Option α)) : (bound : List Token) → (found : List α) →
    Reader (List α)
  | [], found => return found.reverse
  | _ :: bound, found => do
    match ← item with
    | some a => gather item bound (a :: found)
    | none => return found.reverse

/-- Reads items until there is none. Each takes a token at least, so there
are no more of them than tokens. -/
def many {α : Type} (item : Reader (Option α)) : Reader (List α) := fun c =>
  gather item (c.current :: c.ahead) [] c

/-- An item of a list that a sign closes, and the comma after it. The last item needs none. -/
def withComma {α : Type} (close : Sign) (what : Expectation) (item : Reader α) : Reader α := do
  let a ← item
  if ← sees (.sign close) then return a
  let _ ← expect (.sign .comma) what
  return a

/-- Reads items up to a closing sign, which stays. A comma stands between
two items, and may stand after the last. -/
def separated {α : Type} (close : Sign) (what : Expectation) (item : Reader α) :
    Reader (List α) :=
  many (unlessAt (.sign close) (withComma close what item))

end Reader
end FunkLang
