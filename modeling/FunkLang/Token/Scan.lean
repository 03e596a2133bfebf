-- From the text of a script to its tokens. The text is cut from the left,
-- each cut a token or a piece of layout, so the pieces taken one after the
-- other are the text. A line ends at a line feed, wherever it stands.
import FunkLang.Number.Numeral
import FunkLang.Text.Located
import FunkLang.Text.Quoted
import FunkLang.Token

namespace FunkLang

/-! ## Errors -/

/-- Why a text cannot be cut. -/
inductive ScanProblem
  | openString
  | strangeCharacter (c : Char)
deriving DecidableEq, Repr

/-- Why and where a text cannot be cut. -/
structure ScanError where
  problem : ScanProblem
  line : Int
deriving DecidableEq, Repr

def ScanProblem.message : ScanProblem → String
  | openString => "unterminated string literal"
  | strangeCharacter c => "unexpected character: " ++ quoted c

def ScanError.text (e : ScanError) : String := located e.problem.message (some e.line)

/-! ## One cut -/

/-- A space, a tab, or the end of a line. -/
def isLayout (c : Char) : Bool := c == ' ' || c == '\t' || c == '\r' || c == '\n'

/-- A character that may begin a word. -/
def isLetter (c : Char) : Bool := c.isAlpha || c == '_'

/-- A character that may continue a word. -/
def isWordPart (c : Char) : Bool := isLetter c || c.isDigit

/-- A character that opens a string, which the same character closes. -/
def isQuote (c : Char) : Bool := c == '"' || c == '\'' || c == '\x60'

/-- The front of a text cut off: the kind and text of the token that it is,
unless it is layout, the characters taken, and those that remain. -/
structure Cut where
  token : Option (Kind × List Char)
  taken : List Char
  rest : List Char
deriving DecidableEq, Repr

namespace Cut

/-- A cut of layout. -/
def layout (taken rest : List Char) : Cut := ⟨none, taken, rest⟩

/-- A cut of a token whose text is what was taken. -/
def plain (kind : Kind) (taken rest : List Char) : Cut := ⟨some (kind, taken), taken, rest⟩

/-- Cuts a string, after the quote that opens it. -/
def string? (quote : Char) (text : List Char) : Except ScanProblem Cut :=
  let body := text.takeWhile (· != quote)
  match text.dropWhile (· != quote) with
  | [] => .error .openString
  | close :: rest => .ok ⟨some (.atom .string, body), quote :: body ++ [close], rest⟩

/-- Cuts a sign of two characters if one stands here, or else of one. -/
def sign? (c : Char) (text : List Char) : Except ScanProblem Cut :=
  match text, Sign.double? c, Sign.single? c with
  | '=' :: rest, some s, _ => .ok (plain (.sign s) [c, '='] rest)
  | _, _, some s => .ok (plain (.sign s) [c] text)
  | _, _, none => .error (.strangeCharacter c)

/-- Cuts the front of the text `c :: text`. -/
def front (c : Char) (text : List Char) : Except ScanProblem Cut :=
  if isLayout c then
    .ok (layout (c :: text.takeWhile isLayout) (text.dropWhile isLayout))
  else if c == '/' && text.head? == some '/' then
    .ok (layout (c :: text.takeWhile (· != '\n')) (text.dropWhile (· != '\n')))
  else if c.isDigit then
    let (numeral, rest) := Numeral.front (c :: text)
    .ok (plain (.atom .number) numeral.text rest)
  else if isQuote c then string? c text
  else if isLetter c then
    let word := c :: text.takeWhile isWordPart
    .ok (plain (Kind.ofWord (String.ofList word)) word (text.dropWhile isWordPart))
  else sign? c text

end Cut

/-! ## The whole text -/

/-- How many lines end in a piece of text. -/
def lineEnds (text : List Char) : Int := (text.count '\n' : Nat)

/-- Cuts a text that begins on `line` after the tokens `found`, the last one
first. No text needs more cuts than it has characters. -/
def scanFrom : (cuts : Nat) → (line : Int) → (text : List Char) → (found : List Token) →
    Except ScanError (List Token)
  | cuts + 1, line, c :: text, found =>
    match Cut.front c text with
    | .error problem => .error ⟨problem, line⟩
    | .ok cut =>
      let found := match cut.token with
        | some (kind, text) => ⟨kind, String.ofList text, line⟩ :: found
        | none => found
      scanFrom cuts (line + lineEnds cut.taken) cut.rest found
  | _, line, _, found => .ok (((⟨.finish, "", line⟩ : Token) :: found).reverse)

/-- The tokens of a script, the last one its end. -/
def scan (source : String) : Except ScanError (List Token) :=
  let text := source.toList
  scanFrom text.length 1 text []

end FunkLang
