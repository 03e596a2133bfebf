-- The tokens of a script: each has a kind, the text it was written with, and
-- the line it starts on. The text of a string is what stands between its quotes.

namespace FunkLang

/-- A piece of a script, read as something of type `κ`. -/
structure Mark (κ : Type) where
  kind : κ
  text : String
  line : Int
deriving DecidableEq, Repr, Inhabited

/-- The same piece, read as something else. -/
def Mark.as {κ μ : Type} (m : Mark κ) (kind : μ) : Mark μ := ⟨kind, m.text, m.line⟩

/-! ## Kinds -/

/-- The tokens that are an expression by themselves. -/
inductive Atom
  | number | string | boolean | nil | name
deriving DecidableEq, Repr, Inhabited

/-- The reserved words that are no value. -/
inductive Keyword
  | print | make | if_ | else_ | and | or | while_ | funk | return_ | with_ | as | for_ | in_
deriving DecidableEq, Repr, Inhabited

/-- The signs of one or two characters. -/
inductive Sign
  | leftParen | rightParen | leftBrace | rightBrace | leftBracket | rightBracket
  | comma | semicolon | dot | colon
  | plus | minus | star | slash
  | equal | bang | less | greater | equalEqual | bangEqual | lessEqual | greaterEqual
deriving DecidableEq, Repr, Inhabited

/-- What a token is. No rule of the grammar takes a token of an other kind. -/
inductive Kind
  | atom (a : Atom)
  | word (w : Keyword)
  | sign (s : Sign)
  | finish
  | other (name : String)
deriving DecidableEq, Repr, Inhabited

abbrev Token := Mark Kind

/-! ## Spellings -/

namespace Keyword

/-- How a reserved word is written. -/
def spelling : Keyword → String
  | print => "print" | make => "make" | if_ => "if" | else_ => "else" | and => "and" | or => "or"
  | while_ => "while" | funk => "funk" | return_ => "return" | with_ => "with" | as => "as"
  | for_ => "for" | in_ => "in"

/-- Every reserved word that is no value. -/
def all : List Keyword :=
  [print, make, if_, else_, and, or, while_, funk, return_, with_, as, for_, in_]

end Keyword

/-- What a word is: a truth value, nil, a reserved word, or else a name. -/
def Kind.ofWord (word : String) : Kind :=
  if word = "true" ∨ word = "false" then .atom .boolean
  else if word = "nil" then .atom .nil
  else match Keyword.all.find? fun k => k.spelling = word with
    | some k => .word k
    | none => .atom .name

namespace Sign

/-- How a sign is written. -/
def spelling : Sign → List Char
  | leftParen => ['('] | rightParen => [')'] | leftBrace => ['\x7b'] | rightBrace => ['\x7d']
  | leftBracket => ['['] | rightBracket => [']'] | comma => [','] | semicolon => [';']
  | dot => ['.'] | colon => [':'] | plus => ['+'] | minus => ['-'] | star => ['*'] | slash => ['/']
  | equal => ['='] | bang => ['!'] | less => ['<'] | greater => ['>']
  | equalEqual => ['=', '='] | bangEqual => ['!', '='] | lessEqual => ['<', '=']
  | greaterEqual => ['>', '=']

/-- The sign of one character. -/
def single? : Char → Option Sign
  | '(' => some leftParen | ')' => some rightParen
  | '\x7b' => some leftBrace | '\x7d' => some rightBrace
  | '[' => some leftBracket | ']' => some rightBracket
  | ',' => some comma | ';' => some semicolon | '.' => some dot | ':' => some colon
  | '+' => some plus | '-' => some minus | '*' => some star | '/' => some slash
  | '=' => some equal | '!' => some bang | '<' => some less | '>' => some greater
  | _ => none

/-- The sign of two characters, the second an equals sign. -/
def double? : Char → Option Sign
  | '=' => some equalEqual | '!' => some bangEqual | '<' => some lessEqual
  | '>' => some greaterEqual
  | _ => none

end Sign
end FunkLang
