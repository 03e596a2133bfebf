-- What a number token stands for. The tokens of a script are numerals. A
-- token that was made by other means may be spelled more freely: with blanks
-- around it, a sign, an exponent, digits of any script in groups, or as the
-- word for what is no finite number.
import FunkLang.Number.Numeral
import FunkLang.Text.Blank
import FunkLang.Text.Digit

namespace FunkLang
namespace Literal

/-- Takes away the underscores, each of which has to stand between two digits. -/
def ungrouped? : List Char → Option (List Char)
  | [] => some []
  | '_' :: _ => none
  | c :: '_' :: d :: rest =>
    if c.isDigit && d.isDigit then (ungrouped? (d :: rest)).map (c :: ·) else none
  | c :: rest => (ungrouped? rest).map (c :: ·)

/-- The number nearest to `digits * 10 ^ power`, where there are at most
`size` digits. What is far out of the range of numbers is as good as what is
further out. -/
def scaled (negative : Bool) (digits size : Nat) (power : Int) : Number :=
  let power := max (-(400 + size : Int)) (min 400 power)
  .ofDecimal negative (digits * Nat.pow 10 power.toNat) (-power).toNat

/-- The exponent that a text after its mark is: digits, with an optional sign. -/
def exponent? (text : List Char) : Option Int :=
  let digits? (digits : List Char) : Option Nat :=
    if digits.isEmpty || !digits.all Char.isDigit then none
    else some (Nat.ofDigitChars 10 digits 0)
  match text with
  | '-' :: rest => (digits? rest).map fun n => -(n : Int)
  | '+' :: rest => (digits? rest).map Int.ofNat
  | text => (digits? text).map Int.ofNat

/-- The magnitude that a text without a sign is: a decimal with digits before
the point or after it, and an exponent if there is one. -/
def decimal? (negative : Bool) (text : List Char) : Option Number :=
  let whole := text.takeWhile Char.isDigit
  let (fraction, rest) := match text.dropWhile Char.isDigit with
    | '.' :: rest => (rest.takeWhile Char.isDigit, rest.dropWhile Char.isDigit)
    | rest => ([], rest)
  let digits := whole ++ fraction
  let value (exponent : Int) : Number :=
    scaled negative (Nat.ofDigitChars 10 digits 0) digits.length (exponent - fraction.length)
  if digits.isEmpty then none
  else match rest with
    | [] => some (value 0)
    | mark :: rest => if mark.toLower == 'e' then (exponent? rest).map value else none

/-- The magnitude that a text without a sign is, with the sign given. -/
def magnitude? (negative : Bool) (text : List Char) : Option Number :=
  let word := String.ofList (text.map Char.toLower)
  if word = "inf" ∨ word = "infinity" then some (.infinite negative)
  else if word = "nan" then some .nan
  else decimal? negative text

/-- The number that a freely spelled text is. -/
def free? (text : List Char) : Option Number := do
  let text ← ungrouped? (trim (fun c => isBlank c && !isSeparator c) (text.map plainDigit))
  match text with
  | '-' :: rest => magnitude? true rest
  | '+' :: rest => magnitude? false rest
  | rest => magnitude? false rest

end Literal

/-- The number that a literal stands for: a numeral, or a free spelling. -/
def Number.ofLiteral? (text : List Char) : Option Number :=
  match Numeral.ofText? text with
  | some n => some (n.value false)
  | none => Literal.free? text

end FunkLang
