-- Numbers as text. A numeral is digits with an optional fraction, read as
-- the nearest number. A number is written with all the digits of its whole
-- value, or else with the fewest decimal places that read back.
import FunkLang.Number

namespace FunkLang

/-! ## Reading -/

/-- The digits of a numeral before the point and after it. A numeral without
a point has no fraction digits. -/
structure Numeral where
  whole : List Char
  fraction : List Char
deriving DecidableEq, Repr

namespace Numeral

/-- The longest numeral at the front of a text, and what follows it. A point
belongs to it only between digits. -/
def front (text : List Char) : Numeral × List Char :=
  let whole := text.takeWhile Char.isDigit
  match text.dropWhile Char.isDigit with
  | '.' :: digit :: rest =>
    if digit.isDigit then
      (⟨whole, (digit :: rest).takeWhile Char.isDigit⟩, (digit :: rest).dropWhile Char.isDigit)
    else (⟨whole, []⟩, '.' :: digit :: rest)
  | rest => (⟨whole, []⟩, rest)

/-- The numeral as it is written. -/
def text (n : Numeral) : List Char :=
  if n.fraction.isEmpty then n.whole else n.whole ++ '.' :: n.fraction

/-- The numeral that a whole text is. -/
def ofText? (text : List Char) : Option Numeral :=
  match front text with
  | (n, []) => if n.whole.isEmpty then none else some n
  | _ => none

/-- The number nearest to a numeral, with the sign given. -/
def value (negative : Bool) (n : Numeral) : Number :=
  .ofDecimal negative (Nat.ofDigitChars 10 (n.whole ++ n.fraction) 0) n.fraction.length

end Numeral

/-- The number that a text is: an optional minus sign and a numeral. -/
def Number.ofText? : List Char → Option Number
  | '-' :: rest => (Numeral.ofText? rest).map (Numeral.value true)
  | text => (Numeral.ofText? text).map (Numeral.value false)

/-! ## Writing -/

/-- Which of two neighbouring whole numbers passes a test, the one below or
the one above it. It is `nearer` if both do. -/
def neighbour? (passes : Nat → Bool) (below nearer : Nat) : Option Nat :=
  match passes below, passes (below + 1) with
  | true, true => some nearer
  | true, false => some below
  | false, true => some (below + 1)
  | false, false => none

/-- The decimal with this many places that reads back as the magnitude of a
rank: one of the two neighbours of the magnitude, the nearer one if both do,
and of two equally near ones the even one. -/
def decimalAt? (rank places : Nat) : Option Nat :=
  let scaled := unitsOfRank rank * Nat.pow 10 places
  let readsBack (digits : Nat) := nearestRank (digits * unitsPerOne) (Nat.pow 10 places) == rank
  neighbour? readsBack (scaled / unitsPerOne) (roundHalfEven scaled unitsPerOne)

/-- The first count, from `count` on, at which something is found, with what
is found there. It tries `left` more counts, and then takes the one after. -/
def firstFound (find? : Nat → Option Nat) (last : Nat → Nat) : (left count : Nat) → Nat × Nat
  | 0, count => (last count, count)
  | left + 1, count =>
    match find? count with
    | some found => (found, count)
    | none => firstFound find? last left (count + 1)

/-- The decimal with the fewest places, one or more, that reads back, and the
count of its places. At 1074 places every magnitude is a decimal. -/
def shortestDecimal (rank : Nat) : Nat × Nat :=
  firstFound (decimalAt? rank)
    (fun places => unitsOfRank rank * Nat.pow 10 places / unitsPerOne) 1073 1

/-- Writes `digits / 10 ^ places` with a point and at least one digit before it. -/
def pointed (digits places : Nat) : List Char :=
  let written := Nat.toDigits 10 digits
  let padded := List.replicate (places + 1 - written.length) '0' ++ written
  padded.take (padded.length - places) ++ '.' :: padded.drop (padded.length - places)

/-- Writes the magnitude of a rank. -/
def magnitudeText (rank : Nat) : List Char :=
  let units := unitsOfRank rank
  if units % unitsPerOne = 0 then Nat.toDigits 10 (units / unitsPerOne)
  else
    let decimal := shortestDecimal rank
    pointed decimal.1 decimal.2

/-- Writes a number as the language prints it, never with an exponent. -/
def Number.chars : Number → List Char
  | nan => ['N', 'a', 'N']
  | infinite negative => (if negative then ['-'] else []) ++ ['i', 'n', 'f']
  | finite negative rank => (if negative then ['-'] else []) ++ magnitudeText rank

/-- The text of a number. -/
def Number.text (n : Number) : String := String.ofList n.chars

end FunkLang
