-- One character in quotes, for a message. What cannot be shown stands as an
-- escape: a short one, or its number in two, four or eight hexadecimal digits.
import FunkLang.Text.Printable

namespace FunkLang

/-- A number in lower-case hexadecimal digits, at least `width` of them. -/
def hexDigits (width n : Nat) : List Char :=
  let written := Nat.toDigits 16 n
  List.replicate (width - written.length) '0' ++ written

/-- A character as it stands between quotes. -/
def escaped (c : Char) : List Char :=
  if c = '\\' then ['\\', '\\']
  else if c = '\t' then ['\\', 't']
  else if c = '\n' then ['\\', 'n']
  else if c = '\r' then ['\\', 'r']
  else if isPrintable c then [c]
  else if c.toNat < 0x100 then '\\' :: 'x' :: hexDigits 2 c.toNat
  else if c.toNat < 0x10000 then '\\' :: 'u' :: hexDigits 4 c.toNat
  else '\\' :: 'U' :: hexDigits 8 c.toNat

/-- A character in single quotes. -/
def quoted (c : Char) : String := String.ofList ('\'' :: escaped c ++ ['\''])

end FunkLang
