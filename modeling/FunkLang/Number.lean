-- The numbers of the language: the doubles of IEEE 754, held exactly.
-- The finite magnitudes are numbered upward from 0, so a number is a sign
-- and a rank. Every operation computes the exact result and then takes the
-- nearest rank, and a tie goes to the even rank.

namespace FunkLang

/-! ## Magnitudes by rank -/

/-- The ranks of one binade: magnitudes of one exponent lie evenly spaced. -/
def binade : Nat := 4503599627370496

/-- How many finite magnitudes there are. The next rank stands for infinity. -/
def finiteRanks : Nat := 2047 * binade

/-- The number one, counted in units of the least positive magnitude. -/
def unitsPerOne : Nat := 1 <<< 1074

/-- The exact size of a magnitude, in units of the least positive one. The
first two binades are spaced by one unit, and each later one by twice the
spacing of the one before. -/
def unitsOfRank (rank : Nat) : Nat :=
  if rank < binade then rank
  else (binade + rank % binade) <<< (rank / binade - 1)

/-- A quotient rounded to the nearest whole number, a half to the even one. -/
def roundHalfEven (num den : Nat) : Nat :=
  let whole := num / den
  let twice := 2 * (num % den)
  if den < twice || (den == twice && whole % 2 == 1) then whole + 1 else whole

/-- The rank nearest to `num / den` units. Past the last finite magnitude it
is `finiteRanks` or more. -/
def nearestRank (num den : Nat) : Nat :=
  let shift := (num / den).log2 - 52
  shift * binade + roundHalfEven num (den <<< shift)

/-! ## The type -/

/-- A double: not a number, an infinity, or a sign with the rank of a finite
magnitude. Zero has both signs. -/
inductive Number
  | nan
  | infinite (negative : Bool)
  | finite (negative : Bool) (rank : Fin finiteRanks)
deriving DecidableEq, Repr

namespace Number

instance : Inhabited Number := ⟨nan⟩

/-- The number with this sign whose magnitude is nearest to `num / den` units. -/
def ofUnits (negative : Bool) (num den : Nat) : Number :=
  let rank := nearestRank num den
  if h : rank < finiteRanks then finite negative ⟨rank, h⟩ else infinite negative

/-- The number nearest to a natural number. -/
def ofNat (n : Nat) : Number := ofUnits false (n * unitsPerOne) 1

/-- The number with this sign nearest to `digits / 10 ^ places`. -/
def ofDecimal (negative : Bool) (digits places : Nat) : Number :=
  ofUnits negative (digits * unitsPerOne) (Nat.pow 10 places)

/-! ## Bits -/

/-- The number whose 64 bits, read as a natural number, are `bits`. -/
def ofBits (bits : Nat) : Number :=
  let negative := bits / (2048 * binade) % 2 == 1
  let rank := bits % (2048 * binade)
  if h : rank < finiteRanks then finite negative ⟨rank, h⟩
  else if rank = finiteRanks then infinite negative
  else nan

/-- The 64 bits of a number, as a natural number. All that is not a number
has one pattern here. -/
def toBits : Number → Nat
  | nan => finiteRanks + binade / 2
  | infinite negative => (if negative then 2048 * binade else 0) + finiteRanks
  | finite negative rank => (if negative then 2048 * binade else 0) + rank

/-! ## Order -/

/-- The place of a number on the line, from the negative infinity to the
positive one. Both zeros share place 0. -/
def place? : Number → Option Int
  | nan => none
  | infinite negative => some (if negative then -(finiteRanks : Int) else finiteRanks)
  | finite negative rank => some (if negative then -(rank.val : Int) else rank.val)

/-- Compares the places of two numbers. What is not a number compares with nothing. -/
def compareBy (holds : Int → Int → Bool) (a b : Number) : Bool :=
  match a.place?, b.place? with
  | some x, some y => holds x y
  | _, _ => false

def lt (a b : Number) : Bool := compareBy (fun x y => x < y) a b

def le (a b : Number) : Bool := compareBy (fun x y => x ≤ y) a b

/-- Numerical equality: zero equals zero whatever the signs. -/
def same (a b : Number) : Bool := compareBy (fun x y => x == y) a b

/-! ## Arithmetic -/

def neg : Number → Number
  | nan => nan
  | infinite negative => infinite (!negative)
  | finite negative rank => finite (!negative) rank

/-- The exact size with its sign, in units. -/
def signedUnits (negative : Bool) (rank : Nat) : Int :=
  if negative then -(unitsOfRank rank : Int) else unitsOfRank rank

/-- The nearest number to the sum. A sum of zero is negative only when both
terms are negative zeros. -/
def add : Number → Number → Number
  | nan, _ => nan
  | _, nan => nan
  | infinite s, infinite t => if s = t then infinite s else nan
  | infinite s, finite _ _ => infinite s
  | finite _ _, infinite t => infinite t
  | finite s q, finite t r =>
    let sum := signedUnits s q + signedUnits t r
    ofUnits (if sum = 0 then s && t else sum < 0) sum.natAbs 1

def sub (a b : Number) : Number := add a (neg b)

def mul : Number → Number → Number
  | nan, _ => nan
  | _, nan => nan
  | infinite s, infinite t => infinite (s != t)
  | infinite s, finite t r => if r.val = 0 then nan else infinite (s != t)
  | finite s q, infinite t => if q.val = 0 then nan else infinite (s != t)
  | finite s q, finite t r =>
    ofUnits (s != t) (unitsOfRank q * unitsOfRank r) unitsPerOne

/-- The nearest number to the quotient. Dividing by zero gives a signed
infinity, and zero by zero is not a number. -/
def div : Number → Number → Number
  | nan, _ => nan
  | _, nan => nan
  | infinite _, infinite _ => nan
  | infinite s, finite t _ => infinite (s != t)
  | finite s _, infinite t => finite (s != t) ⟨0, by decide⟩
  | finite s q, finite t r =>
    if r.val = 0 then
      if q.val = 0 then nan else infinite (s != t)
    else ofUnits (s != t) (unitsOfRank q * unitsPerOne) (unitsOfRank r)

/-! ## Whole numbers -/

/-- The natural number that a number is, if it is one. Negative zero is 0. -/
def toNat? : Number → Option Nat
  | finite negative rank =>
    let units := unitsOfRank rank
    if (negative && rank.val != 0) || units % unitsPerOne != 0 then none
    else some (units / unitsPerOne)
  | _ => none

end Number
end FunkLang
