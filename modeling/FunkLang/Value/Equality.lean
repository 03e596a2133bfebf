-- Equality of values. Lists, iters and records are equal when their parts
-- are, compared as deep as the room lasts; functions are equal only to
-- themselves, and a number that is not a number is equal to nothing.
import FunkLang.Value

namespace FunkLang

/-- Compares two lists of values in step, up to the first difference. -/
def allSame (same? : Value → Value → Option Bool) : List Value → List Value → Option Bool
  | [], [] => some true
  | x :: xs, y :: ys =>
    match same? x y with
    | some true => allSame same? xs ys
    | answer => answer
  | _, _ => some false

/-- Compares two runs of elements: first their lengths, then the elements in step. -/
def sameElements (same? : Value → Value → Option Bool) (a b : Array Value) : Option Bool :=
  if a.size = b.size then allSame same? a.toList b.toList else some false

/-- Compares two tables: first their names, in any order, then the values in
the order of the first. -/
def sameFields (same? : Value → Value → Option Bool) (a b : Table Value) : Option Bool :=
  if a.names.length = b.names.length && a.names.all b.contains then
    allSame same? (a.entries.map (·.2)) (a.names.filterMap b.get?)
  else some false

/-- Whether two values are equal, if the comparison fits into the room. -/
def Value.same? (h : Heap) : (room : Nat) → Value → Value → Option Bool
  | room + 3, list i, list j => sameElements (same? h room) (h.list i) (h.list j)
  | room + 3, iter i, iter j => sameElements (same? h room) (h.iter i) (h.iter j)
  | room + 3, record i, record j => sameFields (same? h room) (h.record i) (h.record j)
  | _, list _, list _ => none
  | _, iter _, iter _ => none
  | _, record _, record _ => none
  | _, nil, nil => some true
  | _, bool x, bool y => some (x == y)
  | _, number x, number y => some (x.same y)
  | _, string x, string y => some (x == y)
  | _, builtin x, builtin y => some (x == y)
  | _, function i, function j => some (i == j)
  | _, _, _ => some false

end FunkLang
