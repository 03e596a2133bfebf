-- What the built-in functions do. Each looks at its arguments from left to
-- right before it does anything, so one that fails has changed nothing.
import FunkLang.Machine
import FunkLang.Text.Blank

namespace FunkLang
namespace Builtin

/-- A bound of a range: a number that is a natural one. -/
def bound (b : Builtin) (v : Value) (line : Int) : Run Nat :=
  match v with
  | .number n =>
    match n.toNat? with
    | some k => return k
    | none => Run.fail (.badBound b n) line
  | v => Run.fail (.badArgument b v.kind) line

/-- The numbers `low`, `low + step`, ... below `high`. -/
def progression (low high step : Nat) : Array Value :=
  (Array.range ((high - low + step - 1) / step)).map fun i => .number (.ofNat (low + i * step))

/-- An iter of the numbers from `low` up to `high`, by steps of `step`. -/
def rangeIter (b : Builtin) (low high step : Nat) (line : Int) : Run Value :=
  if high < low then Run.fail (.backwards b) line
  else if step = 0 then Run.fail .zeroStep line
  else Run.allocate (·.addIter (progression low high step))

/-- The number that a text is, blanks around it aside. -/
def readNumber (text : String) (line : Int) : Run Value :=
  match Number.ofText? (trimBlanks text.toList) with
  | some n => return .number n
  | none => Run.fail (.notNumeral text) line

/-- A fresh iter of the elements of a list or an iter, or of the characters of a string. -/
def makeIter (v : Value) (line : Int) : Run Value := do
  match v with
  | .list i =>
    let elements := (← get).heap.list i
    Run.allocate (·.addIter elements)
  | .iter i =>
    let elements := (← get).heap.iter i
    Run.allocate (·.addIter elements)
  | .string s =>
    Run.allocate (·.addIter (s.toList.map fun c => Value.string c.toString).toArray)
  | v => Run.fail (.badArgument iter v.kind) line

/-- The count of the elements of a list or an iter, or of the characters of a string. -/
def size (v : Value) (line : Int) : Run Value := do
  let heap := (← get).heap
  match v with
  | .list i => return .number (.ofNat (heap.list i).size)
  | .iter i => return .number (.ofNat (heap.iter i).size)
  | .string s => return .number (.ofNat s.length)
  | v => Run.fail (.badArgument len v.kind) line

/-- Calls a built-in function. Writing a text takes two of the room. -/
def call (room : Nat) (b : Builtin) (args : List Value) (line : Int) : Run Value :=
  match b, args with
  | clock, [] => return .number (.ofNat (← Run.readClock))
  | println, values => do
    Run.writeLine (room - 2) values
    return .nil
  | input, [] => return .string (← Run.readLine)
  | iter, [v] => makeIter v line
  | rangeTo, [high] => do rangeIter rangeTo 0 (← bound rangeTo high line) 1 line
  | range, [low, high] => do
    let low ← bound range low line
    let high ← bound range high line
    rangeIter range low high 1 line
  | rangeSkip, [low, high, step] => do
    let low ← bound rangeSkip low line
    let high ← bound rangeSkip high line
    let step ← bound rangeSkip step line
    rangeIter rangeSkip low high step line
  | len, [v] => size v line
  | push, [.list i, v] => do
    Run.changeHeap (·.push i v)
    return .list i
  | push, [v, _] => Run.fail (.badArgument push v.kind) line
  | toNumber, [.number n] => return .number n
  | toNumber, [.string s] => readNumber s line
  | toNumber, [v] => Run.fail (.badArgument toNumber v.kind) line
  | typeOf, [v] => return .string v.kind.name
  | b, args => Run.fail (.wrongCount b.name (b.arity?.getD 0) args.length) line

end Builtin
end FunkLang
