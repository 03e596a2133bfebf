-- The functions that are there without being declared.

namespace FunkLang

inductive Builtin
  | clock | println | input | iter | rangeTo | range | rangeSkip | len | push | toNumber | typeOf
deriving DecidableEq, Repr, Inhabited

namespace Builtin

/-- All of them, in the order in which they are made known. -/
def all : List Builtin :=
  [clock, println, input, iter, rangeTo, range, rangeSkip, len, push, toNumber, typeOf]

/-- The name that a script calls it by. -/
def name : Builtin → String
  | clock => "clock" | println => "println" | input => "input" | iter => "iter"
  | rangeTo => "range_to" | range => "range" | rangeSkip => "range_skip" | len => "len"
  | push => "push" | toNumber => "to_number" | typeOf => "type_of"

/-- How many arguments it takes, unless it takes any number. -/
def arity? : Builtin → Option Nat
  | clock | input => some 0
  | iter | rangeTo | len | toNumber | typeOf => some 1
  | range | push => some 2
  | rangeSkip => some 3
  | println => none

/-- Is this the name of a function that is there without being declared? -/
def isName (name : String) : Bool := all.any fun b => b.name == name

end Builtin
end FunkLang
