-- What can go wrong in a run: the cause of a fault, the message that names
-- it, and the line that it is reported at.
import FunkLang.Number.Numeral
import FunkLang.Scope
import FunkLang.Text.Located
import FunkLang.Value

namespace FunkLang

/-! ## Causes -/

inductive FaultCause
  /-- A name that stands for nothing. -/
  | undefined (name : String)
  /-- The root has no scope around it. -/
  | outsideRoot
  /-- A return that no call can take. -/
  | strayReturn
  /-- A call when as many as may be are active. -/
  | tooManyCalls (name : String)
  /-- A call whose work needs more nesting than there is room for. -/
  | callTooDeep (name : String)
  /-- A statement outside of all functions that needs more nesting than there is room for. -/
  | tooDeep
  | notBoolean (by_ : Condition) (kind : ValueKind)
  | notNumber (operator : String) (kind : ValueKind)
  | notAddable (left right : ValueKind)
  | notIndex (kind : ValueKind)
  | notIndexable (kind : ValueKind)
  | notIndexAssignable (kind : ValueKind)
  | noFields (key : String) (kind : ValueKind)
  | notFieldAssignable (key : String) (kind : ValueKind)
  | notCallable (kind : ValueKind)
  | notIterable (kind : ValueKind)
  /-- An argument of the wrong kind for a built-in function. -/
  | badArgument (by_ : Builtin) (kind : ValueKind)
  /-- A call with the wrong number of arguments. -/
  | wrongCount (name : String) (expected given : Nat)
  | outOfRange (index : Number) (length : Nat)
  | noField (key : String)
  /-- A bound of a range that is no natural number. -/
  | badBound (by_ : Builtin) (n : Number)
  /-- A range whose bounds are the wrong way round. -/
  | backwards (by_ : Builtin)
  | zeroStep
  /-- A text that is no number. -/
  | notNumeral (text : String)
deriving DecidableEq, Repr

/-- The arguments that a built-in function takes, as its message says it. -/
def Builtin.wanted : Builtin → String
  | .iter => "a list or string"
  | .len => "a list, string or iter"
  | .push => "a list"
  | .toNumber => "a string"
  | _ => "a number"

namespace FaultCause

def message : FaultCause → String
  | undefined name => "undefined variable '" ++ name ++ "'"
  | outsideRoot => "global environment has no enclosing scope"
  | strayReturn => "cannot return from top-level code"
  | tooManyCalls name => "maximum call depth exceeded in " ++ name
  | callTooDeep name => "maximum call depth exceeded in " ++ name
  | tooDeep => "expression nested too deeply"
  | notBoolean by_ kind => by_.text ++ " expects a boolean, got " ++ kind.name
  | notNumber operator kind => "operator '" ++ operator ++ "' expects a number, got " ++ kind.name
  | notAddable left right =>
    "operator '+' cannot be applied to " ++ left.name ++ " and " ++ right.name
  | notIndex kind => "index must be a number, got " ++ kind.name
  | notIndexable kind => "cannot index into " ++ kind.name
  | notIndexAssignable kind => "cannot assign by index into " ++ kind.name
  | noFields key kind => "cannot read field '" ++ key ++ "' of " ++ kind.name
  | notFieldAssignable key kind => "cannot assign field '" ++ key ++ "' on " ++ kind.name
  | notCallable kind => "cannot call a value of type " ++ kind.name
  | notIterable kind => "for expects an iter, got " ++ kind.name
  | badArgument by_ kind => by_.name ++ " expects " ++ by_.wanted ++ ", got " ++ kind.name
  | wrongCount name expected given =>
    name ++ " expects " ++ toString expected ++ " arguments, got " ++ toString given
  | outOfRange index length =>
    "index " ++ index.text ++ " out of range for length " ++ toString length
  | noField key => "record has no field '" ++ key ++ "'"
  | badBound by_ n => by_.name ++ " expects a non-negative integer, got " ++ n.text
  | backwards by_ => by_.name ++ " expects min <= max"
  | zeroStep => "range_skip expects a positive step"
  | notNumeral text => "cannot convert '" ++ text ++ "' to a number"

end FaultCause

/-! ## Faults -/

/-- A cause and the line that it is reported at, where it has one. -/
structure Fault where
  cause : FaultCause
  line : Option Int
deriving DecidableEq, Repr

def Fault.text (f : Fault) : String := located f.cause.message f.line

/-! ## Scope operations that may fail -/

namespace ScopeTree

variable {α : Type}

/-- What a name stands for in a scope; it has to stand for something. -/
def get (t : ScopeTree α) (s : Nat) (name : String) (line : Option Int) : Except Fault α :=
  match t.get? s name with
  | some value => .ok value
  | none => .error ⟨.undefined name, line⟩

/-- Sets a name where it is found from a scope; it has to be found. -/
def assign (t : ScopeTree α) (s : Nat) (name : String) (value : α) (line : Option Int) :
    Except Fault (ScopeTree α) :=
  match t.assign? s name value with
  | some t => .ok t
  | none => .error ⟨.undefined name, line⟩

/-- The scope around a scope; there has to be one. -/
def enclosing (t : ScopeTree α) (s : Nat) : Except Fault Nat :=
  match t.parent? s with
  | some p => .ok p
  | none => .error ⟨.outsideRoot, none⟩

end ScopeTree
end FunkLang
