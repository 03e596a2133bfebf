-- Types as the checker sees them, before a run: one for each sort of value,
-- and the unknown type for what only a run can tell. The unknown type is
-- accepted wherever a known one is asked for.
import FunkLang.Builtin
import FunkLang.Table
import FunkLang.Text.Located
import FunkLang.Tree

namespace FunkLang

/-! ## Types -/

inductive Ty
  | number | boolean | string | nil | function | list | record | unknown
deriving DecidableEq, Repr, Inhabited

def Ty.name : Ty → String
  | number => "number" | boolean => "boolean" | string => "string" | nil => "nil"
  | function => "function" | list => "list" | record => "record" | unknown => "unknown"

/-- Is a type accepted where `wanted` is asked for? -/
def Ty.fits (t wanted : Ty) : Bool := t == .unknown || t == wanted

/-! ## Errors -/

inductive TypeProblem
  | undefined (name : String)
  | notNumber (t : Ty)
  | notBoolean (t : Ty)
  | operands (operator : String) (left right : Ty)
  | notBooleans (op : LogicalOp) (left right : Ty)
  | condition (by_ : Condition) (t : Ty)
  | notIndexAssignable (t : Ty)
  | notListIndex (t : Ty)
  | notFieldAssignable (key : String) (t : Ty)
  | notCallable (t : Ty)
  | notIndexable (t : Ty)
  | notIndex (t : Ty)
  | noFields (key : String) (t : Ty)
  | notIterable (t : Ty)
  | tooDeep
deriving DecidableEq, Repr

namespace TypeProblem

def message : TypeProblem → String
  | undefined name => "undefined variable '" ++ name ++ "'"
  | notNumber t => "operator '-' expects a number, got " ++ t.name
  | notBoolean t => "operator '!' expects a boolean, got " ++ t.name
  | operands operator left right =>
    "operator '" ++ operator ++ "' cannot be applied to " ++ left.name ++ " and " ++ right.name
  | notBooleans op left right =>
    "operator '" ++ op.text ++ "' expects booleans, got " ++ left.name ++ " and " ++ right.name
  | condition by_ t => by_.text ++ " condition must be boolean, got " ++ t.name
  | notIndexAssignable t => "cannot assign by index into " ++ t.name
  | notListIndex t => "list index must be a number, got " ++ t.name
  | notFieldAssignable key t => "cannot assign field '" ++ key ++ "' on " ++ t.name
  | notCallable t => "cannot call a value of type " ++ t.name
  | notIndexable t => "cannot index into " ++ t.name
  | notIndex t => "index must be a number, got " ++ t.name
  | noFields key t => "cannot read field '" ++ key ++ "' of " ++ t.name
  | notIterable t => "for expects an iter, got " ++ t.name
  | tooDeep => "program nested too deeply to check"

end TypeProblem

/-- The first thing wrong with the types of a program, and its line. -/
structure TypeError where
  problem : TypeProblem
  line : Option Int
deriving DecidableEq, Repr

def TypeError.text (e : TypeError) : String := located e.problem.message e.line

/-! ## Contexts -/

/-- The names in sight and their types, the innermost scope first, and the
names declared so far that were in sight already. -/
structure Context where
  scopes : List (Table Ty)
  shadowed : Array Name

namespace Context

/-- The context of every program: the built-in functions. -/
def start : Context :=
  ⟨[Table.empty.putAll (Builtin.all.map fun b => (b.name, .function))], #[]⟩

def get? (c : Context) (name : String) : Option Ty := c.scopes.findSome? fun s => s.get? name

/-- Sets a name in the innermost scope. -/
def declare (c : Context) (name : String) (t : Ty) : Context :=
  { c with scopes := c.scopes.modifyHead fun s => s.put name t }

/-- Scopes with a name set where it is found first, if it is found. -/
def setFirst (name : String) (t : Ty) : List (Table Ty) → Option (List (Table Ty))
  | [] => none
  | s :: rest =>
    if s.contains name then some (s.put name t :: rest) else (setFirst name t rest).map (s :: ·)

/-- Sets a name in the nearest scope that has it, if one has. -/
def assign? (c : Context) (name : String) (t : Ty) : Option Context :=
  (setFirst name t c.scopes).map fun scopes => { c with scopes }

/-- The types of the outermost scope, without the built-in functions that are still that. -/
def globals (c : Context) : List (String × Ty) :=
  ((c.scopes.getLast?.map (·.entries)).getD []).filter fun (name, t) =>
    !(Builtin.isName name && t == .function)

end Context
end FunkLang
