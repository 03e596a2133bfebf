-- Values, and the heap that holds what they share. A list, an iter, a record
-- or a function is a number in the heap: two values with the same number are
-- one object, and a change made through one shows through the other.
import FunkLang.Builtin
import FunkLang.Number
import FunkLang.Table
import FunkLang.Tree

namespace FunkLang

/-! ## Values -/

inductive Value
  | nil
  | bool (b : Bool)
  | number (n : Number)
  | string (s : String)
  | builtin (b : Builtin)
  | function (at_ : Nat)
  | list (at_ : Nat)
  | iter (at_ : Nat)
  | record (at_ : Nat)
deriving DecidableEq, Repr

instance : Inhabited Value := ⟨.nil⟩

/-- What sort of value a value is. -/
inductive ValueKind
  | nil | boolean | number | string | builtin | function | list | iter | record
deriving DecidableEq, Repr, Inhabited

def ValueKind.name : ValueKind → String
  | nil => "nil" | boolean => "boolean" | number => "number" | string => "string"
  | builtin => "builtin" | function => "function" | list => "list" | iter => "iter"
  | record => "record"

def Value.kind : Value → ValueKind
  | nil => .nil
  | bool _ => .boolean
  | number _ => .number
  | string _ => .string
  | builtin _ => .builtin
  | function _ => .function
  | list _ => .list
  | iter _ => .iter
  | record _ => .record

/-! ## The heap -/

/-- A declared function, and the scope that it was declared in. -/
structure Closure where
  name : String
  params : List String
  body : List Stmt
  scope : Nat

instance : Inhabited Closure := ⟨"", [], [], 0⟩

/-- The shared objects, each sort numbered from 0. -/
structure Heap where
  lists : Array (Array Value)
  iters : Array (Array Value)
  records : Array (Table Value)
  functions : Array Closure

namespace Heap

def empty : Heap := ⟨#[], #[], #[], #[]⟩

instance : Inhabited Heap := ⟨empty⟩

/-- The elements of a list. -/
def list (h : Heap) (at_ : Nat) : Array Value := h.lists[at_]?.getD #[]

/-- The elements of an iter. -/
def iter (h : Heap) (at_ : Nat) : Array Value := h.iters[at_]?.getD #[]

/-- The fields of a record. -/
def record (h : Heap) (at_ : Nat) : Table Value := h.records[at_]?.getD .empty

/-- A declared function. -/
def function (h : Heap) (at_ : Nat) : Closure := h.functions[at_]?.getD default

/-- Makes a new list. -/
def addList (h : Heap) (elements : Array Value) : Value × Heap :=
  (.list h.lists.size, { h with lists := h.lists.push elements })

/-- Makes a new iter. -/
def addIter (h : Heap) (elements : Array Value) : Value × Heap :=
  (.iter h.iters.size, { h with iters := h.iters.push elements })

/-- Makes a new record. -/
def addRecord (h : Heap) (fields : Table Value) : Value × Heap :=
  (.record h.records.size, { h with records := h.records.push fields })

/-- Makes a new function. -/
def addFunction (h : Heap) (closure : Closure) : Value × Heap :=
  (.function h.functions.size, { h with functions := h.functions.push closure })

/-- Appends an element to a list. -/
def push (h : Heap) (at_ : Nat) (v : Value) : Heap :=
  { h with lists := h.lists.modify at_ (·.push v) }

/-- Replaces an element of a list. -/
def setElement (h : Heap) (at_ slot : Nat) (v : Value) : Heap :=
  { h with lists := h.lists.modify at_ (·.setIfInBounds slot v) }

/-- Sets a field of a record. -/
def setField (h : Heap) (at_ : Nat) (key : String) (v : Value) : Heap :=
  { h with records := h.records.modify at_ (·.put key v) }

end Heap
end FunkLang
