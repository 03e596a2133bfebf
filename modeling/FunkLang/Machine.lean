-- The machine that runs a program: its scopes and objects, what it has
-- written, and what it has still to read. A run changes the machine step by
-- step, and the changes made before a fault stay.
import FunkLang.Fault
import FunkLang.Value.Equality
import FunkLang.Value.Rendering

namespace FunkLang

/-! ## Notes -/

/-- What a machine notes about its run. -/
inductive Note
  | registered (b : Builtin)
  | evaluating (count : Nat)
  | called (name : String) (count : Nat) (line : Int)
deriving DecidableEq, Repr

def Note.text : Note → String
  | registered b => "registered builtin " ++ b.name
  | evaluating count => "evaluating " ++ toString count ++ " statements"
  | called name count line =>
    "call " ++ name ++ "/" ++ toString count ++ " at line " ++ toString line

/-! ## The machine -/

/-- The state of a run. `scope` is the current one, `depth` counts the calls
of declared functions that are active, and `clock` is in milliseconds. -/
structure Machine where
  scopes : ScopeTree Value
  scope : Nat
  heap : Heap
  depth : Nat
  output : String
  unread : List Char
  clock : Nat
  notes : Array Note

/-- The root scope of every run: the built-in functions under their names. -/
def builtinScopes : ScopeTree Value :=
  Builtin.all.foldl (fun t b => t.declareGlobal ScopeTree.rootScope b.name (.builtin b)) .root

/-- A machine before its run, with the text that it will read. -/
def Machine.start (input : String) (clock : Nat) : Machine :=
  { scopes := builtinScopes
    scope := ScopeTree.rootScope
    heap := .empty
    depth := 0
    output := ""
    unread := input.toList
    clock
    notes := (Builtin.all.map Note.registered).toArray }

/-- The machine in a fresh scope inside `parent`, with the bindings under their names. Of two
bindings of one name the later counts. -/
def Machine.enclose (m : Machine) (parent : Nat) (bindings : List (String × Value)) : Machine :=
  let (scopes, scope) := m.scopes.enclose parent
  { m with scopes := scopes.declareAll scope bindings, scope }

/-! ## Runs -/

/-- What ends a run early: a fault, more nesting than there is room for, or a
loop that takes more turns than anyone waits for. -/
inductive Stop
  | fault (f : Fault)
  | tooDeep
  | endless
deriving DecidableEq, Repr

/-- A run with an answer. -/
abbrev Run := EStateM Stop Machine

/-- How a statement ends: it lets the next one run, or it returns a value
from the function around it. -/
inductive Flow
  | next
  | returned (v : Value)
deriving DecidableEq, Repr, Inhabited

namespace Run

def fail {α : Type} (cause : FaultCause) (line : Int) : Run α :=
  throw (.fault ⟨cause, some line⟩)

/-- Gives an answer that is there, if the nesting had room for it. -/
def fitting {α : Type} : Option α → Run α
  | some a => return a
  | none => throw .tooDeep

def note (n : Note) : Run Unit := modify fun m => { m with notes := m.notes.push n }

/-! ### Text in and out -/

def write (text : String) : Run Unit := modify fun m => { m with output := m.output ++ text }

/-- Writes values side by side and ends the line, once all of them have a text. -/
def writeLine (room : Nat) (values : List Value) : Run Unit := do
  let heap := (← get).heap
  let texts ← fitting (values.mapM (Value.text? heap room))
  write (joined "" texts ++ "\n")

/-- A line without its end: the line feed, and one carriage return before it. -/
def withoutReturn (line : List Char) : List Char :=
  if line.getLast? = some '\r' then line.dropLast else line

/-- Takes a line of the input. Past the last line there is the empty one. -/
def readLine : Run String := do
  let unread := (← get).unread
  modify fun m => { m with unread := (unread.dropWhile (· != '\n')).drop 1 }
  return String.ofList (withoutReturn (unread.takeWhile (· != '\n')))

/-- Reads the clock, which moves on at every reading. -/
def readClock : Run Nat := do
  let now := (← get).clock
  modify fun m => { m with clock := now + 1 }
  return now

/-! ### Names -/

/-- What a name stands for in the current scope. -/
def lookup (name : String) (line : Int) : Run Value := do
  let m ← get
  match m.scopes.get m.scope name (some line) with
  | .ok v => return v
  | .error f => throw (.fault f)

/-- Sets a name in a scope. -/
def declareIn (scope : Nat) (name : String) (v : Value) : Run Unit :=
  modify fun m => { m with scopes := m.scopes.declare scope name v }

/-- Sets a name in the current scope. -/
def declare (name : String) (v : Value) : Run Unit := do declareIn (← get).scope name v

/-- Sets a name where it is found. It has to be there already. -/
def assign (name : String) (v : Value) (line : Int) : Run Unit := do
  let m ← get
  match m.scopes.home? m.scope name with
  | some home => declareIn home name v
  | none => fail (.undefined name) line

/-- Runs in a fresh scope inside `parent`, with the bindings under their names, and goes back to
the current scope however the run ends. -/
def enclosed {α : Type} (parent : Nat) (bindings : List (String × Value)) (body : Run α) :
    Run α := fun m =>
  let here := m.scope
  match body (m.enclose parent bindings) with
  | .ok a m => .ok a { m with scope := here }
  | .error e m => .error e { m with scope := here }

/-! ### Objects -/

/-- Makes a new object in the heap. -/
def allocate (make : Heap → Value × Heap) : Run Value := fun m =>
  let (v, heap) := make m.heap
  .ok v { m with heap }

def changeHeap (change : Heap → Heap) : Run Unit := modify fun m => { m with heap := change m.heap }

/-! ### Calls -/

/-- Runs the body of a function as one more active call, however it ends. A
body that needs more nesting than there is room for is a fault of its call. -/
def activation (name : String) (line : Int) (body : Run Flow) : Run Value := fun m =>
  match body { m with depth := m.depth + 1 } with
  | .ok .next m => .ok .nil { m with depth := m.depth - 1 }
  | .ok (.returned v) m => .ok v { m with depth := m.depth - 1 }
  | .error .tooDeep m => .error (.fault ⟨.callTooDeep name, some line⟩) { m with depth := m.depth - 1 }
  | .error e m => .error e { m with depth := m.depth - 1 }

/-! ### One thing after the other -/

/-- Does something for each item in order, up to the first return. -/
def inTurn {α : Type} (act : α → Run Flow) : List α → Run Flow
  | [] => return .next
  | a :: rest => do
    match ← act a with
    | .next => inTurn act rest
    | .returned v => return .returned v

/-- Runs the body as long as the test holds, up to the first return, and for
at most `turns` turns. -/
def whileHolds (test : Run Bool) (body : Run Flow) : (turns : Nat) → Run Flow
  | 0 => throw .endless
  | turns + 1 => do
    if ← test then
      match ← body with
      | .next => whileHolds test body turns
      | .returned v => return .returned v
    else return .next

end Run
end FunkLang
