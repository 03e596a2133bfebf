-- Running a program. Expressions are evaluated from left to right, and each
-- operator looks at its operands only when all of them have their values.
-- Every step into a part of the tree, and into the body of a called function,
-- takes some of the room for nesting.
import FunkLang.Builtin.Call
import FunkLang.Number.Literal
import FunkLang.Room

namespace FunkLang

/-- How far a run may go: how many calls of declared functions may be active,
the room for nesting, and how many turns a loop may take. -/
structure Limits where
  calls : Nat
  room : Nat
  turns : Nat
deriving Repr

/-- The limits of an ordinary run. No loop comes to the end of its turns. -/
def Limits.standard : Limits := ⟨1000, standardRoom, 4611686018427387904⟩

namespace Run

/-! ## Operators -/

/-- The truth value that a condition needs. -/
def truth (by_ : Condition) (v : Value) (line : Int) : Run Bool :=
  match v with
  | .bool b => return b
  | v => fail (.notBoolean by_ v.kind) line

/-- The value of a single token. A number token that no number is spelled like
counts as one that is not a number. -/
def atom (m : Mark Atom) : Run Value :=
  match m.kind with
  | .number => return .number ((Number.ofLiteral? m.text.toList).getD .nan)
  | .string => return .string m.text
  | .boolean => return .bool (m.text == "true")
  | .nil => return .nil
  | .name => lookup m.text m.line

def unary (op : Mark UnaryOp) (v : Value) : Run Value :=
  match op.kind, v with
  | .minus, .number n => return .number n.neg
  | .minus, v => fail (.notNumber "-" v.kind) op.line
  | .not, v => return .bool (!(← truth .not v op.line))

/-- Combines two numbers. What is no number is a fault at the line of `at_`. -/
def numeric (op : Mark BinaryOp) (combine : Number → Number → Value) (at_ : Expr) :
    (a b : Value) → Run Value
  | .number x, .number y => return combine x y
  | .number _, b => fail (.notNumber op.text b.kind) at_.line
  | a, _ => fail (.notNumber op.text a.kind) at_.line

def binary (room : Nat) (op : Mark BinaryOp) (at_ : Expr) (a b : Value) : Run Value :=
  match op.kind with
  | .plus =>
    match a, b with
    | .number x, .number y => return .number (x.add y)
    | .string s, .string t => return .string (s ++ t)
    | a, b => fail (.notAddable a.kind b.kind) at_.line
  | .minus => numeric op (fun x y => .number (x.sub y)) at_ a b
  | .times => numeric op (fun x y => .number (x.mul y)) at_ a b
  | .divide => numeric op (fun x y => .number (x.div y)) at_ a b
  | .less => numeric op (fun x y => .bool (x.lt y)) at_ a b
  | .lessEqual => numeric op (fun x y => .bool (x.le y)) at_ a b
  | .greater => numeric op (fun x y => .bool (y.lt x)) at_ a b
  | .greaterEqual => numeric op (fun x y => .bool (y.le x)) at_ a b
  | .equal => return .bool (← fitting (a.same? (← get).heap room b))
  | .unequal => return .bool (!(← fitting (a.same? (← get).heap room b)))

/-! ## Elements and fields -/

/-- The place that an index names among `length` elements. -/
def slot (length : Nat) (index : Value) (line : Int) : Run Nat :=
  match index with
  | .number n =>
    match n.toNat? with
    | some k => if k < length then return k else fail (.outOfRange n length) line
    | none => fail (.outOfRange n length) line
  | v => fail (.notIndex v.kind) line

/-- The element of a list, or the character of a string, at an index. -/
def element (at_ : Expr) (collection index : Value) : Run Value := do
  match collection with
  | .list i =>
    let elements := (← get).heap.list i
    return elements[← slot elements.size index at_.line]?.getD .nil
  | .string s =>
    let text := s.toList
    return .string (text[← slot text.length index at_.line]?.getD ' ').toString
  | v => fail (.notIndexable v.kind) at_.line

/-- Replaces an element of a list. -/
def setElement (at_ : Expr) (collection index v : Value) : Run Value := do
  match collection with
  | .list i =>
    let slot ← slot ((← get).heap.list i).size index at_.line
    changeHeap (·.setElement i slot v)
    return v
  | other => fail (.notIndexAssignable other.kind) at_.line

/-- The field of a record. -/
def field (at_ : Expr) (key : String) (collection : Value) : Run Value := do
  match collection with
  | .record i =>
    match ((← get).heap.record i).get? key with
    | some v => return v
    | none => fail (.noField key) at_.line
  | v => fail (.noFields key v.kind) at_.line

/-- Sets a field of a record. -/
def setField (at_ : Expr) (key : String) (collection v : Value) : Run Value := do
  match collection with
  | .record i =>
    changeHeap (·.setField i key v)
    return v
  | other => fail (.notFieldAssignable key other.kind) at_.line

/-! ## Calls -/

/-- Calls a declared function, whose statements `run` runs. -/
def callClosure (limits : Limits) (run : Stmt → Run Flow) (closure : Closure) (args : List Value)
    (line : Int) : Run Value := do
  if args.length != closure.params.length then
    fail (.wrongCount closure.name closure.params.length args.length) line
  else if limits.calls ≤ (← get).depth then
    fail (.tooManyCalls closure.name) line
  else
    note (.called closure.name closure.params.length line)
    activation closure.name line
      (enclosed closure.scope (closure.params.zip args) (inTurn run closure.body))

/-- Calls a value, if it is a function. -/
def callValue (limits : Limits) (room : Nat) (run : Stmt → Run Flow) (callee : Value)
    (args : List Value) (line : Int) : Run Value := do
  match callee with
  | .builtin b => b.call room args line
  | .function i => callClosure limits run ((← get).heap.function i) args line
  | v => fail (.notCallable v.kind) line

end Run

/-! ## Trees -/

open Run in
mutual

/-- Evaluates an expression. -/
def Expr.eval (limits : Limits) : (room : Nat) → Expr → Run Value
  | _ + 3, .atom mark => Run.atom mark
  | room + 3, .unary op operand => do Run.unary op (← operand.eval limits room)
  | room + 3, .binary left op right => do
    let a ← left.eval limits room
    let b ← right.eval limits room
    Run.binary room op left a b
  | room + 3, .logical op left right => do
    let a ← truth (.logical op) (← left.eval limits room) left.line
    match op, a with
    | .and, false => return .bool false
    | .or, true => return .bool true
    | _, _ => return .bool (← truth (.logical op) (← right.eval limits room) left.line)
  | room + 3, .assign name value => do
    let v ← value.eval limits room
    Run.assign name.text v name.line
    return v
  | room + 3, .assignIndex collection place value => do
    let c ← collection.eval limits room
    let i ← place.eval limits room
    setElement collection c i (← value.eval limits room)
  | room + 3, .assignField collection key value => do
    let c ← collection.eval limits room
    setField collection key.text c (← value.eval limits room)
  | room + 3, .choice condition yes no => do
    if ← truth .choice (← condition.eval limits room) yes.line then yes.eval limits room
    else no.eval limits room
  | room + 5, .call callee arguments => do
    let f ← callee.eval limits (room + 2)
    let args ← arguments.mapM fun a => a.eval limits (room + 1)
    callValue limits room (fun s => s.exec limits room) f args callee.line
  | room + 4, .list _ elements => do
    let vs ← elements.mapM fun e => e.eval limits room
    allocate (·.addList vs.toArray)
  | room + 3, .record _ entries => do
    let fields ← entries.mapM fun (key, e) => return (key.text, ← e.eval limits room)
    allocate (·.addRecord (Table.empty.putAll fields))
  | room + 3, .index collection place => do
    let c ← collection.eval limits room
    element collection c (← place.eval limits room)
  | room + 3, .field collection key => do
    Run.field collection key.text (← collection.eval limits room)
  | _, _ => throw .tooDeep

/-- Runs a statement. -/
def Stmt.exec (limits : Limits) : (room : Nat) → Stmt → Run Flow
  | room + 3, .expression _ value => do
    let _ ← value.eval limits room
    return .next
  | room + 3, .print _ value => do
    writeLine room [← value.eval limits room]
    return .next
  | room + 3, .make _ name value => do
    let v ← match value with
      | some e => e.eval limits room
      | none => pure .nil
    declare name.text v
    return .next
  | room + 4, .block _ body => do
    enclosed (← get).scope [] (inTurn (fun s => s.exec limits room) body)
  | room + 3, .if_ line condition yes no => do
    if ← truth .if_ (← condition.eval limits room) line then yes.exec limits room
    else match no with
      | some no => no.exec limits room
      | none => return .next
  | room + 3, .while_ line condition body =>
    whileHolds (do truth .while_ (← condition.eval limits room) line)
      (body.exec limits room) limits.turns
  | _ + 3, .funk _ name params _ body => do
    let closure := ⟨name.text, params.map (·.text), body, (← get).scope⟩
    declare name.text (← allocate (·.addFunction closure))
    return .next
  | room + 3, .return_ _ value => do
    match value with
    | some e => return .returned (← e.eval limits room)
    | none => return .returned .nil
  | room + 4, .with_ _ value name body => do
    let v ← value.eval limits (room + 1)
    enclosed (← get).scope [(name.text, v)] (body.exec limits room)
  | room + 4, .for_ line name items body => do
    match ← items.eval limits (room + 1) with
    | .iter i =>
      inTurn (fun v => do enclosed (← get).scope [(name.text, v)] (body.exec limits room))
        ((← get).heap.iter i).toList
    | v => fail (.notIterable v.kind) line
  | _, _ => throw .tooDeep

end

/-! ## Programs -/

/-- Runs a statement that stands outside of all functions. -/
def Stmt.execTop (limits : Limits) (s : Stmt) : Run Unit := fun m =>
  match s.exec limits limits.room m with
  | .ok .next m => .ok () m
  | .ok (.returned _) m => .error (.fault ⟨.strayReturn, some s.line⟩) m
  | .error .tooDeep m => .error (.fault ⟨.tooDeep, some s.line⟩) m
  | .error e m => .error e m

/-- Runs a whole program. -/
def evaluate (limits : Limits) (program : List Stmt) : Run Unit := do
  Run.note (.evaluating program.length)
  program.forM (Stmt.execTop limits)

/-- Calls a value from outside of any program. -/
def callFromOutside (limits : Limits) (callee : Value) (args : List Value) (line : Int) :
    Run Value :=
  Run.callValue limits limits.room (fun s => s.exec limits limits.room) callee args line

end FunkLang
