-- A second evaluator, in which a return is raised. It is a signal with the
-- value, which no statement looks at on its way; the call of a function takes
-- it, and outside of all functions it is a fault. What does not return is taken
-- from the machine as it is.
import FunkLang.Eval

namespace FunkLang

/-! ## Signals -/

/-- What ends a computation early: a stop, or a return on its way to its call. -/
inductive Signal
  | stop (s : Stop)
  | returned (v : Value)
deriving DecidableEq, Repr

/-- A run with an answer, in which returns are raised. -/
abbrev Raising := EStateM Signal Machine

namespace Raising

/-- An ending without returns, as one in which they could have been raised. -/
def signalled {α : Type} : EStateM.Result Stop Machine α → EStateM.Result Signal Machine α
  | .ok a m => .ok a m
  | .error stop m => .error (.stop stop) m

/-- A run that raises no return. -/
def lift {α : Type} (x : Run α) : Raising α := fun m => signalled (x m)

/-! ## Scopes, loops and calls -/

/-- Runs in a fresh scope inside `parent`, and goes back to the current scope in the end. -/
def enclosed {α : Type} (parent : Nat) (bindings : List (String × Value)) (body : Raising α) :
    Raising α := do
  let here := (← get).scope
  modify fun m => m.enclose parent bindings
  try
    body
  finally
    modify fun m => { m with scope := here }

/-- Runs the body as long as the test holds, and for at most `turns` turns. -/
def whileHolds (test : Raising Bool) (body : Raising Unit) : (turns : Nat) → Raising Unit
  | 0 => throw (.stop .endless)
  | turns + 1 => do
    if ← test then
      body
      whileHolds test body turns

/-- Runs the body of a function as one more active call, and takes the value that it returns. A
body that comes to its end has the value `nil`. -/
def activation (name : String) (line : Int) (body : Raising Unit) : Raising Value := do
  modify fun m => { m with depth := m.depth + 1 }
  try
    body
    pure .nil
  catch
    | .returned v => pure v
    | .stop .tooDeep => throw (.stop (.fault ⟨.callTooDeep name, some line⟩))
    | signal => throw signal
  finally
    modify fun m => { m with depth := m.depth - 1 }

/-- Calls a declared function. -/
def callClosure (limits : Limits) (run : Stmt → Raising Unit) (closure : Closure)
    (args : List Value) (line : Int) : Raising Value := do
  if args.length != closure.params.length then
    lift (Run.fail (.wrongCount closure.name closure.params.length args.length) line)
  else if limits.calls ≤ (← get).depth then
    lift (Run.fail (.tooManyCalls closure.name) line)
  else
    lift (Run.note (.called closure.name closure.params.length line))
    activation closure.name line
      (enclosed closure.scope (closure.params.zip args) (closure.body.forM run))

/-- Calls a value, if it is a function. -/
def callValue (limits : Limits) (room : Nat) (run : Stmt → Raising Unit) (callee : Value)
    (args : List Value) (line : Int) : Raising Value := do
  match callee with
  | .builtin b => lift (b.call room args line)
  | .function i => callClosure limits run ((← get).heap.function i) args line
  | v => lift (Run.fail (.notCallable v.kind) line)

end Raising

/-! ## Trees -/

open Raising in
mutual

/-- Evaluates an expression. -/
def Expr.evalRaising (limits : Limits) : (room : Nat) → Expr → Raising Value
  | _ + 3, .atom mark => lift (Run.atom mark)
  | room + 3, .unary op operand => do lift (Run.unary op (← operand.evalRaising limits room))
  | room + 3, .binary left op right => do
    let a ← left.evalRaising limits room
    let b ← right.evalRaising limits room
    lift (Run.binary room op left a b)
  | room + 3, .logical op left right => do
    let a ← lift (Run.truth (.logical op) (← left.evalRaising limits room) left.line)
    match op, a with
    | .and, false => return .bool false
    | .or, true => return .bool true
    | _, _ =>
      return .bool (← lift (Run.truth (.logical op) (← right.evalRaising limits room) left.line))
  | room + 3, .assign name value => do
    let v ← value.evalRaising limits room
    lift (Run.assign name.text v name.line)
    return v
  | room + 3, .assignIndex collection place value => do
    let c ← collection.evalRaising limits room
    let i ← place.evalRaising limits room
    lift (Run.setElement collection c i (← value.evalRaising limits room))
  | room + 3, .assignField collection key value => do
    let c ← collection.evalRaising limits room
    lift (Run.setField collection key.text c (← value.evalRaising limits room))
  | room + 3, .choice condition yes no => do
    if ← lift (Run.truth .choice (← condition.evalRaising limits room) yes.line) then
      yes.evalRaising limits room
    else no.evalRaising limits room
  | room + 5, .call callee arguments => do
    let f ← callee.evalRaising limits (room + 2)
    let args ← arguments.mapM fun a => a.evalRaising limits (room + 1)
    callValue limits room (fun s => s.execRaising limits room) f args callee.line
  | room + 4, .list _ elements => do
    let vs ← elements.mapM fun e => e.evalRaising limits room
    lift (Run.allocate (·.addList vs.toArray))
  | room + 3, .record _ entries => do
    let fields ← entries.mapM fun (key, e) => return (key.text, ← e.evalRaising limits room)
    lift (Run.allocate (·.addRecord (Table.empty.putAll fields)))
  | room + 3, .index collection place => do
    let c ← collection.evalRaising limits room
    lift (Run.element collection c (← place.evalRaising limits room))
  | room + 3, .field collection key => do
    lift (Run.field collection key.text (← collection.evalRaising limits room))
  | _, _ => throw (.stop .tooDeep)

/-- Runs a statement. -/
def Stmt.execRaising (limits : Limits) : (room : Nat) → Stmt → Raising Unit
  | room + 3, .expression _ value => do
    let _ ← value.evalRaising limits room
  | room + 3, .print _ value => do
    lift (Run.writeLine room [← value.evalRaising limits room])
  | room + 3, .make _ name value => do
    let v ← match value with
      | some e => e.evalRaising limits room
      | none => pure .nil
    lift (Run.declare name.text v)
  | room + 4, .block _ body => do
    enclosed (← get).scope [] (body.forM fun s => s.execRaising limits room)
  | room + 3, .if_ line condition yes no => do
    if ← lift (Run.truth .if_ (← condition.evalRaising limits room) line) then
      yes.execRaising limits room
    else match no with
      | some no => no.execRaising limits room
      | none => return ()
  | room + 3, .while_ line condition body =>
    whileHolds (do lift (Run.truth .while_ (← condition.evalRaising limits room) line))
      (body.execRaising limits room) limits.turns
  | _ + 3, .funk _ name params _ body => do
    let closure := ⟨name.text, params.map (·.text), body, (← get).scope⟩
    lift (Run.declare name.text (← lift (Run.allocate (·.addFunction closure))))
  | room + 3, .return_ _ value => do
    match value with
    | some e => throw (.returned (← e.evalRaising limits room))
    | none => throw (.returned .nil)
  | room + 4, .with_ _ value name body => do
    let v ← value.evalRaising limits (room + 1)
    enclosed (← get).scope [(name.text, v)] (body.execRaising limits room)
  | room + 4, .for_ line name items body => do
    match ← items.evalRaising limits (room + 1) with
    | .iter i =>
      ((← get).heap.iter i).toList.forM fun v => do
        enclosed (← get).scope [(name.text, v)] (body.execRaising limits room)
    | v => lift (Run.fail (.notIterable v.kind) line)
  | _, _ => throw (.stop .tooDeep)

end

/-! ## Programs -/

/-- Runs a statement that stands outside of all functions, where nothing takes a return. -/
def Stmt.execTopRaising (limits : Limits) (s : Stmt) : Raising Unit := do
  try
    s.execRaising limits limits.room
  catch
    | .returned _ => throw (.stop (.fault ⟨.strayReturn, some s.line⟩))
    | .stop .tooDeep => throw (.stop (.fault ⟨.tooDeep, some s.line⟩))
    | signal => throw signal

/-- Runs a whole program. -/
def evaluateRaising (limits : Limits) (program : List Stmt) : Raising Unit := do
  Raising.lift (Run.note (.evaluating program.length))
  program.forM (Stmt.execTopRaising limits)

end FunkLang
