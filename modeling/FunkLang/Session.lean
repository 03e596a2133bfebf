-- Sessions: several scripts, one after the other, in one global scope. A
-- script that fails ends there, and the next one finds what it left.
import FunkLang.Program

namespace FunkLang

/-! ## Running -/

/-- What one step of a session shows. -/
structure RunStep where
  output : String
  globals : List (String × String)
  depth : Nat
  atRoot : Bool
  failure : Option Failure

/-- The names of the root scope and the texts of their values, without the
built-in functions that are still under their names. -/
def Machine.globals (limits : Limits) (m : Machine) : List (String × String) :=
  (m.scopes.table ScopeTree.rootScope).entries.filterMap fun (name, v) =>
    match v with
    | .builtin b => if b.name = name then none else some (name, (v.text? m.heap 1).getD "")
    | v => some (name, (v.text? m.heap limits.room).getD "")

/-- Reads and runs one script on a machine. -/
def runStep (limits : Limits) (m : Machine) (source : String) : RunStep × Machine :=
  let m := { m with output := "" }
  let (failure, m) := match readScript source with
    | .ok program => runOn limits m program
    | .error failure => (some failure, m)
  (⟨m.output, m.globals limits, m.depth, m.scope == ScopeTree.rootScope, failure⟩, m)

/-- Runs scripts one after the other. -/
def runSession (limits : Limits) : Machine → List String → List RunStep
  | _, [] => []
  | m, source :: rest =>
    let (step, m) := runStep limits m source
    step :: runSession limits m rest

/-! ## Checking -/

/-- What one step of a session of checks shows. -/
structure CheckStep where
  types : List (String × Ty)
  atRoot : Bool
  failure : Option Failure

/-- Reads and checks one script in a context. -/
def checkStep (context : Context) (source : String) : CheckStep × Context :=
  let (failure, context) := match readScript source with
    | .ok program => checkIn context program
    | .error failure => (some failure, context)
  (⟨context.globals, context.scopes.length == 1, failure⟩, context)

/-- Checks scripts one after the other. -/
def checkSession : Context → List String → List CheckStep
  | _, [] => []
  | context, source :: rest =>
    let (step, context) := checkStep context source
    step :: checkSession context rest

end FunkLang
