-- Scripts as a whole: reading, printing, checking and running them. Each
-- failure says which of these it came from.
import FunkLang.Eval
import FunkLang.Token.Scan
import FunkLang.Tree.Printer
import FunkLang.Tree.Statement
import FunkLang.Typing.Check

namespace FunkLang

/-- Why a script did not come to its end. -/
inductive Failure
  | scan (e : ScanError)
  | parse (e : ParseError)
  | typing (e : TypeError)
  | fault (f : Fault)
  /-- A loop took more turns than a run has patience for. -/
  | endless
deriving DecidableEq, Repr

def Failure.text : Failure → String
  | scan e => e.text
  | parse e => e.text
  | typing e => e.text
  | fault f => f.text
  | endless => "loop does not end"

/-- A program, or why there is none. -/
abbrev Reading := Except Failure (List Stmt)

/-- The program that a token list is. -/
def readTokens (tokens : List Token) : Reading := (parseTokens standardRoom tokens).mapError .parse

/-- The program that a script is. -/
def readScript (source : String) : Reading := do
  readTokens (← (scan source).mapError .scan)

/-! ## Printing and checking -/

/-- A script as it is printed. -/
def dump (source : String) : Except Failure String := return printed (← readScript source)

/-- Checks a program in a context, which changes with it. -/
def checkIn (context : Context) (program : List Stmt) : Option Failure × Context :=
  match checkProgram standardRoom program context with
  | .ok _ context => (none, context)
  | .error e context => (some (.typing e), context)

/-- Checks the types of a script. -/
def checkScript (source : String) : Except Failure (List Stmt) := do
  let program ← readScript source
  match checkIn .start program with
  | (none, _) => return program
  | (some failure, _) => throw failure

/-! ## Running -/

/-- Why a run stopped early. What is too deep outside of all statements has no line. -/
def Stop.failure : Stop → Failure
  | .fault f => .fault f
  | .tooDeep => .fault ⟨.tooDeep, none⟩
  | .endless => .endless

/-- Runs a program on a machine. -/
def runOn (limits : Limits) (m : Machine) (program : List Stmt) : Option Failure × Machine :=
  match evaluate limits program m with
  | .ok _ m => (none, m)
  | .error stop m => (some stop.failure, m)

/-- What a script wrote, and how it failed if it did. -/
structure Report where
  output : String
  failure : Option Failure
deriving DecidableEq, Repr

/-- Runs a program, after a check of its types if there is to be one. -/
def runProgram (limits : Limits) (typecheck : Bool) (input : String) (clock : Nat)
    (program : List Stmt) : Report :=
  match if typecheck then (checkIn .start program).1 else none with
  | some failure => ⟨"", some failure⟩
  | none =>
    let (failure, m) := runOn limits (.start input clock) program
    ⟨m.output, failure⟩

/-- Runs what was read, if it was read as a program. -/
def runReading (limits : Limits) (typecheck : Bool) (input : String) (clock : Nat)
    (reading : Reading) : Report :=
  match reading with
  | .ok program => runProgram limits typecheck input clock program
  | .error failure => ⟨"", some failure⟩

/-- Runs a script. -/
def runScript (limits : Limits) (typecheck : Bool) (input : String) (clock : Nat)
    (source : String) : Report :=
  runReading limits typecheck input clock (readScript source)

end FunkLang
