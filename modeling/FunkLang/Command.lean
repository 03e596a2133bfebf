-- The command line: one script to run, and what to do before or instead.
-- Everything but the reading of the file is decided here.
import FunkLang.Program

namespace FunkLang
namespace Command

/-! ## Arguments -/

/-- What the arguments ask for. -/
structure Options where
  file : String
  dumpTree : Bool
  skipCheck : Bool
  checkOnly : Bool
  verbose : Bool
deriving DecidableEq, Repr

/-- Why the arguments ask for no run. -/
inductive Refusal
  | help
  | unknownFlag (argument : String)
  | unexpected (argument : String)
  | missingFile
  | exclusive
deriving DecidableEq, Repr

/-- Goes through the arguments from left to right, and stops at the first
that is refused, or that asks for help. -/
def readArguments (options : Options) : List String → Except Refusal Options
  | [] => .ok options
  | argument :: rest =>
    if argument = "--help" ∨ argument = "-h" then .error .help
    else if argument = "--dump-ast" then readArguments { options with dumpTree := true } rest
    else if argument = "--no-check" then readArguments { options with skipCheck := true } rest
    else if argument = "--check-only" then readArguments { options with checkOnly := true } rest
    else if argument = "--verbose" then readArguments { options with verbose := true } rest
    else if argument.toList.head? = some '-' then .error (.unknownFlag argument)
    else if options.file = "" then readArguments { options with file := argument } rest
    else .error (.unexpected argument)

/-- What the arguments ask for, if it can be done. -/
def options (arguments : List String) : Except Refusal Options := do
  let options ← readArguments ⟨"", false, false, false, false⟩ arguments
  if options.file = "" then throw .missingFile
  if options.skipCheck && options.checkOnly then throw .exclusive
  return options

/-! ## Reports -/

/-- The exit code of a command, and what it wrote. -/
structure Report where
  exit : Nat
  out : String
  err : String
deriving DecidableEq, Repr

def usage : String :=
  "funk [OPTIONS] FILE\n\nRun a Funk program.\n\nOptions:\n" ++
  "  --dump-ast    Print the parsed AST before running\n" ++
  "  --no-check    Skip the type checker\n" ++
  "  --check-only  Type-check the program and stop\n" ++
  "  --verbose     Log pass progress to stderr\n" ++
  "  --help        Show this help message\n"

/-- A line of complaint. -/
def complaint (message : String) : String := "funk: " ++ message ++ "\n"

def Refusal.report : Refusal → Report
  | help => ⟨0, usage, ""⟩
  | unknownFlag argument => ⟨2, "", complaint ("unknown flag '" ++ argument ++ "'")⟩
  | unexpected argument => ⟨2, "", complaint ("unexpected argument '" ++ argument ++ "'")⟩
  | missingFile => ⟨2, "", complaint "missing file argument"⟩
  | exclusive => ⟨2, "", complaint "--no-check and --check-only are exclusive"⟩

/-- What a failure is called in a complaint. -/
def stage : Failure → String
  | .scan _ => "lex"
  | .parse _ => "parse"
  | .typing _ => "type"
  | .fault _ | .endless => "runtime"

/-- How a command ends: well, or with a failure. -/
def ending (out notes : String) : Option Failure → Report
  | none => ⟨0, out, notes⟩
  | some failure =>
    ⟨1, out, notes ++ complaint (stage failure ++ " error: " ++ failure.text)⟩

/-! ## Notes -/

/-- Lines of notes of one part of the program. -/
def noteLines (part : String) (notes : List String) : String :=
  notes.foldl (fun text note => text ++ part ++ ": " ++ note ++ "\n") ""

/-- The notes of a check that came out at a context. -/
def checkNotes (count : Nat) (passed : Bool) (context : Context) : List String :=
  ("checking " ++ toString count ++ " statements") ::
    context.shadowed.toList.map (fun name =>
      "'" ++ name.text ++ "' at line " ++ toString name.line ++ " shadows an existing binding")
    ++ if passed then ["check passed"] else []

/-! ## Files -/

/-- Why a file cannot be read: there is none of its name, or the system gives
a code and a reason. -/
inductive FileFault
  | missing
  | refused (code : Nat) (reason : String)
deriving DecidableEq, Repr

def FileFault.message (name : String) : FileFault → String
  | missing => "No such file or directory"
  | refused code reason => "[Errno " ++ toString code ++ "] " ++ reason ++ ": '" ++ name ++ "'"

/-- Whether a run may come to ask for input: only a script with the name of
the built-in function that does. -/
def mayAsk (content : Except FileFault ByteArray) : Bool :=
  match content.toOption.bind String.fromUTF8? with
  | none => false
  | some source =>
    match scan source with
    | .ok tokens => tokens.any fun t => t.kind == .atom .name && t.text == Builtin.input.name
    | .error _ => false

/-! ## Runs -/

/-- Checks a program unless that is to be skipped: the failure, and the notes. -/
def check (options : Options) (program : List Stmt) : Option Failure × String :=
  if options.skipCheck then (none, "")
  else
    let (failure, context) := checkIn .start program
    (failure, noteLines "funk.check" (checkNotes program.length failure.isNone context))

/-- Does what the options ask for with a program. `out` and `notes` were written before. -/
def runProgram (limits : Limits) (options : Options) (input : String) (clock : Nat)
    (program : List Stmt) : Report :=
  let shown (notes : String) := if options.verbose then notes else ""
  let count := toString program.length
  let notes := noteLines "funk.cli" ["parsed " ++ options.file ++ ": " ++ count ++ " statements"]
  let out := if options.dumpTree then printed program else ""
  match check options program with
  | (some failure, checked) => ending out (shown (notes ++ checked)) (some failure)
  | (none, checked) =>
    if options.checkOnly then ending out (shown (notes ++ checked)) none
    else
      let (failure, m) := runOn limits (.start input clock) program
      let ran := noteLines "funk.runtime" (m.notes.toList.map Note.text)
      ending (out ++ m.output) (shown (notes ++ checked ++ ran)) failure

/-- Does what the options ask for with the bytes of a file. -/
def runFile (limits : Limits) (options : Options) (content : Except FileFault ByteArray)
    (input : String) (clock : Nat) : Report :=
  match content with
  | .error fault => ⟨1, "", complaint (options.file ++ ": " ++ fault.message options.file)⟩
  | .ok bytes =>
    match String.fromUTF8? bytes with
    | none => ⟨1, "", complaint (options.file ++ ": invalid utf-8")⟩
    | some source =>
      match readScript source with
      | .error failure => ending "" "" (some failure)
      | .ok program => runProgram limits options input clock program

/-- A whole command, in a place where `read` reads a file by its name. -/
def run (limits : Limits) (arguments : List String)
    (read : String → Except FileFault ByteArray) (input : String) (clock : Nat) : Report :=
  match options arguments with
  | .error refusal => refusal.report
  | .ok options => runFile limits options (read options.file) input clock

end Command
end FunkLang
