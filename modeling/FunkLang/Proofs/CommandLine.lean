-- The law of the command line: one file and any flags, in any order, do what
-- the library does with the text of the file. The command writes what the
-- library writes, after the tree if that is asked for, and says by its exit and
-- its one line of complaint how the library failed.
import FunkLang.Command
import FunkLang.Proofs.Sums

namespace FunkLang

/-! ## Command lines -/

inductive Flag
  | dumpAst | noCheck | checkOnly | verbose
deriving DecidableEq, Repr

def Flag.spelling : Flag → String
  | dumpAst => "--dump-ast"
  | noCheck => "--no-check"
  | checkOnly => "--check-only"
  | verbose => "--verbose"

/-- One file, with flags before it and after it. What begins with a dash is no name of a file. -/
structure CommandLine where
  before : List Flag
  file : String
  after : List Flag
  named : file ≠ ""
  undashed : file.toList.head? ≠ some '-'

namespace CommandLine

variable (line : CommandLine)

def flags : List Flag := line.before ++ line.after

def arguments : List String :=
  line.before.map Flag.spelling ++ line.file :: line.after.map Flag.spelling

/-- The program is not to be checked, and only to be checked. -/
def Exclusive : Prop := .noCheck ∈ line.flags ∧ .checkOnly ∈ line.flags

/-- What the flags ask for. -/
def asked : Command.Options :=
  ⟨line.file, .dumpAst ∈ line.flags, .noCheck ∈ line.flags, .checkOnly ∈ line.flags,
    .verbose ∈ line.flags⟩

/-- The tree of the script, if it is asked for and there is one. -/
def dumped (source : String) : String :=
  if .dumpAst ∈ line.flags then (dump source).toOption.getD "" else ""

/-- What the library does with the script: it only checks it, or runs it with a check or without. -/
def call (limits : Limits) (input : String) (clock : Nat) (source : String) : Report :=
  if .checkOnly ∈ line.flags then
    match checkScript source with
    | .ok _ => ⟨"", none⟩
    | .error failure => ⟨"", some failure⟩
  else runScript limits (.noCheck ∉ line.flags) input clock source

end CommandLine

/-- The line that tells of a failure: the class of the error, and its text. -/
def Failure.errorLine : Failure → String
  | scan e => "funk: lex error: " ++ e.text ++ "\n"
  | parse e => "funk: parse error: " ++ e.text ++ "\n"
  | typing e => "funk: type error: " ++ e.text ++ "\n"
  | fault f => "funk: runtime error: " ++ f.text ++ "\n"
  | endless => "funk: runtime error: loop does not end\n"

theorem complaint_eq_errorLine (failure : Failure) :
    Command.complaint (Command.stage failure ++ " error: " ++ failure.text) =
      failure.errorLine := by
  have hline (stage text : String) {opening : String}
      (h : "funk: " ++ stage ++ " error: " = opening) :
      Command.complaint (stage ++ " error: " ++ text) = opening ++ text ++ "\n" := by
    rw [← h]
    simp only [Command.complaint, String.append_assoc]
  cases failure with
  | scan e => exact hline "lex" e.text (by decide)
  | parse e => exact hline "parse" e.text (by decide)
  | typing e => exact hline "type" e.text (by decide)
  | fault f => exact hline "runtime" f.text (by decide)
  | endless => decide

/-! ## Arguments -/

namespace Command

/-- The options with one flag more. -/
def Options.flagged (options : Options) : Flag → Options
  | .dumpAst => { options with dumpTree := true }
  | .noCheck => { options with skipCheck := true }
  | .checkOnly => { options with checkOnly := true }
  | .verbose => { options with verbose := true }

theorem readArguments_flags (o : Options) (flags : List Flag) (rest : List String) :
    readArguments o (flags.map Flag.spelling ++ rest) =
      readArguments (flags.foldl Options.flagged o) rest := by
  induction flags generalizing o with
  | nil => rfl
  | cons flag flags ih =>
    rw [List.foldl_cons, ← ih]
    cases flag <;> simp [readArguments, Flag.spelling, Options.flagged]

theorem readArguments_file {o : Options} {file : String} (h : file.toList.head? ≠ some '-')
    (hfile : o.file = "") (rest : List String) :
    readArguments o (file :: rest) = readArguments { o with file } rest := by
  have hne {text : String} (ht : text.toList.head? = some '-') : file ≠ text := by
    rintro rfl
    exact h ht
  have hhelp : file ≠ "--help" := hne rfl
  have hshort : file ≠ "-h" := hne rfl
  have hdump : file ≠ "--dump-ast" := hne rfl
  have hskip : file ≠ "--no-check" := hne rfl
  have honly : file ≠ "--check-only" := hne rfl
  have hverbose : file ≠ "--verbose" := hne rfl
  simp [readArguments, h, hfile, hhelp, hshort, hdump, hskip, honly, hverbose]

/-- A flag is on if it was on before or is among the flags. -/
theorem flagged_eq (flags : List Flag) (o : Options) :
    flags.foldl Options.flagged o =
      ⟨o.file, o.dumpTree || .dumpAst ∈ flags, o.skipCheck || .noCheck ∈ flags,
        o.checkOnly || .checkOnly ∈ flags, o.verbose || .verbose ∈ flags⟩ := by
  induction flags generalizing o with
  | nil => simp
  | cons flag flags ih =>
    rw [List.foldl_cons, ih]
    cases flag <;> simp [Options.flagged]

theorem options_of_read {o : Options} {arguments : List String}
    (h : readArguments ⟨"", false, false, false, false⟩ arguments = .ok o) (hfile : o.file ≠ "") :
    options arguments = if o.skipCheck && o.checkOnly then .error .exclusive else .ok o := by
  unfold options
  simp only [h, bind, Except.bind, pure, Except.pure, if_neg hfile]
  split <;> rfl

/-- All flags are taken, wherever they stand and however often. -/
theorem options_eq (line : CommandLine) :
    options line.arguments =
      if line.asked.skipCheck && line.asked.checkOnly then .error .exclusive
      else .ok line.asked := by
  refine options_of_read ?_ line.named
  unfold CommandLine.arguments
  rw [readArguments_flags, readArguments_file line.undashed (by rw [flagged_eq]),
    ← List.append_nil (line.after.map Flag.spelling), readArguments_flags]
  simp [flagged_eq, readArguments, CommandLine.asked, CommandLine.flags]

/-! ## Runs -/

theorem ending_eq (out notes : String) (failure : Option Failure) :
    ending out notes failure =
      ⟨if failure.isNone then 0 else 1, out, notes ++ (failure.map Failure.errorLine).getD ""⟩ := by
  cases failure with
  | none => simp [ending]
  | some failure => simp [ending, complaint_eq_errorLine]

/-- The command ends as the library does, and without `--verbose` it takes no notes. -/
def Agrees (line : CommandLine) (limits : Limits) (input : String) (clock : Nat) (source : String)
    (report : Report) : Prop :=
  ∃ notes, (.verbose ∉ line.flags → notes = "") ∧
    report = ending (line.dumped source ++ (line.call limits input clock source).output) notes
      (line.call limits input clock source).failure

section Agreement

variable {line : CommandLine} {limits : Limits} {input : String} {clock : Nat} {source : String}

/-- A script that is no program fails in the same way for all of the library. -/
theorem agrees_unread {failure : Failure} (h : readScript source = .error failure) :
    Agrees line limits input clock source (ending "" "" (some failure)) := by
  refine ⟨"", fun _ => rfl, ?_⟩
  have hdump : dump source = .error failure := by
    unfold dump
    rw [h]
    rfl
  have hcheck : checkScript source = .error failure := by
    unfold checkScript
    rw [h]
    rfl
  unfold CommandLine.dumped CommandLine.call runScript
  rw [hdump, hcheck, h]
  split <;> split <;> rfl

theorem agrees_of_ending {out notes : String} {failure : Option Failure}
    (hout : out = line.dumped source ++ (line.call limits input clock source).output)
    (hfailure : failure = (line.call limits input clock source).failure) :
    Agrees line limits input clock source
      (ending out (if line.asked.verbose then notes else "") failure) := by
  subst hout hfailure
  exact ⟨_, fun h => by simp [CommandLine.asked, h], rfl⟩

section Programs

variable {program : List Stmt}

theorem checkScript_eq (h : readScript source = .ok program) :
    checkScript source = match (checkIn .start program).1 with
      | none => .ok program
      | some failure => .error failure := by
  unfold checkScript
  rw [h]
  rcases hchecked : checkIn .start program with ⟨_ | failure, context⟩
  all_goals
    simp [bind, Except.bind, pure, Except.pure, throw, throwThe, MonadExceptOf.throw, hchecked]

theorem check_asked (line : CommandLine) (program : List Stmt) :
    (check line.asked program).1 =
      if .noCheck ∈ line.flags then none else (checkIn .start program).1 := by
  unfold check CommandLine.asked
  by_cases hskip : .noCheck ∈ line.flags <;> simp [hskip]

/-- The library, too, checks before it runs, and does not run what it is only to check. -/
theorem call_eq (hasked : ¬ line.Exclusive) (h : readScript source = .ok program) :
    line.call limits input clock source =
      match (check line.asked program).1 with
      | some failure => ⟨"", some failure⟩
      | none =>
        if .checkOnly ∈ line.flags then ⟨"", none⟩
        else
          let (failure, m) := runOn limits (.start input clock) program
          ⟨m.output, failure⟩ := by
  unfold CommandLine.call
  rw [check_asked]
  by_cases honly : .checkOnly ∈ line.flags
  · have hskip : .noCheck ∉ line.flags := fun hskip => hasked ⟨hskip, honly⟩
    rw [checkScript_eq h, if_pos honly, if_neg hskip]
    rcases (checkIn .start program).1 with _ | failure
    · rw [if_pos honly]
    · rfl
  · unfold runScript runReading FunkLang.runProgram
    rw [h, if_neg honly]
    by_cases hskip : .noCheck ∈ line.flags
    · simp [hskip, honly]
    · rcases hcheck : (checkIn .start program).1 with _ | failure
      · simp [hskip, honly, hcheck]
      · simp [hskip, hcheck]

theorem agrees_program (hasked : ¬ line.Exclusive) (h : readScript source = .ok program) :
    Agrees line limits input clock source (runProgram limits line.asked input clock program) := by
  have hdumped : line.dumped source = if line.asked.dumpTree then printed program else "" := by
    unfold CommandLine.dumped dump
    rw [h]
    simp [CommandLine.asked]
    rfl
  have hcall : line.call limits input clock source = _ := call_eq hasked h
  unfold runProgram
  rcases hcheck : check line.asked program with ⟨_ | failure, checked⟩
  · rw [hcheck] at hcall
    by_cases honly : .checkOnly ∈ line.flags
    · have hasked : line.asked.checkOnly := by simp [CommandLine.asked, honly]
      simp only [if_pos honly, if_pos hasked] at hcall ⊢
      refine agrees_of_ending ?_ ?_
      · rw [hdumped, hcall, String.append_empty]
      · rw [hcall]
    · have hasked : line.asked.checkOnly ≠ true := by simp [CommandLine.asked, honly]
      simp only [if_neg honly, if_neg hasked] at hcall ⊢
      refine agrees_of_ending ?_ ?_
      · rw [hdumped, hcall]
      · rw [hcall]
  · rw [hcheck] at hcall
    refine agrees_of_ending ?_ ?_
    · rw [hdumped, hcall, String.append_empty]
    · rw [hcall]

end Programs

end Agreement

theorem agrees_run {line : CommandLine} (hasked : ¬ line.Exclusive)
    {read : String → Except FileFault ByteArray} {bytes : ByteArray} {source : String}
    (hread : read line.file = .ok bytes) (hsource : String.fromUTF8? bytes = some source)
    (limits : Limits) (input : String) (clock : Nat) :
    Agrees line limits input clock source (run limits line.arguments read input clock) := by
  have hoptions : options line.arguments = .ok line.asked := by
    rw [options_eq]
    refine if_neg fun h => hasked ?_
    simpa [CommandLine.asked, CommandLine.Exclusive] using h
  have hfile : read line.asked.file = .ok bytes := hread
  unfold run
  simp only [hoptions, hfile, runFile, hsource]
  rcases h : readScript source with failure | program
  · exact agrees_unread h
  · exact agrees_program hasked h

/-- The command line agrees with the library. What is not to be checked and only to be checked is
refused before anything is read or run. Otherwise the command writes the tree, if it is asked for
and there is one, and then what the library writes; it exits with 0 if the library does not fail
and with 1 if it does; and without `--verbose` it complains of the failure and of nothing else. -/
theorem the_command_line_agrees_with_the_library (line : CommandLine) (limits : Limits)
    (read : String → Except FileFault ByteArray) (input : String) (clock : Nat) :
    (line.Exclusive → run limits line.arguments read input clock =
      ⟨2, "", "funk: --no-check and --check-only are exclusive\n"⟩) ∧
    (¬ line.Exclusive → ∀ bytes source, read line.file = .ok bytes →
      String.fromUTF8? bytes = some source →
      let report := run limits line.arguments read input clock
      let call := line.call limits input clock source
      report.out = line.dumped source ++ call.output ∧
      report.exit = (if call.failure = none then 0 else 1) ∧
      (.verbose ∉ line.flags → report.err = match call.failure with
        | none => ""
        | some failure => failure.errorLine)) := by
  constructor
  · intro hasked
    have hoptions : options line.arguments = .error .exclusive := by
      rw [options_eq]
      refine if_pos ?_
      simpa [CommandLine.asked, CommandLine.Exclusive] using hasked
    unfold run
    rw [hoptions]
    rfl
  · intro hasked bytes source hread hsource
    obtain ⟨notes, hnotes, hreport⟩ := agrees_run hasked hread hsource limits input clock
    intro report call
    change report = _ at hreport
    rw [ending_eq] at hreport
    rw [hreport]
    refine ⟨rfl, ?_, fun hverbose => ?_⟩
    · rcases h : (line.call limits input clock source).failure <;> simp
    · rw [hnotes hverbose]
      rcases h : (line.call limits input clock source).failure <;> simp

/-! ### A script that is only checked -/

/-- A script to dump and to check, with a flag after its name. -/
def dumpedCheck : CommandLine :=
  ⟨[.dumpAst, .checkOnly], "one.funk", [.dumpAst], by decide, by decide⟩

/-- A script to check and not to check. -/
def bothChecks : CommandLine := ⟨[.noCheck], "one.funk", [.checkOnly], by decide, by decide⟩

def oneTokens : List Token :=
  [⟨.word .print, "print", 1⟩, ⟨.atom .number, "1", 1⟩, ⟨.sign .semicolon, ";", 1⟩]

theorem readScript_one :
    readScript "print 1;" = .ok [.print 1 (.atom ⟨.number, "1", 1⟩)] := by
  have hscan : scan "print 1;" = .ok (oneTokens ++ [endMark 1]) := rfl
  have hended : Grammar.Ended oneTokens (endMark 1) := ⟨rfl, by simp [oneTokens]⟩
  have hparse : parseTokens 30 (oneTokens ++ [endMark 1]) =
      .ok [.print 1 (.atom ⟨.number, "1", 1⟩)] := rfl
  exact readScript_eq_ok.mpr ⟨_, hscan, Grammar.parseTokens_of_le hended hparse (by decide)⟩

theorem a_checked_script_is_dumped_and_not_run :
    bothChecks.Exclusive ∧ ¬ dumpedCheck.Exclusive ∧
      String.fromUTF8? "print 1;".toByteArray = some "print 1;" ∧
      run .standard bothChecks.arguments (fun _ => .ok "print 1;".toByteArray) "" 0 =
        ⟨2, "", "funk: --no-check and --check-only are exclusive\n"⟩ ∧
      let report := run .standard dumpedCheck.arguments (fun _ => .ok "print 1;".toByteArray) "" 0
      report.out = "print (1)\n" ∧ report.exit = 0 ∧ report.err = "" := by
  have hboth : bothChecks.Exclusive := by
    unfold CommandLine.Exclusive
    decide
  have hone : ¬ dumpedCheck.Exclusive := by
    unfold CommandLine.Exclusive
    decide
  have hsource : String.fromUTF8? "print 1;".toByteArray = some "print 1;" := by
    unfold String.fromUTF8?
    rw [dif_pos "print 1;".isValidUTF8]
    rfl
  have hcheck : checkScript "print 1;" = .ok [.print 1 (.atom ⟨.number, "1", 1⟩)] :=
    checkScript_eq readScript_one
  have hcall : dumpedCheck.call .standard "" 0 "print 1;" = ⟨"", none⟩ := by
    unfold CommandLine.call
    rw [hcheck]
    rfl
  have hdumped : dumpedCheck.dumped "print 1;" = "print (1)\n" := by
    unfold CommandLine.dumped dump
    rw [readScript_one]
    rfl
  let read : String → Except FileFault ByteArray := fun _ => .ok "print 1;".toByteArray
  obtain ⟨hout, hexit, herr⟩ := (the_command_line_agrees_with_the_library dumpedCheck .standard read
    "" 0).2 hone _ _ rfl hsource
  have hrefused := (the_command_line_agrees_with_the_library bothChecks .standard read "" 0).1 hboth
  rw [hdumped, hcall] at hout
  rw [hcall] at hexit herr
  exact ⟨hboth, hone, hsource, hrefused, hout, hexit, herr (by decide)⟩

end Command
end FunkLang
