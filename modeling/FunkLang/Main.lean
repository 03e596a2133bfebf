-- The program: it reads the file that its arguments name, and the input if
-- the script may ask for it, and writes what comes of the command.
import FunkLang.Command
import Std.Time.DateTime.Timestamp

namespace FunkLang
namespace Command

/-- The refusal of a file. The system gives some codes with a sign, and some
reasons in small letters. -/
def FileFault.ofReason (code : UInt32) (reason : String) : FileFault :=
  .refused code.toInt32.toInt.natAbs reason.capitalize

/-- Why a file could not be read. -/
def FileFault.ofError : IO.Error → FileFault
  | .noFileOrDirectory _ _ _ => .missing
  | .permissionDenied _ code reason => .ofReason code reason
  | .inappropriateType _ code reason => .ofReason code reason
  | .invalidArgument _ code reason => .ofReason code reason
  | .resourceExhausted _ code reason => .ofReason code reason
  | .hardwareFault code reason => .ofReason code reason
  | .otherError code reason => .ofReason code reason
  | e => .refused 0 (toString e)

/-- The bytes of a file. -/
def readFile (name : String) : IO (Except FileFault ByteArray) := do
  match ← (IO.FS.readBinFile name).toBaseIO with
  | .ok bytes => return .ok bytes
  | .error e => return .error (.ofError e)

/-- The milliseconds since 1970. -/
def now : IO Nat := return (← Std.Time.Timestamp.now).toMillisecondsSinceUnixEpoch.toInt.toNat

/-- Does what the arguments ask for. -/
def perform (arguments : List String) : IO Report := do
  match options arguments with
  | .error refusal => return refusal.report
  | .ok options =>
    let content ← readFile options.file
    let input ← if mayAsk content then (← IO.getStdin).readToEnd else pure ""
    return runFile .standard options content input (← now)

end Command
end FunkLang

def main (arguments : List String) : IO UInt32 := do
  let report ← FunkLang.Command.perform arguments
  (← IO.getStdout).putStr report.out
  (← IO.getStderr).putStr report.err
  return report.exit.toUInt32
