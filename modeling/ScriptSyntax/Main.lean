import ScriptSyntax.CommandLine

/-! The program: a path, and perhaps the flag that asks for the tokens instead of the tree. -/
open ScriptSyntax

/-- The failure that the system reports by a code, which may come negated, and a description. -/
def systemFailure (code : UInt32) (description : String) : CommandLine.ReadFailure :=
  .system description.capitalize (if code < 0x80000000 then code else 0 - code).toNat

def readFailure (e : IO.Error) : CommandLine.ReadFailure :=
  match e with
  | .noFileOrDirectory _ code description | .inappropriateType _ code description
  | .permissionDenied _ code description | .resourceExhausted _ code description
  | .invalidArgument _ code description | .interrupted _ code description =>
    systemFailure code description
  | .hardwareFault code description | .otherError code description =>
    systemFailure code description
  | other => .system (toString other) 0

def readContents (path : String) : IO (Except CommandLine.ReadFailure ByteArray) := do
  try
    return .ok (← IO.FS.readBinFile path)
  catch e =>
    return .error (readFailure e)

def runCommand (path : String) (tokensOnly : Bool) : IO UInt32 := do
  let report := CommandLine.run path (← readContents path) tokensOnly
  (← IO.getStdout).putStr report.out
  (← IO.getStderr).putStr report.err
  return report.code.toUInt32

def main (args : List String) : IO UInt32 := do
  match args with
  | ["--tokens", path] | [path, "--tokens"] => runCommand path true
  | [path] => runCommand path false
  | _ =>
    (← IO.getStderr).putStrLn "Usage: script-syntax [--tokens] FILE"
    return 2
