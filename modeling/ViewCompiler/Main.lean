/-
**The program.**

Reads the files that the command line names and prints what the command line does.
-/

import ViewCompiler.CommandLine

set_option autoImplicit false

namespace ViewCompiler

/-- What the system says, with the number under which it says it. -/
def systemFault (code : UInt32) (details : String) : FileFault :=
  .other (details ++ " (os error " ++ toString code.toNat ++ ")")

/-- Why a file could not be read. -/
def faultOf : IO.Error → FileFault
  | .noFileOrDirectory .. => .missing
  | .inappropriateType _ 20 _ => .notDirectory
  | .inappropriateType _ 21 _ => .directory
  | .invalidArgument _ 36 _ => .nameTooLong
  | .invalidArgument _ code details => systemFault code details
  | .permissionDenied _ code details => systemFault code details
  | e => .other (toString e)

/-- The text of a file. -/
def readText (name : String) : IO (Except FileFault String) := do
  try
    return decodeText (← IO.FS.readBinFile name)
  catch e =>
    return .error (faultOf e)

/-- The texts of files, each under its name. -/
def readTexts (names : List String) : IO (List (String × Except FileFault String)) :=
  names.mapM fun name => return (name, ← readText name)

/-- Carries out a command line; the answer is the exit status. -/
def runProgram (arguments : List String) : IO UInt32 := do
  let names := ((Invocation.parse arguments).map (·.files)).getD []
  let texts ← readTexts names
  let reply := runCommand arguments fun name => (texts.lookup name).getD (.error .missing)
  (← IO.getStdout).putStr reply.out
  (← IO.getStderr).putStr reply.err
  return reply.status.toUInt32

end ViewCompiler

def main (arguments : List String) : IO UInt32 :=
  ViewCompiler.runProgram arguments
