import EnvScript.CommandLine

/-!
# The program

Reads the files named on the command line and prints what the library answers.
-/

namespace EnvScript

/-- The number of a system error, which may come negated. -/
def errorNumber (code : UInt32) : UInt32 := min code (0 - code)

def FileError.ofIO (e : IO.Error) : FileError :=
  match e with
  | .noFileOrDirectory .. => .missing
  | .permissionDenied .. => .other "Permission denied"
  | .inappropriateType _ code _ => if errorNumber code = 21 then .isDirectory else .notDirectory
  | .invalidArgument _ code _ =>
    if errorNumber code = 36 then .nameTooLong else .other e.toString
  | _ => .other e.toString

def readFile (path : Text) : IO (Except FileError (List UInt8)) := do
  if path = ['-'] then
    let bytes ← (← IO.getStdin).readBinToEnd
    return .ok bytes.toList
  else
    try return .ok (← IO.FS.readBinFile (String.ofList path)).toList
    catch e => return .error (.ofIO e)

def evaluatePaths : List Text → Context → IO (Except Exit Context)
  | [], context => return .ok context
  | path :: paths, context => do
    match CommandLine.evaluateFile path (← readFile path) context with
    | .ok context => evaluatePaths paths context
    | .error exit => return .error exit

def runProgram (argv : List Text) : IO Exit := do
  match CommandLine.prepare argv with
  | .error exit => return exit
  | .ok (a, context) =>
    match ← evaluatePaths (CommandLine.paths a) context with
    | .ok context => return .printed context a.json
    | .error exit => return exit

end EnvScript

def main (argv : List String) : IO UInt32 := do
  let exit ← EnvScript.runProgram (argv.map String.toList)
  IO.print exit.stdout
  IO.eprint exit.stderr
  return exit.code.toUInt32
