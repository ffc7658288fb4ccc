import EffectGraph.Command.Run
/-!
# The program

The command line over real files. Requests for files are answered here; everything else is decided
by `Command.respond`.
-/

namespace EffectGraph

/-- Whether a reported error number is the given one. It is reported as it is or negated. -/
def isErrorNumber (reported number : UInt32) : Bool :=
  reported = number ∨ reported = 0 - number

def FileError.ofIO (e : IO.Error) : FileError :=
  match e with
  | .noFileOrDirectory .. => .notFound
  | .inappropriateType _ n _ => if isErrorNumber n 20 then .notDirectory else .isDirectory
  | .invalidArgument _ n _ => if isErrorNumber n 36 then .nameTooLong else .other (toString e)
  | _ => .other (toString e)

def tryFile {α : Type} (access : IO α) : IO (Except FileError α) := do
  try return .ok (← access)
  catch e => return .error (.ofIO e)

/-- Carries out a script on real files. -/
def Script.perform {α : Type} : Script α → IO α
  | .done a => return a
  | .read path next => do
    let r ← tryFile (IO.FS.readBinFile path)
    (next (r.map fun content => content.toList)).perform
  | .write path content next => do
    let r ← tryFile (IO.FS.writeBinFile path content.toByteArray)
    (next r).perform

/-- The nested steps allowed to a run: more than any machine can take. -/
def runAllowance : Nat := 1_000_000_000_000_000_000

end EffectGraph

def main (args : List String) : IO UInt32 := do
  let report ← (EffectGraph.Command.respond EffectGraph.runAllowance args).perform
  IO.print (report.stdout EffectGraph.LogEntry.line)
  IO.eprint report.errors
  return report.code
