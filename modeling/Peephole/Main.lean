import Peephole.Command.Execute

/-!
# The program

Access to the files of the system, and the entry point.
-/

namespace Peephole.Command

/-- The number of an error. It may come negated. -/
def errorNumber (code : UInt32) : UInt32 := min code (0 - code)

/-- The reason of a failed access. -/
def FileError.ofSystem : IO.Error → FileError
  | .noFileOrDirectory .. => .noEntry
  | .inappropriateType _ code details =>
      if errorNumber code = 20 then .notDirectory
      else if errorNumber code = 21 then .isDirectory
      else .other (text code details)
  | .invalidArgument _ code details =>
      if errorNumber code = 36 then .nameTooLong else .other (text code details)
  | .permissionDenied _ code details | .resourceExhausted _ code details =>
      .other (text code details)
  | e => .other e.toString
where
  text (code : UInt32) (details : String) : String :=
    details ++ " (os error " ++ toString (errorNumber code) ++ ")"

/-- Access to the files of the system. -/
def systemFiles : Files IO where
  read path := do
    try
      match String.fromUTF8? (← IO.FS.readBinFile path) with
      | some text => return .ok text
      | none => return .error .badEncoding
    catch e => return .error (.ofSystem e)
  write path text := do
    try
      IO.FS.withFile path .write fun h => do
        h.write text.toUTF8
        h.flush
      return .ok ()
    catch e => return .error (.ofSystem e)

end Peephole.Command

/-- Carries out the command line of the program. -/
def main (args : List String) : IO UInt32 := do
  let finish ← Peephole.Command.execute Peephole.Command.systemFiles args
  IO.print finish.stdout
  IO.eprint finish.stderr
  return finish.exit.toUInt32
