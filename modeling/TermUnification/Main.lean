import TermUnification.CommandLine

/-! The program: the command line on the files and streams of the system. -/
namespace TermUnification

/-- The cause of a failure of the system. The system gives its codes with either sign. -/
def FileError.ofSystem : IO.Error → FileError
  | .noFileOrDirectory _ _ _ => .notFound
  | .inappropriateType _ code text =>
    if code = 20 ∨ code = -20 then .notADirectory
    else if code = 21 ∨ code = -21 then .isADirectory
    else .other text
  | e => .other (toString e)

instance : FileAccess IO where
  readText path := do
    try
      match String.fromUTF8? (← IO.FS.readBinFile path) with
      | some text => return .ok text
      | none => return .error .notUtf8
    catch e => return .error (.ofSystem e)
  writeText path text := do
    try
      IO.FS.writeFile path text
      return .ok ()
    catch e => return .error (.ofSystem e)

end TermUnification

open TermUnification in
def main (args : List String) : IO UInt32 := do
  let result ← CommandLine.run args (← IO.getEnv "UNIFIC_TRACE")
  for line in result.stderr do
    IO.eprintln line
  IO.print result.stdout
  return result.code
