/-! Files as far as the command line needs them: reading a text and writing one. -/
namespace TermUnification

/-- Why a file cannot be read or written. -/
inductive FileError where
  | notFound
  | notADirectory
  | isADirectory
  | notUtf8
  /-- any other failure, in the words of the system -/
  | other (text : String)
  deriving DecidableEq, Repr

/-- The wording of a failure. -/
def FileError.message : FileError → String
  | notFound => "No such file or directory (os error 2)"
  | notADirectory => "Not a directory (os error 20)"
  | isADirectory => "Is a directory (os error 21)"
  | notUtf8 => "stream did not contain valid UTF-8"
  | other text => text

/-- A monad in which texts can be read from files and written to them. Writing creates the file, or
replaces what it held. -/
class FileAccess (m : Type → Type) where
  readText : String → m (Except FileError String)
  writeText : String → String → m (Except FileError Unit)

end TermUnification
