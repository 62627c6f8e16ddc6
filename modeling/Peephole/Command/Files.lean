/-!
# Files

What a command needs of a file system, and why an access fails.
-/

namespace Peephole.Command

/-- Why the system refuses an access. -/
inductive FileError where
  | noEntry
  | notDirectory
  | isDirectory
  /-- The path, or a name in it, is too long. -/
  | nameTooLong
  /-- The content is not valid UTF-8. -/
  | badEncoding
  /-- Any other reason, in the words of the system. -/
  | other (text : String)

/-- Whether the path leads to nothing. -/
def FileError.isAbsence : FileError → Bool
  | .noEntry | .notDirectory | .nameTooLong => true
  | _ => false

/-- The text of a refusal, in the words of the system. -/
def FileError.message : FileError → String
  | .noEntry => "No such file or directory (os error 2)"
  | .notDirectory => "Not a directory (os error 20)"
  | .isDirectory => "Is a directory (os error 21)"
  | .nameTooLong => "File name too long (os error 36)"
  | .badEncoding => "stream did not contain valid UTF-8"
  | .other text => text

/-- Access to files by path. -/
structure Files (m : Type → Type) where
  /-- The text of a file. -/
  read : String → m (Except FileError String)
  /-- Makes a text the content of a file. -/
  write : String → String → m (Except FileError Unit)

end Peephole.Command
