/-!
Why something cannot be done with a file.
-/

namespace JackToVm

/-- Why something cannot be done with a file. -/
inductive FileError where
  | notFound
  | alreadyExists
  | notADirectory
  | isADirectory
  | nameTooLong
  /-- A path holds the character of code 0. -/
  | zeroInPath
  /-- The content of a file is not UTF-8. -/
  | notText
  /-- Any other reason of the system, in its words. -/
  | other (reason : String)
deriving DecidableEq, Repr, Inhabited

namespace FileError

def message : FileError → String
  | notFound => "No such file or directory (os error 2)"
  | alreadyExists => "File exists (os error 17)"
  | notADirectory => "Not a directory (os error 20)"
  | isADirectory => "Is a directory (os error 21)"
  | nameTooLong => "File name too long (os error 36)"
  | zeroInPath => "file name contained an unexpected NUL byte"
  | notText => "stream did not contain valid UTF-8"
  | other reason => reason

end FileError

end JackToVm
