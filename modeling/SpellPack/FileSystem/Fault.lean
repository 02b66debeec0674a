/-! Reasons for which the file system refuses an access. -/

namespace SpellPack.FileSystem

inductive Fault where
  | notFound
  | alreadyExists
  | notDirectory
  | isDirectory
  | nameTooLong
  | tooManyLinks
  | notUtf8
  | nulInPath
  | other (reason : String)
  deriving DecidableEq, Repr

def Fault.message : Fault → String
  | .notFound => "No such file or directory (os error 2)"
  | .alreadyExists => "File exists (os error 17)"
  | .notDirectory => "Not a directory (os error 20)"
  | .isDirectory => "Is a directory (os error 21)"
  | .nameTooLong => "File name too long (os error 36)"
  | .tooManyLinks => "Too many levels of symbolic links (os error 40)"
  | .notUtf8 => "stream did not contain valid UTF-8"
  | .nulInPath => "file name contained an unexpected NUL byte"
  | .other reason => reason

/-- What was being done when the file system refused. -/
inductive Access where
  | read
  | write
  | create
  | other (word : String)
  deriving DecidableEq, Repr

def Access.word : Access → String
  | .read => "read"
  | .write => "write"
  | .create => "create"
  | .other word => word

end SpellPack.FileSystem
