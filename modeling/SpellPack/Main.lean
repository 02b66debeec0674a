import SpellPack.Command.Run

/-! The command line: commands run on the real file system. -/

namespace SpellPack.Main

open FileSystem (Fault)

/-- The number of a system error, which some accesses report negated. -/
def systemNumber (code : UInt32) : Nat := min code.toNat (0 - code).toNat

/-- Numbers tell apart what the error type does not. -/
def faultOf (error : IO.Error) : Fault :=
  match error with
  | .noFileOrDirectory .. | .noSuchThing .. => .notFound
  | .alreadyExists .. => .alreadyExists
  | .inappropriateType _ code _ | .invalidArgument _ code _ =>
    match systemNumber code with
    | 20 => .notDirectory
    | 21 => .isDirectory
    | 36 => .nameTooLong
    | 40 => .tooManyLinks
    | _ => .other (toString error)
  | _ => .other (toString error)

def attempt (action : IO α) : IO (Except Fault α) := do
  try
    return .ok (← action)
  catch error =>
    return .error (faultOf error)

def isDirectory (path : String) : IO Bool := do
  (← IO.FS.realPath path).isDir

def system : FileSystem IO where
  makeDirectory path := attempt (IO.FS.createDir path)
  isDirectory := isDirectory
  read path := attempt (IO.FS.readBinFile path)
  write path text := attempt (IO.FS.writeFile path text)

end SpellPack.Main

def main (arguments : List String) : IO UInt32 := do
  let outcome ← SpellPack.Main.system.runArguments arguments
  IO.print outcome.output
  return .ofNat outcome.code
