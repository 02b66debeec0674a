import SpellPack.Command.Help

/-! The commands and their arguments. Options are given by full name, at most once, with
the value after an equals sign or as the next argument. Arguments are read from the first on,
so help is shown if nothing before the word for it was wrong. -/

namespace SpellPack

inductive Command where
  | create (out : String) (name author : Option String)
  | preview (document : String) (point : Option Nat)
  | build (document outDir : String)
  | migrate (document out : String)
  | help (page : Help.Page)
  deriving DecidableEq, Repr

namespace Command

/-- The name of an option, and the value if it is attached. -/
def splitOption? (argument : String) : Option (String × Option String) :=
  match argument.toList with
  | '-' :: '-' :: rest =>
    let name := String.ofList (rest.takeWhile (· != '='))
    match rest.dropWhile (· != '=') with
    | [] => some (name, none)
    | _ :: value => some (name, some (String.ofList value))
  | _ => none

/-- A value of its own must not look like an option. A lone hyphen does not. -/
def isDetachedValue (argument : String) : Bool :=
  argument == "-" || argument.toList.head? != some '-'

/-- What stands behind the short flag is never looked at. -/
def asksForHelp (argument : String) : Bool :=
  argument == "--help" || argument.toList.take 2 == ['-', 'h']

/-- Reads options with the given names. Two hyphens end them, and nothing may follow. The word for
help ends them too, and is one of them then. -/
def readOptions? (known : List String) : List String → Option (List (String × String))
  | [] => some []
  | argument :: later =>
    if argument == "--" then if later.isEmpty then some [] else none
    else if asksForHelp argument then some [("help", "")]
    else do
      let (name, attached) ← splitOption? argument
      if known.contains name then
        match attached with
        | some value => pure ((name, value) :: (← readOptions? (known.erase name) later))
        | none =>
          match later with
          | [] => none
          | value :: later =>
            if isDetachedValue value then
              pure ((name, value) :: (← readOptions? (known.erase name) later))
            else none
      else none

/-- A position is decimal digits, with a plus sign at most, and fits in 64 bits. -/
def readPosition? (text : String) : Option Nat :=
  let digits :=
    match text.toList with
    | '+' :: digits => digits
    | digits => digits
  let number := Nat.ofDigitChars 10 digits 0
  if !digits.isEmpty && digits.all Char.isDigit && number < UInt64.size then some number else none

/-- A command with the options that were given, or its page of help. -/
def orHelp (word : String) (known : Help.Options) (given : List (String × String))
    (command : Option Command) : Option Command :=
  if (given.lookup "help").isSome then some (.help (.command word known)) else command

/-- Nothing is a command unless it has all that it needs and nothing more. -/
def ofArguments? : List String → Option Command
  | [] => none
  | word :: arguments =>
    if asksForHelp word then some (.help .program)
    else if word == "help" then (Help.page? arguments).map .help
    else if word == "new" then do
      let options ← readOptions? (Help.create.map Prod.fst) arguments
      orHelp word Help.create options do
        pure (.create (← options.lookup "out") (options.lookup "name") (options.lookup "author"))
    else if word == "preview" then do
      let options ← readOptions? (Help.preview.map Prod.fst) arguments
      let point ← (options.lookup "point").mapM readPosition?
      orHelp word Help.preview options do
        pure (.preview (← options.lookup "document") point)
    else if word == "build" then do
      let options ← readOptions? (Help.build.map Prod.fst) arguments
      orHelp word Help.build options do
        pure (.build (← options.lookup "document") (← options.lookup "out-dir"))
    else if word == "migrate" then do
      let options ← readOptions? (Help.migrate.map Prod.fst) arguments
      orHelp word Help.migrate options do
        pure (.migrate (← options.lookup "document") (← options.lookup "out"))
    else none

end Command
end SpellPack
