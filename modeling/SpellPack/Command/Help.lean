/-! The pages of help that the command line shows. Options have no descriptions, so their
columns are blank. -/

namespace SpellPack

def lineBlock (lines : List String) : String :=
  String.join (lines.map (· ++ "\n"))

namespace Help

/-- The options of a command by name, and whether it needs them. -/
abbrev Options := List (String × Bool)

def create : Options := [("out", true), ("name", false), ("author", false)]

def preview : Options := [("document", true), ("point", false)]

def build : Options := [("document", true), ("out-dir", true)]

def migrate : Options := [("document", true), ("out", true)]

def commands : List (String × Options) :=
  [("new", create), ("preview", preview), ("build", build), ("migrate", migrate)]

inductive Page where
  | program
  | command (word : String) (options : Options)
  | help
  deriving DecidableEq, Repr

/-- The page that is asked for by words behind `help`. -/
def page? : List String → Option Page
  | [] => some .program
  | [word] => if word == "help" then some .help else (commands.lookup word).map (.command word)
  | _ => none

/-- An option with the name of its value. -/
def spelled (name : String) : String :=
  let value := name.toList.map fun c => if c == '-' then '_' else c.toUpper
  "--" ++ name ++ " <" ++ String.ofList value ++ ">"

/-- Entries with what is said of them in a column of its own. -/
def columns (entries : List (String × String)) : List String :=
  let width := (entries.map (·.1.length)).foldl max 0 + 2
  entries.map fun (entry, about) =>
    "  " ++ entry ++ String.ofList (List.replicate (width - entry.length) ' ') ++ about

def flag : String × String := ("-h, --help", "Print help")

def about : String := "Print this message or the help of the given subcommand(s)"

/-- Only options that are needed are written out. -/
def usage (word : String) (options : Options) : String :=
  let others := if options.all (·.2) then "" else " [OPTIONS]"
  let needed := (options.filter (·.2)).map fun (name, _) => " " ++ spelled name
  "Usage: sc-cli " ++ word ++ others ++ String.join needed

def Page.text : Page → String
  | program =>
    lineBlock <| ["Spellcast pack compiler", "", "Usage: sc-cli <COMMAND>", "", "Commands:"] ++
      columns (commands.map (fun (word, _) => (word, "")) ++ [("help", about)]) ++
      ["", "Options:"] ++ columns [flag]
  | command word options =>
    lineBlock <| [usage word options, "", "Options:"] ++
      columns (options.map (fun (name, _) => ("    " ++ spelled name, "")) ++ [flag])
  | help =>
    lineBlock <| [about, "", "Usage: sc-cli help [COMMAND]...", "", "Arguments:"] ++
      columns [("[COMMAND]...", "Print help for the subcommand(s)")]

end Help
end SpellPack
