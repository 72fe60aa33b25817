import JavaDecl.CommandLine.Listing
import JavaDecl.CommandLine.Request

/-!
# Outcomes of a command line

What a command line leads to is a function of its arguments, the environment, the
files on the class path and the text of the file it names.
-/

namespace JavaDecl.CommandLine

/-- What a run of the program leaves behind. -/
structure Outcome where
  code : Nat := 0
  output : String := ""
  /-- What is printed as an error. -/
  error : String := ""
deriving DecidableEq, Repr, Inhabited

namespace Outcome

/-- The outcome that prints lines. -/
def ofLines (lines : List String) : Outcome :=
  { output := String.join (lines.map (· ++ "\n")) }

/-- A text whose lines after the first are indented. -/
def indentTail (indent text : String) : String :=
  String.join (text.toList.map fun c => if c = '\n' then "\n" ++ indent else String.singleton c)

/-- The causes of an error.  More than one are numbered. -/
def causesText : List String → String
  | [] => ""
  | [cause] => "\n\nCaused by:\n    " ++ indentTail "    " cause
  | causes =>
      "\n\nCaused by:" ++ String.join (causes.zipIdx.map fun (cause, position) =>
        "\n    " ++ toString position ++ ": " ++ indentTail "       " cause)

/-- The outcome of an error with its causes, the nearest first. -/
def failed (error : String) (causes : List String := []) : Outcome :=
  { code := 1, error := "Error: " ++ error ++ causesText causes ++ "\n" }

def usage : String :=
  "Usage: javamodel [--verbose] <COMMAND>\n\nCommands:\n" ++
    "  parse [--classpath <CP>] [--detailed] <FILE>  List the declarations of a source file\n" ++
    "  lex [--locations] <FILE>                      List the tokens of a source file\n" ++
    "  help                                          Show this text\n"

/-- The outcome of a command line that asks for no command. -/
def ofStop : Stop → Outcome
  | .help => { output := usage }
  | .version => { output := "javamodel 0.1.0\n" }
  | .misuse => { code := 2, error := usage }

/-- Lists the declarations of a source text. -/
def ofDeclarations (files : FileTree) (settings : Settings) (path : String)
    (input : Except FileFault String) (detailed : Bool) : Outcome :=
  match settings.check files with
  | .error failure => failed (toString failure)
  | .ok () =>
      let operation : SessionM Outcome := do
        match ← Session.addRead input with
        | .error failure => return failed ("parsing " ++ path) failure.causes
        | .ok _ => return ofLines (← allLines detailed)
      (operation files (Session.ofSettings settings)).1

def ofTokens (path : String) (input : Except FileFault String) (withPlaces : Bool) : Outcome :=
  match input with
  | .error fault => failed ("reading " ++ path) [fault.message]
  | .ok source =>
      match scanTokens source.toList with
      | (_, some refused) => failed ("Lexical error: " ++ toString refused)
      | (tokens, none) => ofLines (tokens.dropLast.map (tokenLine withPlaces))

/-- The outcome of a command on the text of its file. -/
def ofCommand (files : FileTree) (environment : List (String × String))
    (input : Except FileFault String) (command : Command) : Outcome :=
  match command with
  | .declarations path _ detailed =>
      ofDeclarations files { classPath := command.classPath? environment } path input detailed
  | .tokens path withPlaces => ofTokens path input withPlaces

end Outcome

/-- The outcome of a command line on a tree of files. -/
def run (files : FileTree) (environment : List (String × String)) (args : List String) :
    Outcome :=
  match readRequest args with
  | .ok command => Outcome.ofCommand files environment (files.read command.input) command
  | .error stop => Outcome.ofStop stop

end JavaDecl.CommandLine
