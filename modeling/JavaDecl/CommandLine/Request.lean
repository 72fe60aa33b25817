import JavaDecl.ClassPath

/-!
# Requests on the command line

The arguments of a command line are read from left to right.  Options may stand
before and after the file, letters of options may share a hyphen, and after two
hyphens everything is a file.  No option without a value may be given twice.
-/

namespace JavaDecl.CommandLine

/-- An option without a value. -/
inductive Switch where
  /-- Report what is done. -/
  | verbose
  /-- Show signatures and types. -/
  | detailed
  /-- Show where tokens stand. -/
  | locations
  | help
  | version
deriving DecidableEq, Repr, Inhabited

namespace Switch

def letter : Switch → Char
  | verbose => 'v'
  | detailed => 'd'
  | locations => 'l'
  | help => 'h'
  | version => 'V'

def word : Switch → String
  | verbose => "--verbose"
  | detailed => "--detailed"
  | locations => "--locations"
  | help => "--help"
  | version => "--version"

end Switch

/-- What a command line asks for. -/
inductive Command where
  /-- List the declarations of a file. -/
  | declarations (input : String) (classPaths : List String) (detailed : Bool)
  /-- List the tokens of a file. -/
  | tokens (input : String) (withPlaces : Bool)
deriving DecidableEq, Repr, Inhabited

/-- Why a command line asks for no command. -/
inductive Stop where
  | help
  | version
  | misuse
deriving DecidableEq, Repr, Inhabited

structure Given where
  switches : List Switch := []
  classPaths : List String := []
  input : Option String := none
deriving Inhabited

structure Grammar where
  /-- Those without a value. -/
  switches : List Switch
  /-- Whether it takes class paths. -/
  takesClassPaths : Bool := false

def takeSwitch (given : Given) (switch : Switch) : Except Stop Given :=
  match switch with
  | .help => .error .help
  | .version => .error .version
  | _ =>
      if given.switches.contains switch then .error .misuse
      else .ok { given with switches := given.switches ++ [switch] }

def takeLetter (grammar : Grammar) (given : Given) (letter : Char) : Except Stop Given :=
  match grammar.switches.find? (·.letter == letter) with
  | some switch => takeSwitch given switch
  | none => .error .misuse

/-- Takes a file, of which there is one. -/
def takeInput (given : Given) (input : String) : Except Stop Given :=
  if given.input.isSome || input.isEmpty then .error .misuse
  else .ok { given with input := some input }

/-- Whether an argument is an option.  A lone hyphen is none. -/
def isOption (arg : String) : Bool :=
  match arg.toList with
  | '-' :: _ :: _ => true
  | _ => false

/-- Takes an argument that stands alone. -/
def takeArgument (grammar : Grammar) (given : Given) (arg : String) : Except Stop Given :=
  match arg.toList with
  | '-' :: '-' :: _ =>
      match grammar.switches.find? (·.word == arg) with
      | some switch => takeSwitch given switch
      | none => .error .misuse
  | '-' :: letter :: more => (letter :: more).foldlM (takeLetter grammar) given
  | _ => takeInput given arg

/-- The value of a class path that is given in the same argument. -/
def classPathIn? (arg : String) : Option String :=
  let lead := "--classpath=".toList
  if lead.isPrefixOf arg.toList then some (String.ofList (arg.toList.drop lead.length)) else none

def readArguments (grammar : Grammar) : Given → List String → Except Stop Given
  | given, [] => .ok given
  | given, arg :: rest =>
      if arg == "--" then rest.foldlM takeInput given
      else if grammar.takesClassPaths && arg == "--classpath" then
        match rest with
        | value :: more =>
            if isOption value then .error .misuse
            else
              readArguments grammar { given with classPaths := given.classPaths ++ [value] } more
        | [] => .error .misuse
      else
        match (classPathIn? arg).filter fun _ => grammar.takesClassPaths with
        | some value =>
            readArguments grammar { given with classPaths := given.classPaths ++ [value] } rest
        | none => do
            let given ← takeArgument grammar given arg
            readArguments grammar given rest

def commandNames : List String :=
  ["parse", "lex", "help"]

def readCommand (name : String) (args : List String) : Except Stop Command := do
  if name == "parse" then
    let given ← readArguments { switches := [.verbose, .detailed, .help], takesClassPaths := true }
      {} args
    match given.input with
    | some input => return .declarations input given.classPaths (given.switches.contains .detailed)
    | none => throw .misuse
  else if name == "lex" then
    let given ← readArguments { switches := [.verbose, .locations, .help] } {} args
    match given.input with
    | some input => return .tokens input (given.switches.contains .locations)
    | none => throw .misuse
  else if args.length ≤ 1 && args.all commandNames.contains then throw .help
  else throw .misuse

/-- Reads a command line with options before the name of the command. -/
def readRequestFrom : Given → List String → Except Stop Command
  | _, [] => .error .misuse
  | given, arg :: rest =>
      if commandNames.contains arg then readCommand arg rest
      else if isOption arg then do
        let given ← takeArgument { switches := [.verbose, .help, .version] } given arg
        readRequestFrom given rest
      else .error .misuse

def readRequest (args : List String) : Except Stop Command :=
  readRequestFrom {} args

namespace Command

def input : Command → String
  | declarations input _ _ => input
  | tokens input _ => input

def classPath? (environment : List (String × String)) : Command → Option String
  | declarations _ [] _ => ClassPath.choose? none environment
  | declarations _ classPaths _ => some (ClassPath.join classPaths)
  | tokens .. => none

end Command

end JavaDecl.CommandLine
