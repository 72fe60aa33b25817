import JavaDecl.CommandLine.Outcome

/-!
# The command line

Reads what a request needs from the file system, and prints its outcome.
-/

namespace JavaDecl.CommandLine

/-- The reason why the system cannot read a file. -/
def faultOf : IO.Error → FileFault
  | .noFileOrDirectory .. => .missing
  | .inappropriateType _ _ "not a directory" => .notDirectory
  | .inappropriateType .. => .directory
  | .invalidArgument _ _ "name too long" => .nameTooLong
  | .userError _ => .other "stream did not contain valid UTF-8"
  | other => .other (toString other)

def readInput (path : String) : IO (Except FileFault String) := do
  match ← (IO.FS.readFile path).toBaseIO with
  | .ok text => return .ok text
  | .error error => return .error (faultOf error)

/-- The tree with a directory and all files in it. -/
partial def addDirectory (tree : FileTree) (path : String) : IO FileTree := do
  let directory := (← IO.currentDir) / path
  if ← directory.isDir then
    let mut tree := tree.addDirectory path
    for entry in ← directory.readDir do
      let inner := joinPath path entry.fileName
      if ← entry.path.isDir then tree ← addDirectory tree inner
      else tree := tree.addFile inner ""
    return tree
  else return tree

/-- The values of environment variables. -/
def readEnvironment (names : List String) : IO (List (String × String)) := do
  let pairs ← names.mapM fun name => do return (← IO.getEnv name).map (name, ·)
  return pairs.filterMap id

def runArguments (args : List String) : IO Outcome := do
  match readRequest args with
  | .error stop => return .ofStop stop
  | .ok command =>
      let environment ← readEnvironment ClassPath.variableNames
      let entries := ((command.classPath? environment).map ClassPath.entries).getD []
      let files ← entries.foldlM addDirectory {}
      return .ofCommand files environment (← readInput command.input) command

end JavaDecl.CommandLine

def main (args : List String) : IO UInt32 := do
  let outcome ← JavaDecl.CommandLine.runArguments args
  IO.print outcome.output
  IO.eprint outcome.error
  return outcome.code.toUInt32
