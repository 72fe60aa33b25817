import JavaDecl.FileTree
import JavaDecl.NameTable

/-!
# Directories of classes

A directory on the class path knows the classes whose files lie under it.  An
answer about a name is kept, whatever happens to the files later.
-/

namespace JavaDecl

/-- A directory on the class path. -/
structure ClassDirectory where
  root : String
  /-- The answers that it has given. -/
  answers : NameTable Bool := ∅
deriving Inhabited

namespace ClassDirectory

def label (directory : ClassDirectory) : String :=
  "classpath:" ++ directory.root

/-- The path of a class below the directory, without the ending of its file. -/
def relativePath (name : String) : String :=
  String.ofList (name.toList.map fun c => if c = '.' then '/' else c)

/-- Whether there is a file for a class: a class file, or a source file if the name
is not that of a class inside another. -/
def holds (files : FileTree) (directory : ClassDirectory) (name : String) : Bool :=
  let path := joinPath directory.root (relativePath name)
  files.isFile (path ++ ".class") || (!name.toList.contains '$' && files.isFile (path ++ ".java"))

/-- Whether the directory knows a class, which is decided once. -/
def contains (files : FileTree) (name : String) (directory : ClassDirectory) :
    Bool × ClassDirectory :=
  match directory.answers.find? name with
  | some known => (known, directory)
  | none =>
      let found := directory.holds files name
      (found, { directory with answers := directory.answers.set name found })

/-- The name of a file without its last dot and the ending after that, and the ending.
A name of one dot is none, so the last dot stays behind another that stands alone. -/
def splitEnding? (file : String) : Option (String × String) :=
  match file.toList.reverse.span (· != '.') with
  | (_, []) => none
  | (ending, _ :: stem) =>
      let name := if stem == ['.'] then ['.', '.'] else stem.reverse
      if stem.isEmpty then none else some (String.ofList name, String.ofList ending.reverse)

/-- The name of the class that a file is for, if it is for one.  Files about
packages and modules are for none. -/
def className? (file : List String) : Option String := do
  let last ← file.getLast?
  let (stem, ending) ← splitEnding? last
  if ending != "java" && ending != "class" then none
  else if stem == "module-info" || stem == "package-info" then none
  else some (".".intercalate (file.dropLast ++ [stem]))

/-- Whether the path of the directory around a file below this one is short enough. -/
def reaches (directory : ClassDirectory) (file : List String) : Bool :=
  (file.dropLast.foldl joinPath directory.root).utf8ByteSize ≤ FileTree.pathLimit

/-- The names of the classes that there are files for, in ascending order. -/
def all (files : FileTree) (directory : ClassDirectory) : List String :=
  match files.find directory.root with
  | .error _ => []
  | .ok place =>
      let names := ((files.inside place).filter directory.reaches).filterMap className?
      (names.mergeSort fun one other => one ≤ other).eraseDups

end ClassDirectory

end JavaDecl
