import JavaDecl.Text.Blank

/-!
# Files

Class paths and source files are looked up in a tree of files.  A place in the
tree is the list of names that lead to it: from the working directory, or, if the
first is a slash, from the root.  Places above the working directory start with
double dots; they are directories, and nothing more is known of them.
-/

namespace JavaDecl

/-- Why a file cannot be read. -/
inductive FileFault where
  | missing
  | notDirectory
  | directory
  /-- The path or a name in it is longer than any can be. -/
  | nameTooLong
  | other (reason : String)
deriving DecidableEq, Repr, Inhabited

def FileFault.message : FileFault → String
  | missing => "No such file or directory (os error 2)"
  | notDirectory => "Not a directory (os error 20)"
  | directory => "Is a directory (os error 21)"
  | nameTooLong => "File name too long (os error 36)"
  | other reason => reason

/-- The files that class paths and source files are looked up in. -/
structure FileTree where
  /-- The files by their places, with their texts. -/
  files : List (List String × String) := []
  directories : List (List String) := []
deriving Inhabited

namespace FileTree

/-! ### Places -/

/-- The directory around a place. -/
def outer (place : List String) : List String :=
  if place.all (· == "..") then place ++ [".."]
  else if place == ["/"] then place
  else place.dropLast

/-- The place that a part of a path leads to. -/
def step (place : List String) (part : String) : List String :=
  if part == "" || part == "." then place
  else if part == ".." then outer place
  else place ++ [part]

/-- The place where a path starts and the parts that lead on from there. -/
def start (path : String) : List String × List String :=
  match (Text.splitAt '/' path.toList).map String.ofList with
  | "" :: parts => (["/"], parts)
  | parts => ([], parts)

/-- The place that a path names, if all directories on the way exist. -/
def placeOf (path : String) : List String :=
  let (place, parts) := start path
  parts.foldl step place

/-! ### What is there -/

def textAt? (tree : FileTree) (place : List String) : Option String :=
  tree.files.lookup place

def isInside (inner place : List String) : Bool :=
  place.isPrefixOf inner && place.length < inner.length

def isDirectoryAt (tree : FileTree) (place : List String) : Bool :=
  place.all (· == "..") || place == ["/"] || tree.directories.contains place ||
    tree.files.any fun (file, _) => isInside file place

def nameLimit : Nat := 255

def pathLimit : Nat := 4095

/-- The place that a part of a path leads to, if something is there. -/
def enter (tree : FileTree) (place : List String) (part : String) :
    Except FileFault (List String) :=
  if tree.isDirectoryAt place then
    let next := step place part
    if tree.isDirectoryAt next || (tree.textAt? next).isSome then .ok next
    else if nameLimit < part.utf8ByteSize then .error .nameTooLong
    else .error .missing
  else .error .notDirectory

/-- The place that a path names, if something is there. -/
def find (tree : FileTree) (path : String) : Except FileFault (List String) :=
  if path.isEmpty then .error .missing
  else if pathLimit < path.utf8ByteSize then .error .nameTooLong
  else
    let (place, parts) := start path
    parts.foldlM tree.enter place

def isDirectory (tree : FileTree) (path : String) : Bool :=
  match tree.find path with
  | .ok place => tree.isDirectoryAt place
  | .error _ => false

/-- The text of the file that a path names. -/
def read (tree : FileTree) (path : String) : Except FileFault String := do
  let place ← tree.find path
  if tree.isDirectoryAt place then .error .directory
  else
    match tree.textAt? place with
    | some text => .ok text
    | none => .error .missing

def isFile (tree : FileTree) (path : String) : Bool :=
  (tree.read path).isOk

/-- The places of the files inside a place, seen from there. -/
def inside (tree : FileTree) (place : List String) : List (List String) :=
  (tree.files.filter fun (file, _) => isInside file place).map (·.1.drop place.length)
    |>.filter fun file => file.head? != some "/" && file.head? != some ".."

/-! ### Growth -/

/-- The tree with a file.  A file that is there gets the new text. -/
def addFile (tree : FileTree) (path text : String) : FileTree :=
  let place := placeOf path
  { tree with files := tree.files.filter (·.1 != place) ++ [(place, text)] }

def addDirectory (tree : FileTree) (path : String) : FileTree :=
  { tree with directories := tree.directories ++ [placeOf path] }

end FileTree

/-- The path that leads on from a directory.  A path from the root stays as it is. -/
def joinPath (directory path : String) : String :=
  if directory.isEmpty || path.front? == some '/' then path
  else if directory.back? == some '/' then directory ++ path
  else directory ++ "/" ++ path

end JavaDecl
