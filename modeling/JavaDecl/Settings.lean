import JavaDecl.ClassPath
import JavaDecl.Failure
import JavaDecl.Library.Basic
import JavaDecl.Lookup.Candidate

/-!
# Settings of a project

The settings say which sources the library of a project has and in which order
the meaning of a name is looked up.
-/

namespace JavaDecl

/-- The settings of a project. -/
structure Settings where
  classPath : Option String := none
  /-- Whether the core classes are known. -/
  coreNames : Bool := true
  /-- Which of two places a name is looked up in first. -/
  order : LookupOrder := .nestedFirst
deriving DecidableEq, Repr, Inhabited

namespace Settings

/-- The settings that an environment asks for. -/
def ofEnvironment (environment : List (String × String)) : Settings :=
  { classPath := ClassPath.choose? none environment }

def entries (settings : Settings) : List String :=
  (settings.classPath.map ClassPath.entries).getD []

/-- Checks that a class path is not blank and that all its entries are directories. -/
def check (files : FileTree) (settings : Settings) : Except Failure Unit := do
  if settings.classPath.any fun text => (Text.trim text.toList).isEmpty then
    throw (.configuration "classpath is set but empty")
  match settings.entries.find? fun entry => !files.isDirectory entry with
  | some entry => throw (.configuration ("classpath entry '" ++ entry ++ "' is not a directory"))
  | none => return ()

def sources (settings : Settings) : List ClassSource :=
  (if settings.coreNames then [.core] else []) ++
    settings.entries.map fun root => .directory { root }

/-- A new library with the sources that the settings ask for. -/
def library (settings : Settings) : Library :=
  settings.sources.foldl Library.addSource {}

end Settings

end JavaDecl
