import JavaDecl.Session

/-!
# Workspaces

A workspace holds projects, the libraries that they share and the files that both
look at.
-/

namespace JavaDecl

structure PlacedProject where
  project : Project
  library : Nat
deriving Inhabited

/-- Projects, libraries and files. -/
structure Workspace where
  files : FileTree := {}
  libraries : Array Library := #[]
  projects : Array PlacedProject := #[]
  /-- The names that lists of names were asked for, the first one first. -/
  asked : List String := []
deriving Inhabited

namespace Workspace

def session (workspace : Workspace) (position : Nat) : Session :=
  let placed := workspace.projects.getD position default
  { project := placed.project, library := workspace.libraries.getD placed.library default }

/-- Adds a project with the library at a position. -/
def addProjectAt (workspace : Workspace) (library : Nat) (settings : Settings := {}) : Workspace :=
  { workspace with projects := workspace.projects.push { project := { settings }, library } }

def addProject (workspace : Workspace) (library : Library) (settings : Settings := {}) :
    Workspace :=
  { workspace with libraries := workspace.libraries.push library }.addProjectAt
    workspace.libraries.size settings

/-- Adds a project with the library that its settings ask for. -/
def addProjectWith (workspace : Workspace) (settings : Settings) : Workspace :=
  workspace.addProject settings.library settings

/-- Adds a project that shares the library of another. -/
def addSharing (workspace : Workspace) (position : Nat) : Workspace :=
  workspace.addProjectAt (workspace.projects.getD position default).library

/-- Does an operation on a project and its library. -/
def run {α : Type} (workspace : Workspace) (position : Nat) (operation : SessionM α) :
    α × Workspace :=
  let placed := workspace.projects.getD position default
  let (value, after) := operation workspace.files (workspace.session position)
  let (names, library) := after.library.takeListQuestions
  (value,
    { workspace with
      libraries := workspace.libraries.setIfInBounds placed.library library
      projects := workspace.projects.setIfInBounds position { placed with project := after.project }
      asked := workspace.asked ++ names })

/-- Takes the names that lists of names were asked for. -/
def takeAsked (workspace : Workspace) : List String × Workspace :=
  (workspace.asked, { workspace with asked := [] })

end Workspace

end JavaDecl
