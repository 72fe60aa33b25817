import JavaDecl.Lookup.Member
import JavaDecl.Lookup.Memo
import JavaDecl.Model.Assembly
import JavaDecl.Settings

/-!
# Projects and their libraries

A project is a model with settings and a memo of earlier look-ups.  It resolves
names against a library, which it may share with other projects.  What is done to
a project and its library is done in a session on both.
-/

namespace JavaDecl

/-- A set of compilation units. -/
structure Project where
  model : Model := {}
  settings : Settings := {}
  memo : Memo := ∅
deriving Inhabited

/-- What is known of the names of types without looking them up. -/
def Project.known (project : Project) : Known :=
  project.memo.known

/-- A project together with the library that it resolves against. -/
structure Session where
  project : Project
  library : Library
deriving Inhabited

/-- An operation on a project and its library. -/
abbrev SessionM := ReaderT FileTree (StateM Session)

namespace Session

/-- A new project with the library that its settings ask for. -/
def ofSettings (settings : Settings) : Session :=
  { project := { settings }, library := settings.library }

/-! ### Growth -/

def changeLibrary {α : Type} (change : Library → α × Library) : SessionM α :=
  modifyGet fun session =>
    let (value, library) := change session.library
    (value, { session with library })

def changeModel {α : Type} (change : Model → α × Model) : SessionM α :=
  modifyGet fun session =>
    let (value, model) := change session.project.model
    (value, { session with project := { session.project with model } })

/-- Reads a source text and adds its unit.  The library does not learn its names. -/
def build (source : String) : SessionM (Except Failure UnitId) :=
  changeModel fun model =>
    let (after, result) := model.addSource source.toList
    (result, after)

def namesInUnit (model : Model) (id : UnitId) : List String :=
  (model.classesInUnit id).map fun classId => (model.classAt classId).binaryName

/-- Registers the classes of a unit and counts the new names. -/
def register (id : UnitId) : SessionM Nat := do
  let model := (← get).project.model
  changeLibrary (·.registerAll (namesInUnit model id))

/-- Reads a source text, adds its unit and registers its classes. -/
def add (source : String) : SessionM (Except Failure UnitId) := do
  match ← build source with
  | .ok id =>
      let _ ← register id
      return .ok id
  | .error failure => return .error failure

/-- Adds the unit of a file that has been read, if it could be. -/
def addRead : Except FileFault String → SessionM (Except Failure UnitId)
  | .ok source => add source
  | .error fault => return .error (.file fault.message)

/-- Reads a file and adds its unit. -/
def addFile (path : String) : SessionM (Except Failure UnitId) := do
  addRead ((← read).read path)

/-- Reads source texts and adds their units, then registers all classes at once.  If a
text is refused, nothing is added. -/
def addAll (sources : List String) : SessionM (Except Failure (List UnitId)) := do
  let result ← changeModel fun model =>
    let (after, result) := model.addSources (sources.map String.toList)
    (result, after)
  match result with
  | .ok ids =>
      let model := (← get).project.model
      let _ ← changeLibrary (·.registerAll (ids.flatMap (namesInUnit model)))
      return .ok ids
  | .error failure => return .error failure

/-! ### Look-up -/

def knows (name : String) : SessionM Bool := do
  let files ← read
  changeLibrary (·.contains files name)

/-- What a name stands for at a place, looked up anew. -/
def lookUp (name : String) (scope : Scope) : SessionM (Option Referent) := do
  let project := (← get).project
  project.model.resolveName project.settings.order knows name scope

/-- What a type of the model stands for, looked up unless it is remembered. -/
def referent (ref : TypeRef) : SessionM (Option Referent) := do
  let session ← get
  let generation := session.library.generation
  match session.project.memo.remembered? generation ref.site with
  | some result => return result
  | none =>
      let result ← lookUp ref.name ref.scope
      modify fun session =>
        let memo := session.project.memo.record generation ref.site result
        { session with project := { session.project with memo } }
      return result

/-- The model of the project with its remembered look-ups. -/
def resolver : SessionM (Resolver SessionM) := do
  return { model := (← get).project.model, referent }

end Session

end JavaDecl
