import JavaDecl.Proofs.CoherentModels
import JavaDecl.Proofs.LibraryAnswers

/-!
# Changes of a session

What a change does to the parts of a session is found once, from the code of the change:
source texts are added to its model, and its library learns names, gets a further source or
is asked.  So builds, changes of the library and questions to it leave the settings of a
project and its memo alone.  They keep what the model has, and unless the library gets a new
generation they keep all its answers.
-/

namespace JavaDecl

namespace Model

variable {model : Model}

/-- What is settled is either what has been added or the model as it was. -/
theorem settle_eq {α : Type} {result : Model × Except Failure α}
    (grown : model.Extends result.1) :
    (model.settle result).1 = result.1 ∨ (model.settle result).1 = model := by
  obtain ⟨larger, outcome⟩ := result
  cases outcome with
  | ok value => exact .inl rfl
  | error cause => exact .inr grown.truncate_eq

/-- A coherent model extends another. -/
structure Supersedes (larger model : Model) : Prop where
  coherent : larger.Coherent
  grown : model.Extends larger

theorem Coherent.supersedes (coherent : model.Coherent) : model.Supersedes model :=
  ⟨coherent, .refl coherent.names⟩

theorem Supersedes.addEvents (coherent : model.Coherent) (events : List Event) :
    (model.addEvents events).1.Supersedes model :=
  ⟨coherent.addEvents events, (Extends.refl coherent.names).addEvents events⟩

theorem Supersedes.addUnit (coherent : model.Coherent) (events : List Event) :
    (model.addUnit events).1.Supersedes model :=
  ⟨coherent.addUnit events, (Extends.refl coherent.names).addUnit events⟩

theorem Supersedes.addUnits (coherent : model.Coherent) (units : List (List Event)) :
    (model.addUnits units).1.Supersedes model :=
  ⟨coherent.addUnits units, (Extends.refl coherent.names).addUnits units⟩

theorem Supersedes.settle {α : Type} {result : Model × Except Failure α}
    (coherent : model.Coherent) (supersedes : result.1.Supersedes model) :
    (model.settle result).1.Supersedes model := by
  rcases settle_eq supersedes.grown with added | restored
  · rw [added]
    exact supersedes
  · rw [restored]
    exact coherent.supersedes

theorem Supersedes.addSource (coherent : model.Coherent) (source : List Char) :
    (model.addSource source).1.Supersedes model := by
  apply Supersedes.settle coherent
  split
  · exact .addUnit coherent _
  · exact .addEvents coherent _

theorem Supersedes.addSources (coherent : model.Coherent) (sources : List (List Char)) :
    (model.addSources sources).1.Supersedes model := by
  apply Supersedes.settle coherent
  split
  · exact .addUnits coherent _
  · exact coherent.supersedes

/-- What source texts make of a model: nothing when none is read, and else what one of them
adds or several add together. -/
inductive Adds (model : Model) : Model → Prop where
  | nothing : Adds model model
  | source (source : List Char) : Adds model (model.addSource source).1
  | sources (sources : List (List Char)) : Adds model (model.addSources sources).1

theorem Adds.supersedes {grown : Model} (adds : model.Adds grown) (coherent : model.Coherent) :
    grown.Supersedes model := by
  cases adds with
  | nothing => exact coherent.supersedes
  | source source => exact .addSource coherent source
  | sources sources => exact .addSources coherent sources

end Model

namespace Library

variable {files : FileTree} {library later : Library}

/-- A library learns names, looks for classes in one more place or is asked for one. -/
inductive Learns (files : FileTree) (library : Library) : Library → Prop where
  | names (names : List String) : Learns files library (library.registerAll names).2
  | source (source : ClassSource) : Learns files library (library.addSource source)
  | ask (name : String) : Learns files library (library.contains files name).2

theorem Learns.nothing (files : FileTree) (library : Library) : library.Learns files library := by
  have same : (library.registerAll []).2 = library := by simp [registerAll]
  have learns : library.Learns files (library.registerAll []).2 := .names []
  rwa [same] at learns

theorem Learns.updates (learns : library.Learns files later) : library.Updates files later := by
  cases learns with
  | names names => exact library.updates_registerAll files names
  | source source => exact library.updates_addSource files source
  | ask name => exact .inl (library.agrees_contains files name)

end Library

namespace Session

/-- What is done to a session between look-ups: a build that succeeds or fails, a change
of the library or a question to it. -/
inductive Changes (files : FileTree) : Session → Session → Prop where
  | build (session : Session) (source : String) :
      Changes files session (build source files session).2
  | add (session : Session) (source : String) :
      Changes files session (add source files session).2
  | addFile (session : Session) (path : String) :
      Changes files session (addFile path files session).2
  | addAll (session : Session) (sources : List String) :
      Changes files session (addAll sources files session).2
  | registerUnit (session : Session) (id : UnitId) :
      Changes files session (register id files session).2
  | register (session : Session) (name : String) :
      Changes files session { session with library := (session.library.register name).2 }
  | registerAll (session : Session) (names : List String) :
      Changes files session { session with library := (session.library.registerAll names).2 }
  | addSource (session : Session) (source : ClassSource) :
      Changes files session { session with library := session.library.addSource source }
  | ask (session : Session) (name : String) :
      Changes files session (knows name files session).2

variable {files : FileTree} {session changed : Session}

/-- What becomes of the parts of a session: only source texts change its model, and its
settings and its memo stay. -/
structure Effects (files : FileTree) (session changed : Session) : Prop where
  project : changed.project = { session.project with model := changed.project.model }
  model : session.project.model.Adds changed.project.model
  library : session.library.Learns files changed.library

theorem Effects.changeLibrary {library : Library} (learns : session.library.Learns files library) :
    session.Effects files { session with library } :=
  ⟨rfl, .nothing, learns⟩

theorem effects_add (session : Session) (files : FileTree) (source : String) :
    session.Effects files (add source files session).2 := by
  have adds : session.project.model.Adds (session.project.model.addSource source.toList).1 :=
    .source source.toList
  rw [add_eq, build_eq]
  cases added : session.project.model.addSource source.toList with
  | mk model result =>
      rw [added] at adds
      cases result with
      | ok id => exact ⟨rfl, adds, .names _⟩
      | error failure => exact ⟨rfl, adds, .nothing files session.library⟩

theorem effects_addAll (session : Session) (files : FileTree) (sources : List String) :
    session.Effects files (addAll sources files session).2 := by
  have adds : session.project.model.Adds
      (session.project.model.addSources (sources.map String.toList)).1 :=
    .sources (sources.map String.toList)
  rw [addAll_eq]
  cases added : session.project.model.addSources (sources.map String.toList) with
  | mk model result =>
      rw [added] at adds
      cases result with
      | ok ids => exact ⟨rfl, adds, .names _⟩
      | error failure => exact ⟨rfl, adds, .nothing files session.library⟩

/-- What each change does is said here once, and what it keeps follows from that. -/
theorem Changes.effects (changes : Changes files session changed) :
    session.Effects files changed := by
  have still : session.library.Learns files session.library := .nothing files session.library
  cases changes with
  | build source => exact ⟨rfl, .source source.toList, still⟩
  | add source => exact session.effects_add files source
  | addFile path =>
      have read : Session.addFile path files session = addRead (files.read path) files session :=
        rfl
      rw [read]
      cases files.read path with
      | ok source => exact session.effects_add files source
      | error fault => exact .changeLibrary still
  | addAll sources => exact session.effects_addAll files sources
  | registerUnit id => exact .changeLibrary (.names _)
  | register name => exact .changeLibrary (.names [name])
  | registerAll names => exact .changeLibrary (.names names)
  | addSource source => exact .changeLibrary (.source source)
  | ask name => exact .changeLibrary (.ask name)

/-- What changes keep of a session. -/
structure Onward (files : FileTree) (session changed : Session) : Prop where
  settings : changed.project.settings = session.project.settings
  memo : changed.project.memo = session.project.memo
  model : changed.project.model.Supersedes session.project.model
  library : session.library.Updates files changed.library

theorem Onward.changeLibrary (coherent : session.project.model.Coherent) {library : Library}
    (updates : session.library.Updates files library) :
    session.Onward files { session with library } :=
  ⟨rfl, rfl, coherent.supersedes, updates⟩

/-- Every change keeps the memo, what the model has and, without a new generation, the
answers of the library. -/
theorem Changes.onward (coherent : session.project.model.Coherent)
    (changes : Changes files session changed) : session.Onward files changed where
  settings := by rw [changes.effects.project]
  memo := by rw [changes.effects.project]
  model := changes.effects.model.supersedes coherent
  library := changes.effects.library.updates

end Session

end JavaDecl
