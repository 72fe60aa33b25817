import JavaDecl.Library.CoreNames
import JavaDecl.Library.Directory
import JavaDecl.Text.Quoted

/-!
# Libraries of class names

A library says which full names are names of classes.  It knows the names that
have been registered and asks its sources, one after the other, for all others.
Whoever remembers that a name was unknown can tell by the library's generation
whether that may have changed.
-/

namespace JavaDecl

/-- Something that knows names of classes. -/
inductive ClassSource where
  | core
  | listed (names : List String)
  /-- A directory on the class path. -/
  | directory (directory : ClassDirectory)
  /-- A source of another kind, which always gives the same answer about a name. -/
  | fixed (label : String) (knows : String → Bool) (names : List String)
deriving Inhabited

namespace ClassSource

def label : ClassSource → String
  | core => "jdk"
  | listed _ => "list"
  | directory d => d.label
  | fixed label _ _ => label

/-- Whether the source knows a name, and the source after the question. -/
def contains (files : FileTree) (name : String) : ClassSource → Bool × ClassSource
  | core => (coreNames.contains name, core)
  | listed names => (names.contains name, listed names)
  | directory d =>
      let (found, after) := d.contains files name
      (found, directory after)
  | fixed label knows names => (knows name, fixed label knows names)

/-- All names that the source knows, in its own order. -/
def all (files : FileTree) : ClassSource → List String
  | core => coreNames
  | listed names => names
  | directory d => d.all files
  | fixed _ _ names => names

def isListed : ClassSource → Bool
  | listed _ => true
  | _ => false

end ClassSource

/-- A name that a source was asked for. -/
structure Question where
  source : Nat
  name : String
deriving DecidableEq, Repr, Inhabited

/-- A library of class names. -/
structure Library where
  /-- The registered names, each once, in the order of their registration. -/
  registered : List String := []
  /-- The sources, in the order in which they are asked. -/
  sources : List ClassSource := []
  /-- How often the known names have changed. -/
  generation : Nat := 0
  /-- What the sources were asked, the first question first. -/
  questions : Array Question := #[]
deriving Inhabited

/-- The names with one more at the end, unless it is among them. -/
def appendNew (names : List String) (name : String) : List String :=
  if names.contains name then names else names ++ [name]

namespace Library

/-! ### Changes -/

/-- Adds a source.  It is asked after all others. -/
def addSource (library : Library) (source : ClassSource) : Library :=
  { library with
    sources := library.sources ++ [source]
    generation := library.generation + 1 }

/-- Registers names and counts the new ones.  Any number of new names is one change. -/
def registerAll (library : Library) (names : List String) : Nat × Library :=
  let registered := names.foldl appendNew library.registered
  let added := registered.length - library.registered.length
  (added,
    { library with
      registered
      generation := if added = 0 then library.generation else library.generation + 1 })

/-- Registers a name and says whether it is new. -/
def register (library : Library) (name : String) : Bool × Library :=
  let (added, after) := library.registerAll [name]
  (added != 0, after)

/-- The library of the core classes. -/
def ofCore : Library :=
  ({} : Library).addSource .core

/-! ### Questions -/

/-- The answer of sources that are asked for a name until one knows it. -/
structure Inquiry where
  found : Bool
  sources : List ClassSource
  /-- The questions, the first one first. -/
  questions : List Question

/-- Asks sources for a name until one knows it; the first has a position. -/
def inquire (files : FileTree) (name : String) (position : Nat) : List ClassSource → Inquiry
  | [] => ⟨false, [], []⟩
  | source :: rest =>
      let question : Question := ⟨position, name⟩
      match source.contains files name with
      | (true, after) => ⟨true, after :: rest, [question]⟩
      | (false, after) =>
          let further := inquire files name (position + 1) rest
          ⟨further.found, after :: further.sources, question :: further.questions⟩

/-- Whether a name is known: it is registered or a source knows it. -/
def contains (files : FileTree) (name : String) (library : Library) : Bool × Library :=
  if library.registered.contains name then (true, library)
  else
    let inquiry := inquire files name 0 library.sources
    (inquiry.found,
      { library with
        sources := inquiry.sources
        questions := library.questions ++ inquiry.questions.toArray })

/-- All known names: the registered ones and then those of each source. -/
def all (files : FileTree) (library : Library) : List String :=
  (library.registered ++ library.sources.flatMap (·.all files)).eraseDups

/-- The names that the lists among the sources were asked for, and the library without
a record of questions. -/
def takeListQuestions (library : Library) : List String × Library :=
  let toList (question : Question) : Bool :=
    (library.sources[question.source]?).any ClassSource.isListed
  ((library.questions.toList.filter toList).map Question.name, { library with questions := #[] })

def summary (library : Library) : String :=
  let labels := library.sources.map fun source =>
    String.ofList (Text.inDoubleQuotes source.label.toList)
  "ClassLibrary \x7b registered: " ++ toString library.registered.length ++ ", sources: [" ++
    ", ".intercalate labels ++ "], generation: " ++ toString library.generation ++ " \x7d"

end Library

end JavaDecl
