import JavaDecl.Model.Basic

/-!
# What a name stands for

A name in a declaration stands for the first admissible one among the full names
that it may be short for.  The list of those is fixed by the declarations of the
unit alone; a library only decides which of them are admissible.
-/

namespace JavaDecl

/-- Which of two places a name is looked up in first. -/
inductive LookupOrder where
  | nestedFirst
  | importsFirst
deriving DecidableEq, Repr, Inhabited

/-- A full name that a name may be short for. -/
inductive Candidate where
  /-- A full name that is always admissible. -/
  | certain (name : String)
  /-- A full name that is admissible if it is known. -/
  | ifKnown (name : String)
deriving DecidableEq, Repr, Inhabited

/-- The first admissible candidate.  No name is asked for after it. -/
@[specialize]
def firstAdmissible {m : Type → Type} [Monad m] (knows : String → m Bool) :
    List Candidate → m (Option String)
  | [] => pure none
  | .certain name :: _ => pure (some name)
  | .ifKnown name :: rest => do
      if ← knows name then pure (some name) else firstAdmissible knows rest

namespace UnitEntity

/-- The first single import of a name. -/
def singleImport? (unit : UnitEntity) (name : String) : Option String :=
  unit.singleImports.find? fun imported => (withoutTail? ("." ++ name) imported).isSome

/-- A name in the package of the unit. -/
def inPackage (unit : UnitEntity) (name : String) : String :=
  match unit.packageName with
  | some package => package ++ "." ++ name
  | none => name

end UnitEntity

namespace Model

/-! ### Classes around a name -/

/-- A class and those around it, the innermost first, up to a number. -/
def outward (model : Model) : Nat → ClassId → List ClassId
  | 0, _ => []
  | count + 1, id =>
      id :: ((model.classAt id).enclosing.map (model.outward count)).getD []

/-- The classes around a place, the innermost first.  A class begins after those around
it, so its position bounds their number. -/
def around (model : Model) (scope : Scope) : List ClassId :=
  match scope.classId with
  | some id => model.outward (id.index + 1) id
  | none => []

def parameterNamed? (model : Model) (name : String) (owner : VariableOwner) : Option Referent :=
  ((model.typeParametersOf owner).findIdx? (·.name == name)).map (.variable owner)

/-- The type variable with a name: that of the method, or else that of the innermost class
around the place which has one. -/
def typeVariable? (model : Model) (name : String) (scope : Scope) : Option Referent :=
  (scope.method.bind fun id => model.parameterNamed? name (.ofMethod id)).or
    ((model.around scope).findSome? fun id => model.parameterNamed? name (.ofClass id))

/-- The class with a simple name among some. -/
def simplyNamed? (model : Model) (name : String) (ids : List ClassId) : Option ClassId :=
  ids.find? fun id => (model.classAt id).name == name

/-- The class that a simple name means in the body of a class: the class itself, unless it
is the body of a constant, or a class directly in it. -/
def matchIn? (model : Model) (name : String) (id : ClassId) : Option ClassId :=
  let entity := model.classAt id
  if entity.name == name && !entity.isConstantBody then some id
  else model.simplyNamed? name entity.nested

/-- The class that a simple name means where it stands: the match in the innermost class
around it which has one, or else a class of the unit. -/
def lexicalMatch? (model : Model) (name : String) (scope : Scope) : Option ClassId :=
  ((model.around scope).findSome? (model.matchIn? name)).or
    (model.simplyNamed? name (model.unit scope.unit).classes)

/-! ### Candidates -/

/-- The candidate for a class around the name. -/
def lexicalCandidates (model : Model) (name : String) (scope : Scope) : List Candidate :=
  ((model.lexicalMatch? name scope).map fun id =>
    .ifKnown (model.classAt id).binaryName).toList

/-- The candidate for a single import. -/
def importCandidates (model : Model) (name : String) (scope : Scope) : List Candidate :=
  (((model.unit scope.unit).singleImport? name).map .certain).toList

/-- The candidates for wildcard imports: members of a package, then those of a class. -/
def wildcardCandidates (model : Model) (name : String) (scope : Scope) : List Candidate :=
  (model.unit scope.unit).wildcardImports.flatMap fun (lead, _) =>
    [.ifKnown (lead ++ "." ++ name), .ifKnown (lead ++ "$" ++ name)]

def candidates (model : Model) (order : LookupOrder) (name : String) (scope : Scope) :
    List Candidate :=
  let near :=
    match order with
    | .nestedFirst => model.lexicalCandidates name scope ++ model.importCandidates name scope
    | .importsFirst => model.importCandidates name scope ++ model.lexicalCandidates name scope
  -- A single import is taken whether its name is known or not, so it hides what follows.
  near ++
    [.ifKnown ((model.unit scope.unit).inPackage name), .ifKnown ("java.lang." ++ name)] ++
      model.wildcardCandidates name scope

/-- What a name stands for at a place.  Primitive types and dotted names stand for
themselves, and type variables hide all classes. -/
@[specialize]
def resolveName {m : Type → Type} [Monad m] (model : Model) (order : LookupOrder)
    (knows : String → m Bool) (name : String) (scope : Scope) : m (Option Referent) :=
  if isPrimitiveName name || name.toList.contains '.' then pure (some (.named name))
  else
    match model.typeVariable? name scope with
    | some parameter => pure (some parameter)
    | none => do
        let found ← firstAdmissible knows (model.candidates order name scope)
        return found.map .named

end Model

end JavaDecl
