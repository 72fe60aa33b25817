import JavaDecl.Declaration.Basic

/-!
# References in a model

Classes, methods, fields and compilation units are kept in tables and referred to
by their position.  A type in a declaration is kept together with the place of
the source where its name is looked up, its scope, and with its own place in the
model, its site.
-/

namespace JavaDecl

structure UnitId where
  index : Nat
deriving DecidableEq, Hashable, Repr, Inhabited

structure ClassId where
  index : Nat
deriving DecidableEq, Hashable, Repr, Inhabited

structure MethodId where
  index : Nat
deriving DecidableEq, Hashable, Repr, Inhabited

structure FieldId where
  index : Nat
deriving DecidableEq, Hashable, Repr, Inhabited

/-- What a comment, an annotation or a type belongs to. -/
inductive Holder where
  /-- The package or module declaration of a unit. -/
  | ofUnit (id : UnitId)
  | ofClass (id : ClassId)
  | ofMethod (id : MethodId)
  | ofField (id : FieldId)
  /-- A parameter of a method or constructor. -/
  | ofParameter (id : MethodId) (position : Nat)
deriving DecidableEq, Hashable, Repr, Inhabited

/-- Where a type name is looked up. -/
structure Scope where
  unit : UnitId
  /-- The innermost class around the name; in the header of a class, that class. -/
  classId : Option ClassId := none
  /-- The method or constructor whose header holds the name. -/
  method : Option MethodId := none
deriving DecidableEq, Hashable, Repr, Inhabited

/-- The part that a type plays in its holder. -/
inductive RefRole where
  | ofPackageUse (position : Nat)
  | ofModuleUse (position : Nat)
  | usedService (position : Nat)
  | providedService (position : Nat)
  /-- A class that provides a service. -/
  | provider (position inner : Nat)
  | ofUse (position : Nat)
  | bound (parameter position : Nat)
  | superclass
  | interface (position : Nat)
  /-- The type of a field or parameter. -/
  | variableType
  /-- The type of a method's result. -/
  | result
  | thrown (position : Nat)
deriving DecidableEq, Hashable, Repr, Inhabited

/-- The place of a type in a model.  No two types of a model have the same. -/
structure RefSite where
  holder : Holder
  role : RefRole
  /-- The positions that lead to it inside that part, the innermost first. -/
  path : List Nat := []
deriving DecidableEq, Hashable, Repr, Inhabited

/-- The site of the part at a position. -/
def RefSite.child (site : RefSite) (position : Nat) : RefSite :=
  { site with path := position :: site.path }

/-- A type of a declaration in a model. -/
structure TypeRef where
  /-- The type as it is written. -/
  type : TypeExpr
  /-- Where its name is looked up. -/
  scope : Scope
  /-- Where it stands in the model. -/
  site : RefSite
deriving Inhabited

/-- The types that a type declaration gives parameters to. -/
inductive VariableOwner where
  | ofClass (id : ClassId)
  | ofMethod (id : MethodId)
deriving DecidableEq, Hashable, Repr, Inhabited

/-- What a type name stands for. -/
inductive Referent where
  /-- A class or primitive type, by its full name. -/
  | named (name : String)
  /-- The type parameter at a position of its owner. -/
  | variable (owner : VariableOwner) (position : Nat)
deriving DecidableEq, Hashable, Repr, Inhabited

/-- What is known about the names of types without looking them up. -/
abbrev Known := RefSite → Option Referent

/-- The names of the primitive types, `void` included. -/
def primitiveNames : List String :=
  ["boolean", "byte", "char", "short", "int", "long", "float", "double", "void"]

def isPrimitiveName (name : String) : Bool :=
  primitiveNames.contains name

/-! ### Text of written types -/

mutual

/-- The text of a type; `nameAt` gives the name at a path, where another is written. -/
def TypeExpr.textWith (nameAt : List Nat → String → String) (path : List Nat) :
    TypeExpr → String
  | ⟨name, dims, []⟩ => nameAt path name ++ dimsText dims
  | ⟨name, dims, arg :: args⟩ =>
      nameAt path name ++ "<" ++ argsTextWith nameAt path 0 (arg :: args) ++ ">" ++ dimsText dims

/-- The texts of type arguments with commas between them, the first at `position`. -/
def argsTextWith (nameAt : List Nat → String → String) (path : List Nat) (position : Nat) :
    List (TypeArgument TypeExpr) → String
  | [] => ""
  | [arg] => argTextWith nameAt (position :: path) arg
  | arg :: next :: rest =>
      argTextWith nameAt (position :: path) arg ++ ", " ++
        argsTextWith nameAt path (position + 1) (next :: rest)

def argTextWith (nameAt : List Nat → String → String) (path : List Nat) :
    TypeArgument TypeExpr → String
  | .type type => type.textWith nameAt path
  | .unbounded => "?"
  | .extending bound => "? extends " ++ bound.textWith nameAt path
  | .above bound => "? super " ++ bound.textWith nameAt path

end

def TypeExpr.text (type : TypeExpr) : String :=
  type.textWith (fun _ written => written) []

namespace TypeRef

/-- The name as it is written, without type arguments. -/
def name (ref : TypeRef) : String := ref.type.name

def dims (ref : TypeRef) : Nat := ref.type.dims

/-- A type of the same declaration that is a part of this one. -/
def part (ref : TypeRef) (position : Nat) (type : TypeExpr) : TypeRef :=
  { ref with type, site := ref.site.child position }

def args (ref : TypeRef) : List (TypeArgument TypeRef) :=
  ref.type.args.zipIdx.map fun (arg, position) => arg.map (ref.part position)

def isPrimitive (ref : TypeRef) : Bool :=
  ref.dims == 0 && isPrimitiveName ref.name

def isArray (ref : TypeRef) : Bool :=
  ref.dims != 0

/-- The class or primitive type that the name is known to stand for. -/
def knownName? (known : Known) (site : RefSite) : Option String :=
  match known site with
  | some (.named name) => some name
  | _ => none

/-- The full name if it is known, the written name otherwise. -/
def value (known : Known) (ref : TypeRef) : String :=
  (knownName? known ref.site).getD ref.name

def isKnown (known : Known) (ref : TypeRef) : Bool :=
  (knownName? known ref.site).isSome

/-- The text of the type with full names where they are known. -/
def text (known : Known) (ref : TypeRef) : String :=
  ref.type.textWith
    (fun path written => (knownName? known { ref.site with path }).getD written) ref.site.path

end TypeRef

/-! ### Annotations in a model -/

mutual

/-- The annotation with each type changed by a function of its path and itself.  The
type of the annotation has position zero and its values those from one on. -/
def AnnotationUse.mapPaths {τ σ : Type} (change : List Nat → τ → σ) (path : List Nat) :
    AnnotationUse τ → AnnotationUse σ
  | ⟨type, values, line⟩ =>
      { type := change (0 :: path) type, values := mapPathsOfPairs change path 1 values, line }

/-- The element values with their types changed, the first at `position`. -/
def mapPathsOfPairs {τ σ : Type} (change : List Nat → τ → σ) (path : List Nat)
    (position : Nat) : List (String × ElementValue τ) → List (String × ElementValue σ)
  | [] => []
  | (element, value) :: rest =>
      (element, value.mapPaths change (position :: path)) ::
        mapPathsOfPairs change path (position + 1) rest

def ElementValue.mapPaths {τ σ : Type} (change : List Nat → τ → σ) (path : List Nat) :
    ElementValue τ → ElementValue σ
  | .constant text => .constant text
  | .classLiteral type => .classLiteral (change path type)
  | .nested use => .nested (use.mapPaths change path)
  | .array items => .array (mapPathsOfItems change path 0 items)
  | .expression text => .expression text

/-- The items of an array with their types changed, the first at `position`. -/
def mapPathsOfItems {τ σ : Type} (change : List Nat → τ → σ) (path : List Nat)
    (position : Nat) : List (ElementValue τ) → List (ElementValue σ)
  | [] => []
  | item :: rest =>
      item.mapPaths change (position :: path) ::
        mapPathsOfItems change path (position + 1) rest

end

end JavaDecl
