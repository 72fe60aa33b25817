import JavaDecl.Lookup.Hierarchy
import JavaDecl.Model.ResolvedType

/-!
# Types seen from a class

A type variable of a class, seen from a subclass, is the type that the subclass
gives to it.  A variable that nothing is given to is replaced by its erasure,
which is its first bound without type arguments.  Substitutions nest, and those
that nest too deep end in the class of all objects.
-/

namespace JavaDecl

/-- How deep substitutions nest. -/
def substitutionLimit : Nat := 64

namespace Resolver

variable {m : Type → Type} [Monad m]

/-- The type of a type argument, given those of written types. -/
@[specialize]
def argumentType (typeOf : TypeRef → m ResolvedType) : TypeArgument TypeRef → m ResolvedType
  | .type ref => typeOf ref
  | .unbounded => pure .unbounded
  | .extending bound => do return .extending (← typeOf bound)
  | .above bound => do return .above (← typeOf bound)

/-- The erasure of a type variable, given the types of bounds. -/
@[specialize]
def erasureBy (resolver : Resolver m) (typeOf : TypeRef → m ResolvedType)
    (owner : VariableOwner) (position : Nat) : m ResolvedType :=
  match (resolver.model.typeParameter? owner position).bind (·.bounds.head?) with
  | some bound => do return (← typeOf bound).erased
  | none => pure .object

/-- The type argument for a type variable as seen from a class, if there is one. -/
@[specialize]
def suppliedTo? (resolver : Resolver m) (viewing : Option ClassId) (owner : VariableOwner)
    (position : Nat) : m (Option (TypeArgument TypeRef)) :=
  match viewing, owner with
  | some viewer, .ofClass declaring => resolver.argument? viewer declaring position
  | _, _ => pure none

/-- A type as seen from a class, with substitutions down to a depth. -/
@[specialize]
def typeAt (resolver : Resolver m) : Nat → Option ClassId → TypeRef → m ResolvedType
  | 0, _, _ => pure .object
  | depth + 1, viewing, ref => do
      match ← resolver.referent ref with
      | some (.variable owner position) =>
          let type ←
            match ← resolver.suppliedTo? viewing owner position with
            | some arg => argumentType (resolver.typeAt depth viewing) arg
            | none => resolver.erasureBy (resolver.typeAt depth none) owner position
          return type.addDims ref.dims
      | some (.named name) =>
          let args ← ref.args.mapM (argumentType (resolver.typeAt depth viewing))
          return .named name true ref.dims args
      | none =>
          let args ← ref.args.mapM (argumentType (resolver.typeAt depth viewing))
          return .named ref.name false ref.dims args

def typeFrom (resolver : Resolver m) (viewing : Option ClassId) (ref : TypeRef) :
    m ResolvedType :=
  resolver.typeAt (substitutionLimit + 1) viewing ref

/-- A type as seen from the class around it. -/
def typeOf (resolver : Resolver m) (ref : TypeRef) : m ResolvedType :=
  resolver.typeFrom ref.scope.classId ref

/-- The erasure of a type variable inside a number of substitutions. -/
def erasure (resolver : Resolver m) (owner : VariableOwner) (position depth : Nat) :
    m ResolvedType :=
  resolver.erasureBy (resolver.typeAt (substitutionLimit - depth) none) owner position

end Resolver

end JavaDecl
