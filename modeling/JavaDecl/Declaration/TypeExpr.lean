/-!
# Types as they are written

A written type is a name with type arguments and array dimensions.  Type
arguments are shared by written, stored and resolved types, so they take the kind
of type as a parameter.
-/

namespace JavaDecl

/-- An argument between angle brackets. -/
inductive TypeArgument (τ : Type) where
  | type (type : τ)
  | unbounded
  /-- A wildcard for the subtypes of a type. -/
  | extending (bound : τ)
  /-- A wildcard for the supertypes of a type. -/
  | above (bound : τ)
deriving DecidableEq, Repr, Inhabited

namespace TypeArgument

/-- The type or bound of an argument, if it has one. -/
def type? {τ : Type} : TypeArgument τ → Option τ
  | type t => some t
  | unbounded => none
  | extending bound => some bound
  | above bound => some bound

def map {τ σ : Type} (change : τ → σ) : TypeArgument τ → TypeArgument σ
  | type t => .type (change t)
  | unbounded => .unbounded
  | extending bound => .extending (change bound)
  | above bound => .above (change bound)

end TypeArgument

/-- A type as it is written. -/
structure TypeExpr where
  /-- The dotted name, without type arguments. -/
  name : String
  dims : Nat := 0
  /-- The type arguments of the last part of the name. -/
  args : List (TypeArgument TypeExpr) := []
deriving Inhabited

def TypeExpr.addDims (type : TypeExpr) (more : Nat) : TypeExpr :=
  { type with dims := type.dims + more }

structure TypeParameter (τ : Type) where
  name : String
  bounds : List τ := []
deriving Inhabited

/-- The words for array dimensions after a type. -/
def dimsText (dims : Nat) : String :=
  String.join (List.replicate dims "[]")

end JavaDecl
