import JavaDecl.Declaration.TypeExpr

/-!
# Types after resolution

A resolved type names a class or primitive type in full where the name is known,
and type variables have been replaced.  Wildcards stay, as arguments and, where a
variable was replaced by one, alone.
-/

namespace JavaDecl

/-- The class that erases a type variable without a bound. -/
def objectName : String := "java.lang.Object"

/-- A type after resolution. -/
inductive ResolvedType where
  /-- A class or primitive type, or an array of one. -/
  | named (name : String) (isResolved : Bool) (dims : Nat) (args : List ResolvedType)
  | unbounded
  /-- A wildcard for the subtypes of a type. -/
  | extending (bound : ResolvedType)
  /-- A wildcard for the supertypes of a type. -/
  | above (bound : ResolvedType)
deriving Inhabited

namespace ResolvedType

def object : ResolvedType := .named objectName true 0 []

/-- The name without type arguments and dimensions. -/
def name : ResolvedType → String
  | named name _ _ _ => name
  | _ => "?"

/-- Whether the name is the full name of a known class or primitive type. -/
def isResolved : ResolvedType → Bool
  | named _ isResolved _ _ => isResolved
  | _ => true

def dims : ResolvedType → Nat
  | named _ _ dims _ => dims
  | _ => 0

def args : ResolvedType → List ResolvedType
  | named _ _ _ args => args
  | _ => []

/-- The type without type arguments; a wildcard becomes its upper bound. -/
def erased : ResolvedType → ResolvedType
  | named name isResolved dims _ => named name isResolved dims []
  | extending bound => bound.erased
  | unbounded | above _ => object

/-- The type with more array dimensions; a wildcard stays as it is. -/
def addDims (more : Nat) : ResolvedType → ResolvedType
  | named name isResolved dims args => named name isResolved (dims + more) args
  | wildcard => wildcard

/-- The name with array brackets and without type arguments. -/
def erasedText (type : ResolvedType) : String :=
  type.name ++ dimsText type.dims

mutual

def text : ResolvedType → String
  | named name _ dims [] => name ++ dimsText dims
  | named name _ dims (arg :: args) =>
      name ++ "<" ++ listText (arg :: args) ++ ">" ++ dimsText dims
  | unbounded => "?"
  | extending bound => "? extends " ++ bound.text
  | above bound => "? super " ++ bound.text

/-- The texts of types with commas between them. -/
def listText : List ResolvedType → String
  | [] => ""
  | [type] => type.text
  | type :: next :: rest => type.text ++ ", " ++ listText (next :: rest)

end

mutual

def same : ResolvedType → ResolvedType → Bool
  | named name isResolved dims args, named name' isResolved' dims' args' =>
      name == name' && isResolved == isResolved' && dims == dims' && sameList args args'
  | unbounded, unbounded => true
  | extending bound, extending bound' => same bound bound'
  | above bound, above bound' => same bound bound'
  | _, _ => false

/-- Whether two lists hold the same types in the same order. -/
def sameList : List ResolvedType → List ResolvedType → Bool
  | [], [] => true
  | type :: rest, type' :: rest' => same type type' && sameList rest rest'
  | _, _ => false

end

end ResolvedType

end JavaDecl
