import JavaDecl.Declaration.AnnotationUse
import JavaDecl.DocComment

/-!
# What is declared

The headers of classes, methods and variables, and the declarations of a
compilation unit outside its classes.  Bodies and expressions are kept as text.
-/

namespace JavaDecl

structure PackageDecl where
  name : String
  line : Nat
deriving DecidableEq, Repr, Inhabited

structure ImportDecl where
  /-- The dotted name, without the star of a wildcard. -/
  name : String
  /-- Whether members of a class are imported. -/
  isStatic : Bool
  /-- Whether everything under the name is imported. -/
  isWildcard : Bool
  line : Nat
deriving DecidableEq, Repr, Inhabited

/-- The import as it is written after its keyword. -/
def ImportDecl.text (declared : ImportDecl) : String :=
  (if declared.isStatic then "static " else "") ++ declared.name ++
    (if declared.isWildcard then ".*" else "")

inductive ClassKind where
  | ordinary
  | interface
  | enumeration
  | annotationType
deriving DecidableEq, Repr, Inhabited

/-- The words that open a class declaration. -/
def ClassKind.keyword : ClassKind → String
  | ordinary => "class"
  | interface => "interface"
  | enumeration => "enum"
  | annotationType => "@interface"

/-- The header of a class declaration. -/
structure ClassDecl where
  name : String
  kind : ClassKind
  modifiers : List String := []
  /-- The types after `extends`. -/
  extending : List TypeExpr := []
  /-- The types after `implements`. -/
  implementing : List TypeExpr := []
  typeParameters : List (TypeParameter TypeExpr) := []
  line : Nat
  /-- Whether the class is the body of an enumeration constant. -/
  isConstantBody : Bool := false
deriving Inhabited

/-- A method or constructor, without its parameters. -/
structure MethodDecl where
  name : String
  /-- The type of the result; a constructor has none. -/
  returnType : Option TypeExpr := none
  modifiers : List String := []
  /-- The types after `throws`. -/
  exceptions : List TypeExpr := []
  typeParameters : List (TypeParameter TypeExpr) := []
  isConstructor : Bool := false
  /-- The text between the braces of the body. -/
  body : Option String := none
  /-- The default value of an annotation element, as it is written. -/
  defaultValue : Option String := none
  line : Nat
deriving Inhabited

/-- A field, a parameter or an enumeration constant. -/
structure VariableDecl where
  name : String
  /-- The type, with the dimensions after the name counted in. -/
  type : TypeExpr
  modifiers : List String := []
  initializer : Option String := none
  isConstant : Bool := false
  /-- The arguments of an enumeration constant, as they are written. -/
  args : List String := []
  /-- Whether it is a parameter that takes any number of arguments. -/
  isVarargs : Bool := false
  line : Nat
deriving Inhabited

/-- A block of statements among the members of a class. -/
structure InitializerDecl where
  /-- Whether it runs when the class is loaded. -/
  isStatic : Bool
  body : String
  line : Nat
deriving DecidableEq, Repr, Inhabited

/-- The header of a module declaration. -/
structure ModuleDecl where
  name : String
  /-- Whether all its packages are open. -/
  isOpen : Bool
  line : Nat
deriving DecidableEq, Repr, Inhabited

/-- A module that another one needs. -/
structure RequiresDirective where
  name : String
  modifiers : List String
  line : Nat
deriving DecidableEq, Repr, Inhabited

/-- A package that a module exports or opens. -/
structure PackageDirective where
  package : String
  /-- The modules it is for, all if there are none. -/
  targets : List String
  line : Nat
deriving DecidableEq, Repr, Inhabited

/-- A service that a module uses. -/
structure UsesDirective where
  service : TypeExpr
  line : Nat
deriving Inhabited

/-- A service that a module provides. -/
structure ProvidesDirective where
  service : TypeExpr
  implementations : List TypeExpr
  line : Nat
deriving Inhabited

end JavaDecl
