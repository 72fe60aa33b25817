import JavaDecl.Model.Reference

/-!
# Declarations in a model

What a model keeps about each compilation unit, class, method and field.  Other
declarations are referred to by their positions.
-/

namespace JavaDecl

/-- A block tag of the comment of a declaration. -/
structure HeldTag extends DocTag where
  holder : Holder
deriving DecidableEq, Repr, Inhabited

def DocTag.words (tag : DocTag) : List String :=
  (Text.words tag.value.toList).map String.ofList

structure PackageEntity where
  name : String
  uses : List (AnnotationUse TypeRef)
  comment : Option String
  line : Nat
deriving Inhabited

structure ProvidedService where
  service : TypeRef
  implementations : List TypeRef
  line : Nat
deriving Inhabited

structure ModuleEntity where
  name : String
  /-- Whether all its packages are open. -/
  isOpen : Bool
  requires : List RequiresDirective := []
  exports : List PackageDirective := []
  opens : List PackageDirective := []
  services : List TypeRef := []
  provides : List ProvidedService := []
  uses : List (AnnotationUse TypeRef)
  comment : Option String
  line : Nat
deriving Inhabited

structure UnitEntity where
  package : Option PackageEntity := none
  /-- Its imports as they are written. -/
  imports : List String := []
  /-- Its classes that are in no other class. -/
  classes : List ClassId := []
  moduleDecl : Option ModuleEntity := none
deriving Inhabited

structure ClassEntity where
  name : String
  kind : ClassKind
  modifiers : List String
  /-- The name with dollar signs between classes. -/
  binaryName : String
  /-- The name with dots between classes. -/
  canonicalName : String
  package : Option String
  unit : UnitId
  enclosing : Option ClassId
  typeParameters : List (TypeParameter TypeRef)
  /-- The type after `extends`, unless it is an interface. -/
  superclass : Option TypeRef
  /-- The types after `implements`, and those after `extends` of an interface. -/
  interfaces : List TypeRef
  /-- The classes directly in it, without the bodies of its constants. -/
  nested : List ClassId := []
  fields : List FieldId := []
  methods : List MethodId := []
  constructors : List MethodId := []
  initializers : List InitializerDecl := []
  uses : List (AnnotationUse TypeRef)
  comment : Option String
  tags : List HeldTag
  line : Nat
  isConstantBody : Bool
deriving Inhabited

structure ParameterEntity where
  name : String
  type : TypeRef
  /-- Whether it takes any number of arguments. -/
  isVarargs : Bool
  modifiers : List String
  uses : List (AnnotationUse TypeRef)
  line : Nat
deriving Inhabited

structure MethodEntity where
  name : String
  isConstructor : Bool
  declaring : ClassId
  /-- The type of the result; a constructor has none. -/
  returnType : Option TypeRef
  parameters : List ParameterEntity
  /-- The types after `throws`. -/
  exceptions : List TypeRef
  typeParameters : List (TypeParameter TypeRef)
  modifiers : List String
  /-- The text between the braces of the body. -/
  body : Option String
  /-- The default value of an annotation element, as it is written. -/
  defaultValue : Option String
  /-- Whether the last parameter takes any number of arguments. -/
  isVarargs : Bool
  uses : List (AnnotationUse TypeRef)
  comment : Option String
  tags : List HeldTag
  line : Nat
deriving Inhabited

/-- A field or enumeration constant. -/
structure FieldEntity where
  name : String
  declaring : ClassId
  type : TypeRef
  modifiers : List String
  initializer : Option String
  isConstant : Bool
  /-- The arguments of an enumeration constant, as they are written. -/
  args : List String
  /-- The class that its body declares. -/
  bodyClass : Option ClassId := none
  uses : List (AnnotationUse TypeRef)
  comment : Option String
  tags : List HeldTag
  line : Nat
deriving Inhabited

/-! ### Modifiers and kinds -/

namespace ClassKind

/-- An interface or the type of an annotation. -/
def isInterface : ClassKind → Bool
  | interface | annotationType => true
  | _ => false

end ClassKind

namespace ClassEntity

def has (entity : ClassEntity) (modifier : String) : Bool :=
  entity.modifiers.contains modifier

/-- A class without a body for all its methods; interfaces are such. -/
def isAbstract (entity : ClassEntity) : Bool :=
  entity.has "abstract" || entity.kind.isInterface

end ClassEntity

namespace MethodEntity

def has (entity : MethodEntity) (modifier : String) : Bool :=
  entity.modifiers.contains modifier

/-- Whether the method is hidden from other classes. -/
def isPrivate (entity : MethodEntity) : Bool :=
  entity.has "private"

end MethodEntity

namespace FieldEntity

def has (entity : FieldEntity) (modifier : String) : Bool :=
  entity.modifiers.contains modifier

/-- Whether the field is hidden from other classes. -/
def isPrivate (entity : FieldEntity) : Bool :=
  entity.has "private"

/-- Whether the field belongs to the class; enumeration constants do. -/
def isStatic (entity : FieldEntity) : Bool :=
  entity.has "static" || entity.isConstant

end FieldEntity

/-! ### Imports -/

namespace UnitEntity

def packageName (unit : UnitEntity) : Option String :=
  unit.package.map PackageEntity.name

/-- The text after a word that it starts with. -/
def withoutLead? (lead text : String) : Option String :=
  if lead.toList.isPrefixOf text.toList then
    some (String.ofList (text.toList.drop lead.toList.length))
  else none

/-- The text before a word that it ends with. -/
def withoutTail? (tail text : String) : Option String :=
  if tail.toList.isSuffixOf text.toList then
    some (String.ofList (text.toList.take (text.toList.length - tail.toList.length)))
  else none

/-- The names that are imported alone, those of members included. -/
def singleImports (unit : UnitEntity) : List String :=
  (unit.imports.filter fun written => (withoutTail? ".*" written).isNone).map fun written =>
    (withoutLead? "static " written).getD written

/-- The names under which everything is imported, and whether members are. -/
def wildcardImports (unit : UnitEntity) : List (String × Bool) :=
  (unit.imports.filterMap (withoutTail? ".*")).map fun lead =>
    match withoutLead? "static " lead with
    | some name => (name, true)
    | none => (lead, false)

end UnitEntity

/-! ### Annotations -/

/-- Whether the annotation's type is written with a name. -/
def AnnotationUse.isNamed (use : AnnotationUse TypeRef) (name : String) : Bool :=
  use.type.name == name

def AnnotationUse.value? {τ : Type} (use : AnnotationUse τ) (element : String) :
    Option (ElementValue τ) :=
  use.values.lookup element

def AnnotationUse.holder (use : AnnotationUse TypeRef) : Holder :=
  use.type.site.holder

/-- The source text of a literal or expression. -/
def ElementValue.text? {τ : Type} : ElementValue τ → Option String
  | .constant text | .expression text => some text
  | _ => none

/-- The annotation whose type is written with a name. -/
def ClassEntity.use? (entity : ClassEntity) (name : String) : Option (AnnotationUse TypeRef) :=
  entity.uses.find? (·.isNamed name)

def tagsNamed (name : String) (tags : List HeldTag) : List HeldTag :=
  tags.filter (·.name == name)

/-! ### Signatures -/

/-- The parameter as it is declared. -/
def ParameterEntity.text (known : Known) (parameter : ParameterEntity) : String :=
  parameter.type.text known ++ (if parameter.isVarargs then "... " else " ") ++ parameter.name

/-- The header of the method as it is declared, with its modifiers if asked for. -/
def MethodEntity.signature (known : Known) (withModifiers : Bool) (method : MethodEntity) :
    String :=
  let modifiers :=
    if withModifiers then String.join (method.modifiers.map (· ++ " ")) else ""
  let typeParameters :=
    if method.typeParameters.isEmpty then ""
    else "<" ++ ", ".intercalate (method.typeParameters.map TypeParameter.name) ++ "> "
  let result := (method.returnType.map fun type => type.text known ++ " ").getD ""
  let parameters := ", ".intercalate (method.parameters.map (ParameterEntity.text known))
  let exceptions :=
    if method.exceptions.isEmpty then ""
    else " throws " ++ ", ".intercalate (method.exceptions.map (TypeRef.text known))
  modifiers ++ typeParameters ++ result ++ method.name ++ "(" ++ parameters ++ ")" ++ exceptions

end JavaDecl
