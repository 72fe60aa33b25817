import JavaDecl.Model.Entity
import JavaDecl.NameTable

/-!
# Models

A model holds the declarations of any number of compilation units in four tables
and finds classes by their names.  Tables only grow, except that a model can be
cut back to a size that it had before.
-/

namespace JavaDecl

/-- The declarations of compilation units. -/
structure Model where
  units : Array UnitEntity := #[]
  /-- The classes, those in other classes included. -/
  classes : Array ClassEntity := #[]
  methods : Array MethodEntity := #[]
  fields : Array FieldEntity := #[]
  /-- The first class with a binary or canonical name. -/
  classIndex : NameTable ClassId := ∅
deriving Inhabited

namespace Model

/-! ### Look-up -/

def unit (model : Model) (id : UnitId) : UnitEntity :=
  model.units.getD id.index default

def classAt (model : Model) (id : ClassId) : ClassEntity :=
  model.classes.getD id.index default

def method (model : Model) (id : MethodId) : MethodEntity :=
  model.methods.getD id.index default

def field (model : Model) (id : FieldId) : FieldEntity :=
  model.fields.getD id.index default

/-- The class with a binary or canonical name. -/
def classNamed? (model : Model) (name : String) : Option ClassId :=
  model.classIndex.find? name

/-- The classes directly in a class and then the bodies of its constants. -/
def children (model : Model) (id : ClassId) : List ClassId :=
  let entity := model.classAt id
  entity.nested ++ entity.fields.filterMap fun field => (model.field field).bodyClass

/-- A class and all classes inside it, each before those inside it, down to a depth. -/
def withInner (model : Model) : Nat → ClassId → List ClassId
  | 0, _ => []
  | depth + 1, id => id :: (model.children id).flatMap (model.withInner depth)

/-- All classes of a unit, each before those inside it. -/
def classesInUnit (model : Model) (id : UnitId) : List ClassId :=
  (model.unit id).classes.flatMap (model.withInner (model.classes.size + 1))

def typeParametersOf (model : Model) : VariableOwner → List (TypeParameter TypeRef)
  | .ofClass id => (model.classAt id).typeParameters
  | .ofMethod id => (model.method id).typeParameters

/-! ### Growth -/

/-- How many declarations of each sort a model has. -/
structure Size where
  units : Nat
  classes : Nat
  /-- The number of methods and constructors. -/
  methods : Nat
  fields : Nat
deriving DecidableEq, Repr, Inhabited

def size (model : Model) : Size :=
  { units := model.units.size
    classes := model.classes.size
    methods := model.methods.size
    fields := model.fields.size }

/-- The model without what it has beyond a size. -/
def truncate (model : Model) (size : Size) : Model :=
  { units := model.units.take size.units
    classes := model.classes.take size.classes
    methods := model.methods.take size.methods
    fields := model.fields.take size.fields
    classIndex := model.classIndex.keep fun id => id.index < size.classes }

def pushUnit (model : Model) (entity : UnitEntity) : Model :=
  { model with units := model.units.push entity }

/-- Adds a class.  Its names are its own unless an earlier class has them. -/
def pushClass (model : Model) (entity : ClassEntity) : Model :=
  let id : ClassId := ⟨model.classes.size⟩
  { model with
    classes := model.classes.push entity
    classIndex :=
      (model.classIndex.setIfNew entity.binaryName id).setIfNew entity.canonicalName id }

def pushMethod (model : Model) (entity : MethodEntity) : Model :=
  { model with methods := model.methods.push entity }

def pushField (model : Model) (entity : FieldEntity) : Model :=
  { model with fields := model.fields.push entity }

def modifyUnit (model : Model) (id : UnitId) (change : UnitEntity → UnitEntity) : Model :=
  { model with units := model.units.modify id.index change }

/-- Changes a class, but not its names. -/
def modifyClass (model : Model) (id : ClassId) (change : ClassEntity → ClassEntity) : Model :=
  { model with classes := model.classes.modify id.index change }

def modifyField (model : Model) (id : FieldId) (change : FieldEntity → FieldEntity) : Model :=
  { model with fields := model.fields.modify id.index change }

end Model

end JavaDecl
