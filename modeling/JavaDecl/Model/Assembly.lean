import JavaDecl.Event
import JavaDecl.Failure
import JavaDecl.Grammar.Unit
import JavaDecl.Model.Basic

/-!
# Assembling a compilation unit

The events of a unit are taken one after the other into a model.  Classes and
fields that have begun are kept in a stack each, and a method waits for its end
with its parameters.  A comment, its tags and annotations wait for the next
declaration.

A sequence of events that does not nest properly is a violation.  It leaves the
model in the middle of the unit, so whoever meets one cuts the model back.
-/

namespace JavaDecl

/-- A method or constructor that has begun. -/
structure OpenMethod where
  isConstructor : Bool
  comment : Option String
  tags : List DocTag
  uses : List (AnnotationUse TypeExpr)
  /-- Its parameters so far, with their annotations. -/
  parameters : List (VariableDecl × List (AnnotationUse TypeExpr)) := []
deriving Inhabited

/-- A compilation unit in the middle of its events. -/
structure Assembly where
  model : Model
  unit : UnitId
  /-- The classes that have begun, the innermost first. -/
  openClasses : List ClassId := []
  /-- The fields that have begun, the innermost first. -/
  openFields : List FieldId := []
  /-- The method or constructor that has begun. -/
  openMethod : Option OpenMethod := none
  /-- The text of the comment of the next declaration. -/
  comment : Option String := none
  tags : List DocTag := []
  /-- The annotations of the next declaration. -/
  uses : List (AnnotationUse TypeExpr) := []
deriving Inhabited

/-- A step in the assembly of a unit. -/
abbrev AssembleM := EStateM Violation Assembly

namespace Assembly

/-- A new unit in a model. -/
def ofModel (model : Model) : Assembly :=
  { model := model.pushUnit {}, unit := ⟨model.units.size⟩ }

def depth (assembly : Assembly) : Nat :=
  assembly.openClasses.length

/-! ### What a declaration holds -/

def refAt (scope : Scope) (holder : Holder) (role : RefRole) (type : TypeExpr) : TypeRef :=
  { type, scope, site := { holder, role } }

/-- Types at numbered parts of a holder. -/
def refsAt (scope : Scope) (holder : Holder) (role : Nat → RefRole) (types : List TypeExpr) :
    List TypeRef :=
  types.zipIdx.map fun (type, position) => refAt scope holder (role position) type

def parametersAt (scope : Scope) (holder : Holder) (parameters : List (TypeParameter TypeExpr)) :
    List (TypeParameter TypeRef) :=
  parameters.zipIdx.map fun (parameter, position) =>
    { name := parameter.name, bounds := refsAt scope holder (.bound position) parameter.bounds }

def usesAt (scope : Scope) (holder : Holder) (role : Nat → RefRole)
    (uses : List (AnnotationUse TypeExpr)) : List (AnnotationUse TypeRef) :=
  uses.zipIdx.map fun (use, position) =>
    use.mapPaths (fun path type => { type, scope, site := { holder, role := role position, path } })
      []

def tagsOf (holder : Holder) (tags : List DocTag) : List HeldTag :=
  tags.map fun tag => { tag with holder }

/-! ### Parts of a step -/

/-- Takes the comment that waits for a declaration. -/
def takeComment : AssembleM (Option String × List DocTag) :=
  modifyGet fun assembly =>
    ((assembly.comment, assembly.tags), { assembly with comment := none, tags := [] })

/-- Takes the annotations that wait for a declaration. -/
def takeUses : AssembleM (List (AnnotationUse TypeExpr)) :=
  modifyGet fun assembly => (assembly.uses, { assembly with uses := [] })

/-- The innermost class, for a step that needs one. -/
def innermostClass (step : String) : AssembleM ClassId := do
  match (← get).openClasses with
  | id :: _ => return id
  | [] => throw (.outsideClass step)

@[inline]
def change (step : Model → Model) : AssembleM Unit :=
  modify fun assembly => { assembly with model := step assembly.model }

def changeUnit (step : UnitEntity → UnitEntity) : AssembleM Unit := do
  let unit := (← get).unit
  change (·.modifyUnit unit step)

/-- Changes the module of the unit, for a step that needs one. -/
def changeModule (step : String) (update : ModuleEntity → ModuleEntity) : AssembleM Unit := do
  let assembly ← get
  match (assembly.model.unit assembly.unit).moduleDecl with
  | some entity => changeUnit fun unit => { unit with moduleDecl := some (update entity) }
  | none => throw (.beforeModule step)

/-! ### Units and modules -/

def package (declared : PackageDecl) : AssembleM Unit := do
  let (comment, _) ← takeComment
  let uses ← takeUses
  let unit := (← get).unit
  let uses := usesAt { unit } (.ofUnit unit) .ofPackageUse uses
  changeUnit fun entity =>
    { entity with package := some { name := declared.name, uses, comment, line := declared.line } }

def imported (declared : ImportDecl) : AssembleM Unit := do
  let _ ← takeComment
  changeUnit fun entity => { entity with imports := entity.imports ++ [declared.text] }

def moduleHeader (declared : ModuleDecl) : AssembleM Unit := do
  let (comment, _) ← takeComment
  let uses ← takeUses
  let unit := (← get).unit
  let uses := usesAt { unit } (.ofUnit unit) .ofModuleUse uses
  let entity : ModuleEntity :=
    { name := declared.name, isOpen := declared.isOpen, uses, comment, line := declared.line }
  changeUnit ({ · with moduleDecl := some entity })

def usesService (directive : UsesDirective) : AssembleM Unit := do
  let unit := (← get).unit
  changeModule "add_uses" fun entity =>
    let role := RefRole.usedService entity.services.length
    { entity with
      services := entity.services ++ [refAt { unit } (.ofUnit unit) role directive.service] }

/-- A service that the module provides. -/
def providesService (directive : ProvidesDirective) : AssembleM Unit := do
  let unit := (← get).unit
  changeModule "add_provides" fun entity =>
    let position := entity.provides.length
    let service := refAt { unit } (.ofUnit unit) (.providedService position) directive.service
    let implementations :=
      refsAt { unit } (.ofUnit unit) (.provider position) directive.implementations
    { entity with
      provides := entity.provides ++ [{ service, implementations, line := directive.line }] }

/-! ### Classes -/

/-- The binary and canonical name of a class in a package and around it a class. -/
def classNames (package : Option String) (parent : Option ClassEntity) (declared : ClassDecl) :
    String × String :=
  match parent with
  | some outer =>
      let binary := outer.binaryName ++ "$" ++ declared.name
      (binary,
        if declared.isConstantBody then binary else outer.canonicalName ++ "." ++ declared.name)
  | none =>
      let name := ((package.map (· ++ ".")).getD "") ++ declared.name
      (name, name)

def supertypesOf (declared : ClassDecl) : Option TypeExpr × List TypeExpr :=
  if declared.kind.isInterface then (none, declared.extending ++ declared.implementing)
  else (declared.extending.head?, declared.implementing)

/-- The class that a declaration begins. -/
def classEntity (assembly : Assembly) (declared : ClassDecl) (comment : Option String)
    (tags : List DocTag) (uses : List (AnnotationUse TypeExpr)) : ClassEntity :=
  let id : ClassId := ⟨assembly.model.classes.size⟩
  let scope : Scope := { unit := assembly.unit, classId := some id }
  let holder := Holder.ofClass id
  let enclosing := assembly.openClasses.head?
  let package := (assembly.model.unit assembly.unit).packageName
  let names := classNames package (enclosing.map assembly.model.classAt) declared
  let supertypes := supertypesOf declared
  { name := declared.name
    kind := declared.kind
    modifiers := declared.modifiers
    binaryName := names.1
    canonicalName := names.2
    package
    unit := assembly.unit
    enclosing
    typeParameters := parametersAt scope holder declared.typeParameters
    superclass := supertypes.1.map (refAt scope holder .superclass)
    interfaces := refsAt scope holder .interface supertypes.2
    uses := usesAt scope holder .ofUse uses
    comment
    tags := tagsOf holder tags
    line := declared.line
    isConstantBody := declared.isConstantBody }

/-- Links a new class to what it is declared in: the constant it is the body of, the
class around it, or the unit. -/
def linkClass (id : ClassId) (isConstantBody : Bool) (parent : Option ClassId) :
    AssembleM Unit := do
  if isConstantBody then
    match (← get).openFields with
    | field :: _ => change (·.modifyField field ({ · with bodyClass := some id }))
    | [] => throw .bodyOutsideConstant
  else
    match parent with
    | some outer =>
        change (·.modifyClass outer fun entity => { entity with nested := entity.nested ++ [id] })
    | none => changeUnit fun unit => { unit with classes := unit.classes ++ [id] }

def beginClass (declared : ClassDecl) : AssembleM Unit := do
  let assembly ← get
  let parent := assembly.openClasses.head?
  if declared.isConstantBody && parent.isNone then
    throw (.bodyOutsideClass declared.name)
  let (comment, tags) ← takeComment
  let uses ← takeUses
  let id : ClassId := ⟨assembly.model.classes.size⟩
  let entity := assembly.classEntity declared comment tags uses
  -- The class is stored before it is linked, so a body outside of a constant stays behind.
  change (·.pushClass entity)
  linkClass id declared.isConstantBody parent
  modify fun assembly => { assembly with openClasses := id :: assembly.openClasses }

/-- The end of a class.  What still waits for a declaration belongs to none. -/
def endClass : AssembleM Unit := do
  let assembly ← get
  match assembly.openClasses with
  | [] => throw .noOpenClass
  | _ :: outer =>
      set { assembly with openClasses := outer, comment := none, tags := [], uses := [] }

def initializer (declared : InitializerDecl) : AssembleM Unit := do
  let owner ← innermostClass "add_initializer"
  let _ ← takeComment
  let _ ← takeUses
  change (·.modifyClass owner fun entity =>
    { entity with initializers := entity.initializers ++ [declared] })

/-! ### Fields -/

def beginField (declared : VariableDecl) : AssembleM Unit := do
  if (← get).openMethod.isSome then throw .fieldInMethod
  let owner ← innermostClass "begin_field"
  let (comment, tags) ← takeComment
  let uses ← takeUses
  let assembly ← get
  let id : FieldId := ⟨assembly.model.fields.size⟩
  let scope : Scope := { unit := assembly.unit, classId := some owner }
  let holder := Holder.ofField id
  change (·.pushField
    { name := declared.name
      declaring := owner
      type := refAt scope holder .variableType declared.type
      modifiers := declared.modifiers
      initializer := declared.initializer
      isConstant := declared.isConstant
      args := declared.args
      uses := usesAt scope holder .ofUse uses
      comment
      tags := tagsOf holder tags
      line := declared.line })
  change (·.modifyClass owner fun entity => { entity with fields := entity.fields ++ [id] })
  modify fun assembly => { assembly with openFields := id :: assembly.openFields }

def endField : AssembleM Unit := do
  let assembly ← get
  match assembly.openFields with
  | [] => throw .noOpenField
  | _ :: outer => set { assembly with openFields := outer }

/-! ### Methods and constructors -/

def beginMethod (isConstructor : Bool) : AssembleM Unit := do
  if (← get).openMethod.isSome then throw .methodInMethod
  let _ ← innermostClass (if isConstructor then "begin_constructor" else "begin_method")
  let (comment, tags) ← takeComment
  let uses ← takeUses
  modify fun assembly =>
    { assembly with openMethod := some { isConstructor, comment, tags, uses } }

def parameter (declared : VariableDecl) : AssembleM Unit := do
  let uses ← takeUses
  let assembly ← get
  match assembly.openMethod with
  | some waiting =>
      let parameters := waiting.parameters ++ [(declared, uses)]
      set { assembly with openMethod := some { waiting with parameters } }
  | none => throw .parameterOutsideMethod

def parameterEntity (scope : Scope) (id : MethodId) (position : Nat) (declared : VariableDecl)
    (uses : List (AnnotationUse TypeExpr)) : ParameterEntity :=
  let holder := Holder.ofParameter id position
  { name := declared.name
    type := refAt scope holder .variableType declared.type
    isVarargs := declared.isVarargs
    modifiers := declared.modifiers
    uses := usesAt scope holder .ofUse uses
    line := declared.line }

/-- The method or constructor that ends. -/
def methodEntity (unit : UnitId) (owner : ClassId) (id : MethodId) (waiting : OpenMethod)
    (declared : MethodDecl) : MethodEntity :=
  let scope : Scope := { unit, classId := some owner, method := some id }
  let holder := Holder.ofMethod id
  let parameters := waiting.parameters.zipIdx.map fun ((parameter, uses), position) =>
    parameterEntity scope id position parameter uses
  { name := declared.name
    isConstructor := waiting.isConstructor
    declaring := owner
    returnType := declared.returnType.map (refAt scope holder .result)
    parameters
    exceptions := refsAt scope holder .thrown declared.exceptions
    typeParameters := parametersAt scope holder declared.typeParameters
    modifiers := declared.modifiers
    body := declared.body
    defaultValue := declared.defaultValue
    isVarargs := parameters.getLast?.any ParameterEntity.isVarargs
    uses := usesAt scope holder .ofUse waiting.uses
    comment := waiting.comment
    tags := tagsOf holder waiting.tags
    line := declared.line }

/-- Takes the method or constructor that has begun, which has to be of the right sort. -/
def takeOpenMethod (isConstructor : Bool) (name : String) : AssembleM OpenMethod := do
  let assembly ← get
  set { assembly with openMethod := none }
  match assembly.openMethod with
  | some waiting =>
      if waiting.isConstructor = isConstructor then return waiting
      else throw .otherMethodOpen
  | none => throw (.noOpenMethod name)

def endMethod (isConstructor : Bool) (declared : MethodDecl) : AssembleM Unit := do
  let waiting ← takeOpenMethod isConstructor declared.name
  let owner ← innermostClass "end_method"
  let assembly ← get
  let id : MethodId := ⟨assembly.model.methods.size⟩
  change (·.pushMethod (methodEntity assembly.unit owner id waiting declared))
  change (·.modifyClass owner fun entity =>
    if isConstructor then { entity with constructors := entity.constructors ++ [id] }
    else { entity with methods := entity.methods ++ [id] })

/-! ### Events -/

/-- Takes an event into the unit. -/
def step : Event → AssembleM Unit
  | .package declared => package declared
  | .imported declared => imported declared
  | .docText text => modify ({ · with comment := some text, tags := [] })
  | .docTag tag => modify fun assembly => { assembly with tags := assembly.tags ++ [tag] }
  | .annotated use => modify fun assembly => { assembly with uses := assembly.uses ++ [use] }
  | .beginClass declared => beginClass declared
  | .endClass => endClass
  | .beginConstructor => beginMethod true
  | .endConstructor declared => endMethod true declared
  | .beginMethod => beginMethod false
  | .endMethod declared => endMethod false declared
  | .parameter declared => parameter declared
  | .beginField declared => beginField declared
  | .endField => endField
  | .initializer declared => initializer declared
  | .moduleHeader declared => moduleHeader declared
  | .requires directive =>
      changeModule "add_requires" fun entity =>
        { entity with requires := entity.requires ++ [directive] }
  | .exported directive =>
      changeModule "add_exports" fun entity =>
        { entity with exports := entity.exports ++ [directive] }
  | .opened directive =>
      changeModule "add_opens" fun entity => { entity with opens := entity.opens ++ [directive] }
  | .uses directive => usesService directive
  | .provides directive => providesService directive

/-- The end of the unit, at which everything has ended. -/
def finish : AssembleM UnitId := do
  let assembly ← get
  if assembly.openClasses.isEmpty && assembly.openFields.isEmpty && assembly.openMethod.isNone then
    return assembly.unit
  else
    throw (.stillOpen assembly.openClasses.length assembly.openFields.length
      (if assembly.openMethod.isSome then 1 else 0))

/-- Takes events into the unit, one after the other, up to the first violation. -/
def steps (events : List Event) : AssembleM Unit :=
  events.forM step

end Assembly

namespace Model

/-- Adds the unit with some events, of which the last may be missing.  The model is
then in the middle of the unit. -/
def addEvents (model : Model) (events : List Event) : Model × Except Violation Unit :=
  match (Assembly.steps events).run (Assembly.ofModel model) with
  | .ok _ assembly => (assembly.model, .ok ())
  | .error violation assembly => (assembly.model, .error violation)

/-- Adds the unit with all its events.  If they do not nest, the model is then in the
middle of the unit. -/
def addUnit (model : Model) (events : List Event) : Model × Except Violation UnitId :=
  match (Assembly.steps events *> Assembly.finish).run (Assembly.ofModel model) with
  | .ok id assembly => (assembly.model, .ok id)
  | .error violation assembly => (assembly.model, .error violation)

/-- The model with a unit added, or without what a failed unit has left. -/
def settle {α : Type} (model : Model) (result : Model × Except Failure α) :
    Model × Except Failure α :=
  match result with
  | (grown, .ok value) => (grown, .ok value)
  | (grown, .error failure) => (grown.truncate model.size, .error failure)

/-- Reads a source text and adds its unit.  A text that is refused leaves no trace. -/
def addSource (model : Model) (source : List Char) : Model × Except Failure UnitId :=
  model.settle <|
    match readUnit source with
    | (events, none) =>
        let (grown, added) := model.addUnit events
        (grown, added.mapError .violation)
    | (events, some refused) =>
        let (grown, taken) := model.addEvents events
        (grown, taken.mapError .violation *> .error (.ofParseError refused))

/-- Adds units, one after the other, up to the first violation. -/
def addUnits (model : Model) : List (List Event) → Model × Except Failure (List UnitId)
  | [] => (model, .ok [])
  | events :: rest =>
      match model.addUnit events with
      | (grown, .ok id) =>
          let (full, ids) := grown.addUnits rest
          (full, ids.map (id :: ·))
      | (grown, .error cause) => (grown, .error (.violation cause))

def eventsOf (source : List Char) : Except Failure (List Event) :=
  match readUnit source with
  | (events, none) => .ok events
  | (_, some refused) => .error (.ofParseError refused)

/-- Reads source texts and adds their units.  If one is refused, nothing is added. -/
def addSources (model : Model) (sources : List (List Char)) :
    Model × Except Failure (List UnitId) :=
  model.settle <|
    match sources.mapM eventsOf with
    | .ok units => model.addUnits units
    | .error failure => (model, .error failure)

end Model

end JavaDecl
