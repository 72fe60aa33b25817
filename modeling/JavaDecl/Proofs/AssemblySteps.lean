import JavaDecl.Model.Assembly

/-!
# What a step of an assembly does

`Effect` lists what a step can do to the model and to what has begun, whether the
step meets a violation or not.  All invariants of assemblies are shown for these
effects and then hold after any events.
-/

namespace JavaDecl

namespace Assembly

/-- The state after a part of the assembly, also after a violation. -/
def afterwards {α : Type} : EStateM.Result Violation Assembly α → Assembly
  | .ok _ after => after
  | .error _ after => after

/-- What a step can make of its unit.  Classes are added by other effects. -/
inductive UnitEffect (unit : UnitId) (before : UnitEntity) : UnitEntity → Prop where
  | package {name : String} {uses : List (AnnotationUse TypeExpr)} {comment : Option String}
      {line : Nat} :
      UnitEffect unit before
        { before with
          package := some
            { name, uses := usesAt { unit } (.ofUnit unit) .ofPackageUse uses, comment, line } }
  | imported {text : String} :
      UnitEffect unit before { before with imports := before.imports ++ [text] }
  | moduleHeader {name : String} {isOpen : Bool} {uses : List (AnnotationUse TypeExpr)}
      {comment : Option String} {line : Nat} :
      UnitEffect unit before
        { before with
          moduleDecl := some
            { name, isOpen, uses := usesAt { unit } (.ofUnit unit) .ofModuleUse uses
              comment, line } }
  | plainDirective {header changed : ModuleEntity} : before.moduleDecl = some header →
      changed.services = header.services → changed.provides = header.provides →
        changed.uses = header.uses →
          UnitEffect unit before { before with moduleDecl := some changed }
  | usesService {header : ModuleEntity} {service : TypeExpr} : before.moduleDecl = some header →
      UnitEffect unit before
        { before with
          moduleDecl := some
            { header with
              services := header.services ++
                [refAt { unit } (.ofUnit unit) (.usedService header.services.length) service] } }
  | providesService {header : ModuleEntity} {service : TypeExpr}
      {implementations : List TypeExpr} {line : Nat} : before.moduleDecl = some header →
      UnitEffect unit before
        { before with
          moduleDecl := some
            { header with
              provides := header.provides ++
                [{ service := refAt { unit } (.ofUnit unit)
                    (.providedService header.provides.length) service
                   implementations := refsAt { unit } (.ofUnit unit)
                    (.provider header.provides.length) implementations
                   line }] } }

/-- The field that a step begins. -/
def fieldEntity (unit : UnitId) (owner : ClassId) (id : FieldId) (declared : VariableDecl)
    (comment : Option String) (tags : List DocTag) (uses : List (AnnotationUse TypeExpr)) :
    FieldEntity :=
  let scope : Scope := { unit, classId := some owner }
  let holder := Holder.ofField id
  { name := declared.name
    declaring := owner
    type := refAt scope holder .variableType declared.type
    modifiers := declared.modifiers
    initializer := declared.initializer
    isConstant := declared.isConstant
    args := declared.args
    uses := usesAt scope holder .ofUse uses
    comment
    tags := tagsOf holder tags
    line := declared.line }

/-- The class that the next class of a model will be. -/
def nextClass (assembly : Assembly) : ClassId :=
  ⟨assembly.model.classes.size⟩

/-- What a step can make of the model and of the classes and fields that have begun. -/
inductive Effect (before : Assembly) : Model → List ClassId → List FieldId → Prop where
  | nothing : Effect before before.model before.openClasses before.openFields
  | unit {change : UnitEntity → UnitEntity} :
      UnitEffect before.unit (before.model.unit before.unit)
        (change (before.model.unit before.unit)) →
      Effect before (before.model.modifyUnit before.unit change) before.openClasses
        before.openFields
  /-- The body of a constant that stands in no field has got into the model. -/
  | classStrays {declared : ClassDecl} {comment : Option String} {tags : List DocTag}
      {uses : List (AnnotationUse TypeExpr)} :
      Effect before (before.model.pushClass (before.classEntity declared comment tags uses))
        before.openClasses before.openFields
  | bodyBegins {declared : ClassDecl} {comment : Option String} {tags : List DocTag}
      {uses : List (AnnotationUse TypeExpr)} {field : FieldId} {outer : List FieldId} :
      before.openFields = field :: outer →
      Effect before
        ((before.model.pushClass (before.classEntity declared comment tags uses)).modifyField
          field ({ · with bodyClass := some before.nextClass }))
        (before.nextClass :: before.openClasses) before.openFields
  | innerBegins {declared : ClassDecl} {comment : Option String} {tags : List DocTag}
      {uses : List (AnnotationUse TypeExpr)} {around : ClassId} {outer : List ClassId} :
      before.openClasses = around :: outer →
      Effect before
        ((before.model.pushClass (before.classEntity declared comment tags uses)).modifyClass
          around fun entity => { entity with nested := entity.nested ++ [before.nextClass] })
        (before.nextClass :: before.openClasses) before.openFields
  | outermostBegins {declared : ClassDecl} {comment : Option String} {tags : List DocTag}
      {uses : List (AnnotationUse TypeExpr)} :
      Effect before
        ((before.model.pushClass (before.classEntity declared comment tags uses)).modifyUnit
          before.unit fun unit => { unit with classes := unit.classes ++ [before.nextClass] })
        (before.nextClass :: before.openClasses) before.openFields
  | classEnds {id : ClassId} {outer : List ClassId} : before.openClasses = id :: outer →
      Effect before before.model outer before.openFields
  | initializer {owner : ClassId} {outer : List ClassId} {declared : InitializerDecl} :
      before.openClasses = owner :: outer →
      Effect before
        (before.model.modifyClass owner fun entity =>
          { entity with initializers := entity.initializers ++ [declared] })
        before.openClasses before.openFields
  | fieldBegins {owner : ClassId} {outer : List ClassId} {declared : VariableDecl}
      {comment : Option String} {tags : List DocTag} {uses : List (AnnotationUse TypeExpr)} :
      before.openClasses = owner :: outer →
      Effect before
        ((before.model.pushField (fieldEntity before.unit owner ⟨before.model.fields.size⟩ declared
          comment tags uses)).modifyClass owner fun entity =>
            { entity with fields := entity.fields ++ [⟨before.model.fields.size⟩] })
        before.openClasses (⟨before.model.fields.size⟩ :: before.openFields)
  | fieldEnds {id : FieldId} {outer : List FieldId} : before.openFields = id :: outer →
      Effect before before.model before.openClasses outer
  | methodEnds {owner : ClassId} {outer : List ClassId} {waiting : OpenMethod}
      {declared : MethodDecl} {isConstructor : Bool} : before.openClasses = owner :: outer →
      Effect before
        ((before.model.pushMethod (methodEntity before.unit owner ⟨before.model.methods.size⟩
          waiting declared)).modifyClass owner fun entity =>
            if isConstructor then
              { entity with constructors := entity.constructors ++ [⟨before.model.methods.size⟩] }
            else { entity with methods := entity.methods ++ [⟨before.model.methods.size⟩] })
        before.openClasses before.openFields

/-- One state comes after another by an effect. -/
structure Follows (before after : Assembly) : Prop where
  unit : after.unit = before.unit
  effect : before.Effect after.model after.openClasses after.openFields

theorem follows_waiting {before after : Assembly} (unit : after.unit = before.unit)
    (model : after.model = before.model) (classes : after.openClasses = before.openClasses)
    (fields : after.openFields = before.openFields) : before.Follows after := by
  refine ⟨unit, ?_⟩
  rw [model, classes, fields]
  exact .nothing

theorem get_bind {α : Type} (next : Assembly → AssembleM α) (before : Assembly) :
    (get >>= next) before = next before before :=
  rfl

section ChangeModule

variable {step : String} {update : ModuleEntity → ModuleEntity} {before after : Assembly}

theorem changeModule_of_some {header : ModuleEntity}
    (present : (before.model.unit before.unit).moduleDecl = some header) :
    changeModule step update before =
      changeUnit (fun unit => { unit with moduleDecl := some (update header) }) before := by
  simp only [changeModule, get_bind, present]

theorem changeModule_of_none (missing : (before.model.unit before.unit).moduleDecl = none) :
    changeModule step update before = .error (.beforeModule step) before := by
  simp only [changeModule, get_bind, missing]
  rfl

/-- A directive without a fault changes the module of its unit. -/
theorem changeModule_of_ok (stepped : changeModule step update before = .ok ⟨⟩ after) :
    ∃ header, (before.model.unit before.unit).moduleDecl = some header ∧
      after = { before with
        model := before.model.modifyUnit before.unit fun unit =>
          { unit with moduleDecl := some (update header) } } := by
  cases present : (before.model.unit before.unit).moduleDecl with
  | none =>
      rw [changeModule_of_none present] at stepped
      cases stepped
  | some header =>
      rw [changeModule_of_some present] at stepped
      cases stepped
      exact ⟨header, rfl, rfl⟩

theorem changeModule_follows
    (changes : ∀ header, (before.model.unit before.unit).moduleDecl = some header →
      UnitEffect before.unit (before.model.unit before.unit)
        { before.model.unit before.unit with moduleDecl := some (update header) }) :
    before.Follows (afterwards (changeModule step update before)) := by
  cases present : (before.model.unit before.unit).moduleDecl with
  | none =>
      rw [changeModule_of_none present]
      exact follows_waiting rfl rfl rfl rfl
  | some header =>
      rw [changeModule_of_some present]
      exact ⟨rfl, .unit (changes header present)⟩

end ChangeModule

theorem beginClass_follows (declared : ClassDecl) (before : Assembly) :
    before.Follows (afterwards (beginClass declared before)) := by
  obtain ⟨model, unit, classes, fields, method, comment, tags, uses⟩ := before
  obtain ⟨_, _, _, _, _, _, _, isBody⟩ := declared
  cases isBody with
  | true =>
      cases classes with
      | nil => exact follows_waiting rfl rfl rfl rfl
      | cons around outer =>
          cases fields with
          | nil => exact ⟨rfl, .classStrays⟩
          | cons field others => exact ⟨rfl, .bodyBegins rfl⟩
  | false =>
      cases classes with
      | nil => exact ⟨rfl, .outermostBegins⟩
      | cons around outer => exact ⟨rfl, .innerBegins rfl⟩

theorem beginMethod_follows (isConstructor : Bool) (before : Assembly) :
    before.Follows (afterwards (beginMethod isConstructor before)) := by
  obtain ⟨model, unit, classes, fields, method, comment, tags, uses⟩ := before
  cases method with
  | some waiting => exact follows_waiting rfl rfl rfl rfl
  | none =>
      cases classes with
      | nil => exact follows_waiting rfl rfl rfl rfl
      | cons owner outer => exact follows_waiting rfl rfl rfl rfl

theorem endMethod_follows (isConstructor : Bool) (declared : MethodDecl) (before : Assembly) :
    before.Follows (afterwards (endMethod isConstructor declared before)) := by
  obtain ⟨model, unit, classes, fields, method, comment, tags, uses⟩ := before
  cases method with
  | none => exact follows_waiting rfl rfl rfl rfl
  | some waiting =>
      obtain ⟨sort, _, _, _, _⟩ := waiting
      cases classes with
      | nil => cases sort <;> cases isConstructor <;> exact follows_waiting rfl rfl rfl rfl
      | cons owner outer =>
          cases sort <;> cases isConstructor
          · exact ⟨rfl, .methodEnds rfl⟩
          · exact follows_waiting rfl rfl rfl rfl
          · exact follows_waiting rfl rfl rfl rfl
          · exact ⟨rfl, .methodEnds rfl⟩

theorem beginField_follows (declared : VariableDecl) (before : Assembly) :
    before.Follows (afterwards (beginField declared before)) := by
  obtain ⟨model, unit, classes, fields, method, comment, tags, uses⟩ := before
  cases method with
  | some waiting => exact follows_waiting rfl rfl rfl rfl
  | none =>
      cases classes with
      | nil => exact follows_waiting rfl rfl rfl rfl
      | cons owner outer => exact ⟨rfl, .fieldBegins rfl⟩

/-- Every step has an effect. -/
theorem step_follows (event : Event) (before : Assembly) :
    before.Follows (afterwards (step event before)) := by
  cases event with
  | package declared => exact ⟨rfl, .unit .package⟩
  | imported declared => exact ⟨rfl, .unit .imported⟩
  | docText text => exact follows_waiting rfl rfl rfl rfl
  | docTag tag => exact follows_waiting rfl rfl rfl rfl
  | annotated use => exact follows_waiting rfl rfl rfl rfl
  | beginClass declared => exact beginClass_follows declared before
  | endClass =>
      obtain ⟨model, unit, classes, fields, method, comment, tags, uses⟩ := before
      cases classes with
      | nil => exact follows_waiting rfl rfl rfl rfl
      | cons id outer => exact ⟨rfl, .classEnds rfl⟩
  | beginConstructor => exact beginMethod_follows true before
  | endConstructor declared => exact endMethod_follows true declared before
  | beginMethod => exact beginMethod_follows false before
  | endMethod declared => exact endMethod_follows false declared before
  | parameter declared =>
      obtain ⟨model, unit, classes, fields, method, comment, tags, uses⟩ := before
      cases method with
      | none => exact follows_waiting rfl rfl rfl rfl
      | some waiting => exact follows_waiting rfl rfl rfl rfl
  | beginField declared => exact beginField_follows declared before
  | endField =>
      obtain ⟨model, unit, classes, fields, method, comment, tags, uses⟩ := before
      cases fields with
      | nil => exact follows_waiting rfl rfl rfl rfl
      | cons id outer => exact ⟨rfl, .fieldEnds rfl⟩
  | initializer declared =>
      obtain ⟨model, unit, classes, fields, method, comment, tags, uses⟩ := before
      cases classes with
      | nil => exact follows_waiting rfl rfl rfl rfl
      | cons owner outer => exact ⟨rfl, .initializer rfl⟩
  | moduleHeader declared => exact ⟨rfl, .unit .moduleHeader⟩
  | requires directive =>
      exact changeModule_follows fun _ present => .plainDirective present rfl rfl rfl
  | exported directive =>
      exact changeModule_follows fun _ present => .plainDirective present rfl rfl rfl
  | opened directive =>
      exact changeModule_follows fun _ present => .plainDirective present rfl rfl rfl
  | uses directive => exact changeModule_follows fun _ present => .usesService present
  | provides directive => exact changeModule_follows fun _ present => .providesService present

theorem afterwards_finish (assembly : Assembly) : afterwards (finish assembly) = assembly := by
  by_cases ended : assembly.openClasses.isEmpty && assembly.openFields.isEmpty &&
      assembly.openMethod.isNone
  · simp only [finish, get_bind, if_pos ended]
    rfl
  · simp only [finish, get_bind, if_neg ended]
    rfl

/-- What every effect keeps is kept by all events, up to the first violation. -/
theorem steps_keeps (invariant : Assembly → Prop)
    (kept : ∀ before after : Assembly, before.Follows after → invariant before → invariant after)
    (events : List Event) {before : Assembly} (holds : invariant before) :
    invariant (afterwards (steps events before)) := by
  induction events generalizing before with
  | nil => exact holds
  | cons event events ih =>
      have one := kept before _ (step_follows event before) holds
      change invariant (afterwards ((step event >>= fun _ => steps events) before))
      simp only [Bind.bind, EStateM.bind]
      cases stepped : step event before with
      | ok value between =>
          rw [stepped] at one
          exact ih one
      | error violation between =>
          rw [stepped] at one
          exact one

end Assembly

/-- The model after events is that of the assembly after them. -/
theorem Model.addEvents_eq (model : Model) (events : List Event) :
    (model.addEvents events).1 =
      (Assembly.afterwards (Assembly.steps events (.ofModel model))).model := by
  unfold addEvents EStateM.run
  cases Assembly.steps events (.ofModel model) with
  | ok value after => rfl
  | error violation after => rfl

/-- The end of a unit leaves the model as it is after the events. -/
theorem Model.addUnit_eq (model : Model) (events : List Event) :
    (model.addUnit events).1 = (model.addEvents events).1 := by
  unfold addUnit addEvents
  simp only [SeqRight.seqRight, EStateM.seqRight, EStateM.run]
  cases Assembly.steps events (.ofModel model) with
  | error violation after => rfl
  | ok value after =>
      have kept := Assembly.afterwards_finish after
      dsimp only
      cases ended : Assembly.finish after with
      | ok id last => simpa [ended, Assembly.afterwards] using congrArg Assembly.model kept
      | error violation last =>
          simpa [ended, Assembly.afterwards] using congrArg Assembly.model kept

/-- What events keep is kept by units, up to the first that is refused. -/
theorem Model.addUnits_keeps (invariant : Model → Prop)
    (kept : ∀ (model : Model) (events : List Event), invariant model →
      invariant (model.addEvents events).1)
    (units : List (List Event)) {model : Model} (holds : invariant model) :
    invariant (model.addUnits units).1 := by
  induction units generalizing model with
  | nil => exact holds
  | cons events rest ih =>
      have one := kept model events holds
      rw [← addUnit_eq] at one
      unfold addUnits
      cases added : model.addUnit events with
      | mk larger result =>
          rw [added] at one
          cases result with
          | ok id => exact ih one
          | error cause => exact one

end JavaDecl
