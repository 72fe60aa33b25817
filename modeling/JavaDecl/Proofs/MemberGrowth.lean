import JavaDecl.Proofs.NestedAssembly
import JavaDecl.Proofs.Outlines

/-!
# Growth of a model by members

While the members of a class are assembled, the model changes in one way below the size
that it had before: the class gets more members.  `Grows` says so, for the classes of a unit
as well.
-/

namespace JavaDecl

/-- What is declared directly in a class, or the classes of a unit. -/
structure Members where
  nested : List ClassId := []
  fields : List FieldId := []
  methods : List MethodId := []
  constructors : List MethodId := []
  initializers : List InitializerDecl := []

namespace Members

def append (front back : Members) : Members where
  nested := front.nested ++ back.nested
  fields := front.fields ++ back.fields
  methods := front.methods ++ back.methods
  constructors := front.constructors ++ back.constructors
  initializers := front.initializers ++ back.initializers

instance : Append Members :=
  ⟨append⟩

@[simp]
theorem append_nothing (members : Members) : members ++ {} = members := by
  change append _ _ = _
  simp [append]

theorem append_assoc (first second third : Members) :
    first ++ second ++ third = first ++ (second ++ third) := by
  change append (append _ _) _ = append _ (append _ _)
  simp [append]

def ofMethod (isConstructor : Bool) (id : MethodId) : Members :=
  if isConstructor then { constructors := [id] } else { methods := [id] }

end Members

namespace ClassEntity

def members (entity : ClassEntity) : Members where
  nested := entity.nested
  fields := entity.fields
  methods := entity.methods
  constructors := entity.constructors
  initializers := entity.initializers

/-- The class with more members. -/
def adding (entity : ClassEntity) (added : Members) : ClassEntity :=
  { entity with
    nested := entity.nested ++ added.nested
    fields := entity.fields ++ added.fields
    methods := entity.methods ++ added.methods
    constructors := entity.constructors ++ added.constructors
    initializers := entity.initializers ++ added.initializers }

@[simp]
theorem adding_nothing (entity : ClassEntity) : entity.adding {} = entity := by
  simp [adding]

theorem adding_adding (entity : ClassEntity) (first second : Members) :
    (entity.adding first).adding second = entity.adding (first ++ second) := by
  change _ = entity.adding (first.append second)
  simp [adding, Members.append]

theorem adding_ofMethod (entity : ClassEntity) (isConstructor : Bool) (id : MethodId) :
    entity.adding (.ofMethod isConstructor id) =
      if isConstructor then { entity with constructors := entity.constructors ++ [id] }
      else { entity with methods := entity.methods ++ [id] } := by
  cases isConstructor <;> simp [adding, Members.ofMethod]

end ClassEntity

namespace Model

/-- A model has at least as many classes, methods and fields. -/
structure Reaches (model : Model) (base : Size) : Prop where
  classes : base.classes ≤ model.classes.size
  methods : base.methods ≤ model.methods.size
  fields : base.fields ≤ model.fields.size

theorem Reaches.refl (model : Model) : model.Reaches model.size :=
  ⟨Nat.le_refl _, Nat.le_refl _, Nat.le_refl _⟩

theorem Reaches.trans {first second : Model} {base : Size} (one : first.Reaches base)
    (other : second.Reaches first.size) : second.Reaches base where
  classes := Nat.le_trans one.classes other.classes
  methods := Nat.le_trans one.methods other.methods
  fields := Nat.le_trans one.fields other.fields

/-- All that changes below a size are the members of one owner, which get more.  The owner
of the outermost classes is their unit. -/
structure Grows (base : Size) (unit : UnitId) (owner : Option ClassId) (added : Members)
    (before after : Model) : Prop where
  reaches : after.Reaches before.size
  units : after.units.size = before.units.size
  others : ∀ id : ClassId, id.index < base.classes → owner ≠ some id →
    after.classAt id = before.classAt id
  owned : ∀ id, owner = some id → after.classAt id = (before.classAt id).adding added
  method : ∀ id : MethodId, id.index < base.methods → after.method id = before.method id
  field : ∀ id : FieldId, id.index < base.fields → after.field id = before.field id
  package : (after.unit unit).packageName = (before.unit unit).packageName
  outermost : owner = none →
    (after.unit unit).classes = (before.unit unit).classes ++ added.nested
  inner : owner.isSome → (after.unit unit).classes = (before.unit unit).classes

namespace Grows

variable {base : Size} {unit : UnitId} {owner : Option ClassId} {added further : Members}
  {before between after : Model}

theorem refl (base : Size) (unit : UnitId) (owner : Option ClassId) (model : Model) :
    Grows base unit owner {} model model where
  reaches := .refl model
  units := rfl
  others _ _ _ := rfl
  owned id _ := by simp
  method _ _ := rfl
  field _ _ := rfl
  package := rfl
  outermost _ := by simp
  inner _ := rfl

theorem trans (first : Grows base unit owner added before between)
    (second : Grows base unit owner further between after) :
    Grows base unit owner (added ++ further) before after where
  reaches := first.reaches.trans second.reaches
  units := second.units.trans first.units
  others id inside other := (second.others id inside other).trans (first.others id inside other)
  owned id same := by rw [second.owned id same, first.owned id same, ClassEntity.adding_adding]
  method id inside := (second.method id inside).trans (first.method id inside)
  field id inside := (second.field id inside).trans (first.field id inside)
  package := second.package.trans first.package
  outermost none := by
    rw [second.outermost none, first.outermost none, List.append_assoc]
    rfl
  inner some := (second.inner some).trans (first.inner some)

theorem lower {model : Model} (grows : Grows model.size unit owner added before after)
    (reaches : model.Reaches base) : Grows base unit owner added before after where
  reaches := grows.reaches
  units := grows.units
  others id inside := grows.others id (Nat.lt_of_lt_of_le inside reaches.classes)
  owned := grows.owned
  method id inside := grows.method id (Nat.lt_of_lt_of_le inside reaches.methods)
  field id inside := grows.field id (Nat.lt_of_lt_of_le inside reaches.fields)
  package := grows.package
  outermost := grows.outermost
  inner := grows.inner

/-- What a class beyond a size gets changes nothing below it. -/
theorem beyond {id : ClassId} (grows : Grows base unit (some id) added before after)
    (new : base.classes ≤ id.index) (inside : ∀ id, owner = some id → id.index < base.classes) :
    Grows base unit owner {} before after where
  reaches := grows.reaches
  units := grows.units
  others other below _ := grows.others other below (by rintro ⟨rfl⟩; omega)
  owned other same := by
    have below := inside other same
    rw [ClassEntity.adding_nothing]
    exact grows.others other below (by rintro ⟨rfl⟩; omega)
  method := grows.method
  field := grows.field
  package := grows.package
  outermost _ := by rw [grows.inner rfl, List.append_nil]
  inner _ := grows.inner rfl

section Changes

variable {model : Model} (reaches : model.Reaches base)
  (inside : ∀ id, owner = some id → id.index < base.classes)

include reaches inside in
theorem pushClass (entity : ClassEntity) :
    Grows base unit owner {} model (model.pushClass entity) := by
  have old : ∀ id : ClassId, id.index < base.classes →
      (model.pushClass entity).classAt id = model.classAt id := by
    intro id below
    have := reaches.classes
    rw [classAt_pushClass, if_neg (by omega)]
  exact
    { Grows.refl base unit owner model with
      reaches := ⟨by simp [Model.pushClass, size], Nat.le_refl _, Nat.le_refl _⟩
      others := fun id below _ => old id below
      owned := fun id same => by simp [old id (inside id same)] }

include reaches in
theorem pushField (entity : FieldEntity) :
    Grows base unit owner {} model (model.pushField entity) :=
  { Grows.refl base unit owner model with
    reaches := ⟨Nat.le_refl _, Nat.le_refl _, by simp [Model.pushField, size]⟩
    field := fun id below => by
      have := reaches.fields
      rw [field_pushField, if_neg (by omega)] }

include reaches in
theorem pushMethod (entity : MethodEntity) :
    Grows base unit owner {} model (model.pushMethod entity) :=
  { Grows.refl base unit owner model with
    reaches := ⟨Nat.le_refl _, by simp [Model.pushMethod, size], Nat.le_refl _⟩
    method := fun id below => by
      have := reaches.methods
      rw [method_pushMethod, if_neg (by omega)] }

theorem modifyField {field : FieldId} (beyond : base.fields ≤ field.index)
    (change : FieldEntity → FieldEntity) :
    Grows base unit owner {} model (model.modifyField field change) :=
  { Grows.refl base unit owner model with
    reaches := ⟨Nat.le_refl _, Nat.le_refl _, by simp [Model.modifyField, size]⟩
    field := fun id below => by
      rw [field_modifyField, if_neg (by omega)] }

include reaches in
theorem modifyClass {id : ClassId} (below : id.index < base.classes)
    {change : ClassEntity → ClassEntity} (adds : ∀ entity, change entity = entity.adding added) :
    Grows base unit (some id) added model (model.modifyClass id change) :=
  { Grows.refl base unit (some id) model with
    reaches := ⟨by simp [Model.modifyClass, size], Nat.le_refl _, Nat.le_refl _⟩
    others := fun other _ different => by
      have apart : ¬ (id.index = other.index ∧ other.index < model.classes.size) := by
        rintro ⟨same, -⟩
        exact different (congrArg some (congrArg ClassId.mk same))
      rw [classAt_modifyClass, if_neg apart]
    owned := fun other same => by
      obtain rfl := Option.some.inj same
      have := reaches.classes
      rw [classAt_modifyClass, if_pos ⟨rfl, by omega⟩, adds]
    outermost := fun none => by cases none }

theorem modifyUnit (known : unit.index < model.units.size) (id : ClassId) :
    Grows base unit none { nested := [id] } model
      (model.modifyUnit unit fun entity => { entity with classes := entity.classes ++ [id] }) := by
  have changed := model.unit_modifyUnit unit unit fun entity =>
    { entity with classes := entity.classes ++ [id] }
  rw [if_pos ⟨rfl, known⟩] at changed
  exact
    { reaches := ⟨Nat.le_refl _, Nat.le_refl _, Nat.le_refl _⟩
      units := by simp [Model.modifyUnit]
      others := fun _ _ _ => rfl
      owned := fun _ same => by cases same
      method := fun _ _ => rfl
      field := fun _ _ => rfl
      package := by rw [changed]; rfl
      outermost := fun _ => by rw [changed]
      inner := fun some => by cases some }

end Changes

end Grows

end Model

namespace Assembly

/-! ### Events between declarations -/

/-- Events that are no parts of declarations come between two states.  The last package
among them is that of the unit. -/
structure Aside (packages : List String) (before after : Assembly) : Prop where
  openClasses : after.openClasses = before.openClasses
  openFields : after.openFields = before.openFields
  openMethod : after.openMethod = before.openMethod
  unit : after.unit = before.unit
  classes : after.model.classes = before.model.classes
  methods : after.model.methods = before.model.methods
  fields : after.model.fields = before.model.fields
  units : after.model.units.size = before.model.units.size
  outermost : (after.model.unit after.unit).classes = (before.model.unit before.unit).classes
  package : (after.model.unit after.unit).packageName =
    packages.getLast?.or (before.model.unit before.unit).packageName

theorem Aside.refl (assembly : Assembly) : Aside [] assembly assembly :=
  ⟨rfl, rfl, rfl, rfl, rfl, rfl, rfl, rfl, rfl, rfl⟩

theorem Aside.trans {packages others : List String} {first second third : Assembly}
    (one : Aside packages first second) (other : Aside others second third) :
    Aside (packages ++ others) first third where
  openClasses := other.openClasses.trans one.openClasses
  openFields := other.openFields.trans one.openFields
  openMethod := other.openMethod.trans one.openMethod
  unit := other.unit.trans one.unit
  classes := other.classes.trans one.classes
  methods := other.methods.trans one.methods
  fields := other.fields.trans one.fields
  units := other.units.trans one.units
  outermost := other.outermost.trans one.outermost
  package := by
    rw [other.package, one.package, List.getLast?_append]
    cases others.getLast? <;> rfl

theorem Aside.withMethod {packages : List String} {before after : Assembly}
    (aside : Aside packages before after) (method : Option OpenMethod) :
    Aside packages { before with openMethod := method } { after with openMethod := method } :=
  ⟨aside.openClasses, aside.openFields, rfl, aside.unit, aside.classes, aside.methods,
    aside.fields, aside.units, aside.outermost, aside.package⟩

theorem Aside.sameOpen {packages : List String} {before after : Assembly}
    (aside : Aside packages before after) : before.SameOpen after :=
  ⟨aside.openClasses, aside.openFields, by rw [aside.openMethod], aside.unit, aside.units⟩

theorem Aside.size {packages : List String} {before after : Assembly}
    (aside : Aside packages before after) : after.model.size = before.model.size := by
  simp only [Model.size, aside.units, aside.classes, aside.methods, aside.fields]

theorem Aside.grows {before after : Assembly} (aside : Aside [] before after) (base : Model.Size)
    (owner : Option ClassId) :
    Model.Grows base before.unit owner {} before.model after.model := by
  obtain ⟨-, -, -, unit, classes, methods, fields, units, outermost, package⟩ := aside
  rw [unit] at outermost package
  have classAt : ∀ id, after.model.classAt id = before.model.classAt id :=
    fun id => by rw [Model.classAt, classes]; rfl
  exact
    { reaches := by constructor <;> simp [Model.size, classes, methods, fields]
      units := units
      others := fun id _ _ => classAt id
      owned := fun id _ => by simp [classAt]
      method := fun id _ => by rw [Model.method, methods]; rfl
      field := fun id _ => by rw [Model.field, fields]; rfl
      package := package
      outermost := fun _ => by rw [outermost, List.append_nil]
      inner := fun _ => outermost }

/-- The unit changes, but not its classes. -/
theorem Aside.ofUnit {packages : List String} {change : UnitEntity → UnitEntity}
    {before : Assembly} (inside : before.unit.index < before.model.units.size)
    (outermost : ∀ entity, (change entity).classes = entity.classes)
    (package : ∀ entity, (change entity).packageName =
      packages.getLast?.or entity.packageName) (comment : Option String) (tags : List DocTag)
    (uses : List (AnnotationUse TypeExpr)) :
    Aside packages before
      { before with model := before.model.modifyUnit before.unit change, comment, tags, uses } := by
  have changed := before.model.unit_modifyUnit before.unit before.unit change
  rw [if_pos ⟨rfl, inside⟩] at changed
  refine ⟨rfl, rfl, rfl, rfl, rfl, rfl, rfl, by simp [Model.modifyUnit], ?_, ?_⟩
  · rw [changed, outermost]
  · rw [changed, package]

theorem changeModule_aside {name : String} {update : ModuleEntity → ModuleEntity}
    {before after : Assembly} (inside : before.unit.index < before.model.units.size)
    (stepped : changeModule name update before = .ok ⟨⟩ after) : Aside [] before after := by
  obtain ⟨header, -, rfl⟩ := changeModule_of_ok stepped
  exact .ofUnit inside (fun _ => by rfl) (fun _ => by rfl) _ _ _

theorem step_aside {event : Event} (other : event.isPart = false) {before after : Assembly}
    (inside : before.unit.index < before.model.units.size)
    (stepped : step event before = .ok ⟨⟩ after) : Aside event.package?.toList before after := by
  cases event with
  | package declared =>
      cases stepped
      exact .ofUnit inside (fun _ => by rfl) (fun _ => by rfl) _ _ _
  | imported declared =>
      cases stepped
      exact .ofUnit inside (fun _ => by rfl) (fun _ => by rfl) _ _ _
  | moduleHeader declared =>
      cases stepped
      exact .ofUnit inside (fun _ => by rfl) (fun _ => by rfl) _ _ _
  | docText text | docTag tag | annotated use =>
      cases stepped
      exact ⟨rfl, rfl, rfl, rfl, rfl, rfl, rfl, rfl, rfl, rfl⟩
  | requires directive | exported directive | opened directive =>
      exact changeModule_aside inside stepped
  | uses directive | provides directive => exact changeModule_aside inside stepped
  | _ => cases other

theorem takes_asides {events : List Event} (others : events.filter Event.isPart = [])
    {before after : Assembly} (inside : before.unit.index < before.model.units.size)
    (taken : Takes events before after) :
    Aside (events.filterMap Event.package?) before after := by
  induction events generalizing before with
  | nil =>
      cases taken
      exact .refl _
  | cons event events ih =>
      have plain := List.filter_eq_nil_iff.mp others
      obtain ⟨between, stepped, further⟩ := takes_cons.mp taken
      have other : event.isPart = false := by simpa using plain event List.mem_cons_self
      have one := step_aside other inside stepped
      have rest := ih
        (List.filter_eq_nil_iff.mpr fun event member => plain event (List.mem_cons_of_mem _ member))
        (by rw [one.unit, one.units]; exact inside) further
      have split : (event :: events).filterMap Event.package? =
          event.package?.toList ++ events.filterMap Event.package? := by
        rw [List.filterMap_cons]
        cases event.package? <;> rfl
      rw [split]
      exact one.trans rest

/-! ### Parts of declarations -/

/-- The parts of declarations are taken, with other events between them. -/
def Gathers (parts : List Event) (before after : Assembly) : Prop :=
  ∃ events, HasParts events parts ∧ Takes events before after

section Gathers

variable {event : Event} {parts others : List Event} {before after : Assembly}

theorem Gathers.aside (gathers : Gathers [] before after)
    (inside : before.unit.index < before.model.units.size) : Aside [] before after := by
  obtain ⟨events, known, taken⟩ := gathers
  have aside := takes_asides known.filter inside taken
  rwa [known.packages] at aside

theorem Gathers.cons (gathers : Gathers (event :: parts) before after)
    (inside : before.unit.index < before.model.units.size) :
    ∃ start between, Aside [] before start ∧ step event start = .ok ⟨⟩ between ∧
      Gathers parts between after := by
  obtain ⟨events, ⟨filter, free⟩, taken⟩ := gathers
  obtain ⟨gap, rest, rfl, plain, isPart, filter⟩ := List.filter_eq_cons_iff.mp filter
  obtain ⟨start, skipped, further⟩ := takes_append.mp taken
  obtain ⟨between, stepped, last⟩ := takes_cons.mp further
  have none : HasParts gap [] :=
    ⟨List.filter_eq_nil_iff.mpr plain, fun event member => free event (by simp [member])⟩
  have aside := takes_asides none.filter inside skipped
  rw [none.packages] at aside
  exact ⟨start, between, aside, stepped, rest,
    ⟨filter, fun event member => free event (by simp [member])⟩, last⟩

theorem Gathers.append (gathers : Gathers (parts ++ others) before after) :
    ∃ between, Gathers parts before between ∧ Gathers others between after := by
  obtain ⟨events, ⟨filter, free⟩, taken⟩ := gathers
  obtain ⟨front, back, rfl, first, second⟩ := List.filter_eq_append_iff.mp filter
  obtain ⟨between, begins, ends⟩ := takes_append.mp taken
  exact ⟨between,
    ⟨front, ⟨first, fun event member => free event (List.mem_append_left _ member)⟩, begins⟩,
    ⟨back, ⟨second, fun event member => free event (List.mem_append_right _ member)⟩, ends⟩⟩

end Gathers

/-! ### Beginnings and ends -/

section Steps

variable {before after : Assembly}

def linked (assembly : Assembly) (model : Model) : Model :=
  match assembly.openClasses.head? with
  | some outer =>
      model.modifyClass outer fun entity =>
        { entity with nested := entity.nested ++ [assembly.nextClass] }
  | none =>
      model.modifyUnit assembly.unit fun unit =>
        { unit with classes := unit.classes ++ [assembly.nextClass] }

theorem size_linked (assembly : Assembly) (model : Model) :
    (assembly.linked model).size = model.size := by
  unfold linked
  split <;> simp [Model.size, Model.modifyClass, Model.modifyUnit]

/-- The class around it or the unit has a new class as another member. -/
theorem grows_linked {assembly : Assembly} {model : Model} {base : Model.Size}
    (known : assembly.unit.index < model.units.size) (reaches : model.Reaches base)
    (older : ∀ id, assembly.openClasses.head? = some id → id.index < base.classes) :
    Model.Grows base assembly.unit assembly.openClasses.head?
      { nested := [assembly.nextClass] } model (assembly.linked model) := by
  unfold linked
  cases owner : assembly.openClasses.head? with
  | none => exact .modifyUnit known assembly.nextClass
  | some outer =>
      exact .modifyClass reaches (older outer owner) fun entity => by simp [ClassEntity.adding]

theorem beginClass_of_ok {declared : ClassDecl} (plain : declared.isConstantBody = false)
    (stepped : step (.beginClass declared) before = .ok ⟨⟩ after) :
    ∃ comment tags uses, after =
      { before with
        model := before.linked
          (before.model.pushClass (before.classEntity declared comment tags uses))
        openClasses := before.nextClass :: before.openClasses
        comment := none, tags := [], uses := [] } := by
  obtain ⟨model, unit, classes, fields, method, comment, tags, uses⟩ := before
  obtain ⟨_, _, _, _, _, _, _, isBody⟩ := declared
  cases plain
  cases classes with
  | nil =>
      cases stepped
      exact ⟨comment, tags, uses, rfl⟩
  | cons around outer =>
      cases stepped
      exact ⟨comment, tags, uses, rfl⟩

theorem beginBody_of_ok {declared : ClassDecl} {field : FieldId} {outer : List FieldId}
    (isBody : declared.isConstantBody = true) (inField : before.openFields = field :: outer)
    (stepped : step (.beginClass declared) before = .ok ⟨⟩ after) :
    ∃ comment tags uses, after =
      { before with
        model := (before.model.pushClass
          (before.classEntity declared comment tags uses)).modifyField field
            ({ · with bodyClass := some before.nextClass })
        openClasses := before.nextClass :: before.openClasses
        comment := none, tags := [], uses := [] } := by
  obtain ⟨model, unit, classes, fields, method, comment, tags, uses⟩ := before
  obtain ⟨_, _, _, _, _, _, _, _⟩ := declared
  cases isBody
  cases inField
  cases classes with
  | nil => cases stepped
  | cons around outer =>
      cases stepped
      exact ⟨comment, tags, uses, rfl⟩

theorem endClass_of_ok {id : ClassId} {outer : List ClassId}
    (inClass : before.openClasses = id :: outer)
    (stepped : step .endClass before = .ok ⟨⟩ after) :
    after = { before with openClasses := outer, comment := none, tags := [], uses := [] } := by
  obtain ⟨model, unit, classes, fields, method, comment, tags, uses⟩ := before
  cases inClass
  cases stepped
  rfl

theorem initializer_of_ok {declared : InitializerDecl}
    (stepped : step (.initializer declared) before = .ok ⟨⟩ after) :
    ∃ owner outer, before.openClasses = owner :: outer ∧ after =
      { before with
        model := before.model.modifyClass owner fun entity =>
          { entity with initializers := entity.initializers ++ [declared] }
        comment := none, tags := [], uses := [] } := by
  obtain ⟨model, unit, classes, fields, method, comment, tags, uses⟩ := before
  cases classes with
  | nil => cases stepped
  | cons owner outer =>
      cases stepped
      exact ⟨owner, outer, rfl, rfl⟩

def nextField (assembly : Assembly) : FieldId :=
  ⟨assembly.model.fields.size⟩

/-- The new field of a step bears what has waited. -/
theorem beginField_of_ok {declared : VariableDecl}
    (stepped : step (.beginField declared) before = .ok ⟨⟩ after) :
    ∃ owner outer, before.openClasses = owner :: outer ∧ after =
      { before with
        model := (before.model.pushField (fieldEntity before.unit owner before.nextField declared
          before.comment before.tags before.uses)).modifyClass owner fun entity =>
            { entity with fields := entity.fields ++ [before.nextField] }
        openFields := before.nextField :: before.openFields
        comment := none, tags := [], uses := [] } := by
  obtain ⟨model, unit, classes, fields, method, comment, tags, uses⟩ := before
  cases method with
  | some waiting => cases stepped
  | none =>
      cases classes with
      | nil => cases stepped
      | cons owner outer =>
          cases stepped
          exact ⟨owner, outer, rfl, rfl⟩

theorem endField_of_ok {id : FieldId} {outer : List FieldId}
    (inField : before.openFields = id :: outer)
    (stepped : step .endField before = .ok ⟨⟩ after) :
    after = { before with openFields := outer } := by
  obtain ⟨model, unit, classes, fields, method, comment, tags, uses⟩ := before
  cases inField
  cases stepped
  rfl

theorem beginOf_of_ok {isConstructor : Bool}
    (stepped : step (Event.beginOf isConstructor) before = .ok ⟨⟩ after) :
    before.openMethod = none ∧ after =
      { before with
        openMethod := some
          { isConstructor, comment := before.comment, tags := before.tags, uses := before.uses }
        comment := none, tags := [], uses := [] } := by
  obtain ⟨model, unit, classes, fields, method, comment, tags, uses⟩ := before
  cases method with
  | some waiting => cases isConstructor <;> cases stepped
  | none =>
      cases classes with
      | nil => cases isConstructor <;> cases stepped
      | cons owner outer =>
          cases isConstructor <;> cases stepped <;> exact ⟨rfl, rfl⟩

theorem parameter_of_ok {declared : VariableDecl} {waiting : OpenMethod}
    (inMethod : before.openMethod = some waiting)
    (stepped : step (.parameter declared) before = .ok ⟨⟩ after) :
    ∃ uses, after =
      { before with
        openMethod := some
          { waiting with parameters := waiting.parameters ++ [(declared, uses)] }
        uses := [] } := by
  obtain ⟨model, unit, classes, fields, method, comment, tags, uses⟩ := before
  cases inMethod
  cases stepped
  exact ⟨uses, rfl⟩

def nextMethod (assembly : Assembly) : MethodId :=
  ⟨assembly.model.methods.size⟩

theorem endOf_of_ok {isConstructor : Bool} {declared : MethodDecl} {waiting : OpenMethod}
    (inMethod : before.openMethod = some waiting)
    (stepped : step (Event.endOf isConstructor declared) before = .ok ⟨⟩ after) :
    ∃ owner outer, before.openClasses = owner :: outer ∧ after =
      { before with
        model := (before.model.pushMethod (methodEntity before.unit owner before.nextMethod
          waiting declared)).modifyClass owner
            (·.adding (.ofMethod isConstructor before.nextMethod))
        openMethod := none } := by
  obtain ⟨model, unit, classes, fields, method, comment, tags, uses⟩ := before
  obtain ⟨sort, _, _, _, _⟩ := waiting
  cases inMethod
  cases classes with
  | nil => cases sort <;> cases isConstructor <;> cases stepped
  | cons owner outer =>
      simp only [ClassEntity.adding_ofMethod]
      cases sort <;> cases isConstructor <;> cases stepped <;> exact ⟨owner, outer, rfl, rfl⟩

end Steps

end Assembly

end JavaDecl
