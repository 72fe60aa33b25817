import JavaDecl.Proofs.MemberGrowth

/-!
# What the events of a unit say of its declarations

A record of some events lists the declarations of each sort in the order in which they
begin, with the comment, the tags and the annotations that wait for them there.  It needs
no stacks and no links.  A unit that is assembled without a violation has the declarations
of its record, and these bear what is noted for them.
-/

namespace JavaDecl

/-! ### Records -/

/-- What waits for the next declaration. -/
structure Notes where
  comment : Option String := none
  tags : List DocTag := []
  uses : List (AnnotationUse TypeExpr) := []
deriving Inhabited

/-- What waits after an event.  An import takes a comment alone, a parameter annotations
alone, and what still waits where a class ends is dropped. -/
def Notes.after (notes : Notes) : Event → Notes
  | .docText text => { notes with comment := some text, tags := [] }
  | .docTag tag => { notes with tags := notes.tags ++ [tag] }
  | .annotated use => { notes with uses := notes.uses ++ [use] }
  | .package _ | .moduleHeader _ | .beginClass _ | .endClass | .beginConstructor | .beginMethod
  | .beginField _ | .initializer _ => {}
  | .imported _ => { notes with comment := none, tags := [] }
  | .parameter _ => { notes with uses := [] }
  | _ => notes

/-- A method or constructor in a record. -/
structure MethodRecord where
  isConstructor : Bool
  notes : Notes
  /-- Its parameters with the annotations that wait for them. -/
  parameters : List (VariableDecl × List (AnnotationUse TypeExpr)) := []
  /-- What its end declares, if it has ended. -/
  declared : Option MethodDecl := none
deriving Inhabited

/-- The declarations that some events begin, in their order, with what is noted for them. -/
structure UnitRecord where
  notes : Notes := {}
  package : Option (PackageDecl × Notes) := none
  moduleDecl : Option (ModuleDecl × Notes) := none
  classes : List (ClassDecl × Notes) := []
  fields : List (VariableDecl × Notes) := []
  methods : List MethodRecord := []
deriving Inhabited

/-- A list with its last item changed. -/
def changeLast {α : Type} (change : α → α) : List α → List α
  | [] => []
  | [last] => [change last]
  | item :: next :: rest => item :: changeLast change (next :: rest)

@[simp]
theorem changeLast_append_singleton {α : Type} (change : α → α) (items : List α) (last : α) :
    changeLast change (items ++ [last]) = items ++ [change last] := by
  induction items with
  | nil => rfl
  | cons item rest ih =>
      cases rest with
      | nil => rfl
      | cons next rest => exact congrArg (item :: ·) ih

theorem map_changeLast {α β : Type} {change : α → α} {keep : α → β}
    (same : ∀ item, keep (change item) = keep item) (items : List α) :
    (changeLast change items).map keep = items.map keep := by
  induction items with
  | nil => rfl
  | cons item rest ih =>
      cases rest with
      | nil => simp [changeLast, same]
      | cons next rest => simpa [changeLast] using ih

/-- The record after one more event. -/
def UnitRecord.after (record : UnitRecord) (event : Event) : UnitRecord :=
  let told : UnitRecord :=
    match event with
    | .package declared => { record with package := some (declared, record.notes) }
    | .moduleHeader declared => { record with moduleDecl := some (declared, record.notes) }
    | .beginClass declared =>
        { record with classes := record.classes ++ [(declared, record.notes)] }
    | .beginField declared => { record with fields := record.fields ++ [(declared, record.notes)] }
    | .beginConstructor =>
        { record with
          methods := record.methods ++ [{ isConstructor := true, notes := record.notes }] }
    | .beginMethod =>
        { record with
          methods := record.methods ++ [{ isConstructor := false, notes := record.notes }] }
    | .parameter declared =>
        let more (method : MethodRecord) : MethodRecord :=
          { method with parameters := method.parameters ++ [(declared, record.notes.uses)] }
        { record with methods := changeLast more record.methods }
    | .endConstructor declared | .endMethod declared =>
        { record with methods := changeLast ({ · with declared := some declared }) record.methods }
    | _ => record
  { told with notes := record.notes.after event }

def recordOf (events : List Event) : UnitRecord :=
  events.foldl UnitRecord.after {}

@[simp]
theorem UnitRecord.notes_after (record : UnitRecord) (event : Event) :
    (record.after event).notes = record.notes.after event :=
  rfl

theorem recordOf_append (front back : List Event) :
    recordOf (front ++ back) = back.foldl UnitRecord.after (recordOf front) :=
  List.foldl_append

/-! ### What declarations bear -/

/-- The comment, the tags and the annotations of a declaration. -/
structure Marks where
  comment : Option String
  tags : List HeldTag
  uses : List (AnnotationUse TypeRef)

/-- What a declaration bears for which something is noted. -/
def Notes.marks (notes : Notes) (scope : Scope) (holder : Holder) : Marks where
  comment := notes.comment
  tags := Assembly.tagsOf holder notes.tags
  uses := Assembly.usesAt scope holder .ofUse notes.uses

def ClassEntity.marks (entity : ClassEntity) : Marks :=
  ⟨entity.comment, entity.tags, entity.uses⟩

def FieldEntity.marks (entity : FieldEntity) : Marks :=
  ⟨entity.comment, entity.tags, entity.uses⟩

def MethodEntity.marks (entity : MethodEntity) : Marks :=
  ⟨entity.comment, entity.tags, entity.uses⟩

/-- The method that has begun in an assembly, for one in a record. -/
def MethodRecord.waiting (method : MethodRecord) : OpenMethod where
  isConstructor := method.isConstructor
  comment := method.notes.comment
  tags := method.notes.tags
  uses := method.notes.uses
  parameters := method.parameters

/-- A class of a unit bears what is noted for it. -/
structure ClassEntity.Records (entity : ClassEntity) (unit : UnitId) (id : ClassId)
    (entry : ClassDecl × Notes) : Prop where
  name : entity.name = entry.1.name
  marks : entity.marks = entry.2.marks { unit, classId := some id } (.ofClass id)

/-- A field bears what is noted for it. -/
structure FieldEntity.Records (entity : FieldEntity) (unit : UnitId) (id : FieldId)
    (entry : VariableDecl × Notes) : Prop where
  name : entity.name = entry.1.name
  marks : entity.marks =
    entry.2.marks { unit, classId := some entity.declaring } (.ofField id)

/-- A method or constructor is the one that has been recorded. -/
def MethodEntity.Records (entity : MethodEntity) (unit : UnitId) (id : MethodId)
    (entry : MethodRecord) : Prop :=
  ∃ declared owner, entry.declared = some declared ∧
    entity = Assembly.methodEntity unit owner id entry.waiting declared

def packageOf (unit : UnitId) (entry : PackageDecl × Notes) : PackageEntity where
  name := entry.1.name
  uses := Assembly.usesAt { unit } (.ofUnit unit) .ofPackageUse entry.2.uses
  comment := entry.2.comment
  line := entry.1.line

structure ModuleEntity.Records (entity : ModuleEntity) (unit : UnitId)
    (entry : ModuleDecl × Notes) : Prop where
  name : entity.name = entry.1.name
  comment : entity.comment = entry.2.comment
  uses : entity.uses = Assembly.usesAt { unit } (.ofUnit unit) .ofModuleUse entry.2.uses

/-- One entry of a table beyond some size for each item of a list. -/
structure Lists {α : Type} (items : List α) (start count : Nat)
    (holds : Nat → α → Prop) : Prop where
  count : count = start + items.length
  holds : ∀ position item, items[position]? = some item → holds (start + position) item

namespace Lists

variable {α : Type} {items : List α} {start count : Nat} {holds : Nat → α → Prop}

theorem nil (start : Nat) (holds : Nat → α → Prop) : Lists [] start start holds :=
  ⟨rfl, by simp⟩

/-- The entries change, but what is said of them stays true. -/
theorem keep (lists : Lists items start count holds) {other : Nat → α → Prop}
    (kept : ∀ position item, position < count → holds position item → other position item) :
    Lists items start count other := by
  refine ⟨lists.count, fun position item found => ?_⟩
  have inside := (List.getElem?_eq_some_iff.mp found).1
  have := lists.count
  exact kept _ item (by omega) (lists.holds position item found)

theorem concat (lists : Lists items start count holds) {item : α} (last : holds count item) :
    Lists (items ++ [item]) start (count + 1) holds := by
  refine ⟨by simp [lists.count, Nat.add_assoc], fun position other found => ?_⟩
  rw [List.getElem?_append] at found
  split at found
  · exact lists.holds position other found
  · next beyond =>
      have one := (List.getElem?_eq_some_iff.mp found).1
      simp only [List.length_singleton] at one
      obtain rfl : position = items.length := by omega
      simp only [Nat.sub_self, List.getElem?_cons_zero, Option.some.injEq] at found
      rw [← found, ← lists.count]
      exact last

end Lists

/-- A unit of a model that has grown out of a base has the declarations of a record. -/
structure Model.Records (base model : Model) (unit : UnitId) (record : UnitRecord) : Prop where
  classes : Lists record.classes base.classes.size model.classes.size fun position entry =>
    (model.classAt ⟨position⟩).Records unit ⟨position⟩ entry
  fields : Lists record.fields base.fields.size model.fields.size fun position entry =>
    (model.field ⟨position⟩).Records unit ⟨position⟩ entry
  methods : Lists record.methods base.methods.size model.methods.size fun position entry =>
    (model.method ⟨position⟩).Records unit ⟨position⟩ entry
  package : (model.unit unit).package = record.package.map (packageOf unit)
  moduleDecl : Option.Rel (fun entity entry => entity.Records unit entry)
    (model.unit unit).moduleDecl record.moduleDecl

namespace Model

/-- Models with the same declarations up to their links, as far as records tell. -/
structure Alike (unit : UnitId) (model other : Model) : Prop where
  classes : other.classes.size = model.classes.size
  fields : other.fields.size = model.fields.size
  methods : other.methods = model.methods
  classAt : ∀ id, (other.classAt id).name = (model.classAt id).name ∧
    (other.classAt id).marks = (model.classAt id).marks
  field : ∀ id, (other.field id).name = (model.field id).name ∧
    (other.field id).declaring = (model.field id).declaring ∧
      (other.field id).marks = (model.field id).marks
  package : (other.unit unit).package = (model.unit unit).package
  moduleDecl : (other.unit unit).moduleDecl = (model.unit unit).moduleDecl

namespace Alike

variable (unit : UnitId) (model : Model)

theorem refl : Alike unit model model :=
  ⟨rfl, rfl, rfl, fun _ => ⟨rfl, rfl⟩, fun _ => ⟨rfl, rfl, rfl⟩, rfl, rfl⟩

theorem modifyClass (id : ClassId) {change : ClassEntity → ClassEntity}
    (same : ∀ entity, (change entity).name = entity.name ∧ (change entity).marks = entity.marks) :
    Alike unit model (model.modifyClass id change) :=
  { refl unit model with
    classes := by simp [Model.modifyClass]
    classAt := fun other => by
      rw [classAt_modifyClass]
      split
      · exact same _
      · exact ⟨rfl, rfl⟩ }

theorem modifyField (id : FieldId) (body : ClassId) :
    Alike unit model (model.modifyField id ({ · with bodyClass := some body })) :=
  { refl unit model with
    fields := by simp [Model.modifyField]
    field := fun other => by
      rw [field_modifyField]
      split <;> exact ⟨rfl, rfl, rfl⟩ }

theorem modifyUnit {change : UnitEntity → UnitEntity}
    (same : ∀ entity, (change entity).package = entity.package ∧
      (change entity).moduleDecl = entity.moduleDecl) :
    Alike unit model (model.modifyUnit unit change) := by
  have kept : ((model.modifyUnit unit change).unit unit).package = (model.unit unit).package ∧
      ((model.modifyUnit unit change).unit unit).moduleDecl =
        (model.unit unit).moduleDecl := by
    rw [unit_modifyUnit]
    split
    · exact same _
    · exact ⟨rfl, rfl⟩
  exact { refl unit model with package := kept.1, moduleDecl := kept.2 }

end Alike

namespace Records

variable {base model : Model} {unit : UnitId} {record : UnitRecord}

theorem alike (records : base.Records model unit record) {other : Model}
    (same : Alike unit model other) : base.Records other unit record where
  classes := by
    rw [same.classes]
    refine records.classes.keep fun position entry _ known => ?_
    obtain ⟨name, marks⟩ := same.classAt ⟨position⟩
    exact ⟨name.trans known.name, marks.trans known.marks⟩
  fields := by
    rw [same.fields]
    refine records.fields.keep fun position entry _ known => ?_
    obtain ⟨name, declaring, marks⟩ := same.field ⟨position⟩
    exact ⟨name.trans known.name, by rw [marks, declaring, known.marks]⟩
  methods := by
    have method : ∀ id, other.method id = model.method id := fun id => by
      rw [Model.method, same.methods]
      rfl
    simp only [same.methods, method]
    exact records.methods
  package := same.package.trans records.package
  moduleDecl := by
    rw [same.moduleDecl]
    exact records.moduleDecl

/-- What waits for the next declaration belongs to none of those recorded. -/
theorem withNotes (records : base.Records model unit record) (notes : Notes) :
    base.Records model unit { record with notes } :=
  ⟨records.classes, records.fields, records.methods, records.package, records.moduleDecl⟩

theorem pushClass (records : base.Records model unit record) {entity : ClassEntity}
    {entry : ClassDecl × Notes} (last : entity.Records unit ⟨model.classes.size⟩ entry) :
    base.Records (model.pushClass entity) unit
      { record with classes := record.classes ++ [entry] } :=
  { records with
    classes := by
      have size : (model.pushClass entity).classes.size = model.classes.size + 1 :=
        Array.size_push ..
      rw [size]
      refine Lists.concat (records.classes.keep fun position entry inside known => ?_) ?_
      · rw [classAt_pushClass, if_neg (Nat.ne_of_lt inside)]
        exact known
      · rw [classAt_pushClass, if_pos rfl]
        exact last }

theorem pushField (records : base.Records model unit record) {entity : FieldEntity}
    {entry : VariableDecl × Notes} (last : entity.Records unit ⟨model.fields.size⟩ entry) :
    base.Records (model.pushField entity) unit
      { record with fields := record.fields ++ [entry] } :=
  { records with
    fields := by
      have size : (model.pushField entity).fields.size = model.fields.size + 1 :=
        Array.size_push ..
      rw [size]
      refine Lists.concat (records.fields.keep fun position entry inside known => ?_) ?_
      · rw [field_pushField, if_neg (Nat.ne_of_lt inside)]
        exact known
      · rw [field_pushField, if_pos rfl]
        exact last }

theorem pushMethod (records : base.Records model unit record) {entity : MethodEntity}
    {entry : MethodRecord} (last : entity.Records unit ⟨model.methods.size⟩ entry) :
    base.Records (model.pushMethod entity) unit
      { record with methods := record.methods ++ [entry] } :=
  { records with
    methods := by
      have size : (model.pushMethod entity).methods.size = model.methods.size + 1 :=
        Array.size_push ..
      rw [size]
      refine Lists.concat (records.methods.keep fun position entry inside known => ?_) ?_
      · rw [method_pushMethod, if_neg (Nat.ne_of_lt inside)]
        exact known
      · rw [method_pushMethod, if_pos rfl]
        exact last }

end Records

end Model

/-! ### Assemblies and records -/

namespace Assembly

def notes (assembly : Assembly) : Notes :=
  ⟨assembly.comment, assembly.tags, assembly.uses⟩

/-- An assembly has come as far as a record of its events says.  The last method of the
record may have begun without having ended. -/
structure Matches (base : Model) (record : UnitRecord) (assembly : Assembly) : Prop where
  notes : assembly.notes = record.notes
  unit : assembly.unit = ⟨base.units.size⟩
  inside : assembly.unit.index < assembly.model.units.size
  methods : ∃ (ended : List MethodRecord) (begun : Option MethodRecord),
    record.methods = ended ++ begun.toList ∧
      assembly.openMethod = begun.map MethodRecord.waiting ∧
        base.Records assembly.model assembly.unit { record with methods := ended }

theorem Matches.ofModel (model : Model) : Matches model {} (Assembly.ofModel model) := by
  have fresh : (model.pushUnit {}).unit ⟨model.units.size⟩ = {} := by
    rw [Model.unit_pushUnit, if_pos rfl]
  refine ⟨rfl, rfl, by simp [Assembly.ofModel, Model.pushUnit], [], none, rfl, rfl, ?_⟩
  refine ⟨.nil _ _, .nil _ _, .nil _ _, ?_, ?_⟩
  · exact congrArg UnitEntity.package fresh
  · have absent : ((Assembly.ofModel model).model.unit
        (Assembly.ofModel model).unit).moduleDecl = none :=
      congrArg UnitEntity.moduleDecl fresh
    rw [absent]
    exact .none

section Steps

variable {base : Model} {record : UnitRecord} {before after : Assembly}

theorem Matches.keep (known : Matches base record before) {event : Event}
    (notes : after.notes = before.notes.after event) (unit : after.unit = before.unit)
    (units : after.model.units.size = before.model.units.size)
    (method : after.openMethod = before.openMethod)
    (methods : (record.after event).methods = record.methods)
    (records : ∀ ended, base.Records before.model before.unit { record with methods := ended } →
      base.Records after.model after.unit { record.after event with methods := ended }) :
    Matches base (record.after event) after where
  notes := by rw [notes, known.notes, UnitRecord.notes_after]
  unit := unit.trans known.unit
  inside := by
    rw [unit, units]
    exact known.inside
  methods := by
    obtain ⟨ended, begun, listed, waits, grown⟩ := known.methods
    exact ⟨ended, begun, methods.trans listed, method.trans waits, records ended grown⟩

/-- The new class of a step bears what has waited. -/
theorem Matches.records_classEntity (known : Matches base record before)
    (declared : ClassDecl) :
    (before.classEntity declared before.comment before.tags before.uses).Records before.unit
      before.nextClass (declared, record.notes) := by
  rw [← known.notes]
  exact ⟨rfl, rfl⟩

theorem Matches.beginClass (known : Matches base record before) {declared : ClassDecl}
    (stepped : step (.beginClass declared) before = .ok ⟨⟩ after) :
    Matches base (record.after (.beginClass declared)) after := by
  have entity := known.records_classEntity declared
  have grown (ended : List MethodRecord)
      (records : base.Records before.model before.unit { record with methods := ended })
      {model : Model} (same : Model.Alike before.unit
        (before.model.pushClass
          (before.classEntity declared before.comment before.tags before.uses)) model) :
      base.Records model before.unit
        { record.after (.beginClass declared) with methods := ended } := by
    have pushed := (Model.Records.pushClass records entity).alike same
    exact pushed.withNotes _
  obtain ⟨model, unit, classes, fields, method, comment, tags, uses⟩ := before
  obtain ⟨_, _, _, _, _, _, _, isBody⟩ := declared
  cases isBody with
  | true =>
      cases classes with
      | nil => cases stepped
      | cons around outer =>
          cases fields with
          | nil => cases stepped
          | cons field others =>
              cases stepped
              exact known.keep rfl rfl rfl rfl rfl fun ended records =>
                grown ended records (.modifyField _ _ field _)
  | false =>
      cases classes with
      | nil =>
          cases stepped
          refine known.keep rfl rfl (by simp [Model.modifyUnit, Model.pushClass]) rfl rfl
            fun ended records => grown ended records (.modifyUnit _ _ fun _ => ⟨rfl, rfl⟩)
      | cons around outer =>
          cases stepped
          exact known.keep rfl rfl rfl rfl rfl fun ended records =>
            grown ended records (.modifyClass _ _ around fun _ => ⟨rfl, rfl⟩)

theorem Matches.beginField (known : Matches base record before) {declared : VariableDecl}
    (stepped : step (.beginField declared) before = .ok ⟨⟩ after) :
    Matches base (record.after (.beginField declared)) after := by
  obtain ⟨owner, outer, -, rfl⟩ := beginField_of_ok stepped
  have entity : (fieldEntity before.unit owner before.nextField declared before.comment
      before.tags before.uses).Records before.unit ⟨before.model.fields.size⟩
        (declared, record.notes) := by
    rw [← known.notes]
    exact ⟨rfl, rfl⟩
  refine known.keep rfl rfl rfl rfl rfl fun ended records => ?_
  have pushed := records.pushField entity
  have same (entity : ClassEntity) :
      ({ entity with fields := entity.fields ++ [before.nextField] } : ClassEntity).name =
          entity.name ∧
        ({ entity with fields := entity.fields ++ [before.nextField] } : ClassEntity).marks =
          entity.marks := ⟨rfl, rfl⟩
  have linked := pushed.alike (.modifyClass _ _ owner same)
  exact linked.withNotes _

theorem Matches.beginOf (known : Matches base record before) (isConstructor : Bool)
    (stepped : step (Event.beginOf isConstructor) before = .ok ⟨⟩ after) :
    Matches base (record.after (Event.beginOf isConstructor)) after := by
  obtain ⟨notes, same, inside, ended, begun, listed, waits, records⟩ := known
  have told : record.after (Event.beginOf isConstructor) =
      { record with
        notes := {}, methods := record.methods ++ [{ isConstructor, notes := record.notes }] } := by
    cases isConstructor <;> rfl
  obtain ⟨idle, rfl⟩ := beginOf_of_ok stepped
  rw [idle] at waits
  cases begun with
  | some method => cases waits
  | none =>
      refine ⟨by rw [told]; rfl, same, inside, ended, some { isConstructor, notes := record.notes },
        ?_, ?_, ?_⟩
      · rw [told, listed]
        simp
      · rw [← notes]
        rfl
      · rw [told]
        exact records.withNotes _

theorem Matches.parameter (known : Matches base record before) {declared : VariableDecl}
    (stepped : step (.parameter declared) before = .ok ⟨⟩ after) :
    Matches base (record.after (.parameter declared)) after := by
  obtain ⟨notes, same, inside, ended, begun, listed, waits, records⟩ := known
  obtain ⟨model, unit, classes, fields, method, comment, tags, uses⟩ := before
  cases begun with
  | none =>
      cases waits
      cases stepped
  | some begun =>
      cases waits
      cases stepped
      refine ⟨?_, same, inside, ended,
        some { begun with parameters := begun.parameters ++ [(declared, uses)] }, ?_, rfl, ?_⟩
      · rw [UnitRecord.notes_after, ← notes]
        rfl
      · simp only [UnitRecord.after, listed, Option.toList_some, changeLast_append_singleton,
          ← notes]
        rfl
      · exact records.withNotes _

theorem same_adding (added : Members) (entity : ClassEntity) :
    (entity.adding added).name = entity.name ∧ (entity.adding added).marks = entity.marks :=
  ⟨rfl, rfl⟩

theorem Matches.endOf (known : Matches base record before) (isConstructor : Bool)
    {declared : MethodDecl}
    (stepped : step (Event.endOf isConstructor declared) before = .ok ⟨⟩ after) :
    Matches base (record.after (Event.endOf isConstructor declared)) after := by
  obtain ⟨notes, same, inside, ended, begun, listed, waits, records⟩ := known
  have told : record.after (Event.endOf isConstructor declared) =
      { record with
        methods := changeLast ({ · with declared := some declared }) record.methods } := by
    cases isConstructor <;> rfl
  have ends : ∃ waiting owner, before.openMethod = some waiting ∧ after =
      { before with
        model := (before.model.pushMethod (methodEntity before.unit owner before.nextMethod
          waiting declared)).modifyClass owner
            (·.adding (.ofMethod isConstructor before.nextMethod))
        openMethod := none } := by
    cases inMethod : before.openMethod with
    | none =>
        obtain ⟨model, unit, classes, fields, method, comment, tags, uses⟩ := before
        cases inMethod
        cases isConstructor <;> cases stepped
    | some waiting =>
        obtain ⟨owner, outer, -, reached⟩ := endOf_of_ok inMethod stepped
        exact ⟨waiting, owner, rfl, reached⟩
  obtain ⟨waiting, owner, inMethod, rfl⟩ := ends
  rw [inMethod] at waits
  cases begun with
  | none => cases waits
  | some begun =>
      obtain rfl := Option.some.inj waits
      have entity : (methodEntity before.unit owner before.nextMethod begun.waiting
          declared).Records before.unit ⟨before.model.methods.size⟩
            { begun with declared := some declared } := ⟨declared, owner, rfl, rfl⟩
      have pushed := (records.pushMethod entity).alike <| Model.Alike.modifyClass _ _ owner
        (same_adding (.ofMethod isConstructor before.nextMethod))
      refine ⟨by rw [told]; exact notes, same, inside,
        ended ++ [{ begun with declared := some declared }], none, ?_, rfl, ?_⟩
      · rw [told, listed]
        simp
      · rw [told]
        exact pushed.withNotes _

theorem Matches.wait (known : Matches base record before) {event : Event} {waiting : Notes}
    (plain : record.after event = { record with notes := record.notes.after event })
    (waits : waiting = before.notes.after event) :
    Matches base (record.after event)
      { before with comment := waiting.comment, tags := waiting.tags, uses := waiting.uses } := by
  refine known.keep waits rfl rfl rfl (by rw [plain]) fun ended records => ?_
  rw [plain]
  exact records.withNotes _

theorem Matches.changeUnit (known : Matches base record before) {event : Event}
    {change : UnitEntity → UnitEntity} {waiting : Notes}
    (waits : waiting = before.notes.after event)
    (classes : (record.after event).classes = record.classes)
    (fields : (record.after event).fields = record.fields)
    (methods : (record.after event).methods = record.methods)
    (package : ∀ entity : UnitEntity,
      entity.package = record.package.map (packageOf before.unit) →
        (change entity).package = (record.after event).package.map (packageOf before.unit))
    (moduleDecl : Option.Rel (fun entity entry => entity.Records before.unit entry)
        (before.model.unit before.unit).moduleDecl record.moduleDecl →
      Option.Rel (fun entity entry => entity.Records before.unit entry)
        (change (before.model.unit before.unit)).moduleDecl (record.after event).moduleDecl) :
    Matches base (record.after event)
      { before with
        model := before.model.modifyUnit before.unit change
        comment := waiting.comment, tags := waiting.tags, uses := waiting.uses } := by
  have changed : (before.model.modifyUnit before.unit change).unit before.unit =
      change (before.model.unit before.unit) := by
    rw [Model.unit_modifyUnit, if_pos ⟨rfl, known.inside⟩]
  refine known.keep waits rfl (by simp [Model.modifyUnit]) rfl methods fun ended records => ?_
  refine ⟨?_, ?_, records.methods, ?_, ?_⟩
  · rw [classes]
    exact records.classes
  · rw [fields]
    exact records.fields
  · rw [changed]
    exact package _ records.package
  · rw [changed]
    exact moduleDecl records.moduleDecl

theorem Matches.changeModule (known : Matches base record before) {name : String}
    {update : ModuleEntity → ModuleEntity} {event : Event}
    (stepped : changeModule name update before = .ok ⟨⟩ after)
    (plain : record.after event = record) (waits : before.notes.after event = before.notes)
    (same : ∀ entity, (update entity).name = entity.name ∧
      (update entity).comment = entity.comment ∧ (update entity).uses = entity.uses) :
    Matches base (record.after event) after := by
  obtain ⟨header, present, rfl⟩ := changeModule_of_ok stepped
  refine known.changeUnit waits.symm (by rw [plain]) (by rw [plain]) (by rw [plain])
    (fun _ declared => by rw [plain]; exact declared) fun related => ?_
  rw [plain]
  rw [present] at related
  cases declared : record.moduleDecl with
  | none =>
      rw [declared] at related
      cases related
  | some entry =>
      rw [declared] at related
      cases related with
      | some bears =>
          obtain ⟨name, comment, uses⟩ := same header
          exact .some ⟨name.trans bears.name, comment.trans bears.comment, uses.trans bears.uses⟩

theorem Matches.step (known : Matches base record before) {event : Event}
    (stepped : step event before = .ok ⟨⟩ after) : Matches base (record.after event) after := by
  have notes := known.notes
  cases event with
  | docText text | docTag tag | annotated use =>
      cases stepped
      exact known.wait rfl rfl
  | package declared =>
      cases stepped
      refine known.changeUnit rfl rfl rfl rfl (fun entity _ => ?_) id
      simp only [UnitRecord.after, ← notes]
      rfl
  | imported declared =>
      cases stepped
      exact known.changeUnit rfl rfl rfl rfl (fun _ => id) id
  | moduleHeader declared =>
      cases stepped
      refine known.changeUnit rfl rfl rfl rfl (fun _ => id) fun _ => ?_
      simp only [UnitRecord.after, ← notes]
      exact .some ⟨rfl, rfl, rfl⟩
  | beginClass declared => exact known.beginClass stepped
  | endClass =>
      obtain ⟨model, unit, classes, fields, method, comment, tags, uses⟩ := before
      cases classes with
      | nil => cases stepped
      | cons id outer =>
          cases stepped
          exact known.keep rfl rfl rfl rfl rfl fun ended records =>
            records.withNotes _
  | beginConstructor => exact known.beginOf true stepped
  | endConstructor declared => exact known.endOf true stepped
  | beginMethod => exact known.beginOf false stepped
  | endMethod declared => exact known.endOf false stepped
  | parameter declared => exact known.parameter stepped
  | beginField declared => exact known.beginField stepped
  | endField =>
      obtain ⟨model, unit, classes, fields, method, comment, tags, uses⟩ := before
      cases fields with
      | nil => cases stepped
      | cons id outer =>
          cases stepped
          exact known.keep rfl rfl rfl rfl rfl fun ended records =>
            records.withNotes _
  | initializer declared =>
      obtain ⟨owner, outer, -, rfl⟩ := initializer_of_ok stepped
      refine known.keep rfl rfl rfl rfl rfl fun ended records => ?_
      have same := records.alike (.modifyClass _ _ owner fun entity =>
        show ({ entity with initializers := entity.initializers ++ [declared] } :
              ClassEntity).name = entity.name ∧
            ({ entity with initializers := entity.initializers ++ [declared] } :
              ClassEntity).marks = entity.marks from ⟨rfl, rfl⟩)
      exact same.withNotes _
  | requires directive | exported directive | opened directive =>
      exact known.changeModule stepped rfl rfl fun _ => by exact ⟨rfl, rfl, rfl⟩
  | uses directive | provides directive =>
      exact known.changeModule stepped rfl rfl fun _ => by exact ⟨rfl, rfl, rfl⟩

/-- A run that meets no violation follows the record. -/
theorem Matches.takes (known : Matches base record before) {events : List Event}
    (taken : Takes events before after) :
    Matches base (events.foldl UnitRecord.after record) after := by
  induction events generalizing record before with
  | nil =>
      cases taken
      exact known
  | cons event events ih =>
      obtain ⟨between, stepped, further⟩ := takes_cons.mp taken
      exact ih (known.step stepped) further

end Steps

end Assembly

/-- A unit that is assembled without a violation has the declarations of its record. -/
theorem Model.addUnit_records {model grown : Model} {events : List Event} {id : UnitId}
    (added : model.addUnit events = (grown, .ok id)) :
    id = ⟨model.units.size⟩ ∧ model.Records grown id (recordOf events) := by
  unfold addUnit at added
  simp only [SeqRight.seqRight, EStateM.seqRight, EStateM.run] at added
  cases taken : Assembly.steps events (.ofModel model) with
  | error violation after => simp [taken] at added
  | ok value after =>
      obtain ⟨-, unit, -, ended, begun, listed, waits, records⟩ :=
        (Assembly.Matches.ofModel model).takes taken
      simp only [taken, Assembly.finish, Assembly.get_bind] at added
      by_cases finished : (after.openClasses.isEmpty && after.openFields.isEmpty &&
          after.openMethod.isNone) = true
      · rw [if_pos finished] at added
        obtain ⟨rfl, same⟩ := Prod.mk.inj added
        obtain rfl := Except.ok.inj same
        have none : after.openMethod = none := by
          simpa using (Bool.and_eq_true_iff.mp finished).2
        cases begun with
        | some begun =>
            rw [none] at waits
            cases waits
        | none =>
            refine ⟨unit, records.classes, records.fields, ?_, records.package,
              records.moduleDecl⟩
            have all : (recordOf events).methods = ended := listed.trans (List.append_nil ended)
            rw [all]
            exact records.methods
      · rw [if_neg finished] at added
        cases (Prod.mk.inj added).2

end JavaDecl
