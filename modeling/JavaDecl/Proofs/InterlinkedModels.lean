import JavaDecl.Proofs.ClassesOfUnits
import JavaDecl.Proofs.TypeScopes

/-!
# Interlinked models

The declarations of a model refer to each other by their places in its tables.  In every
run of a project the places are places that the tables have, what refers to a declaration
is referred to by it, the types of a declaration stand in its scope, and the classes of the
units are all classes.
-/

namespace JavaDecl

/-- What a comment, an annotation or a type belongs to is found in a model. -/
def Holder.Inside (model : Model) : Holder → Prop
  | .ofUnit id => id.index < model.units.size
  | .ofClass id => id.index < model.classes.size
  | .ofMethod id => id.index < model.methods.size
  | .ofField id => id.index < model.fields.size
  | .ofParameter id position =>
      id.index < model.methods.size ∧ position < (model.method id).parameters.length

namespace Model

def tagsAt (model : Model) : Holder → List HeldTag
  | .ofUnit _ => []
  | .ofClass id => (model.classAt id).tags
  | .ofMethod id => (model.method id).tags
  | .ofField id => (model.field id).tags
  | .ofParameter _ _ => []

/-- The scope of a declaration: its unit, and in a class that class and its own method. -/
def scopeOf (model : Model) : Holder → Scope
  | .ofUnit id => { unit := id }
  | .ofClass id => { unit := (model.classAt id).unit, classId := some id }
  | .ofMethod id | .ofParameter id _ =>
      let owner := (model.method id).declaring
      { unit := (model.classAt owner).unit, classId := some owner, method := some id }
  | .ofField id =>
      let owner := (model.field id).declaring
      { unit := (model.classAt owner).unit, classId := some owner }

/-- All places that a model keeps are places that its tables have. -/
structure PlacesInside (model : Model) : Prop where
  names : model.NamesInside
  outermost : ∀ unit : UnitId, ∀ id ∈ (model.unit unit).classes,
    id.index < model.classes.size
  unit : ∀ id : ClassId, id.index < model.classes.size →
    (model.classAt id).unit.index < model.units.size
  enclosing : ∀ id outer, (model.classAt id).enclosing = some outer →
    outer.index < model.classes.size
  nested : ∀ id, ∀ inner ∈ (model.classAt id).nested, inner.index < model.classes.size
  fields : ∀ id, ∀ field ∈ (model.classAt id).fields, field.index < model.fields.size
  methods : ∀ id, ∀ method ∈ (model.classAt id).methods, method.index < model.methods.size
  constructors : ∀ id, ∀ method ∈ (model.classAt id).constructors,
    method.index < model.methods.size
  field : ∀ field : FieldId, field.index < model.fields.size →
    (model.field field).declaring.index < model.classes.size
  body : ∀ field inner, (model.field field).bodyClass = some inner →
    inner.index < model.classes.size
  method : ∀ method : MethodId, method.index < model.methods.size →
    (model.method method).declaring.index < model.classes.size
  scope : ∀ ref, model.Stores ref → ref.scope.Inside model
  site : ∀ ref, model.Stores ref → ref.site.holder.Inside model
  tag : ∀ holder, ∀ tag ∈ model.tagsAt holder, tag.holder.Inside model

/-- The declarations of a model are linked in both directions. -/
structure Interlinked (model : Model) : Prop where
  places : model.PlacesInside
  members : ∀ id : ClassId, id.index < model.classes.size → model.ListsMembers id
  bodies : model.LinksBodies
  descends : model.Descends
  /-- The way outward from a class ends. -/
  outward : WellFounded fun outer inner => model.DirectlyIn inner outer
  scopes : ∀ holder, ∀ outer ∈ model.typesAt holder, ∀ ref, outer.HasPart ref →
    ref.scope = model.scopeOf holder
  ofUnit : ∀ unit : UnitId, unit.index < model.units.size →
    ListsExactly (model.classesInUnit unit) (fun id =>
        id.index < model.classes.size ∧ (model.classAt id).unit = unit) ∧
      model.OuterFirst (model.classesInUnit unit)
  ofUnits :
    ListsExactly ((List.range model.units.size).flatMap fun position =>
      model.classesInUnit ⟨position⟩) fun id => id.index < model.classes.size

variable {model : Model}

/-! ### Declarations that hold something -/

theorem mem_typesAt_ofField {id : FieldId} {ref : TypeRef} :
    ref ∈ model.typesAt (.ofField id) ↔
      id.index < model.fields.size ∧ ref ∈ (model.field id).types := by
  by_cases inside : id.index < model.fields.size
  · simp [typesAt, Model.field, inside]
  · simp [typesAt, inside]

theorem mem_typesAt_ofParameter {id : MethodId} {position : Nat} {ref : TypeRef} :
    ref ∈ model.typesAt (.ofParameter id position) ↔
      ∃ parameter, (model.method id).parameters[position]? = some parameter ∧
        ref ∈ parameter.types := by
  simp [typesAt]

/-- Only declarations of the model hold types. -/
theorem inside_of_mem_typesAt {holder : Holder} {ref : TypeRef}
    (listed : ref ∈ model.typesAt holder) : holder.Inside model := by
  cases holder with
  | ofUnit id =>
      refine index_lt_of_unit fun absent => ?_
      rw [typesAt, absent] at listed
      cases listed
  | ofClass id =>
      refine index_lt_of_classAt fun absent => ?_
      rw [typesAt, absent] at listed
      cases listed
  | ofMethod id =>
      refine index_lt_of_method fun absent => ?_
      rw [typesAt, absent] at listed
      cases listed
  | ofField id => exact (mem_typesAt_ofField.mp listed).1
  | ofParameter id position =>
      obtain ⟨parameter, found, -⟩ := mem_typesAt_ofParameter.mp listed
      refine ⟨index_lt_of_method fun absent => ?_, (List.getElem?_eq_some_iff.mp found).1⟩
      rw [absent] at found
      cases found

theorem inside_of_mem_tagsAt {holder : Holder} {tag : HeldTag}
    (listed : tag ∈ model.tagsAt holder) : holder.Inside model := by
  cases holder with
  | ofUnit id => cases listed
  | ofClass id =>
      refine index_lt_of_classAt fun absent => ?_
      rw [tagsAt, absent] at listed
      cases listed
  | ofMethod id =>
      refine index_lt_of_method fun absent => ?_
      rw [tagsAt, absent] at listed
      cases listed
  | ofField id =>
      refine index_lt_of_field fun absent => ?_
      rw [tagsAt, absent] at listed
      cases listed
  | ofParameter id position => cases listed

namespace HoldsOwn

variable (holds : model.HoldsOwn)

include holds

/-- All types of a declaration stand in its scope, with their parts. -/
theorem scope_eq (coherent : model.Coherent) {holder : Holder} {outer ref : TypeRef}
    (listed : outer ∈ model.typesAt holder) (part : outer.HasPart ref) :
    ref.scope = model.scopeOf holder := by
  have inside := inside_of_mem_typesAt listed
  rw [part.placed.1]
  cases holder with
  | ofUnit id => exact ((coherent.units id).types.placed outer listed).1
  | ofClass id => exact (holds.classAt id).types outer listed
  | ofMethod id => exact (holds.method id inside).2.types outer listed
  | ofField id => exact (holds.field id inside).2.types outer (mem_typesAt_ofField.mp listed).2
  | ofParameter id position =>
      obtain ⟨parameter, found, held⟩ := mem_typesAt_ofParameter.mp listed
      have member := List.mem_of_getElem? found
      exact (holds.method id inside.1).2.parameters parameter member outer held

theorem holder_eq {holder : Holder} {tag : HeldTag} (listed : tag ∈ model.tagsAt holder) :
    tag.holder = holder := by
  have inside := inside_of_mem_tagsAt listed
  cases holder with
  | ofUnit id => cases listed
  | ofClass id => exact (holds.classAt id).tags tag listed
  | ofMethod id => exact (holds.method id inside).2.tags tag listed
  | ofField id => exact (holds.field id inside).2.tags tag listed
  | ofParameter id position => cases listed

end HoldsOwn

theorem Linked.placesInside (linked : model.Linked) (holds : model.HoldsOwn)
    (coherent : model.Coherent) : model.PlacesInside := by
  have lists {id : ClassId} (held : model.classAt id ≠ default) : model.ListsMembers id :=
    linked.listsMembers (index_lt_of_classAt held)
  exact
    { names := coherent.names
      outermost := coherent.unitClasses
      unit := linked.inUnit
      enclosing := coherent.enclosing
      nested := coherent.nested
      fields := fun id field listed => by
        refine (((lists fun absent => ?_).fields.mem_iff field).mp listed).1
        rw [absent] at listed
        cases listed
      methods := fun id method listed => by
        refine (((lists fun absent => ?_).methods.mem_iff method).mp listed).1
        rw [absent] at listed
        cases listed
      constructors := fun id method listed => by
        refine (((lists fun absent => ?_).constructors.mem_iff method).mp listed).1
        rw [absent] at listed
        cases listed
      field := fun field inside => (holds.field field inside).1
      body := fun field inner has =>
        (linked.linksBodies.body field inner (inside_of_bodyClass has) has).1
      method := fun method inside => (holds.method method inside).1
      scope := fun ref stored => stored.scope_inside coherent.settled
      site := fun ref stored => by
        obtain ⟨holder, outer, listed, part⟩ := stored
        rw [part.placed.2.holder, ((coherent.settled holder).placed outer listed).1]
        exact inside_of_mem_typesAt listed
      tag := fun holder tag listed => by
        rw [holds.holder_eq listed]
        exact inside_of_mem_tagsAt listed }

end Model

/-- In every run of a project, whatever its builds add and whether they succeed, the
declarations of the model are linked in both directions. -/
theorem declarations_are_interlinked {files : FileTree} {session : Session}
    {past : List Session.Resolution} (run : Session.Run files session past) :
    session.project.model.Interlinked := by
  have linked := run.built.linked
  have holds := run.holdsOwn
  have coherent := run.built.coherent
  exact
    { places := linked.placesInside holds coherent
      members := fun id inside => linked.listsMembers inside
      bodies := linked.linksBodies
      descends := linked.descends
      outward := Model.wellFounded_directlyIn linked.descends
      scopes := fun holder outer listed ref part => holds.scope_eq coherent listed part
      ofUnit := fun unit inside => linked.classesInUnit inside
      ofUnits := linked.classesInUnits }

/-- An enumeration with a body for one of its constants, and a text that is refused. -/
theorem constant_bodies_are_interlinked :
    let started : Session := { project := {}, library := .ofCore }
    let built := (Session.add
      "enum E \x7b A \x7b void f(int x) \x7b\x7d \x7d, B; class C \x7b\x7d \x7d" {} started).2
    let session := (Session.add "class D \x7b\x7d \x7d" {} built).2
    (Session.add "class D \x7b\x7d \x7d" {} built).1.isOk = false ∧
      session.project.model.classesInUnit ⟨0⟩ = [⟨0⟩, ⟨2⟩, ⟨1⟩] ∧
        Session.Run {} session [] ∧ session.project.model.Interlinked := by
  intro started built session
  have run : Session.Run {} session [] :=
    ((Session.Run.start {} .ofCore).change (.add started _)).change (.add built _)
  exact ⟨by decide +kernel, by decide +kernel, run, declarations_are_interlinked run⟩

/-- A constant without a body has none, also where another constant of the class has one. -/
theorem constant_without_body :
    let started : Session := { project := {}, library := .ofCore }
    let session := (Session.add "enum E \x7b A \x7b \x7d, B \x7d" {} started).2
    let model := session.project.model
    Session.Run {} session [] ∧ ¬ ∀ (field : FieldId) (inner : ClassId),
      field.index < model.fields.size → inner.index < model.classes.size →
        ((model.field field).bodyClass = some inner ↔
          (model.classAt inner).isConstantBody = true ∧
            ∃ outer, (model.classAt inner).enclosing = some outer ∧
              field ∈ (model.classAt outer).fields) := by
  intro started session model
  refine ⟨(Session.Run.start {} .ofCore).change (.add started _), fun claimed => ?_⟩
  have first := (claimed ⟨1⟩ ⟨1⟩ (by decide +kernel) (by decide +kernel)).mpr
    ⟨by decide +kernel, ⟨0⟩, by decide +kernel, by decide +kernel⟩
  have none : (model.field ⟨1⟩).bodyClass = none := by decide +kernel
  rw [none] at first
  cases first

end JavaDecl
