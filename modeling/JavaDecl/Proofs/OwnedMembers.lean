import JavaDecl.Lookup.Hierarchy
import JavaDecl.Proofs.ClassNames
import JavaDecl.Proofs.RememberedLookups

/-!
# Members and their classes

What the events of units keep holds in every run of a project.  So each class lists its
own fields and methods, each of them once, and the types of its header and of its methods
stand in its scope.
-/

namespace JavaDecl

/-! ### Invariants of a project -/

namespace Model

theorem settle_keeps {α : Type} (invariant : Model → Prop) {model : Model}
    {result : Model × Except Failure α} (grown : model.Extends result.1)
    (before : invariant model) (after : invariant result.1) :
    invariant (model.settle result).1 := by
  rcases settle_eq grown with added | restored
  · rw [added]
    exact after
  · rw [restored]
    exact before

section Keeps

variable (invariant : Model → Prop)
  (kept : ∀ (model : Model) (events : List Event), model.Coherent → invariant model →
    invariant (model.addEvents events).1)
  {model : Model} (coherent : model.Coherent) (holds : invariant model)

include kept coherent holds

theorem addSource_keeps (source : List Char) : invariant (model.addSource source).1 := by
  unfold addSource
  have same := Extends.refl coherent.names
  cases readUnit source with
  | mk events refused =>
      have events := kept model events coherent holds
      cases refused with
      | none =>
          refine settle_keeps invariant (same.addUnit _) holds ?_
          rw [← addUnit_eq] at events
          exact events
      | some error => exact settle_keeps invariant (same.addEvents _) holds events

theorem addSources_keeps (sources : List (List Char)) :
    invariant (model.addSources sources).1 := by
  have same := Extends.refl coherent.names
  have both := addUnits_keeps (fun model => model.Coherent ∧ invariant model)
    fun model events earlier =>
      ⟨earlier.1.addEvents events, kept model events earlier.1 earlier.2⟩
  unfold addSources
  cases sources.mapM eventsOf with
  | ok units =>
      have after := (both units ⟨coherent, holds⟩).2
      exact settle_keeps invariant (same.addUnits _) holds after
  | error failure => exact settle_keeps invariant same holds holds

theorem Adds.keeps {grown : Model} (adds : model.Adds grown) : invariant grown := by
  cases adds with
  | nothing => exact holds
  | source source => exact addSource_keeps invariant kept coherent holds source
  | sources sources => exact addSources_keeps invariant kept coherent holds sources

end Keeps

end Model

namespace Session

variable {files : FileTree} {session changed : Session} {past : List Resolution}

section Keeps

variable (invariant : Model → Prop)
  (kept : ∀ (model : Model) (events : List Event), model.Coherent → invariant model →
    invariant (model.addEvents events).1)

include kept

/-- What events keep is kept by every change of a session. -/
theorem Changes.keeps (changes : Changes files session changed)
    (coherent : session.project.model.Coherent) (holds : invariant session.project.model) :
    invariant changed.project.model :=
  changes.effects.model.keeps invariant kept coherent holds

/-- What holds of the empty model and is kept by events holds in every run. -/
theorem Run.keeps (run : Run files session past) (empty : invariant {}) :
    invariant session.project.model := by
  induction run with
  | start settings library => exact empty
  | change run changes ih => exact changes.keeps invariant kept run.faithful.coherent ih
  | @resolve session past ref run stored ih =>
      obtain ⟨library, -, looked⟩ := session.referent_eq files ref
      rw [looked]
      split <;> exact ih

end Keeps

/-- In every run names find the first class that has them. -/
theorem Run.namesFirst (run : Run files session past) : session.project.model.NamesFirst := by
  refine run.keeps Model.NamesFirst (fun model events _ first => ?_) .empty
  rw [Model.addEvents_eq]
  exact Assembly.steps_keeps (fun assembly => assembly.model.NamesFirst)
    (fun _ _ => Assembly.namesFirst_follows) events first

end Session

/-! ### Members -/

/-- A method is that of a class: it is declared there, and the types of its parameters
stand in its scope. -/
structure MethodEntity.IsOf (method : MethodEntity) (unit : UnitId) (owner : ClassId)
    (id : MethodId) : Prop where
  declaring : method.declaring = owner
  parameters : ∀ parameter ∈ method.parameters,
    parameter.type.scope = { unit, classId := some owner, method := some id }

namespace Model

/-- A class lists members that are its own, and the types of its header stand in its
scope. -/
structure OwnedBy (model : Model) (id : ClassId) (entity : ClassEntity) : Prop where
  methods : entity.methods.Nodup
  method : ∀ member ∈ entity.methods, member.index < model.methods.size ∧
    (model.method member).IsOf entity.unit id member
  fields : entity.fields.Nodup
  field : ∀ member ∈ entity.fields, member.index < model.fields.size ∧
    (model.field member).declaring = id
  header : ∀ ref ∈ entity.superRefs, ref.scope = { unit := entity.unit, classId := some id }

def Owned (model : Model) : Prop :=
  ∀ id, model.OwnedBy id (model.classAt id)

theorem Owned.empty : Owned {} := by
  intro id
  refine ⟨List.nodup_nil, ?_, List.nodup_nil, ?_, ?_⟩
  · rintro member ⟨⟩
  · rintro member ⟨⟩
  · rintro ref ⟨⟩

/-- The fields and methods of a model are found in another. -/
structure KeepsMembers (model larger : Model) : Prop where
  methods : model.methods.size ≤ larger.methods.size
  method : ∀ id : MethodId, id.index < model.methods.size → larger.method id = model.method id
  fields : model.fields.size ≤ larger.fields.size
  field : ∀ id : FieldId, id.index < model.fields.size →
    (larger.field id).declaring = (model.field id).declaring

variable {model larger : Model}

theorem OwnedBy.mono {id : ClassId} {entity : ClassEntity} (owned : model.OwnedBy id entity)
    (keeps : model.KeepsMembers larger) : larger.OwnedBy id entity where
  methods := owned.methods
  method := by
    intro member listed
    obtain ⟨inside, isOf⟩ := owned.method member listed
    rw [keeps.method member inside]
    exact ⟨Nat.lt_of_lt_of_le inside keeps.methods, isOf⟩
  fields := owned.fields
  field := by
    intro member listed
    obtain ⟨inside, declaring⟩ := owned.field member listed
    rw [keeps.field member inside]
    exact ⟨Nat.lt_of_lt_of_le inside keeps.fields, declaring⟩
  header := owned.header

/-- Other parts of a class than its header, fields and methods do not matter. -/
theorem OwnedBy.change {id : ClassId} {entity changed : ClassEntity}
    (owned : model.OwnedBy id entity) (unit : changed.unit = entity.unit)
    (methods : changed.methods = entity.methods) (fields : changed.fields = entity.fields)
    (header : changed.superRefs = entity.superRefs) : model.OwnedBy id changed := by
  constructor
  · rw [methods]
    exact owned.methods
  · rw [methods, unit]
    exact owned.method
  · rw [fields]
    exact owned.fields
  · rw [fields]
    exact owned.field
  · rw [header, unit]
    exact owned.header

theorem Owned.mono (owned : model.Owned) (keeps : model.KeepsMembers larger)
    (classes : larger.classes = model.classes) : larger.Owned := by
  intro id
  have same : larger.classAt id = model.classAt id := by simp only [classAt, classes]
  rw [same]
  exact (owned id).mono keeps

theorem KeepsMembers.refl (methods : larger.methods = model.methods)
    (fields : larger.fields = model.fields) : model.KeepsMembers larger where
  methods := Nat.le_of_eq (congrArg Array.size methods.symm)
  method id _ := congrArg (·.getD id.index default) methods
  fields := Nat.le_of_eq (congrArg Array.size fields.symm)
  field id _ := congrArg (fun table => (table.getD id.index default).declaring) fields

theorem KeepsMembers.pushMethod (entity : MethodEntity) :
    model.KeepsMembers (model.pushMethod entity) where
  methods := by simp [Model.pushMethod]
  method id inside := by rw [method_pushMethod, if_neg (Nat.ne_of_lt inside)]
  fields := Nat.le_refl _
  field _ _ := rfl

theorem KeepsMembers.pushField (entity : FieldEntity) :
    model.KeepsMembers (model.pushField entity) where
  methods := Nat.le_refl _
  method _ _ := rfl
  fields := by simp [Model.pushField]
  field id inside := by rw [field_pushField, if_neg (Nat.ne_of_lt inside)]

theorem KeepsMembers.modifyField {id : FieldId} {change : FieldEntity → FieldEntity}
    (same : ∀ entity, (change entity).declaring = entity.declaring) :
    model.KeepsMembers (model.modifyField id change) where
  methods := Nat.le_refl _
  method _ _ := rfl
  fields := by simp [Model.modifyField]
  field other _ := by
    rw [field_modifyField]
    split
    · exact same _
    · rfl

theorem Owned.pushClass {entity : ClassEntity} (owned : model.Owned)
    (own : model.OwnedBy ⟨model.classes.size⟩ entity) : (model.pushClass entity).Owned := by
  intro id
  rw [classAt_pushClass]
  split
  · next last =>
      obtain rfl : id = ⟨model.classes.size⟩ := congrArg ClassId.mk last
      exact own.mono (.refl rfl rfl)
  · exact (owned id).mono (.refl rfl rfl)

theorem nodup_concat {α : Type} {members : List α} {last : α} (once : members.Nodup)
    (new : last ∉ members) : (members ++ [last]).Nodup := by
  refine List.nodup_append.mpr ⟨once, List.pairwise_singleton _ last, ?_⟩
  rintro member listed other found rfl
  rw [List.mem_singleton.mp found] at listed
  exact new listed

theorem Owned.modifyClass {owner : ClassId} {change : ClassEntity → ClassEntity}
    (owned : model.Owned) (own : model.OwnedBy owner (change (model.classAt owner))) :
    (model.modifyClass owner change).Owned := by
  intro id
  rw [classAt_modifyClass]
  split
  · next changed =>
      obtain rfl : owner = id := congrArg ClassId.mk changed.1
      exact own.mono (.refl rfl rfl)
  · exact (owned id).mono (.refl rfl rfl)

theorem Owned.addField {owner : ClassId} {entity : FieldEntity} (owned : model.Owned)
    (declaring : entity.declaring = owner) :
    ((model.pushField entity).modifyClass owner fun outer =>
      { outer with fields := outer.fields ++ [⟨model.fields.size⟩] }).Owned := by
  have grown : (model.pushField entity).Owned := owned.mono (.pushField entity) rfl
  obtain ⟨methods, method, fields, field, header⟩ := grown owner
  have new : (⟨model.fields.size⟩ : FieldId) ∉ (model.classAt owner).fields :=
    fun listed => Nat.lt_irrefl _ ((owned owner).field _ listed).1
  refine grown.modifyClass ⟨methods, method, nodup_concat fields new, ?_, header⟩
  intro member listed
  rcases List.mem_append.mp listed with earlier | last
  · exact field member earlier
  · rw [List.mem_singleton.mp last, field_pushField, if_pos rfl]
    exact ⟨by simp [Model.pushField], declaring⟩

theorem Owned.addMethod {owner : ClassId} {entity : MethodEntity} (owned : model.Owned)
    (isOf : entity.IsOf (model.classAt owner).unit owner ⟨model.methods.size⟩) :
    ((model.pushMethod entity).modifyClass owner fun outer =>
      { outer with methods := outer.methods ++ [⟨model.methods.size⟩] }).Owned := by
  have grown : (model.pushMethod entity).Owned := owned.mono (.pushMethod entity) rfl
  obtain ⟨methods, method, fields, field, header⟩ := grown owner
  have new : (⟨model.methods.size⟩ : MethodId) ∉ (model.classAt owner).methods :=
    fun listed => Nat.lt_irrefl _ ((owned owner).method _ listed).1
  refine grown.modifyClass ⟨nodup_concat methods new, ?_, fields, field, header⟩
  intro member listed
  rcases List.mem_append.mp listed with earlier | last
  · exact method member earlier
  · rw [List.mem_singleton.mp last, method_pushMethod, if_pos rfl]
    exact ⟨by simp [Model.pushMethod], isOf⟩

end Model

namespace Assembly

/-- Members are owned, and what has begun is in the unit. -/
structure Owning (assembly : Assembly) : Prop where
  owned : assembly.model.Owned
  units : ∀ id ∈ assembly.openClasses, (assembly.model.classAt id).unit = assembly.unit

theorem Owning.ofModel {model : Model} (owned : model.Owned) : (ofModel model).Owning :=
  ⟨owned.mono (.refl rfl rfl) rfl, by simp [Assembly.ofModel]⟩

theorem ownedBy_classEntity (assembly : Assembly) (declared : ClassDecl)
    (comment : Option String) (tags : List DocTag) (uses : List (AnnotationUse TypeExpr)) :
    assembly.model.OwnedBy assembly.nextClass
      (assembly.classEntity declared comment tags uses) where
  methods := List.nodup_nil
  method := by simp [classEntity]
  fields := List.nodup_nil
  field := by simp [classEntity]
  header := by
    intro ref listed
    exact ((spread_classEntity assembly declared comment tags uses).placed ref (by
      simp only [ClassEntity.types, List.mem_append] at listed ⊢
      rcases List.mem_append.mp listed with extended | implemented
      · exact .inl (.inl (.inr extended))
      · exact .inl (.inr implemented))).1

theorem isOf_methodEntity (unit : UnitId) (owner : ClassId) (id : MethodId)
    (waiting : OpenMethod) (declared : MethodDecl) :
    (methodEntity unit owner id waiting declared).IsOf unit owner id where
  declaring := rfl
  parameters := by
    intro parameter listed
    obtain ⟨⟨⟨written, uses⟩, position⟩, -, rfl⟩ := List.mem_map.mp listed
    rfl

theorem classAt_pushClass_of_open {before : Assembly} (sound : before.Sound)
    {entity : ClassEntity} {id : ClassId} (listed : id ∈ before.openClasses) :
    (before.model.pushClass entity).classAt id = before.model.classAt id := by
  rw [Model.classAt_pushClass, if_neg (Nat.ne_of_lt (sound.classes id listed))]

theorem unit_modifyClass {model : Model} {unit : UnitId} {owner id : ClassId}
    {change : ClassEntity → ClassEntity} (inUnit : (model.classAt id).unit = unit)
    (same : ∀ entity, (change entity).unit = entity.unit) :
    ((model.modifyClass owner change).classAt id).unit = unit := by
  rw [Model.classAt_modifyClass]
  split
  · exact (same _).trans inUnit
  · exact inUnit

theorem Owning.follows {before after : Assembly} (follows : before.Follows after)
    (sound : before.Sound) (owning : before.Owning) : after.Owning := by
  obtain ⟨owned, units⟩ := owning
  have pushed (declared comment tags uses) :
      (before.model.pushClass (before.classEntity declared comment tags uses)).Owned :=
    owned.pushClass (before.ownedBy_classEntity declared comment tags uses)
  have opened (declared comment tags uses) : ∀ id ∈ before.nextClass :: before.openClasses,
      ((before.model.pushClass (before.classEntity declared comment tags uses)).classAt id).unit =
        before.unit := by
    intro id member
    rcases List.mem_cons.mp member with rfl | earlier
    · simp [Model.classAt_pushClass, nextClass, classEntity]
    · rw [classAt_pushClass_of_open sound earlier]
      exact units id earlier
  obtain ⟨model, _, openClasses, openFields, _, _, _, _⟩ := after
  obtain ⟨rfl, effect⟩ := follows
  cases effect with
  | nothing => exact ⟨owned, units⟩
  | unit _ => exact ⟨owned.mono (.refl rfl rfl) rfl, units⟩
  | classStrays =>
      refine ⟨pushed _ _ _ _, fun id member => ?_⟩
      exact opened _ _ _ _ id (List.mem_cons_of_mem _ member)
  | bodyBegins _ =>
      exact ⟨(pushed _ _ _ _).mono (.modifyField fun _ => rfl) rfl, opened _ _ _ _⟩
  | @innerBegins declared comment tags uses around outer inClass =>
      have own := pushed declared comment tags uses around
      refine ⟨(pushed _ _ _ _).modifyClass (own.change rfl rfl rfl rfl), fun id member => ?_⟩
      exact unit_modifyClass (opened _ _ _ _ id member) fun _ => rfl
  | outermostBegins => exact ⟨(pushed _ _ _ _).mono (.refl rfl rfl) rfl, opened _ _ _ _⟩
  | classEnds inClass =>
      refine ⟨owned, fun id member => units id ?_⟩
      rw [inClass]
      exact List.mem_cons_of_mem _ member
  | @initializer owner outer declared inClass =>
      refine ⟨owned.modifyClass ((owned owner).change rfl rfl rfl rfl), fun id member => ?_⟩
      exact unit_modifyClass (units id member) fun _ => rfl
  | fieldBegins inClass =>
      exact ⟨owned.addField rfl, fun id member => unit_modifyClass (units id member) fun _ => rfl⟩
  | fieldEnds _ => exact ⟨owned, units⟩
  | @methodEnds owner outer waiting declared isConstructor inClass =>
      let id : MethodId := ⟨before.model.methods.size⟩
      let entity := methodEntity before.unit owner id waiting declared
      have grown : (before.model.pushMethod entity).Owned := owned.mono (.pushMethod entity) rfl
      cases isConstructor with
      | true =>
          refine ⟨grown.modifyClass ((grown owner).change rfl rfl rfl rfl), fun id member => ?_⟩
          exact unit_modifyClass (units id member) fun _ => rfl
      | false =>
          have isOf : entity.IsOf (before.model.classAt owner).unit owner id := by
            rw [units owner (mem_of_eq_cons inClass)]
            exact isOf_methodEntity before.unit owner id waiting declared
          exact ⟨owned.addMethod isOf, fun id member => unit_modifyClass (units id member)
            fun _ => rfl⟩

end Assembly

/-- In every run each class lists members that are its own. -/
theorem Session.Run.owned {files : FileTree} {session : Session}
    {past : List Session.Resolution} (run : Session.Run files session past) :
    session.project.model.Owned := by
  refine run.keeps Model.Owned (fun model events coherent owned => ?_) .empty
  rw [Model.addEvents_eq]
  have kept := Assembly.steps_keeps (fun assembly => assembly.Sound ∧ assembly.Owning)
    (fun _ _ follows holds => ⟨holds.1.follows follows, holds.2.follows follows holds.1⟩) events
    ⟨Assembly.Sound.ofModel coherent, .ofModel owned⟩
  exact kept.2.owned

end JavaDecl
