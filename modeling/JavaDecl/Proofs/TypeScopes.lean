import JavaDecl.Proofs.OwnedMembers

/-!
# The scopes of stored types

Whatever is written in a declaration is looked up in the scope of the declaration.  So all
types that a declaration holds have one scope, those in bounds, annotations and type
arguments too, and its tags say that they are held by it.
-/

namespace JavaDecl

/-! ### What a declaration holds -/

/-- The types and tags of a class are its own. -/
structure ClassEntity.HoldsOwn (entity : ClassEntity) (id : ClassId) : Prop where
  types : ∀ ref ∈ entity.types, ref.scope = { unit := entity.unit, classId := some id }
  tags : ∀ tag ∈ entity.tags, tag.holder = .ofClass id

/-- The types and tags of a field are its own, in the unit of the class that declares it. -/
structure FieldEntity.HoldsOwn (entity : FieldEntity) (unit : UnitId) (id : FieldId) : Prop where
  types : ∀ ref ∈ entity.types, ref.scope = { unit, classId := some entity.declaring }
  tags : ∀ tag ∈ entity.tags, tag.holder = .ofField id

/-- The types and tags of a method or constructor are its own, and so are the types of its
parameters. -/
structure MethodEntity.HoldsOwn (entity : MethodEntity) (unit : UnitId) (id : MethodId) :
    Prop where
  types : ∀ ref ∈ entity.types,
    ref.scope = { unit, classId := some entity.declaring, method := some id }
  parameters : ∀ parameter ∈ entity.parameters, ∀ ref ∈ parameter.types,
    ref.scope = { unit, classId := some entity.declaring, method := some id }
  tags : ∀ tag ∈ entity.tags, tag.holder = .ofMethod id

namespace Assembly

theorem holder_of_mem_tagsOf {holder : Holder} {tags : List DocTag} {tag : HeldTag}
    (listed : tag ∈ tagsOf holder tags) : tag.holder = holder := by
  obtain ⟨written, -, rfl⟩ := List.mem_map.mp listed
  rfl

theorem holdsOwn_classEntity (assembly : Assembly) (declared : ClassDecl)
    (comment : Option String) (tags : List DocTag) (uses : List (AnnotationUse TypeExpr)) :
    (assembly.classEntity declared comment tags uses).HoldsOwn assembly.nextClass where
  types ref listed :=
    ((spread_classEntity assembly declared comment tags uses).placed ref listed).1
  tags _ listed := holder_of_mem_tagsOf listed

theorem holdsOwn_fieldEntity (unit : UnitId) (owner : ClassId) (id : FieldId)
    (declared : VariableDecl) (comment : Option String) (tags : List DocTag)
    (uses : List (AnnotationUse TypeExpr)) :
    (fieldEntity unit owner id declared comment tags uses).HoldsOwn unit id where
  types ref listed := ((spread_variable declared.type uses).placed ref listed).1
  tags _ listed := holder_of_mem_tagsOf listed

theorem holdsOwn_methodEntity (unit : UnitId) (owner : ClassId) (id : MethodId)
    (waiting : OpenMethod) (declared : MethodDecl) :
    (methodEntity unit owner id waiting declared).HoldsOwn unit id where
  types ref listed := ((spread_methodEntity unit owner id waiting declared).placed ref listed).1
  parameters parameter listed ref held := by
    obtain ⟨position, found⟩ := List.mem_iff_getElem?.mp listed
    refine ((spread_parameters unit owner id waiting declared position).placed ref ?_).1
    rw [found]
    simpa using held
  tags _ listed := holder_of_mem_tagsOf listed

end Assembly

/-! ### Models -/

namespace Model

/-- Each class, field and method holds what is its own, and fields and methods are declared
in classes that the model has. -/
structure HoldsOwn (model : Model) : Prop where
  classAt : ∀ id, (model.classAt id).HoldsOwn id
  field : ∀ id : FieldId, id.index < model.fields.size →
    (model.field id).declaring.index < model.classes.size ∧
      (model.field id).HoldsOwn (model.classAt (model.field id).declaring).unit id
  method : ∀ id : MethodId, id.index < model.methods.size →
    (model.method id).declaring.index < model.classes.size ∧
      (model.method id).HoldsOwn (model.classAt (model.method id).declaring).unit id

namespace HoldsOwn

variable {model : Model}

theorem empty : HoldsOwn {} where
  classAt _ := ⟨nofun, nofun⟩
  field _ inside := absurd inside (Nat.not_lt_zero _)
  method _ inside := absurd inside (Nat.not_lt_zero _)

theorem pushClass (holds : model.HoldsOwn) {entity : ClassEntity}
    (last : entity.HoldsOwn ⟨model.classes.size⟩) : (model.pushClass entity).HoldsOwn := by
  have older {id : ClassId} (old : id.index < model.classes.size) :
      (model.pushClass entity).classAt id = model.classAt id := by
    rw [classAt_pushClass, if_neg (Nat.ne_of_lt old)]
  have larger {index : Nat} (old : index < model.classes.size) :
      index < (model.pushClass entity).classes.size :=
    Nat.lt_of_lt_of_le old (by simp [Model.pushClass])
  refine ⟨fun id => ?_, fun id inside => ?_, fun id inside => ?_⟩
  · rw [classAt_pushClass]
    split
    · next same =>
        obtain rfl : id = ⟨model.classes.size⟩ := congrArg ClassId.mk same
        exact last
    · exact holds.classAt id
  · obtain ⟨declared, own⟩ := holds.field id inside
    refine ⟨larger declared, ?_⟩
    exact (congrArg ClassEntity.unit (older declared)).symm ▸ own
  · obtain ⟨declared, own⟩ := holds.method id inside
    refine ⟨larger declared, ?_⟩
    exact (congrArg ClassEntity.unit (older declared)).symm ▸ own

theorem modifyClass (holds : model.HoldsOwn) (id : ClassId) {change : ClassEntity → ClassEntity}
    (same : ∀ entity, (change entity).unit = entity.unit ∧
      (change entity).types = entity.types ∧ (change entity).tags = entity.tags) :
    (model.modifyClass id change).HoldsOwn := by
  have size : (model.modifyClass id change).classes.size = model.classes.size := by
    simp [Model.modifyClass]
  have kept (other : ClassId) : ((model.modifyClass id change).classAt other).unit =
        (model.classAt other).unit ∧
      ((model.modifyClass id change).classAt other).types = (model.classAt other).types ∧
        ((model.modifyClass id change).classAt other).tags = (model.classAt other).tags := by
    rw [classAt_modifyClass]
    split
    · exact same _
    · exact ⟨rfl, rfl, rfl⟩
  refine ⟨fun other => ?_, fun field inside => ?_, fun method inside => ?_⟩
  · obtain ⟨unit, types, tags⟩ := kept other
    constructor
    · rw [unit, types]
      exact (holds.classAt other).types
    · rw [tags]
      exact (holds.classAt other).tags
  · obtain ⟨declared, own⟩ := holds.field field inside
    exact ⟨size ▸ declared, (kept _).1.symm ▸ own⟩
  · obtain ⟨declared, own⟩ := holds.method method inside
    exact ⟨size ▸ declared, (kept _).1.symm ▸ own⟩

theorem modifyField (holds : model.HoldsOwn) (id : FieldId) (body : ClassId) :
    (model.modifyField id ({ · with bodyClass := some body })).HoldsOwn := by
  refine ⟨holds.classAt, fun other inside => ?_, holds.method⟩
  have known : other.index < model.fields.size := by simpa [Model.modifyField] using inside
  obtain ⟨declared, types, tags⟩ := holds.field other known
  rw [field_modifyField]
  split <;> exact ⟨declared, types, tags⟩

theorem modifyUnit (holds : model.HoldsOwn) (id : UnitId) (change : UnitEntity → UnitEntity) :
    (model.modifyUnit id change).HoldsOwn :=
  ⟨holds.classAt, holds.field, holds.method⟩

theorem pushField (holds : model.HoldsOwn) {entity : FieldEntity}
    (declared : entity.declaring.index < model.classes.size)
    (last : entity.HoldsOwn (model.classAt entity.declaring).unit ⟨model.fields.size⟩) :
    (model.pushField entity).HoldsOwn := by
  refine ⟨holds.classAt, fun id inside => ?_, holds.method⟩
  have size : (model.pushField entity).fields.size = model.fields.size + 1 := Array.size_push ..
  rw [field_pushField]
  split
  · next same =>
      obtain rfl : id = ⟨model.fields.size⟩ := congrArg FieldId.mk same
      exact ⟨declared, last⟩
  · exact holds.field id (by omega)

theorem pushMethod (holds : model.HoldsOwn) {entity : MethodEntity}
    (declared : entity.declaring.index < model.classes.size)
    (last : entity.HoldsOwn (model.classAt entity.declaring).unit ⟨model.methods.size⟩) :
    (model.pushMethod entity).HoldsOwn := by
  refine ⟨holds.classAt, holds.field, fun id inside => ?_⟩
  have size : (model.pushMethod entity).methods.size = model.methods.size + 1 :=
    Array.size_push ..
  rw [method_pushMethod]
  split
  · next same =>
      obtain rfl : id = ⟨model.methods.size⟩ := congrArg MethodId.mk same
      exact ⟨declared, last⟩
  · exact holds.method id (by omega)

theorem follows {before after : Assembly} (follows : before.Follows after)
    (sound : before.Sound) (owning : before.Owning) (holds : before.model.HoldsOwn) :
    after.model.HoldsOwn := by
  have pushed (declared comment tags uses) :
      (before.model.pushClass (before.classEntity declared comment tags uses)).HoldsOwn :=
    holds.pushClass (before.holdsOwn_classEntity declared comment tags uses)
  obtain ⟨model, _, openClasses, openFields, _, _, _, _⟩ := after
  obtain ⟨rfl, effect⟩ := follows
  cases effect with
  | nothing => exact holds
  | unit _ => exact holds.modifyUnit _ _
  | classStrays => exact pushed _ _ _ _
  | bodyBegins _ => exact (pushed _ _ _ _).modifyField _ _
  | innerBegins _ => exact (pushed _ _ _ _).modifyClass _ fun _ => ⟨rfl, rfl, rfl⟩
  | outermostBegins => exact (pushed _ _ _ _).modifyUnit _ _
  | classEnds _ => exact holds
  | initializer _ => exact holds.modifyClass _ fun _ => ⟨rfl, rfl, rfl⟩
  | @fieldBegins owner outer declared comment tags uses inClass =>
      have listed := Assembly.mem_of_eq_cons inClass
      let id : FieldId := ⟨before.model.fields.size⟩
      let entity := Assembly.fieldEntity before.unit owner id declared comment tags uses
      have own : entity.HoldsOwn (before.model.classAt owner).unit id := by
        rw [owning.units owner listed]
        exact Assembly.holdsOwn_fieldEntity before.unit owner id declared comment tags uses
      have grown : (before.model.pushField entity).HoldsOwn :=
        holds.pushField (sound.classes owner listed) own
      exact grown.modifyClass _ fun _ => ⟨rfl, rfl, rfl⟩
  | fieldEnds _ => exact holds
  | @methodEnds owner outer waiting declared isConstructor inClass =>
      have listed := Assembly.mem_of_eq_cons inClass
      let id : MethodId := ⟨before.model.methods.size⟩
      let entity := Assembly.methodEntity before.unit owner id waiting declared
      have own : entity.HoldsOwn (before.model.classAt owner).unit id := by
        rw [owning.units owner listed]
        exact Assembly.holdsOwn_methodEntity before.unit owner id waiting declared
      have grown : (before.model.pushMethod entity).HoldsOwn :=
        holds.pushMethod (sound.classes owner listed) own
      refine grown.modifyClass _ fun _ => ?_
      cases isConstructor <;> exact ⟨rfl, rfl, rfl⟩

end HoldsOwn

end Model

/-- In every run each declaration holds what is its own. -/
theorem Session.Run.holdsOwn {files : FileTree} {session : Session}
    {past : List Session.Resolution} (run : Session.Run files session past) :
    session.project.model.HoldsOwn := by
  have both : session.project.model.Owned ∧ session.project.model.HoldsOwn := by
    refine run.keeps (fun model => model.Owned ∧ model.HoldsOwn)
      (fun model events coherent earlier => ?_) ⟨.empty, .empty⟩
    obtain ⟨owned, holds⟩ := earlier
    rw [Model.addEvents_eq]
    have kept := Assembly.steps_keeps
      (fun assembly => assembly.Sound ∧ assembly.Owning ∧ assembly.model.HoldsOwn)
      (fun _ _ follows earlier => ⟨earlier.1.follows follows, earlier.2.1.follows follows earlier.1,
        earlier.2.2.follows follows earlier.1 earlier.2.1⟩) events
      ⟨.ofModel coherent, .ofModel owned, ⟨holds.classAt, holds.field, holds.method⟩⟩
    exact ⟨kept.2.1.owned, kept.2.2⟩
  exact both.2

end JavaDecl
