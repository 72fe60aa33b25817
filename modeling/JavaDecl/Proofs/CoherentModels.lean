import JavaDecl.Proofs.AssemblySteps
import JavaDecl.Proofs.FailedBuilds
import JavaDecl.Proofs.StoredTypes

/-!
# Coherent models

A model is coherent if all that its declarations refer to is found in it and if the
types that it stores stand where their sites say.  Models stay coherent while units
are assembled.
-/

namespace JavaDecl

/-! ### Declarations whose types stand where they should -/

/-- The types of a module declaration stand where their sites say. -/
structure ModuleEntity.Settled (id : UnitId) (entity : ModuleEntity) : Prop where
  uses : Spread { unit := id } (.ofUnit id) (fun role => ∃ position, role = .ofModuleUse position)
    (entity.uses.flatMap AnnotationUse.types)
  services : Spread { unit := id } (.ofUnit id)
    (fun role => ∃ position < entity.services.length, role = .usedService position)
    entity.services
  provides : Spread { unit := id } (.ofUnit id)
    (fun role => ∃ position < entity.provides.length,
      role = .providedService position ∨ ∃ inner, role = .provider position inner)
    (entity.provides.flatMap ProvidedService.types)

/-- The types of a unit stand where their sites say. -/
structure UnitEntity.Settled (id : UnitId) (entity : UnitEntity) : Prop where
  package : Spread { unit := id } (.ofUnit id)
    (fun role => ∃ position, role = .ofPackageUse position) entity.packageTypes
  header : ∀ header, entity.moduleDecl = some header → header.Settled id

theorem UnitEntity.Settled.empty (id : UnitId) : UnitEntity.Settled id default :=
  ⟨.nil, fun _ absent => by cases absent⟩

theorem ModuleEntity.Settled.types {id : UnitId} {entity : ModuleEntity}
    (settled : entity.Settled id) :
    Spread { unit := id } (.ofUnit id) (fun role => ¬ ∃ position, role = .ofPackageUse position)
      entity.types := by
  refine ((settled.uses.append settled.services ?_).append settled.provides ?_).weaken ?_
  · rintro _ ⟨position, rfl⟩ ⟨_, _, other⟩
    cases other
  · rintro _ (⟨position, rfl⟩ | ⟨position, _, rfl⟩) ⟨_, _, other | ⟨_, other⟩⟩ <;> cases other
  · rintro role ((⟨_, rfl⟩ | ⟨_, _, rfl⟩) | ⟨_, _, rfl | ⟨_, rfl⟩⟩) ⟨_, other⟩ <;> cases other

theorem UnitEntity.Settled.types {id : UnitId} {entity : UnitEntity}
    (settled : entity.Settled id) :
    Spread { unit := id } (.ofUnit id) (fun _ => True) entity.types := by
  have inModule : Spread { unit := id } (.ofUnit id)
      (fun role => ¬ ∃ position, role = .ofPackageUse position)
      (entity.moduleDecl.toList.flatMap ModuleEntity.types) := by
    cases present : entity.moduleDecl with
    | none => exact .nil
    | some header => simpa using (settled.header header present).types
  exact (settled.package.append inModule fun _ package apart => apart package).weaken
    fun _ _ => trivial

theorem ModuleEntity.Settled.usesService {id : UnitId} {entity : ModuleEntity}
    (settled : entity.Settled id) (service : TypeExpr) :
    ModuleEntity.Settled id
      { entity with
        services := entity.services ++
          [Assembly.refAt { unit := id } (.ofUnit id) (.usedService entity.services.length)
            service] } := by
  refine ⟨settled.uses, ?_, settled.provides⟩
  refine (settled.services.append (.refAt _ service) ?_).weaken ?_
  · rintro _ ⟨position, inside, rfl⟩ same
    have last := RefRole.usedService.inj same
    omega
  · rintro role (⟨position, inside, rfl⟩ | rfl)
    · exact ⟨position, by simp only [List.length_append]; omega, rfl⟩
    · exact ⟨entity.services.length, by simp, rfl⟩

theorem ModuleEntity.Settled.providesService {id : UnitId} {entity : ModuleEntity}
    (settled : entity.Settled id) (service : TypeExpr) (implementations : List TypeExpr)
    (line : Nat) :
    ModuleEntity.Settled id
      { entity with
        provides := entity.provides ++
          [{ service := Assembly.refAt { unit := id } (.ofUnit id)
              (.providedService entity.provides.length) service
             implementations := Assembly.refsAt { unit := id } (.ofUnit id)
              (.provider entity.provides.length) implementations
             line }] } := by
  refine ⟨settled.uses, settled.services, ?_⟩
  have providers : Spread { unit := id } (.ofUnit id)
      (fun role => ∃ inner < implementations.length,
        role = .provider entity.provides.length inner)
      (Assembly.refsAt { unit := id } (.ofUnit id) (.provider entity.provides.length)
        implementations) :=
    .refsAt (fun one other same => (RefRole.provider.inj same).2) implementations
  have provided : Spread { unit := id } (.ofUnit id)
      (· = .providedService entity.provides.length)
      [Assembly.refAt { unit := id } (.ofUnit id) (.providedService entity.provides.length)
        service] := .refAt _ service
  have added := provided.append providers (by
    rintro _ rfl ⟨_, _, other⟩
    cases other)
  rw [List.flatMap_append]
  refine (settled.provides.append (by simpa [ProvidedService.types] using added) ?_).weaken ?_
  · rintro _ ⟨position, inside, rfl | ⟨inner, rfl⟩⟩ (same | ⟨_, _, same⟩)
    · have last := RefRole.providedService.inj same
      omega
    · cases same
    · cases same
    · have last := (RefRole.provider.inj same).1
      omega
  · rintro role (⟨position, inside, known⟩ | rfl | ⟨inner, _, rfl⟩)
    · exact ⟨position, by simp only [List.length_append]; omega, known⟩
    · exact ⟨entity.provides.length, by simp, .inl rfl⟩
    · exact ⟨entity.provides.length, by simp, .inr ⟨inner, rfl⟩⟩

/-- What a step makes of its unit keeps the types where their sites say. -/
theorem UnitEntity.Settled.effect {id : UnitId} {before after : UnitEntity}
    (settled : before.Settled id) (effect : Assembly.UnitEffect id before after) :
    after.Settled id := by
  cases effect with
  | @package name uses comment line =>
      refine ⟨?_, settled.header⟩
      have spread : Spread { unit := id } (.ofUnit id)
          (fun role => ∃ position < uses.length, role = .ofPackageUse position)
          ((Assembly.usesAt { unit := id } (.ofUnit id) .ofPackageUse uses).flatMap
            AnnotationUse.types) :=
        .usesAt (fun one other same => RefRole.ofPackageUse.inj same) uses
      have weaker := spread.weaken fun role ⟨position, _, known⟩ =>
        (⟨position, known⟩ : ∃ position, role = RefRole.ofPackageUse position)
      simpa [UnitEntity.packageTypes] using weaker
  | imported => exact ⟨settled.package, settled.header⟩
  | @moduleHeader name isOpen uses comment line =>
      refine ⟨settled.package, fun header present => ?_⟩
      obtain rfl := Option.some.inj present
      have spread : Spread { unit := id } (.ofUnit id)
          (fun role => ∃ position < uses.length, role = .ofModuleUse position)
          ((Assembly.usesAt { unit := id } (.ofUnit id) .ofModuleUse uses).flatMap
            AnnotationUse.types) :=
        .usesAt (fun one other same => RefRole.ofModuleUse.inj same) uses
      exact ⟨spread.weaken fun role ⟨position, _, known⟩ => ⟨position, known⟩, .nil, .nil⟩
  | @plainDirective header changed present services provides uses =>
      refine ⟨settled.package, fun other found => ?_⟩
      obtain rfl := Option.some.inj found
      obtain ⟨first, second, third⟩ := settled.header header present
      constructor
      · rw [uses]
        exact first
      · rw [services]
        exact second
      · rw [provides]
        exact third
  | usesService present =>
      refine ⟨settled.package, fun other found => ?_⟩
      obtain rfl := Option.some.inj found
      exact (settled.header _ present).usesService _
  | providesService present =>
      refine ⟨settled.package, fun other found => ?_⟩
      obtain rfl := Option.some.inj found
      exact (settled.header _ present).providesService _ _ _

/-! ### New classes, fields and methods -/

namespace Assembly

theorem spread_toList_map {scope : Scope} {holder : Holder} {role : RefRole}
    (type : Option TypeExpr) :
    Spread scope holder (· = role) (type.map (refAt scope holder role)).toList := by
  cases type with
  | none => exact .nil
  | some type => exact .refAt role type

theorem spread_ofUse {scope : Scope} {holder : Holder} (uses : List (AnnotationUse TypeExpr)) :
    Spread scope holder (fun role => ∃ position, role = .ofUse position)
      ((usesAt scope holder .ofUse uses).flatMap AnnotationUse.types) :=
  (Spread.usesAt (fun _ _ same => RefRole.ofUse.inj same) uses).weaken
    fun _ ⟨position, _, known⟩ => ⟨position, known⟩

theorem spread_classEntity (assembly : Assembly) (declared : ClassDecl)
    (comment : Option String) (tags : List DocTag) (uses : List (AnnotationUse TypeExpr)) :
    Spread { unit := assembly.unit, classId := some assembly.nextClass }
      (.ofClass assembly.nextClass) (fun _ => True)
      (assembly.classEntity declared comment tags uses).types := by
  let scope : Scope := { unit := assembly.unit, classId := some assembly.nextClass }
  let holder := Holder.ofClass assembly.nextClass
  have bounds : Spread scope holder _
      ((parametersAt scope holder declared.typeParameters).flatMap TypeParameter.bounds) :=
    .boundsAt declared.typeParameters
  have superclass : Spread scope holder (· = .superclass)
      ((supertypesOf declared).1.map (refAt scope holder .superclass)).toList :=
    spread_toList_map _
  have interfaces : Spread scope holder _
      (refsAt scope holder .interface (supertypesOf declared).2) :=
    .refsAt (fun _ _ same => RefRole.interface.inj same) _
  have annotations : Spread scope holder _
      ((usesAt scope holder .ofUse uses).flatMap AnnotationUse.types) := spread_ofUse uses
  refine (((bounds.append superclass ?_).append interfaces ?_).append annotations ?_).weaken
    fun _ _ => trivial
  · rintro _ ⟨_, _, _, rfl⟩ other
    cases other
  · rintro _ (⟨_, _, _, rfl⟩ | rfl) ⟨_, _, other⟩ <;> cases other
  · rintro _ ((⟨_, _, _, rfl⟩ | rfl) | ⟨_, _, rfl⟩) ⟨_, other⟩ <;> cases other

theorem spread_variable {scope : Scope} {holder : Holder} (type : TypeExpr)
    (uses : List (AnnotationUse TypeExpr)) :
    Spread scope holder (fun _ => True)
      ([refAt scope holder .variableType type] ++
        (usesAt scope holder .ofUse uses).flatMap AnnotationUse.types) := by
  refine ((Spread.refAt _ type).append (spread_ofUse uses) ?_).weaken fun _ _ => trivial
  rintro _ rfl ⟨_, other⟩
  cases other

theorem spread_methodEntity (unit : UnitId) (owner : ClassId) (id : MethodId)
    (waiting : OpenMethod) (declared : MethodDecl) :
    Spread { unit, classId := some owner, method := some id } (.ofMethod id) (fun _ => True)
      (methodEntity unit owner id waiting declared).types := by
  let scope : Scope := { unit, classId := some owner, method := some id }
  let holder := Holder.ofMethod id
  have bounds : Spread scope holder _
      ((parametersAt scope holder declared.typeParameters).flatMap TypeParameter.bounds) :=
    .boundsAt declared.typeParameters
  have result : Spread scope holder (· = .result)
      (declared.returnType.map (refAt scope holder .result)).toList :=
    spread_toList_map _
  have exceptions : Spread scope holder _ (refsAt scope holder .thrown declared.exceptions) :=
    .refsAt (fun _ _ same => RefRole.thrown.inj same) _
  have annotations : Spread scope holder _
      ((usesAt scope holder .ofUse waiting.uses).flatMap AnnotationUse.types) :=
    spread_ofUse waiting.uses
  refine (((bounds.append result ?_).append exceptions ?_).append annotations ?_).weaken
    fun _ _ => trivial
  · rintro _ ⟨_, _, _, rfl⟩ other
    cases other
  · rintro _ (⟨_, _, _, rfl⟩ | rfl) ⟨_, _, other⟩ <;> cases other
  · rintro _ ((⟨_, _, _, rfl⟩ | rfl) | ⟨_, _, rfl⟩) ⟨_, other⟩ <;> cases other

theorem spread_parameters (unit : UnitId) (owner : ClassId) (id : MethodId)
    (waiting : OpenMethod) (declared : MethodDecl) (position : Nat) :
    Spread { unit, classId := some owner, method := some id } (.ofParameter id position)
      (fun _ => True)
      ((methodEntity unit owner id waiting declared).parameters[position]?.toList.flatMap
        ParameterEntity.types) := by
  have listed : (methodEntity unit owner id waiting declared).parameters[position]? =
      waiting.parameters[position]?.map fun written =>
        parameterEntity { unit, classId := some owner, method := some id } id position written.1
          written.2 := by
    simp [methodEntity, List.getElem?_zipIdx, Function.comp_def]
  rw [listed]
  cases waiting.parameters[position]? with
  | none => exact .nil
  | some written =>
      simpa [ParameterEntity.types, parameterEntity] using
        spread_variable written.1.type written.2

end Assembly

/-! ### Coherent models -/

namespace Model

/-- All that the declarations of a model refer to is found in it, and its types stand where
their sites say. -/
structure Coherent (model : Model) : Prop where
  names : model.NamesInside
  unitClasses : ∀ id, ∀ inner ∈ (model.unit id).classes, inner.index < model.classes.size
  enclosing : ∀ id outer, (model.classAt id).enclosing = some outer →
    outer.index < model.classes.size
  nested : ∀ id, ∀ inner ∈ (model.classAt id).nested, inner.index < model.classes.size
  units : ∀ id, (model.unit id).Settled id
  settled : ∀ holder, model.SettledAt holder

theorem Coherent.empty : Coherent {} where
  names := .empty
  unitClasses := by
    intro id inner member
    cases member
  enclosing := by
    intro id outer around
    cases around
  nested := by
    intro id inner member
    cases member
  units := UnitEntity.Settled.empty
  settled holder := by
    have nothing : typesAt {} holder = [] := by cases holder <;> rfl
    exact ⟨by rw [nothing]; exact .nil, by rw [nothing]; simp⟩

/-- A model has at least the declarations of another. -/
structure NoSmaller (model larger : Model) : Prop where
  units : model.units.size ≤ larger.units.size
  classes : model.classes.size ≤ larger.classes.size
  methods : model.methods.size ≤ larger.methods.size

theorem inside_mono {scope : Scope} {model larger : Model}
    (inside : scope.Inside model) (noSmaller : model.NoSmaller larger) : scope.Inside larger :=
  ⟨Nat.lt_of_lt_of_le inside.unit noSmaller.units,
    fun id found => Nat.lt_of_lt_of_le (inside.classId id found) noSmaller.classes,
    fun id found => Nat.lt_of_lt_of_le (inside.method id found) noSmaller.methods⟩

theorem SettledAt.mono {model larger : Model} {holder : Holder} (settled : model.SettledAt holder)
    (noSmaller : model.NoSmaller larger) (same : larger.typesAt holder = model.typesAt holder) :
    larger.SettledAt holder := by
  constructor
  · rw [same]
    exact settled.apart
  · rw [same]
    intro ref held
    obtain ⟨placed, inside⟩ := settled.placed ref held
    exact ⟨placed, inside_mono inside noSmaller⟩

theorem SettledAt.ofSpread {model : Model} {holder : Holder} {scope : Scope}
    (spread : Spread scope holder (fun _ => True) (model.typesAt holder))
    (inside : scope.Inside model) : model.SettledAt holder := by
  refine ⟨spread.apart, fun ref held => ?_⟩
  obtain ⟨inScope, placed, -⟩ := spread.placed ref held
  rw [inScope]
  exact ⟨placed, inside⟩

variable {model : Model}

theorem Coherent.pushUnit (coherent : model.Coherent) : (model.pushUnit {}).Coherent := by
  have same : ∀ id, (model.pushUnit {}).unit id = model.unit id := by
    intro id
    rw [unit_pushUnit]
    split
    · next last => simp [unit, last]; rfl
    · rfl
  have noSmaller : model.NoSmaller (model.pushUnit {}) :=
    ⟨by simp [Model.pushUnit], Nat.le_refl _, Nat.le_refl _⟩
  refine ⟨coherent.names, ?_, coherent.enclosing, coherent.nested, ?_, ?_⟩
  · intro id inner member
    rw [same] at member
    exact coherent.unitClasses id inner member
  · intro id
    rw [same]
    exact coherent.units id
  · intro holder
    apply (coherent.settled holder).mono noSmaller
    cases holder with
    | ofUnit id => exact congrArg UnitEntity.types (same id)
    | _ => rfl

theorem Coherent.modifyUnit (coherent : model.Coherent) {id : UnitId}
    {change : UnitEntity → UnitEntity} (inside : id.index < model.units.size)
    (classes : ∀ inner ∈ (change (model.unit id)).classes, inner.index < model.classes.size)
    (settled : (change (model.unit id)).Settled id) : (model.modifyUnit id change).Coherent := by
  have same : ∀ other, (model.modifyUnit id change).unit other =
      if other = id then change (model.unit id) else model.unit other := by
    intro other
    rw [unit_modifyUnit]
    by_cases equal : other = id
    · subst equal
      simp [inside]
    · have apart : ¬ id.index = other.index :=
        fun sameIndex => equal (congrArg UnitId.mk sameIndex.symm)
      simp [equal, apart]
  have noSmaller : model.NoSmaller (model.modifyUnit id change) :=
    ⟨by simp [Model.modifyUnit], Nat.le_refl _, Nat.le_refl _⟩
  have unitSettled : ∀ other, ((model.modifyUnit id change).unit other).Settled other := by
    intro other
    rw [same]
    split
    · next equal =>
        rw [equal]
        exact settled
    · exact coherent.units other
  refine ⟨coherent.names, ?_, coherent.enclosing, coherent.nested, unitSettled, ?_⟩
  · intro other inner member
    rw [same] at member
    split at member
    · exact classes inner member
    · exact coherent.unitClasses other inner member
  · intro holder
    by_cases own : holder = .ofUnit id
    · subst own
      refine .ofSpread (unitSettled id).types ⟨?_, by simp, by simp⟩
      simpa [Model.modifyUnit] using inside
    · apply (coherent.settled holder).mono noSmaller
      cases holder with
      | ofUnit other =>
          have apart : other ≠ id := fun equal => own (congrArg Holder.ofUnit equal)
          apply congrArg UnitEntity.types
          rw [same, if_neg apart]
      | _ => rfl

theorem Coherent.pushClass (coherent : model.Coherent) {entity : ClassEntity} {scope : Scope}
    (enclosing : ∀ outer, entity.enclosing = some outer → outer.index < model.classes.size)
    (nested : entity.nested = [])
    (types : Spread scope (.ofClass ⟨model.classes.size⟩) (fun _ => True) entity.types)
    (inside : scope.Inside (model.pushClass entity)) : (model.pushClass entity).Coherent := by
  have larger : (model.pushClass entity).classes.size = model.classes.size + 1 :=
    Array.size_push ..
  have noSmaller : model.NoSmaller (model.pushClass entity) :=
    ⟨Nat.le_refl _, by omega, Nat.le_refl _⟩
  refine ⟨coherent.names.pushClass entity, ?_, ?_, ?_, coherent.units, ?_⟩
  · intro id inner member
    rw [larger]
    exact Nat.lt_succ_of_lt (coherent.unitClasses id inner member)
  · intro id outer around
    rw [classAt_pushClass] at around
    rw [larger]
    split at around
    · exact Nat.lt_succ_of_lt (enclosing outer around)
    · exact Nat.lt_succ_of_lt (coherent.enclosing id outer around)
  · intro id inner member
    rw [classAt_pushClass] at member
    rw [larger]
    split at member
    · rw [nested] at member
      cases member
    · exact Nat.lt_succ_of_lt (coherent.nested id inner member)
  · intro holder
    by_cases own : holder = .ofClass ⟨model.classes.size⟩
    · subst own
      refine .ofSpread ?_ inside
      simpa [typesAt, classAt_pushClass] using types
    · apply (coherent.settled holder).mono noSmaller
      cases holder with
      | ofClass id =>
          have apart : ¬ id.index = model.classes.size :=
            fun last => own (congrArg (Holder.ofClass ∘ ClassId.mk) last)
          simp [typesAt, classAt_pushClass, apart]
      | _ => rfl

theorem Coherent.modifyClass (coherent : model.Coherent) {id : ClassId}
    {change : ClassEntity → ClassEntity}
    (enclosing : (change (model.classAt id)).enclosing = (model.classAt id).enclosing)
    (nested : ∀ inner ∈ (change (model.classAt id)).nested, inner.index < model.classes.size)
    (types : (change (model.classAt id)).types = (model.classAt id).types) :
    (model.modifyClass id change).Coherent := by
  have size : (model.modifyClass id change).classes.size = model.classes.size := by
    simp [Model.modifyClass]
  have same : ∀ other, (model.modifyClass id change).classAt other = model.classAt other ∨
      other = id ∧ (model.modifyClass id change).classAt other = change (model.classAt id) := by
    intro other
    rw [classAt_modifyClass]
    split
    · next equal =>
        obtain rfl : other = id := congrArg ClassId.mk equal.1.symm
        exact .inr ⟨rfl, rfl⟩
    · exact .inl rfl
  have noSmaller : model.NoSmaller (model.modifyClass id change) :=
    ⟨Nat.le_refl _, Nat.le_of_eq size.symm, Nat.le_refl _⟩
  refine ⟨?_, ?_, ?_, ?_, coherent.units, ?_⟩
  · intro name found named
    rw [size]
    exact coherent.names name found named
  · intro unit inner member
    rw [size]
    exact coherent.unitClasses unit inner member
  · intro other outer around
    rw [size]
    rcases same other with unchanged | ⟨rfl, changed⟩
    · rw [unchanged] at around
      exact coherent.enclosing other outer around
    · rw [changed, enclosing] at around
      exact coherent.enclosing other outer around
  · intro other inner member
    rw [size]
    rcases same other with unchanged | ⟨rfl, changed⟩
    · rw [unchanged] at member
      exact coherent.nested other inner member
    · rw [changed] at member
      exact nested inner member
  · intro holder
    apply (coherent.settled holder).mono noSmaller
    cases holder with
    | ofClass other =>
        rcases same other with unchanged | ⟨rfl, changed⟩
        · exact congrArg ClassEntity.types unchanged
        · exact (congrArg ClassEntity.types changed).trans types
    | _ => rfl

theorem Coherent.pushField (coherent : model.Coherent) {entity : FieldEntity} {scope : Scope}
    (types : Spread scope (.ofField ⟨model.fields.size⟩) (fun _ => True) entity.types)
    (inside : scope.Inside model) : (model.pushField entity).Coherent := by
  have noSmaller : model.NoSmaller (model.pushField entity) :=
    ⟨Nat.le_refl _, Nat.le_refl _, Nat.le_refl _⟩
  refine ⟨coherent.names, coherent.unitClasses, coherent.enclosing, coherent.nested,
    coherent.units, ?_⟩
  intro holder
  by_cases own : holder = .ofField ⟨model.fields.size⟩
  · subst own
    refine .ofSpread ?_ (inside_mono inside noSmaller)
    simpa [typesAt, Model.pushField] using types
  · apply (coherent.settled holder).mono noSmaller
    cases holder with
    | ofField id =>
        have apart : ¬ id.index = model.fields.size :=
          fun last => own (congrArg (Holder.ofField ∘ FieldId.mk) last)
        simp [typesAt, Model.pushField, Array.getElem?_push, apart]
    | _ => rfl

theorem Coherent.modifyField (coherent : model.Coherent) {id : FieldId}
    {change : FieldEntity → FieldEntity} (types : ∀ entity, (change entity).types = entity.types) :
    (model.modifyField id change).Coherent := by
  have noSmaller : model.NoSmaller (model.modifyField id change) :=
    ⟨Nat.le_refl _, Nat.le_refl _, Nat.le_refl _⟩
  refine ⟨coherent.names, coherent.unitClasses, coherent.enclosing, coherent.nested,
    coherent.units, ?_⟩
  intro holder
  apply (coherent.settled holder).mono noSmaller
  cases holder with
  | ofField other =>
      simp only [typesAt, Model.modifyField, Array.getElem?_modify]
      split
      · cases model.fields[other.index]? with
        | none => rfl
        | some entity => simp [types]
      · rfl
  | _ => rfl

theorem Coherent.pushMethod (coherent : model.Coherent) {entity : MethodEntity} {scope : Scope}
    (types : Spread scope (.ofMethod ⟨model.methods.size⟩) (fun _ => True) entity.types)
    (parameters : ∀ position, Spread scope (.ofParameter ⟨model.methods.size⟩ position)
      (fun _ => True) (entity.parameters[position]?.toList.flatMap ParameterEntity.types))
    (inside : scope.Inside (model.pushMethod entity)) : (model.pushMethod entity).Coherent := by
  have noSmaller : model.NoSmaller (model.pushMethod entity) :=
    ⟨Nat.le_refl _, Nat.le_refl _, by simp [Model.pushMethod]⟩
  have last : (model.pushMethod entity).method ⟨model.methods.size⟩ = entity := by
    simp [method_pushMethod]
  have older : ∀ id : MethodId, id ≠ ⟨model.methods.size⟩ →
      (model.pushMethod entity).method id = model.method id := by
    intro id apart
    have differ : ¬ id.index = model.methods.size :=
      fun last => apart (congrArg MethodId.mk last)
    rw [method_pushMethod, if_neg differ]
  refine ⟨coherent.names, coherent.unitClasses, coherent.enclosing, coherent.nested,
    coherent.units, ?_⟩
  intro holder
  cases holder with
  | ofMethod id =>
      by_cases own : id = ⟨model.methods.size⟩
      · subst own
        refine .ofSpread ?_ inside
        simpa only [typesAt, last] using types
      · apply (coherent.settled _).mono noSmaller
        simp only [typesAt, older id own]
  | ofParameter id position =>
      by_cases own : id = ⟨model.methods.size⟩
      · subst own
        refine .ofSpread ?_ inside
        simpa only [typesAt, last] using parameters position
      · apply (coherent.settled _).mono noSmaller
        simp only [typesAt, older id own]
  | ofUnit id => exact (coherent.settled (.ofUnit id)).mono noSmaller rfl
  | ofClass id => exact (coherent.settled (.ofClass id)).mono noSmaller rfl
  | ofField id => exact (coherent.settled (.ofField id)).mono noSmaller rfl

end Model

/-! ### Assembly keeps models coherent -/

namespace Assembly

/-- The model is coherent and has all that has begun. -/
structure Sound (assembly : Assembly) : Prop where
  coherent : assembly.model.Coherent
  unit : assembly.unit.index < assembly.model.units.size
  classes : ∀ id ∈ assembly.openClasses, id.index < assembly.model.classes.size

theorem Sound.ofModel {model : Model} (coherent : model.Coherent) : (ofModel model).Sound where
  coherent := coherent.pushUnit
  unit := by simp [Assembly.ofModel, Model.pushUnit]
  classes := by simp [Assembly.ofModel]

theorem Sound.pushClass {before : Assembly} (sound : before.Sound) (declared : ClassDecl)
    (comment : Option String) (tags : List DocTag) (uses : List (AnnotationUse TypeExpr)) :
    (before.model.pushClass (before.classEntity declared comment tags uses)).Coherent := by
  refine sound.coherent.pushClass ?_ rfl
    (before.spread_classEntity declared comment tags uses) ⟨sound.unit, ?_, by simp⟩
  · intro outer around
    exact sound.classes outer (List.mem_of_mem_head? around)
  · intro id found
    obtain rfl := Option.some.inj found
    simp [Model.pushClass, nextClass]

theorem size_pushClass (model : Model) (entity : ClassEntity) :
    (model.pushClass entity).classes.size = model.classes.size + 1 :=
  Array.size_push ..

/-- What has begun is still there after a new class, and so is the new class. -/
theorem Sound.opened {before : Assembly} (sound : before.Sound) :
    ∀ id ∈ before.nextClass :: before.openClasses, id.index < before.model.classes.size + 1 := by
  intro id member
  rcases List.mem_cons.mp member with rfl | earlier
  · exact Nat.lt_succ_self _
  · exact Nat.lt_succ_of_lt (sound.classes id earlier)

/-- A change of the members of a class leaves the model coherent. -/
theorem Sound.modifyMembers {model : Model} (coherent : model.Coherent) {owner : ClassId}
    {change : ClassEntity → ClassEntity}
    (same : ∀ entity, (change entity).enclosing = entity.enclosing ∧
      (change entity).nested = entity.nested ∧ (change entity).types = entity.types) :
    (model.modifyClass owner change).Coherent := by
  obtain ⟨enclosing, nested, types⟩ := same (model.classAt owner)
  refine coherent.modifyClass enclosing ?_ types
  rw [nested]
  exact coherent.nested owner

theorem Sound.follows {before after : Assembly} (follows : before.Follows after)
    (sound : before.Sound) : after.Sound := by
  obtain ⟨coherent, unit, classes⟩ := sound
  have pushed := Sound.pushClass ⟨coherent, unit, classes⟩
  have opened := Sound.opened ⟨coherent, unit, classes⟩
  obtain ⟨model, _, openClasses, openFields, _, _, _, _⟩ := after
  obtain ⟨rfl, effect⟩ := follows
  cases effect with
  | nothing => exact ⟨coherent, unit, classes⟩
  | @unit change effect =>
      have settled := (coherent.units before.unit).effect effect
      have sameClasses : (change (before.model.unit before.unit)).classes =
          (before.model.unit before.unit).classes := by
        generalize change (before.model.unit before.unit) = changed at effect
        cases effect <;> rfl
      refine ⟨coherent.modifyUnit unit ?_ settled, by simpa [Model.modifyUnit] using unit, classes⟩
      rw [sameClasses]
      exact coherent.unitClasses before.unit
  | classStrays =>
      refine ⟨pushed _ _ _ _, unit, fun id member => ?_⟩
      exact Nat.lt_of_lt_of_eq (Nat.lt_succ_of_lt (classes id member)) (size_pushClass _ _).symm
  | bodyBegins _ =>
      refine ⟨(pushed _ _ _ _).modifyField fun _ => rfl, unit, fun id member => ?_⟩
      exact Nat.lt_of_lt_of_eq (opened id member) (size_pushClass _ _).symm
  | innerBegins inClass =>
      refine ⟨(pushed _ _ _ _).modifyClass rfl ?_ rfl, unit, fun id member => ?_⟩
      · intro inner member
        rcases List.mem_append.mp member with earlier | new
        · exact (pushed _ _ _ _).nested _ inner earlier
        · rw [List.mem_singleton.mp new, size_pushClass]
          exact Nat.lt_succ_self _
      · simpa [Model.modifyClass, size_pushClass] using opened id member
  | @outermostBegins declared comment tags uses =>
      refine ⟨(pushed _ _ _ _).modifyUnit unit ?_ ?_,
        by simpa [Model.modifyUnit, Model.pushClass] using unit, fun id member => ?_⟩
      · intro inner member
        rcases List.mem_append.mp member with earlier | new
        · exact (pushed _ _ _ _).unitClasses _ inner earlier
        · rw [List.mem_singleton.mp new, size_pushClass]
          exact Nat.lt_succ_self _
      · obtain ⟨package, header⟩ := (pushed declared comment tags uses).units before.unit
        exact ⟨package, header⟩
      · exact Nat.lt_of_lt_of_eq (opened id member) (size_pushClass _ _).symm
  | classEnds inClass =>
      refine ⟨coherent, unit, fun id member => classes id ?_⟩
      rw [inClass]
      exact List.mem_cons_of_mem _ member
  | initializer _ =>
      refine ⟨Sound.modifyMembers coherent fun _ => ⟨rfl, rfl, rfl⟩, unit, ?_⟩
      simpa [Model.modifyClass] using classes
  | @fieldBegins owner outer declared comment tags uses inClass =>
      have owned := classes owner (mem_of_eq_cons inClass)
      have inside : Scope.Inside { unit := before.unit, classId := some owner } before.model :=
        ⟨unit, fun id found => by obtain rfl := Option.some.inj found; exact owned, by simp⟩
      have grown : (before.model.pushField (fieldEntity before.unit owner
          ⟨before.model.fields.size⟩ declared comment tags uses)).Coherent :=
        coherent.pushField (spread_variable _ _) inside
      refine ⟨Sound.modifyMembers grown fun _ => ⟨rfl, rfl, rfl⟩, unit, ?_⟩
      simpa [Model.modifyClass, Model.pushField] using classes
  | fieldEnds _ => exact ⟨coherent, unit, classes⟩
  | @methodEnds owner outer waiting declared isConstructor inClass =>
      have owned := classes owner (mem_of_eq_cons inClass)
      let id : MethodId := ⟨before.model.methods.size⟩
      have grown : (before.model.pushMethod (methodEntity before.unit owner id waiting
          declared)).Coherent := by
        refine coherent.pushMethod (spread_methodEntity before.unit owner id waiting declared)
          (spread_parameters before.unit owner id waiting declared) ⟨unit, ?_, ?_⟩
        · intro other found
          obtain rfl := Option.some.inj found
          exact owned
        · intro other found
          obtain rfl := Option.some.inj found
          simp [Model.pushMethod, id]
      refine ⟨Sound.modifyMembers grown fun entity => ?_, unit, ?_⟩
      · cases isConstructor <;> exact ⟨rfl, rfl, rfl⟩
      · simpa [Model.modifyClass, Model.pushMethod] using classes

end Assembly

namespace Model

theorem Coherent.addEvents {model : Model} (coherent : model.Coherent) (events : List Event) :
    (model.addEvents events).1.Coherent := by
  rw [addEvents_eq]
  have kept := Assembly.steps_keeps Assembly.Sound (fun _ _ => Assembly.Sound.follows) events
    (Assembly.Sound.ofModel coherent)
  exact kept.coherent

theorem Coherent.addUnit {model : Model} (coherent : model.Coherent) (events : List Event) :
    (model.addUnit events).1.Coherent := by
  rw [addUnit_eq]
  exact coherent.addEvents events

theorem Coherent.addUnits {model : Model} (coherent : model.Coherent)
    (units : List (List Event)) : (model.addUnits units).1.Coherent :=
  addUnits_keeps Coherent (fun _ events earlier => earlier.addEvents events) units coherent

end Model

end JavaDecl
