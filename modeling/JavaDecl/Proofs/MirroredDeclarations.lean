import JavaDecl.Proofs.DeclaredEntities

/-!
# The model mirrors declarations

The parts of an outline are assembled into classes, fields and methods that hold what is
declared in them, each in the order of the source and as it is written.  Every sort of
declaration has one lemma, and an induction on the outline puts them together.
-/

namespace JavaDecl

namespace Assembly

/-! ### Where declarations stand -/

/-- An assembly stands in the class at the end of a path of names, or in none. -/
structure StandsAt (assembly : Assembly) (path : List String) : Prop where
  inside : assembly.unit.index < assembly.model.units.size
  owner : ∀ id, assembly.openClasses.head? = some id → id.index < assembly.model.classes.size
  named : ∀ id, assembly.openClasses.head? = some id → path ≠ [] ∧
    (assembly.model.classAt id).binaryName =
      binaryName (assembly.model.unit assembly.unit).packageName path
  outermost : assembly.openClasses.head? = none → path = []

theorem binaryName_concat (package : Option String) {path : List String} (around : path ≠ [])
    (name : String) :
    binaryName package (path ++ [name]) = binaryName package path ++ "$" ++ name := by
  unfold binaryName
  rw [String.intercalate_append_of_ne_nil around (List.cons_ne_nil _ _), String.append_assoc,
    String.append_assoc, String.append_assoc]
  rfl

theorem StandsAt.binaryName_classEntity {assembly : Assembly} {path : List String}
    (stands : assembly.StandsAt path) (declared : ClassDecl) (comment : Option String)
    (tags : List DocTag) (uses : List (AnnotationUse TypeExpr)) :
    (assembly.classEntity declared comment tags uses).binaryName =
      binaryName (assembly.model.unit assembly.unit).packageName (path ++ [declared.name]) := by
  cases owner : assembly.openClasses.head? with
  | none =>
      rw [stands.outermost owner]
      simp only [classEntity, owner]
      rfl
  | some outer =>
      obtain ⟨around, named⟩ := stands.named outer owner
      rw [binaryName_concat _ around, ← named]
      simp only [classEntity, owner]
      rfl

/-- An assembly stands where it is when the class around it gets more members. -/
theorem StandsAt.grown {before after : Assembly} {path : List String} {base : Model.Size}
    {added : Members} (stands : before.StandsAt path)
    (classes : after.openClasses = before.openClasses) (unit : after.unit = before.unit)
    (grows : Model.Grows base before.unit before.openClasses.head? added before.model
      after.model) : after.StandsAt path := by
  refine ⟨?_, fun id owner => ?_, fun id owner => ?_, fun none => ?_⟩
  · rw [unit, grows.units]
    exact stands.inside
  · rw [classes] at owner
    exact Nat.lt_of_lt_of_le (stands.owner id owner) grows.reaches.classes
  · rw [classes] at owner
    obtain ⟨around, named⟩ := stands.named id owner
    refine ⟨around, ?_⟩
    rw [grows.owned id owner, unit, grows.package]
    exact named
  · rw [classes] at none
    exact stands.outermost none

theorem StandsAt.aside {before after : Assembly} {path : List String}
    (stands : before.StandsAt path) (aside : Aside [] before after) : after.StandsAt path :=
  stands.grown aside.openClasses aside.unit (aside.grows before.model.size _)

theorem StandsAt.holds {assembly : Assembly} {path : List String}
    (stands : assembly.StandsAt path) {declared : ClassDecl} (once : declared.ExtendsOnce)
    {comment : Option String} {tags : List DocTag} {uses : List (AnnotationUse TypeExpr)}
    {added : Members} {final : Model} {id : ClassId}
    (found : final.classAt id =
      (assembly.classEntity declared comment tags uses).adding added)
    (package : (final.unit assembly.unit).packageName =
      (assembly.model.unit assembly.unit).packageName) :
    final.Holds assembly.unit assembly.openClasses.head? path id declared := by
  refine ⟨?_, ?_, ?_, ?_⟩
  · rw [found]
    exact declares_classEntity once comment tags uses added
  · rw [found]
    rfl
  · rw [found]
    rfl
  · rw [found, package]
    exact stands.binaryName_classEntity declared comment tags uses

end Assembly

/-- A later model has what a model has beyond a size. -/
structure Model.Settles (final : Model) (base : Model.Size) (unit : UnitId) (model : Model) :
    Prop where
  classAt : ∀ id : ClassId, base.classes ≤ id.index → id.index < model.classes.size →
    final.classAt id = model.classAt id
  method : ∀ id : MethodId, base.methods ≤ id.index → id.index < model.methods.size →
    final.method id = model.method id
  field : ∀ id : FieldId, base.fields ≤ id.index → id.index < model.fields.size →
    final.field id = model.field id
  package : (final.unit unit).packageName = (model.unit unit).packageName

namespace Model.Settles

variable {final model : Model} {base : Model.Size} {unit : UnitId}

theorem refl (model : Model) (base : Model.Size) (unit : UnitId) :
    model.Settles base unit model :=
  ⟨fun _ _ _ => rfl, fun _ _ _ => rfl, fun _ _ _ => rfl, rfl⟩

theorem beyond {larger : Model} (settles : final.Settles base unit model)
    (reaches : larger.Reaches base) : final.Settles larger.size unit model where
  classAt id new := settles.classAt id (Nat.le_trans reaches.classes new)
  method id new := settles.method id (Nat.le_trans reaches.methods new)
  field id new := settles.field id (Nat.le_trans reaches.fields new)
  package := settles.package

/-- What a model has had before it has grown by members of an older class. -/
theorem before {earlier : Model} {owner : Option ClassId} {added : Members}
    (settles : final.Settles base unit model)
    (grows : Grows earlier.size unit owner added earlier model)
    (older : ∀ id, owner = some id → id.index < base.classes) :
    final.Settles base unit earlier where
  classAt id new inside := by
    have apart : owner ≠ some id := by
      intro same
      have := older id same
      omega
    rw [settles.classAt id new (Nat.lt_of_lt_of_le inside grows.reaches.classes)]
    exact grows.others id inside apart
  method id new inside := by
    rw [settles.method id new (Nat.lt_of_lt_of_le inside grows.reaches.methods)]
    exact grows.method id inside
  field id new inside := by
    rw [settles.field id new (Nat.lt_of_lt_of_le inside grows.reaches.fields)]
    exact grows.field id inside
  package := settles.package.trans grows.package

end Model.Settles

namespace Assembly

/-! ### What declarations leave -/

theorem Aside.settles {before after : Assembly} (aside : Aside [] before after) {final : Model}
    {base : Model.Size} (settles : final.Settles base before.unit after.model) :
    final.Settles base before.unit before.model :=
  settles.before (aside.grows _ none) fun _ same => by cases same

/-- The declarations of an outline have been assembled. -/
structure Gathered (path : List String) (outline : Outline) (added : Members)
    (before after : Assembly) : Prop where
  same : before.SameOpen after
  grows : Model.Grows before.model.size before.unit before.openClasses.head? added before.model
    after.model
  mirrors : ∀ final : Model, final.Settles before.model.size before.unit after.model →
    Mirrors final before.unit before.openClasses.head? path before.model.size outline added
      after.model.size

namespace Gathered

variable {path : List String} {outline : Outline} {added : Members}
  {before between after : Assembly}

theorem ofAside (aside : Aside [] before after) : Gathered path .nothing {} before after where
  same := aside.sameOpen
  grows := aside.grows _ _
  mirrors final _ := by
    rw [aside.size]
    exact .nothing

theorem standsAt (gathered : Gathered path outline added before after)
    (stands : before.StandsAt path) : after.StandsAt path :=
  stands.grown gathered.same.classes gathered.same.unit gathered.grows

theorem append {further : Outline} {others : Members}
    (first : Gathered path outline added before between)
    (second : Gathered path further others between after) (stands : before.StandsAt path) :
    Gathered path (outline.append further) (added ++ others) before after where
  same := first.same.trans second.same
  grows := by
    have later := second.grows
    rw [first.same.unit, first.same.classes] at later
    exact first.grows.trans (later.lower first.grows.reaches)
  mirrors final settles := by
    have later := second.grows
    have rest := second.mirrors final
    rw [first.same.unit, first.same.classes] at later rest
    exact (first.mirrors final (settles.before later stands.owner)).append
      (rest (settles.beyond first.grows.reaches))

end Gathered

/-! ### Classes -/

/-- A class has begun, and its entity is the next one of the model. -/
structure Enters (declared : ClassDecl) (before inside : Assembly) : Prop where
  openClasses : inside.openClasses = before.nextClass :: before.openClasses
  openFields : inside.openFields = before.openFields
  openMethod : inside.openMethod = before.openMethod
  unit : inside.unit = before.unit
  package : (inside.model.unit before.unit).packageName =
    (before.model.unit before.unit).packageName
  size : inside.model.size = { before.model.size with classes := before.model.classes.size + 1 }
  found : ∃ comment tags uses, inside.model.classAt before.nextClass =
    before.classEntity declared comment tags uses

namespace Enters

variable {declared : ClassDecl} {path : List String} {inner : Outline} {added : Members}
  {before inside full closing : Assembly} (enters : Enters declared before inside)

include enters

theorem classes : inside.model.classes.size = before.model.classes.size + 1 :=
  congrArg Model.Size.classes enters.size

theorem index_lt : before.nextClass.index < inside.model.classes.size := by
  rw [enters.classes]
  exact Nat.lt_succ_self _

theorem standsAt (stands : before.StandsAt path) : inside.StandsAt (path ++ [declared.name]) := by
  have head : inside.openClasses.head? = some before.nextClass := by
    rw [enters.openClasses]
    rfl
  have units : inside.model.units.size = before.model.units.size :=
    congrArg Model.Size.units enters.size
  obtain ⟨comment, tags, uses, found⟩ := enters.found
  refine ⟨?_, fun id same => ?_, fun id same => ?_, fun none => ?_⟩
  · rw [enters.unit, units]
    exact stands.inside
  · obtain rfl := Option.some.inj (head.symm.trans same)
    exact enters.index_lt
  · obtain rfl := Option.some.inj (head.symm.trans same)
    refine ⟨List.append_ne_nil_of_right_ne_nil _ (List.cons_ne_nil _ _), ?_⟩
    rw [found, enters.unit, enters.package]
    exact stands.binaryName_classEntity _ _ _ _
  · rw [head] at none
    cases none

theorem reaches : inside.model.Reaches before.model.size := by
  have methods := congrArg Model.Size.methods enters.size
  have fields := congrArg Model.Size.fields enters.size
  exact ⟨enters.classes ▸ Nat.le_succ _, Nat.le_of_eq methods.symm, Nat.le_of_eq fields.symm⟩

/-- What is assembled in the class changes no older declaration. -/
theorem grows {base : Model.Size} {owner : Option ClassId}
    (filled : Gathered (path ++ [declared.name]) inner added inside full)
    (aside : Aside [] full closing) (reaches : before.model.Reaches base)
    (older : ∀ id, owner = some id → id.index < base.classes) :
    Model.Grows base before.unit owner {} inside.model closing.model := by
  have members := filled.grows
  have gap := aside.grows base owner
  rw [filled.same.unit] at gap
  rw [enters.openClasses] at members
  rw [enters.unit] at members gap
  exact ((members.lower (reaches.trans enters.reaches)).beyond reaches.classes older).trans gap

theorem mirrors (stands : before.StandsAt path) (once : declared.ExtendsOnce)
    (filled : Gathered (path ++ [declared.name]) inner added inside full)
    (aside : Aside [] full closing) {final : Model}
    (settles : final.Settles before.model.size before.unit closing.model) :
    final.Holds before.unit before.openClasses.head? path before.nextClass declared ∧
      Mirrors final before.unit (some before.nextClass) (path ++ [declared.name])
        { before.model.size with classes := before.model.classes.size + 1 } inner
        (final.classAt before.nextClass).members closing.model.size := by
  have members := filled.grows
  have further := filled.mirrors final
  rw [enters.openClasses, enters.unit] at members further
  obtain ⟨comment, tags, uses, found⟩ := enters.found
  rw [← enters.unit, ← filled.same.unit] at settles
  have whole := aside.settles settles
  rw [filled.same.unit, enters.unit] at whole
  have new : before.nextClass.index < full.model.classes.size :=
    Nat.lt_of_lt_of_le enters.index_lt members.reaches.classes
  have last : final.classAt before.nextClass =
      (before.classEntity declared comment tags uses).adding added := by
    rw [whole.classAt before.nextClass (Nat.le_refl _) new, members.owned _ rfl, found]
  have inner := further (whole.beyond enters.reaches)
  rw [enters.size] at inner
  refine ⟨stands.holds once last ?_, ?_⟩
  · rw [whole.package, members.package, enters.package]
  · rw [last, aside.size]
    exact inner

/-- Where the class ends, what was open around it is open again. -/
theorem leaves {after : Assembly}
    (filled : Gathered (path ++ [declared.name]) inner added inside full)
    (aside : Aside [] full closing) (ended : step .endClass closing = .ok ⟨⟩ after) :
    before.SameOpen after ∧ after.model = closing.model := by
  have same := filled.same.trans aside.sameOpen
  have inClass := same.classes.trans enters.openClasses
  obtain rfl := endClass_of_ok inClass ended
  exact ⟨⟨rfl, same.fields.trans enters.openFields,
    same.method.trans (congrArg _ enters.openMethod), same.unit.trans enters.unit,
    same.units.trans (congrArg Model.Size.units enters.size)⟩, rfl⟩

end Enters

theorem enters_class {declared : ClassDecl} {before inside : Assembly}
    (plain : declared.isConstantBody = false) {path : List String}
    (stands : before.StandsAt path)
    (begun : step (.beginClass declared) before = .ok ⟨⟩ inside) :
    Enters declared before inside ∧
      Model.Grows before.model.size before.unit before.openClasses.head?
        { nested := [before.nextClass] } before.model inside.model := by
  obtain ⟨comment, tags, uses, rfl⟩ := beginClass_of_ok plain begun
  let entity := before.classEntity declared comment tags uses
  have pushed : Model.Grows before.model.size before.unit before.openClasses.head? {} before.model
      (before.model.pushClass entity) := .pushClass (.refl _) stands.owner entity
  have known : before.unit.index < (before.model.pushClass entity).units.size := stands.inside
  have linked := grows_linked known (.refl _) fun id owner =>
    Nat.lt_of_lt_of_le (stands.owner id owner) pushed.reaches.classes
  have size : (before.model.pushClass entity).size =
      { before.model.size with classes := before.model.classes.size + 1 } := by
    simp [Model.size, Model.pushClass]
  have apart : before.openClasses.head? ≠ some before.nextClass :=
    fun same => Nat.lt_irrefl _ (stands.owner _ same)
  refine ⟨⟨rfl, rfl, rfl, rfl, linked.package, ?_, comment, tags, uses, ?_⟩,
    pushed.trans (linked.lower pushed.reaches)⟩
  · exact (size_linked _ _).trans size
  · have kept := linked.others before.nextClass (by rw [size]; exact Nat.lt_succ_self _) apart
    exact kept.trans ((Model.classAt_pushClass _ _ _).trans (if_pos rfl))

/-- The body of a constant has begun, and the constant is linked to it. -/
structure EntersBody (body : ClassDecl) (field : FieldId) (before inside : Assembly) : Prop
    extends Enters body before inside where
  linked : field.index < before.model.fields.size → inside.model.field field =
    { before.model.field field with bodyClass := some before.nextClass }
  links : ∀ {base : Model.Size} {owner : Option ClassId}, base.fields ≤ field.index →
    before.model.Reaches base → (∀ id, owner = some id → id.index < base.classes) →
      Model.Grows base before.unit owner {} before.model inside.model

theorem enters_body {body : ClassDecl} {before inside : Assembly}
    (isBody : body.isConstantBody = true) {field : FieldId} {outer : List FieldId}
    (inField : before.openFields = field :: outer)
    (begun : step (.beginClass body) before = .ok ⟨⟩ inside) :
    EntersBody body field before inside := by
  obtain ⟨comment, tags, uses, rfl⟩ := beginBody_of_ok isBody inField begun
  refine ⟨⟨rfl, rfl, rfl, rfl, rfl, ?_, comment, tags, uses, ?_⟩, fun known => ?_,
    fun beyond reaches older => ?_⟩
  · simp [Model.size, Model.pushClass, Model.modifyField]
  · exact (Model.classAt_pushClass _ _ _).trans (if_pos rfl)
  · exact (Model.field_modifyField _ _ _ _).trans (if_pos ⟨rfl, known⟩)
  · exact (Model.Grows.pushClass reaches older _).trans (.modifyField beyond _)

namespace EntersBody

variable {body : ClassDecl} {field : FieldId} {path : List String} {inner : Outline}
  {added : Members} {before inside full closing : Assembly}
  (enters : EntersBody body field before inside)
  (filled : Gathered (path ++ [body.name]) inner added inside full)
  (aside : Aside [] full closing)

include enters filled aside

/-- The body and what is assembled in it change nothing that is older than the constant. -/
theorem fills {base : Model.Size} {owner : Option ClassId} (beyond : base.fields ≤ field.index)
    (reaches : before.model.Reaches base)
    (older : ∀ id, owner = some id → id.index < base.classes) :
    Model.Grows base before.unit owner {} before.model closing.model := by
  have links := enters.links beyond reaches older
  simpa using links.trans (enters.grows filled aside reaches older)

theorem field_eq (known : field.index < before.model.fields.size) :
    closing.model.field field =
      { before.model.field field with bodyClass := some before.nextClass } := by
  have opened := Nat.lt_of_lt_of_le known enters.reaches.fields
  calc
    closing.model.field field = full.model.field field := by
      rw [Model.field, aside.fields]
      rfl
    _ = inside.model.field field := filled.grows.field _ opened
    _ = _ := enters.linked known

end EntersBody

section Declarations

variable {path : List String} {before inside full closing after : Assembly}

theorem gathered_class {declared : ClassDecl} {inner : Outline} {added : Members}
    (stands : before.StandsAt path) (plain : declared.isConstantBody = false)
    (once : declared.ExtendsOnce)
    (begun : step (.beginClass declared) before = .ok ⟨⟩ inside)
    (filled : Gathered (path ++ [declared.name]) inner added inside full)
    (aside : Aside [] full closing) (ended : step .endClass closing = .ok ⟨⟩ after) :
    Gathered path (.aClass declared inner .nothing) { nested := [before.nextClass] } before
      after := by
  obtain ⟨enters, linked⟩ := enters_class plain stands begun
  obtain ⟨same, kept⟩ := enters.leaves filled aside ended
  refine ⟨same, ?_, fun final settles => ?_⟩
  · have further := enters.grows filled aside (.refl _) stands.owner
    rw [kept]
    simpa using linked.trans further
  · rw [kept] at settles ⊢
    obtain ⟨holds, mirrors⟩ := enters.mirrors stands once filled aside settles
    exact .aClass holds mirrors .nothing

theorem gathered_initializer {declared : InitializerDecl} (stands : before.StandsAt path)
    (stepped : step (.initializer declared) before = .ok ⟨⟩ after) :
    Gathered path (.initializer declared .nothing) { initializers := [declared] } before
      after := by
  obtain ⟨owner, outer, inClass, rfl⟩ := initializer_of_ok stepped
  have head : before.openClasses.head? = some owner := by
    rw [inClass]
    rfl
  refine ⟨⟨rfl, rfl, rfl, rfl, rfl⟩, ?_, fun final _ => ?_⟩
  · rw [head]
    exact .modifyClass (.refl _) (stands.owner owner head) fun _ => by simp [ClassEntity.adding]
  · rw [head]
    have size : (before.model.modifyClass owner fun entity =>
        { entity with initializers := entity.initializers ++ [declared] }).size =
          before.model.size := by
      simp [Model.size, Model.modifyClass]
    dsimp only
    rw [size]
    exact .initializer .nothing

/-- A field has begun, and its entity is the next one of the model. -/
structure BeginsField (declared : VariableDecl) (owner : ClassId) (before inside : Assembly) :
    Prop where
  head : before.openClasses.head? = some owner
  openClasses : inside.openClasses = before.openClasses
  openFields : inside.openFields = before.nextField :: before.openFields
  openMethod : inside.openMethod = before.openMethod
  unit : inside.unit = before.unit
  grows : Model.Grows before.model.size before.unit (some owner)
    { fields := [before.nextField] } before.model inside.model
  size : inside.model.size = { before.model.size with fields := before.model.fields.size + 1 }
  found : ∃ comment tags uses, inside.model.field before.nextField =
    fieldEntity before.unit owner before.nextField declared comment tags uses

namespace BeginsField

variable {declared : VariableDecl} {owner : ClassId}
  (begins : BeginsField declared owner before inside)

include begins

theorem index_lt : before.nextField.index < inside.model.fields.size := by
  have fields : inside.model.fields.size = before.model.fields.size + 1 :=
    congrArg Model.Size.fields begins.size
  rw [fields]
  exact Nat.lt_succ_self _

theorem nextClass : inside.nextClass = ⟨before.model.size.classes⟩ :=
  congrArg ClassId.mk (congrArg Model.Size.classes begins.size)

theorem size_class :
    { inside.model.size with classes := inside.model.classes.size + 1 } =
      { before.model.size with
        classes := before.model.size.classes + 1
        fields := before.model.size.fields + 1 } := by
  have classes : inside.model.classes.size = before.model.classes.size :=
    congrArg Model.Size.classes begins.size
  rw [classes, begins.size]
  rfl

theorem aside (aside : Aside [] inside closing) : BeginsField declared owner before closing where
  head := begins.head
  openClasses := aside.openClasses.trans begins.openClasses
  openFields := aside.openFields.trans begins.openFields
  openMethod := aside.openMethod.trans begins.openMethod
  unit := aside.unit.trans begins.unit
  grows := by
    have gap := aside.grows before.model.size (some owner)
    rw [begins.unit] at gap
    simpa using begins.grows.trans gap
  size := aside.size.trans begins.size
  found := by
    rw [Model.field, aside.fields]
    exact begins.found

theorem standsAt (stands : before.StandsAt path) : inside.StandsAt path :=
  stands.grown begins.openClasses begins.unit (begins.head ▸ begins.grows)

/-- Where the field ends, what was open around it is open again. -/
theorem leaves (same : inside.SameOpen closing) (ended : step .endField closing = .ok ⟨⟩ after) :
    before.SameOpen after ∧ after.model = closing.model := by
  have inField := same.fields.trans begins.openFields
  obtain rfl := endField_of_ok inField ended
  exact ⟨⟨same.classes.trans begins.openClasses, rfl,
    same.method.trans (congrArg _ begins.openMethod), same.unit.trans begins.unit,
    same.units.trans begins.grows.units⟩, rfl⟩

end BeginsField

theorem beginsField {declared : VariableDecl} (stands : before.StandsAt path)
    (begun : step (.beginField declared) before = .ok ⟨⟩ inside) :
    ∃ owner, BeginsField declared owner before inside := by
  obtain ⟨owner, outer, inClass, rfl⟩ := beginField_of_ok begun
  have head : before.openClasses.head? = some owner := by
    rw [inClass]
    rfl
  let entity := fieldEntity before.unit owner before.nextField declared before.comment before.tags
    before.uses
  have pushed : Model.Grows before.model.size before.unit (some owner) {} before.model
      (before.model.pushField entity) := .pushField (.refl _) entity
  have changed : Model.Grows before.model.size before.unit (some owner)
      { fields := [before.nextField] } (before.model.pushField entity)
      ((before.model.pushField entity).modifyClass owner fun entity =>
        { entity with fields := entity.fields ++ [before.nextField] }) :=
    .modifyClass pushed.reaches (stands.owner owner head) fun _ => by simp [ClassEntity.adding]
  refine ⟨owner, head, rfl, rfl, rfl, rfl, pushed.trans changed, ?_, before.comment, before.tags,
    before.uses, ?_⟩
  · simp [Model.size, Model.pushField, Model.modifyClass]
  · exact (Model.field_pushField _ _ _).trans (if_pos rfl)

theorem gathered_field {declared : VariableDecl} (stands : before.StandsAt path)
    (begun : step (.beginField declared) before = .ok ⟨⟩ inside)
    (aside : Aside [] inside closing) (ended : step .endField closing = .ok ⟨⟩ after) :
    Gathered path (.field declared .nothing) { fields := [before.nextField] } before after := by
  obtain ⟨owner, begins⟩ := beginsField stands begun
  have begins := begins.aside aside
  obtain ⟨same, kept⟩ := begins.leaves (.refl _) ended
  refine ⟨same, ?_, fun final settles => ?_⟩
  · rw [begins.head, kept]
    exact begins.grows
  · rw [kept] at settles ⊢
    obtain ⟨comment, tags, uses, found⟩ := begins.found
    have last : final.field before.nextField =
        fieldEntity before.unit owner before.nextField declared comment tags uses := by
      rw [settles.field before.nextField (Nat.le_refl _) begins.index_lt, found]
    rw [begins.head, begins.size]
    refine .field ?_ ?_ ?_ .nothing
    · exact last ▸ declares_fieldEntity _ _ _ _ _ _ _
    · exact last ▸ rfl
    · exact last ▸ rfl

/-- An enumeration constant with the class that its body declares. -/
theorem gathered_constant {declared : VariableDecl} {body : ClassDecl} {inner : Outline}
    {added : Members} {begun opening closed ending : Assembly} (stands : before.StandsAt path)
    (isBody : body.isConstantBody = true) (once : body.ExtendsOnce)
    (begins : step (.beginField declared) before = .ok ⟨⟩ begun)
    (gap : Aside [] begun opening) (opens : step (.beginClass body) opening = .ok ⟨⟩ inside)
    (filled : Gathered (path ++ [body.name]) inner added inside full)
    (aside : Aside [] full closing) (closes : step .endClass closing = .ok ⟨⟩ closed)
    (last : Aside [] closed ending) (ends : step .endField ending = .ok ⟨⟩ after) :
    Gathered path (.constant declared body inner .nothing) { fields := [before.nextField] }
      before after := by
  obtain ⟨owner, begins⟩ := beginsField stands begins
  have begins := begins.aside gap
  have enters := enters_body isBody begins.openFields opens
  obtain ⟨around, model⟩ := enters.leaves filled aside closes
  obtain ⟨same, kept⟩ := begins.leaves (around.trans last.sameOpen) ends
  have unit : closed.unit = before.unit := around.unit.trans begins.unit
  have older : ∀ id, some owner = some id → id.index < before.model.size.classes :=
    fun id same => stands.owner id (begins.head.trans same)
  have reaches := begins.grows.reaches
  refine ⟨same, ?_, fun final settles => ?_⟩
  · have fills := enters.fills filled aside (Nat.le_refl _) reaches older
    have further := last.grows before.model.size (some owner)
    rw [begins.unit] at fills
    rw [unit, model] at further
    rw [begins.head, kept]
    simpa using (begins.grows.trans fills).trans further
  · rw [kept] at settles ⊢
    have settled : final.Settles before.model.size before.unit closing.model := by
      rw [← unit] at settles ⊢
      exact model ▸ last.settles settles
    obtain ⟨comment, tags, uses, found⟩ := begins.found
    obtain ⟨holds, mirrors⟩ := enters.toEnters.mirrors (begins.standsAt stands) once filled aside
      (begins.unit.symm ▸ settled.beyond reaches)
    have next := begins.nextClass
    have stored : before.nextField.index < closing.model.fields.size :=
      Nat.lt_of_lt_of_le begins.index_lt
        (enters.fills filled aside (Nat.le_refl _) reaches older).reaches.fields
    have constant : final.field before.nextField =
        { fieldEntity before.unit owner before.nextField declared comment tags uses with
          bodyClass := some ⟨before.model.size.classes⟩ } := by
      rw [settled.field before.nextField (Nat.le_refl _) stored,
        enters.field_eq filled aside begins.index_lt, found, next]
    rw [begins.unit, begins.openClasses, begins.head, next] at holds
    rw [begins.unit, next, begins.size_class] at mirrors
    rw [begins.head, last.size, model]
    refine .constant ?_ ?_ ?_ holds mirrors .nothing
    · exact constant ▸ ⟨rfl, rfl, rfl, rfl, rfl, rfl, rfl⟩
    · exact constant ▸ rfl
    · exact constant ▸ rfl

/-- A method or constructor has begun and waits for its end, with the parameters so far. -/
structure Waits (isConstructor : Bool) (parameters : List VariableDecl)
    (before inside : Assembly) : Prop where
  idle : before.openMethod = none
  aside : Aside [] { before with openMethod := inside.openMethod } inside
  waiting : ∃ waiting : OpenMethod, inside.openMethod = some waiting ∧
    waiting.isConstructor = isConstructor ∧ waiting.parameters.map Prod.fst = parameters

section Waits

variable {isConstructor : Bool} {parameters : List VariableDecl}

theorem waits (begun : step (Event.beginOf isConstructor) before = .ok ⟨⟩ inside) :
    Waits isConstructor [] before inside := by
  obtain ⟨idle, rfl⟩ := beginOf_of_ok begun
  exact ⟨idle, ⟨rfl, rfl, rfl, rfl, rfl, rfl, rfl, rfl, rfl, rfl⟩, _, rfl, rfl, rfl⟩

theorem Waits.index_lt (waits : Waits isConstructor parameters before inside)
    (known : before.unit.index < before.model.units.size) :
    inside.unit.index < inside.model.units.size := by
  rw [waits.aside.unit, waits.aside.units]
  exact known

theorem Waits.trans (waits : Waits isConstructor parameters before inside)
    (aside : Aside [] inside closing) : Waits isConstructor parameters before closing where
  idle := waits.idle
  aside := (waits.aside.withMethod closing.openMethod).trans
    (aside.withMethod closing.openMethod)
  waiting := by
    rw [aside.openMethod]
    exact waits.waiting

theorem Waits.parameter {parameter : VariableDecl}
    (waits : Waits isConstructor parameters before inside)
    (stepped : step (.parameter parameter) inside = .ok ⟨⟩ after) :
    Waits isConstructor (parameters ++ [parameter]) before after := by
  obtain ⟨waiting, inMethod, sort, listed⟩ := waits.waiting
  obtain ⟨uses, rfl⟩ := parameter_of_ok inMethod stepped
  refine ⟨waits.idle, (waits.aside.withMethod _).trans ?_, _, rfl, sort, by simp [listed]⟩
  exact ⟨rfl, rfl, rfl, rfl, rfl, rfl, rfl, rfl, rfl, rfl⟩

theorem Waits.gathers {further : List VariableDecl}
    (waits : Waits isConstructor parameters before inside)
    (gathers : Gathers (further.map .parameter) inside full)
    (known : before.unit.index < before.model.units.size) :
    Waits isConstructor (parameters ++ further) before full := by
  induction further generalizing parameters inside with
  | nil =>
      rw [List.append_nil]
      exact waits.trans (gathers.aside (waits.index_lt known))
  | cons parameter further ih =>
      obtain ⟨start, between, aside, stepped, rest⟩ := gathers.cons (waits.index_lt known)
      simpa using ih ((waits.trans aside).parameter stepped) rest

end Waits

/-- A method or constructor has ended, and its entity is the next one of the model. -/
structure EndsMethod (isConstructor : Bool) (parameters : List VariableDecl)
    (declared : MethodDecl) (owner : ClassId) (before after : Assembly) : Prop where
  head : before.openClasses.head? = some owner
  same : before.SameOpen after
  grows : Model.Grows before.model.size before.unit (some owner)
    (Members.ofMethod isConstructor before.nextMethod) before.model after.model
  size : after.model.size = { before.model.size with methods := before.model.methods.size + 1 }
  found : ∃ waiting : OpenMethod, waiting.isConstructor = isConstructor ∧
    waiting.parameters.map Prod.fst = parameters ∧ after.model.method before.nextMethod =
      methodEntity before.unit owner before.nextMethod waiting declared

section Methods

variable {isConstructor : Bool} {parameters : List VariableDecl} {declared : MethodDecl}

theorem EndsMethod.index_lt {owner : ClassId}
    (ends : EndsMethod isConstructor parameters declared owner before after) :
    before.nextMethod.index < after.model.methods.size := by
  have methods : after.model.methods.size = before.model.methods.size + 1 :=
    congrArg Model.Size.methods ends.size
  rw [methods]
  exact Nat.lt_succ_self _

theorem endsMethod (stands : before.StandsAt path)
    (waits : Waits isConstructor parameters before closing)
    (ended : step (Event.endOf isConstructor declared) closing = .ok ⟨⟩ after) :
    ∃ owner, EndsMethod isConstructor parameters declared owner before after := by
  obtain ⟨idle, aside, waiting, inMethod, sort, listed⟩ := waits
  obtain ⟨owner, outer, inClass, rfl⟩ := endOf_of_ok inMethod ended
  have within : closing.openClasses = before.openClasses := aside.openClasses
  have unit : closing.unit = before.unit := aside.unit
  have size : closing.model.size = before.model.size := aside.size
  have head : before.openClasses.head? = some owner := by
    rw [← within, inClass]
    rfl
  have methods : closing.model.methods.size = before.model.methods.size :=
    congrArg Model.Size.methods size
  have next : closing.nextMethod = before.nextMethod := congrArg MethodId.mk methods
  let entity := methodEntity before.unit owner before.nextMethod waiting declared
  let added := Members.ofMethod isConstructor before.nextMethod
  have waited : Model.Grows before.model.size before.unit (some owner) {} before.model
      closing.model := aside.grows _ _
  have pushed : Model.Grows before.model.size before.unit (some owner) {} closing.model
      (closing.model.pushMethod entity) := .pushMethod waited.reaches entity
  have changed : Model.Grows before.model.size before.unit (some owner) added
      (closing.model.pushMethod entity)
      ((closing.model.pushMethod entity).modifyClass owner (·.adding added)) :=
    .modifyClass (waited.trans pushed).reaches (stands.owner owner head) fun _ => rfl
  rw [unit, next]
  refine ⟨owner, head, ⟨within, aside.openFields, by simp [idle], rfl,
    congrArg Model.Size.units size⟩, (waited.trans pushed).trans changed, ?_, waiting, sort,
    listed, ?_⟩
  · have pushes : { closing.model.size with methods := closing.model.methods.size + 1 } =
        { before.model.size with methods := before.model.methods.size + 1 } := by
      rw [methods, size]
    rw [← pushes]
    simp [Model.size, Model.pushMethod, Model.modifyClass]
  · exact (Model.method_pushMethod _ entity _).trans (if_pos methods.symm)

theorem gathered_method (stands : before.StandsAt path)
    (waits : Waits isConstructor parameters before closing)
    (ended : step (Event.endOf isConstructor declared) closing = .ok ⟨⟩ after) :
    Gathered path (.method isConstructor parameters declared .nothing)
      (Members.ofMethod isConstructor before.nextMethod) before after := by
  obtain ⟨owner, ends⟩ := endsMethod stands waits ended
  refine ⟨ends.same, ?_, fun final settles => ?_⟩
  · rw [ends.head]
    exact ends.grows
  · obtain ⟨waiting, sort, listed, found⟩ := ends.found
    have last : final.method before.nextMethod =
        methodEntity before.unit owner before.nextMethod waiting declared := by
      rw [settles.method before.nextMethod (Nat.le_refl _) ends.index_lt, found]
    have declares := declares_methodEntity before.unit owner before.nextMethod waiting declared
    rw [sort, listed] at declares
    rw [ends.head, ends.size, ← Members.append_nothing (Members.ofMethod isConstructor _)]
    refine .method ?_ ?_ .nothing
    · exact last ▸ declares
    · exact last ▸ rfl

end Methods

end Declarations

/-- Events that are no parts, a declaration, and then others. -/
theorem Gathered.followed {path : List String} {outline rest : Outline} {added : Members}
    {before start between after : Assembly} (gap : Aside [] before start)
    (first : Gathered path outline added start between)
    (second : ∃ others, Gathered path rest others between after) (stands : before.StandsAt path) :
    ∃ members, Gathered path (outline.append rest) members before after := by
  obtain ⟨others, second⟩ := second
  exact ⟨_, (Gathered.ofAside gap).append (first.append second (stands.aside gap)) stands⟩

/-- The declarations of an outline are assembled from its parts, by induction on the
outline.  What stands in a class is assembled in it. -/
theorem gathered_outline {outline : Outline} (formed : outline.Formed) {path : List String}
    {before after : Assembly} (stands : before.StandsAt path)
    (gathers : Gathers outline.events before after) :
    ∃ added, Gathered path outline added before after := by
  induction outline generalizing path before after with
  | nothing => exact ⟨{}, .ofAside (gathers.aside stands.inside)⟩
  | aClass declared inner rest innerIh ih =>
      obtain ⟨plain, once, filled, further⟩ := formed
      obtain ⟨start, inside, gap, begun, gathers⟩ := gathers.cons stands.inside
      obtain ⟨full, inner, gathers⟩ := gathers.append
      have begins := stands.aside gap
      have within := (enters_class plain begins begun).1.standsAt begins
      obtain ⟨added, inner⟩ := innerIh filled within inner
      obtain ⟨closing, ended, aside, closes, gathers⟩ :=
        gathers.cons (inner.standsAt within).inside
      have first := gathered_class begins plain once begun inner aside closes
      exact first.followed gap (ih further (first.standsAt begins) gathers) stands
  | field declared rest ih =>
      obtain ⟨start, inside, gap, begun, gathers⟩ := gathers.cons stands.inside
      have begins := stands.aside gap
      obtain ⟨owner, field⟩ := beginsField begins begun
      obtain ⟨closing, ended, aside, closes, gathers⟩ :=
        gathers.cons (field.standsAt begins).inside
      have first := gathered_field begins begun aside closes
      exact first.followed gap (ih formed (first.standsAt begins) gathers) stands
  | constant declared body inner rest innerIh ih =>
      obtain ⟨isBody, once, filled, further⟩ := formed
      obtain ⟨start, begun, gap, begin, gathers⟩ := gathers.cons stands.inside
      have begins := stands.aside gap
      obtain ⟨owner, field⟩ := beginsField begins begin
      obtain ⟨opening, inside, second, opens, gathers⟩ :=
        gathers.cons (field.standsAt begins).inside
      obtain ⟨full, inner, gathers⟩ := gathers.append
      have field := field.aside second
      have enters := (enters_body isBody field.openFields opens).toEnters
      have within := enters.standsAt (field.standsAt begins)
      obtain ⟨added, inner⟩ := innerIh filled within inner
      have stays := inner.standsAt within
      obtain ⟨closing, closed, aside, closes, gathers⟩ := gathers.cons stays.inside
      obtain ⟨around, -⟩ := enters.leaves inner aside closes
      have known : closed.unit.index < closed.model.units.size := by
        rw [around.unit, around.units]
        exact (field.standsAt begins).inside
      obtain ⟨ending, ended, last, ends, gathers⟩ := gathers.cons known
      have first := gathered_constant begins isBody once begin second opens inner aside closes
        last ends
      exact first.followed gap (ih further (first.standsAt begins) gathers) stands
  | method isConstructor parameters declared rest ih =>
      obtain ⟨start, inside, gap, begun, gathers⟩ := gathers.cons stands.inside
      obtain ⟨full, parameters, gathers⟩ := gathers.append
      have begins := stands.aside gap
      have waits := (waits begun).gathers parameters begins.inside
      obtain ⟨closing, ended, aside, ends, gathers⟩ :=
        gathers.cons (waits.index_lt begins.inside)
      have first := gathered_method begins (waits.trans aside) ends
      exact first.followed gap (ih formed (first.standsAt begins) gathers) stands
  | initializer declared rest ih =>
      obtain ⟨start, between, gap, stepped, gathers⟩ := gathers.cons stands.inside
      have begins := stands.aside gap
      have first := gathered_initializer begins stepped
      exact first.followed gap (ih formed (first.standsAt begins) gathers) stands

end Assembly

end JavaDecl
