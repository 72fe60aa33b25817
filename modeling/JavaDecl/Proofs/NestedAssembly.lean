import JavaDecl.Model.Assembly
import JavaDecl.Proofs.AssemblySteps
import JavaDecl.Proofs.ModelTables
import JavaDecl.Proofs.UnitReading

/-!
# Assembling events that nest

A unit whose events nest is assembled without a violation, and so is every front of
such events.  Since the events of a source text nest, no source text leads to a
violation.
-/

namespace JavaDecl

namespace Assembly

/-! ### What has begun -/

/-- The same declarations have begun and not ended. -/
structure SameOpen (before after : Assembly) : Prop where
  classes : after.openClasses = before.openClasses
  fields : after.openFields = before.openFields
  method : after.openMethod.map OpenMethod.isConstructor =
    before.openMethod.map OpenMethod.isConstructor
  unit : after.unit = before.unit
  units : after.model.units.size = before.model.units.size

theorem SameOpen.refl (assembly : Assembly) : assembly.SameOpen assembly :=
  ⟨rfl, rfl, rfl, rfl, rfl⟩

theorem SameOpen.trans {first second third : Assembly} (one : first.SameOpen second)
    (other : second.SameOpen third) : first.SameOpen third where
  classes := other.classes.trans one.classes
  fields := other.fields.trans one.fields
  method := other.method.trans one.method
  unit := other.unit.trans one.unit
  units := other.units.trans one.units

/-- An assembly stands in a surrounding. -/
def StandsIn (assembly : Assembly) : Surrounding → Prop
  | .unit => assembly.openClasses = [] ∧ assembly.openFields = [] ∧
      assembly.openMethod = none ∧ assembly.unit.index < assembly.model.units.size
  | .inClass => assembly.openClasses ≠ [] ∧ assembly.openMethod = none
  | .inField => assembly.openClasses ≠ [] ∧ assembly.openFields ≠ [] ∧
      assembly.openMethod = none
  | .inMethod isConstructor => assembly.openClasses ≠ [] ∧
      assembly.openMethod.map OpenMethod.isConstructor = some isConstructor

theorem SameOpen.standsIn {before after : Assembly} (same : before.SameOpen after)
    {surrounding : Surrounding} (stands : before.StandsIn surrounding) :
    after.StandsIn surrounding := by
  have method : before.openMethod = none → after.openMethod = none := by
    intro nothing
    simpa [nothing] using same.method
  cases surrounding with
  | unit =>
      obtain ⟨classes, fields, nothing, inside⟩ := stands
      exact ⟨by rw [same.classes, classes], by rw [same.fields, fields], method nothing,
        by rw [same.unit, same.units]; exact inside⟩
  | inClass => exact ⟨by rw [same.classes]; exact stands.1, method stands.2⟩
  | inField =>
      exact ⟨by rw [same.classes]; exact stands.1, by rw [same.fields]; exact stands.2.1,
        method stands.2.2⟩
  | inMethod isConstructor =>
      exact ⟨by rw [same.classes]; exact stands.1, by rw [same.method]; exact stands.2⟩

/-! ### Taking events -/

/-- Events are taken without a violation. -/
def Takes (events : List Event) (before after : Assembly) : Prop :=
  steps events before = .ok ⟨⟩ after

theorem Takes.nil (assembly : Assembly) : Takes [] assembly assembly :=
  rfl

theorem takes_cons {event : Event} {events : List Event} {before after : Assembly} :
    Takes (event :: events) before after ↔
      ∃ between, step event before = .ok ⟨⟩ between ∧ Takes events between after := by
  unfold Takes
  change (step event >>= fun _ => steps events) before = _ ↔ _
  simp only [Bind.bind, EStateM.bind]
  cases step event before with
  | ok value between => simp
  | error violation between => simp

theorem takes_append {front back : List Event} {before after : Assembly} :
    Takes (front ++ back) before after ↔
      ∃ between, Takes front before between ∧ Takes back between after := by
  induction front generalizing before with
  | nil =>
      refine ⟨fun taken => ⟨before, rfl, taken⟩, fun ⟨_, same, taken⟩ => ?_⟩
      cases same
      exact taken
  | cons event front ih =>
      rw [List.cons_append, takes_cons]
      constructor
      · rintro ⟨first, stepped, taken⟩
        obtain ⟨between, fronts, backs⟩ := ih.mp taken
        exact ⟨between, takes_cons.mpr ⟨first, stepped, fronts⟩, backs⟩
      · rintro ⟨between, fronts, backs⟩
        obtain ⟨first, stepped, taken⟩ := takes_cons.mp fronts
        exact ⟨first, stepped, ih.mpr ⟨between, taken, backs⟩⟩

/-! ### Single events -/

theorem step_comment {event : Event} (isComment : event.isComment) (before : Assembly) :
    ∃ after, step event before = .ok ⟨⟩ after ∧ before.SameOpen after ∧
      after.model = before.model := by
  cases event with
  | docText text => exact ⟨_, rfl, ⟨rfl, rfl, rfl, rfl, rfl⟩, rfl⟩
  | docTag tag => exact ⟨_, rfl, ⟨rfl, rfl, rfl, rfl, rfl⟩, rfl⟩
  | _ => cases isComment

theorem takes_comments {events : List Event} (comments : ∀ event ∈ events, event.isComment)
    (before : Assembly) :
    ∃ after, Takes events before after ∧ before.SameOpen after := by
  induction events generalizing before with
  | nil => exact ⟨before, rfl, .refl before⟩
  | cons event events ih =>
      obtain ⟨between, stepped, same, -⟩ := step_comment (comments event (by simp)) before
      obtain ⟨after, taken, further⟩ :=
        ih (fun other member => comments other (by simp [member])) between
      exact ⟨after, takes_cons.mpr ⟨between, stepped, taken⟩, same.trans further⟩

theorem takes_annotating (uses : List (AnnotationUse TypeExpr)) (before : Assembly) :
    ∃ after, Takes (annotating uses) before after ∧ before.SameOpen after := by
  induction uses generalizing before with
  | nil => exact ⟨before, rfl, .refl before⟩
  | cons use uses ih =>
      obtain ⟨after, taken, same⟩ := ih { before with uses := before.uses ++ [use] }
      have waiting : before.SameOpen { before with uses := before.uses ++ [use] } :=
        ⟨rfl, rfl, rfl, rfl, rfl⟩
      exact ⟨after, takes_cons.mpr ⟨_, rfl, taken⟩, waiting.trans same⟩

theorem step_package (declared : PackageDecl) (before : Assembly) :
    ∃ after, step (.package declared) before = .ok ⟨⟩ after ∧ before.SameOpen after :=
  ⟨_, rfl, ⟨rfl, rfl, rfl, rfl, by simp [Model.modifyUnit]⟩⟩

theorem step_imported (declared : ImportDecl) (before : Assembly) :
    ∃ after, step (.imported declared) before = .ok ⟨⟩ after ∧ before.SameOpen after :=
  ⟨_, rfl, ⟨rfl, rfl, rfl, rfl, by simp [Model.modifyUnit]⟩⟩

def HasModule (assembly : Assembly) : Prop :=
  (assembly.model.unit assembly.unit).moduleDecl.isSome

theorem step_moduleHeader (declared : ModuleDecl) {before : Assembly}
    (inside : before.unit.index < before.model.units.size) :
    ∃ after, step (.moduleHeader declared) before = .ok ⟨⟩ after ∧ before.SameOpen after ∧
      after.HasModule := by
  refine ⟨_, rfl, ⟨rfl, rfl, rfl, rfl, by simp [Model.modifyUnit]⟩, ?_⟩
  simp [HasModule, Model.unit_modifyUnit, inside]

theorem changeModule_takes (name : String) (update : ModuleEntity → ModuleEntity)
    {before : Assembly} (inside : before.unit.index < before.model.units.size)
    (present : before.HasModule) :
    ∃ after, changeModule name update before = .ok ⟨⟩ after ∧ before.SameOpen after ∧
      after.HasModule := by
  obtain ⟨entity, found⟩ := Option.isSome_iff_exists.mp present
  refine ⟨_, (changeModule_of_some found).trans rfl,
    ⟨rfl, rfl, rfl, rfl, by simp [Model.modifyUnit]⟩, ?_⟩
  simp [HasModule, Model.unit_modifyUnit, inside]

theorem step_directive {event : Event} (isDirective : event.isDirective) {before : Assembly}
    (inside : before.unit.index < before.model.units.size) (present : before.HasModule) :
    ∃ after, step event before = .ok ⟨⟩ after ∧ before.SameOpen after ∧ after.HasModule := by
  cases event with
  | requires directive => exact changeModule_takes _ _ inside present
  | exported directive => exact changeModule_takes _ _ inside present
  | opened directive => exact changeModule_takes _ _ inside present
  | uses directive => exact changeModule_takes _ _ inside present
  | provides directive => exact changeModule_takes _ _ inside present
  | _ => cases isDirective

theorem takes_directives {events : List Event}
    (directives : ∀ event ∈ events, event.isDirective ∨ event.isComment) {before : Assembly}
    (inside : before.unit.index < before.model.units.size) (present : before.HasModule) :
    ∃ after, Takes events before after ∧ before.SameOpen after := by
  induction events generalizing before with
  | nil => exact ⟨before, rfl, .refl before⟩
  | cons event events ih =>
      have one : ∃ between, step event before = .ok ⟨⟩ between ∧ before.SameOpen between ∧
          between.HasModule := by
        rcases directives event (by simp) with isDirective | isComment
        · exact step_directive isDirective inside present
        · obtain ⟨between, stepped, same, kept⟩ := step_comment isComment before
          exact ⟨between, stepped, same, by rw [HasModule, kept, same.unit]; exact present⟩
      obtain ⟨between, stepped, same, stays⟩ := one
      obtain ⟨after, taken, further⟩ :=
        ih (fun other member => directives other (by simp [member]))
          (by rw [same.unit, same.units]; exact inside) stays
      exact ⟨after, takes_cons.mpr ⟨between, stepped, taken⟩, same.trans further⟩

theorem step_initializer (declared : InitializerDecl) {before : Assembly}
    (inClass : before.openClasses ≠ []) :
    ∃ after, step (.initializer declared) before = .ok ⟨⟩ after ∧ before.SameOpen after := by
  obtain ⟨model, unit, classes, fields, method, comment, tags, uses⟩ := before
  cases classes with
  | nil => exact absurd rfl inClass
  | cons owner outer => exact ⟨_, rfl, rfl, rfl, rfl, rfl, rfl⟩

theorem step_parameter (declared : VariableDecl) {before : Assembly} {isConstructor : Bool}
    (inMethod : before.openMethod.map OpenMethod.isConstructor = some isConstructor) :
    ∃ after, step (.parameter declared) before = .ok ⟨⟩ after ∧ before.SameOpen after := by
  obtain ⟨model, unit, classes, fields, method, comment, tags, uses⟩ := before
  cases method with
  | none => cases inMethod
  | some waiting => exact ⟨_, rfl, rfl, rfl, rfl, rfl, rfl⟩

theorem takes_parameter (declared : VariableDecl) {before : Assembly} {isConstructor : Bool}
    (inMethod : before.openMethod.map OpenMethod.isConstructor = some isConstructor) :
    ∃ after, Takes [.parameter declared] before after ∧ before.SameOpen after := by
  obtain ⟨after, stepped, same⟩ := step_parameter declared inMethod
  exact ⟨after, takes_cons.mpr ⟨after, stepped, .nil after⟩, same⟩

/-! ### Beginnings and ends -/

def MayBegin (assembly : Assembly) (declared : ClassDecl) : Prop :=
  declared.isConstantBody → assembly.openClasses ≠ [] ∧ assembly.openFields ≠ []

theorem StandsIn.mayBegin {assembly : Assembly} {surrounding : Surrounding}
    {declared : ClassDecl} (stands : assembly.StandsIn surrounding)
    (admits : surrounding.Admits declared) : assembly.MayBegin declared := by
  intro isBody
  cases surrounding with
  | unit => simp_all [Surrounding.Admits]
  | inClass => simp_all [Surrounding.Admits]
  | inField => exact ⟨stands.1, stands.2.1⟩
  | inMethod _ => exact admits.elim

theorem StandsIn.noMethod {assembly : Assembly} {surrounding : Surrounding}
    {declared : ClassDecl} (stands : assembly.StandsIn surrounding)
    (admits : surrounding.Admits declared) : assembly.openMethod = none := by
  cases surrounding with
  | unit => exact stands.2.2.1
  | inClass => exact stands.2
  | inField => exact stands.2.2
  | inMethod _ => exact admits.elim

theorem step_beginClass {declared : ClassDecl} {before : Assembly}
    (may : before.MayBegin declared) :
    ∃ id after, step (.beginClass declared) before = .ok ⟨⟩ after ∧
      { before with openClasses := id :: before.openClasses }.SameOpen after := by
  obtain ⟨model, unit, classes, fields, method, comment, tags, uses⟩ := before
  obtain ⟨_, _, _, _, _, _, _, isBody⟩ := declared
  cases isBody with
  | true =>
      obtain ⟨inClass, inField⟩ := may rfl
      cases classes with
      | nil => exact absurd rfl inClass
      | cons outer rest =>
          cases fields with
          | nil => exact absurd rfl inField
          | cons field others => exact ⟨_, _, rfl, rfl, rfl, rfl, rfl, rfl⟩
  | false =>
      cases classes with
      | nil => exact ⟨_, _, rfl, rfl, rfl, rfl, rfl, by simp [Model.modifyUnit, Model.pushClass]⟩
      | cons outer rest => exact ⟨_, _, rfl, rfl, rfl, rfl, rfl, rfl⟩

theorem step_endClass {before : Assembly} {id : ClassId} {outer : List ClassId}
    (opened : before.openClasses = id :: outer) :
    ∃ after, step .endClass before = .ok ⟨⟩ after ∧
      { before with openClasses := outer }.SameOpen after := by
  obtain ⟨model, unit, classes, fields, method, comment, tags, uses⟩ := before
  cases opened
  exact ⟨_, rfl, rfl, rfl, rfl, rfl, rfl⟩

theorem step_beginField (declared : VariableDecl) {before : Assembly}
    (stands : before.StandsIn .inClass) :
    ∃ id after, step (.beginField declared) before = .ok ⟨⟩ after ∧
      { before with openFields := id :: before.openFields }.SameOpen after := by
  obtain ⟨model, unit, classes, fields, method, comment, tags, uses⟩ := before
  obtain ⟨inClass, rfl⟩ := stands
  cases classes with
  | nil => exact absurd rfl inClass
  | cons owner outer => exact ⟨_, _, rfl, rfl, rfl, rfl, rfl, rfl⟩

theorem step_endField {before : Assembly} {id : FieldId} {outer : List FieldId}
    (opened : before.openFields = id :: outer) :
    ∃ after, step .endField before = .ok ⟨⟩ after ∧
      { before with openFields := outer }.SameOpen after := by
  obtain ⟨model, unit, classes, fields, method, comment, tags, uses⟩ := before
  cases opened
  exact ⟨_, rfl, rfl, rfl, rfl, rfl, rfl⟩

theorem step_beginOf (isConstructor : Bool) {before : Assembly}
    (stands : before.StandsIn .inClass) :
    ∃ waiting after, step (Event.beginOf isConstructor) before = .ok ⟨⟩ after ∧
      waiting.isConstructor = isConstructor ∧
        { before with openMethod := some waiting }.SameOpen after := by
  obtain ⟨model, unit, classes, fields, method, comment, tags, uses⟩ := before
  obtain ⟨inClass, rfl⟩ := stands
  cases classes with
  | nil => exact absurd rfl inClass
  | cons owner outer =>
      cases isConstructor with
      | true => exact ⟨_, _, rfl, rfl, rfl, rfl, rfl, rfl, rfl⟩
      | false => exact ⟨_, _, rfl, rfl, rfl, rfl, rfl, rfl, rfl⟩

theorem step_endOf {isConstructor : Bool} (declared : MethodDecl) {before : Assembly}
    (stands : before.StandsIn (.inMethod isConstructor)) :
    ∃ after, step (Event.endOf isConstructor declared) before = .ok ⟨⟩ after ∧
      { before with openMethod := none }.SameOpen after := by
  obtain ⟨model, unit, classes, fields, method, comment, tags, uses⟩ := before
  obtain ⟨inClass, inMethod⟩ := stands
  cases classes with
  | nil => exact absurd rfl inClass
  | cons owner outer =>
      obtain ⟨⟨sort, _, _, _, _⟩, rfl, rfl⟩ := Option.map_eq_some_iff.mp inMethod
      cases sort with
      | true => exact ⟨_, rfl, rfl, rfl, rfl, rfl, rfl⟩
      | false => exact ⟨_, rfl, rfl, rfl, rfl, rfl, rfl⟩

/-! ### Events that nest -/

theorem Takes.append {front back : List Event} {before between after : Assembly}
    (first : Takes front before between) (second : Takes back between after) :
    Takes (front ++ back) before after :=
  takes_append.mpr ⟨between, first, second⟩

theorem Takes.cons {event : Event} {events : List Event} {before between after : Assembly}
    (first : step event before = .ok ⟨⟩ between) (second : Takes events between after) :
    Takes (event :: events) before after :=
  takes_cons.mpr ⟨between, first, second⟩

theorem takes_package (declared : PackageDecl) {gap : List Event} {before : Assembly}
    (comments : ∀ event ∈ gap, event.isComment) :
    ∃ after, Takes (gap ++ [.package declared]) before after ∧ before.SameOpen after := by
  obtain ⟨between, commented, first⟩ := takes_comments comments before
  obtain ⟨after, stepped, second⟩ := step_package declared between
  exact ⟨after, commented.append (.cons stepped (.nil after)), first.trans second⟩

theorem takes_module (declared : ModuleDecl) {gap directives : List Event} {before : Assembly}
    (stands : before.StandsIn .unit) (comments : ∀ event ∈ gap, event.isComment)
    (known : ∀ event ∈ directives, event.isDirective ∨ event.isComment) :
    ∃ after, Takes (gap ++ .moduleHeader declared :: directives) before after ∧
      before.SameOpen after := by
  obtain ⟨one, commented, first⟩ := takes_comments comments before
  have stays := first.standsIn stands
  obtain ⟨two, stepped, second, present⟩ := step_moduleHeader declared stays.2.2.2
  obtain ⟨after, directed, third⟩ := takes_directives known (second.standsIn stays).2.2.2 present
  exact ⟨after, commented.append (.cons stepped directed), first.trans (second.trans third)⟩

theorem takes_class {surrounding : Surrounding} {declared : ClassDecl} {inner : List Event}
    {before : Assembly} (stands : before.StandsIn surrounding)
    (admits : surrounding.Admits declared)
    (fills : ∀ {inside : Assembly}, inside.StandsIn .inClass →
      ∃ full, Takes inner inside full ∧ inside.SameOpen full) :
    ∃ after, Takes (.beginClass declared :: (inner ++ [.endClass])) before after ∧
      before.SameOpen after := by
  obtain ⟨id, inside, opened, begun⟩ := step_beginClass (stands.mayBegin admits)
  have inClass : inside.StandsIn .inClass := by
    refine ⟨by rw [begun.classes]; simp, ?_⟩
    simpa [stands.noMethod admits] using begun.method
  obtain ⟨full, filled, kept⟩ := fills inClass
  have whole := begun.trans kept
  obtain ⟨after, closed, ended⟩ := step_endClass whole.classes
  exact ⟨after, .cons opened (filled.append (.cons closed (.nil after))), ended.classes,
    ended.fields.trans whole.fields, ended.method.trans whole.method,
    ended.unit.trans whole.unit, ended.units.trans whole.units⟩

theorem takes_field (declared : VariableDecl) {inner : List Event} {before : Assembly}
    (stands : before.StandsIn .inClass)
    (fills : ∀ {inside : Assembly}, inside.StandsIn .inField →
      ∃ full, Takes inner inside full ∧ inside.SameOpen full) :
    ∃ after, Takes (.beginField declared :: (inner ++ [.endField])) before after ∧
      before.SameOpen after := by
  obtain ⟨id, inside, opened, begun⟩ := step_beginField declared stands
  have inField : inside.StandsIn .inField := by
    refine ⟨by rw [begun.classes]; exact stands.1, by rw [begun.fields]; simp, ?_⟩
    simpa [stands.2] using begun.method
  obtain ⟨full, filled, kept⟩ := fills inField
  have whole := begun.trans kept
  obtain ⟨after, closed, ended⟩ := step_endField whole.fields
  exact ⟨after, .cons opened (filled.append (.cons closed (.nil after))),
    ended.classes.trans whole.classes, ended.fields, ended.method.trans whole.method,
    ended.unit.trans whole.unit, ended.units.trans whole.units⟩

/-- A method or constructor with what nests inside of it. -/
theorem takes_method {isConstructor : Bool} (declared : MethodDecl) {inner : List Event}
    {before : Assembly} (stands : before.StandsIn .inClass)
    (fills : ∀ {inside : Assembly}, inside.StandsIn (.inMethod isConstructor) →
      ∃ full, Takes inner inside full ∧ inside.SameOpen full) :
    ∃ after, Takes (Event.beginOf isConstructor ::
        (inner ++ [Event.endOf isConstructor declared])) before after ∧
      before.SameOpen after := by
  obtain ⟨waiting, inside, opened, sort, begun⟩ := step_beginOf isConstructor stands
  have inMethod : inside.StandsIn (.inMethod isConstructor) := by
    refine ⟨by rw [begun.classes]; exact stands.1, ?_⟩
    simpa [sort] using begun.method
  obtain ⟨full, filled, kept⟩ := fills inMethod
  have whole := begun.trans kept
  obtain ⟨after, closed, ended⟩ := step_endOf declared (kept.standsIn inMethod)
  have noMethod : after.openMethod = none := by simpa using ended.method
  exact ⟨after, .cons opened (filled.append (.cons closed (.nil after))),
    ended.classes.trans whole.classes, ended.fields.trans whole.fields,
    by rw [noMethod, stands.2], ended.unit.trans whole.unit, ended.units.trans whole.units⟩

theorem takes_annotated (uses : List (AnnotationUse TypeExpr)) {declaration rest : List Event}
    {before : Assembly} {surrounding : Surrounding} (stands : before.StandsIn surrounding)
    (declares : ∀ {start : Assembly}, start.StandsIn surrounding →
      ∃ done, Takes declaration start done ∧ start.SameOpen done)
    (further : ∀ {done : Assembly}, done.StandsIn surrounding →
      ∃ after, Takes rest done after ∧ done.SameOpen after) :
    ∃ after, Takes (annotating uses ++ (declaration ++ rest)) before after ∧
      before.SameOpen after := by
  obtain ⟨start, annotated, waits⟩ := takes_annotating uses before
  obtain ⟨done, declared, same⟩ := declares (waits.standsIn stands)
  have stays := waits.trans same
  obtain ⟨after, taken, last⟩ := further (stays.standsIn stands)
  exact ⟨after, annotated.append (declared.append taken), stays.trans last⟩

/-- Events that nest in a surrounding are taken without a violation, and leave the same
declarations open. -/
theorem takes_nested {surrounding : Surrounding} {events : List Event}
    (nested : Nested surrounding events) {before : Assembly}
    (stands : before.StandsIn surrounding) :
    ∃ after, Takes events before after ∧ before.SameOpen after := by
  induction nested generalizing before with
  | nothing => exact ⟨before, rfl, .refl before⟩
  | comment isComment _ ih =>
      obtain ⟨between, stepped, same, -⟩ := step_comment isComment before
      obtain ⟨after, taken, further⟩ := ih (same.standsIn stands)
      exact ⟨after, .cons stepped taken, same.trans further⟩
  | @package uses gap rest declared comments _ ih =>
      simpa using takes_annotated uses stands (fun _ => takes_package declared comments) ih
  | @imported declared rest _ ih =>
      obtain ⟨between, stepped, same⟩ := step_imported declared before
      obtain ⟨after, taken, further⟩ := ih (same.standsIn stands)
      exact ⟨after, .cons stepped taken, same.trans further⟩
  | @moduleHeader uses gap directives rest declared comments known _ ih =>
      simpa using takes_annotated uses stands
        (fun start => takes_module declared start comments known) ih
  | @aClass surrounding uses declared inner rest admits _ _ innerIh restIh =>
      simpa using takes_annotated uses stands (fun start => takes_class start admits innerIh) restIh
  | @initializer declared rest _ ih =>
      obtain ⟨between, stepped, same⟩ := step_initializer declared stands.1
      obtain ⟨after, taken, further⟩ := ih (same.standsIn stands)
      exact ⟨after, .cons stepped taken, same.trans further⟩
  | @field uses declared inner rest _ _ innerIh restIh =>
      simpa using
        takes_annotated uses stands (fun start => takes_field declared start innerIh) restIh
  | @method isConstructor uses declared inner rest _ _ innerIh restIh =>
      simpa using
        takes_annotated uses stands (fun start => takes_method declared start innerIh) restIh
  | @parameter isConstructor uses declared rest _ ih =>
      simpa using takes_annotated uses stands (fun start => takes_parameter declared start.2) ih

theorem standsIn_ofModel (model : Model) : (ofModel model).StandsIn .unit :=
  ⟨rfl, rfl, rfl, by simp [ofModel, Model.pushUnit]⟩

end Assembly

/-! ### Units of source texts -/

/-- The front of events that nest is added without a violation. -/
theorem Model.addEvents_of_nested (model : Model) {events missing : List Event}
    (nested : Nested .unit (events ++ missing)) : (model.addEvents events).2 = .ok ⟨⟩ := by
  obtain ⟨after, taken, -⟩ := Assembly.takes_nested nested (Assembly.standsIn_ofModel model)
  obtain ⟨between, front, -⟩ := Assembly.takes_append.mp taken
  unfold Assembly.Takes at front
  simp [addEvents, EStateM.run, front]

/-- Events that are taken and leave nothing open add the next unit of the model. -/
theorem Model.addUnit_of_takes (model : Model) {events : List Event} {after : Assembly}
    (taken : Assembly.Takes events (.ofModel model) after)
    (same : (Assembly.ofModel model).SameOpen after) :
    model.addUnit events = (after.model, .ok ⟨model.units.size⟩) := by
  obtain ⟨classes, fields, method, -⟩ := same.standsIn (Assembly.standsIn_ofModel model)
  have finished : Assembly.finish after = .ok after.unit after := by
    simp [Assembly.finish, Assembly.get_bind, classes, fields, method, Pure.pure, EStateM.pure]
  have ran : (Assembly.steps events *> Assembly.finish).run (Assembly.ofModel model) =
      .ok after.unit after := by
    unfold Assembly.Takes at taken
    simp only [SeqRight.seqRight, EStateM.seqRight, EStateM.run, taken, finished]
  have last : after.unit = ⟨model.units.size⟩ := same.unit
  simp [addUnit, ran, last]

/-- The unit of events that nest is added, as the next one of the model. -/
theorem Model.addUnit_of_nested (model : Model) {events : List Event}
    (nested : Nested .unit events) :
    (model.addUnit events).2 = .ok ⟨model.units.size⟩ := by
  obtain ⟨after, taken, same⟩ :=
    Assembly.takes_nested nested (Assembly.standsIn_ofModel model)
  rw [model.addUnit_of_takes taken same]

/-- Reading a source text never runs out of budget.  The events that it announces are
added to every model without a violation.  If the text is accepted, they nest and the
unit is added; if it is refused, they are the front of events that nest. -/
theorem readUnit_nests (source : List Char) (model : Model) :
    (∀ place, (readUnit source).2 ≠ some (.invalidSyntax "nesting too deep" place)) ∧
      (model.addEvents (readUnit source).1).2 = .ok ⟨⟩ ∧
      ((readUnit source).2 = none →
        Nested .unit (readUnit source).1 ∧
          (model.addUnit (readUnit source).1).2 = .ok ⟨model.units.size⟩) ∧
      ∃ missing, Nested .unit ((readUnit source).1 ++ missing) := by
  obtain ⟨missing, nested, complete, known⟩ := readUnit_announces source
  refine ⟨fun place refused => ?_, model.addEvents_of_nested nested, fun accepted => ?_,
    missing, nested⟩
  · exact known _ refused ⟨place, rfl⟩
  · have whole : Nested .unit (readUnit source).1 := by
      simpa [complete accepted] using nested
    exact ⟨whole, model.addUnit_of_nested whole⟩

end JavaDecl
