import JavaDecl.Proofs.AssemblySteps
import JavaDecl.Proofs.ModelTables
import JavaDecl.Session

/-!
# Builds that fail

No step in the assembly of a unit touches what the model had before the unit, so a
model that is cut back to its earlier size is as it was.  A build that fails leaves
the whole session unchanged.
-/

namespace JavaDecl

namespace Model

/-- All names are names of classes that the model has. -/
def NamesInside (model : Model) : Prop :=
  ∀ name id, model.classNamed? name = some id → id.index < model.classes.size

theorem NamesInside.empty : NamesInside {} := by
  intro name id named
  simp [classNamed?] at named

theorem NamesInside.pushClass {model : Model} (inside : model.NamesInside)
    (entity : ClassEntity) : (model.pushClass entity).NamesInside := by
  intro name id named
  have larger : (model.pushClass entity).classes.size = model.classes.size + 1 :=
    Array.size_push ..
  rw [classNamed?_pushClass] at named
  rw [larger]
  split at named
  · obtain rfl := Option.some.inj named
    exact Nat.lt_succ_self _
  · exact Nat.lt_succ_of_lt (inside name id named)

theorem NamesInside.truncate {model : Model} (inside : model.NamesInside) (size : Size) :
    (model.truncate size).NamesInside := by
  intro name id named
  have kept : ((model.classNamed? name).filter fun id => id.index < size.classes) = some id := by
    simpa [classNamed?, Model.truncate] using named
  obtain ⟨known, small⟩ := Option.filter_eq_some_iff.mp kept
  have few : (model.truncate size).classes.size = min size.classes model.classes.size := by
    simp [Model.truncate]
  rw [few]
  exact Nat.lt_min.mpr ⟨by simpa using small, inside name id known⟩

theorem Extends.refl {model : Model} (inside : model.NamesInside) : model.Extends model where
  units := .refl _
  classes := .refl _
  methods := .refl _
  fields := .refl _
  names := by
    intro name
    cases named : model.classNamed? name with
    | none => rfl
    | some id => simp [inside name id named]

/-- A new class is found under no name that an earlier class has. -/
theorem Extends.pushClass {base model : Model} (grown : base.Extends model)
    (entity : ClassEntity) : base.Extends (model.pushClass entity) where
  units := grown.units
  classes := grown.classes.push entity
  methods := grown.methods
  fields := grown.fields
  names := by
    intro name
    rw [classNamed?_pushClass]
    split
    · next unknown =>
        have beyond := grown.classes.size_le
        rw [← grown.names name, Option.isNone_iff_eq_none.mp unknown.1]
        simpa using beyond
    · exact grown.names name

theorem Extends.pushUnit {base model : Model} (grown : base.Extends model)
    (entity : UnitEntity) : base.Extends (model.pushUnit entity) :=
  { grown with units := grown.units.push entity }

theorem Extends.pushMethod {base model : Model} (grown : base.Extends model)
    (entity : MethodEntity) : base.Extends (model.pushMethod entity) :=
  { grown with methods := grown.methods.push entity }

theorem Extends.pushField {base model : Model} (grown : base.Extends model)
    (entity : FieldEntity) : base.Extends (model.pushField entity) :=
  { grown with fields := grown.fields.push entity }

theorem Extends.modifyUnit {base model : Model} (grown : base.Extends model) {id : UnitId}
    (beyond : base.units.size ≤ id.index) (change : UnitEntity → UnitEntity) :
    base.Extends (model.modifyUnit id change) :=
  { grown with units := grown.units.modify beyond change }

theorem Extends.modifyClass {base model : Model} (grown : base.Extends model) {id : ClassId}
    (beyond : base.classes.size ≤ id.index) (change : ClassEntity → ClassEntity) :
    base.Extends (model.modifyClass id change) :=
  { grown with classes := grown.classes.modify beyond change }

theorem Extends.modifyField {base model : Model} (grown : base.Extends model) {id : FieldId}
    (beyond : base.fields.size ≤ id.index) (change : FieldEntity → FieldEntity) :
    base.Extends (model.modifyField id change) :=
  { grown with fields := grown.fields.modify beyond change }

end Model

/-! ### Units that are not complete -/

namespace Assembly

/-- An assembly has kept what an earlier model has, and all that has begun came later. -/
structure Beyond (base : Model) (assembly : Assembly) : Prop where
  grown : base.Extends assembly.model
  unit : base.units.size ≤ assembly.unit.index
  classes : ∀ id ∈ assembly.openClasses, base.classes.size ≤ id.index
  fields : ∀ id ∈ assembly.openFields, base.fields.size ≤ id.index

theorem Beyond.ofModel {base model : Model} (grown : base.Extends model) :
    Beyond base (ofModel model) where
  grown := grown.pushUnit {}
  unit := grown.units.size_le
  classes := by simp [Assembly.ofModel]
  fields := by simp [Assembly.ofModel]

theorem mem_of_eq_cons {α : Type} {members rest : List α} {member : α}
    (front : members = member :: rest) : member ∈ members := by
  rw [front]
  exact List.mem_cons_self

/-- No effect touches what the earlier model has. -/
theorem Beyond.follows {base : Model} {before after : Assembly} (follows : before.Follows after)
    (beyond : Beyond base before) : Beyond base after := by
  obtain ⟨grown, unit, classes, fields⟩ := beyond
  have newClass : base.classes.size ≤ before.nextClass.index := grown.classes.size_le
  have withClass (entity : ClassEntity) := grown.pushClass entity
  have opened : ∀ id ∈ before.nextClass :: before.openClasses, base.classes.size ≤ id.index := by
    intro id member
    rcases List.mem_cons.mp member with rfl | earlier
    · exact newClass
    · exact classes id earlier
  obtain ⟨model, _, openClasses, openFields, _, _, _, _⟩ := after
  obtain ⟨rfl, effect⟩ := follows
  cases effect with
  | nothing => exact ⟨grown, unit, classes, fields⟩
  | unit _ => exact ⟨grown.modifyUnit unit _, unit, classes, fields⟩
  | classStrays => exact ⟨withClass _, unit, classes, fields⟩
  | bodyBegins inField =>
      have older := fields _ (mem_of_eq_cons inField)
      exact ⟨(withClass _).modifyField older _, unit, opened, fields⟩
  | innerBegins inClass =>
      have older := classes _ (mem_of_eq_cons inClass)
      exact ⟨(withClass _).modifyClass older _, unit, opened, fields⟩
  | outermostBegins => exact ⟨(withClass _).modifyUnit unit _, unit, opened, fields⟩
  | classEnds inClass =>
      refine ⟨grown, unit, fun id member => classes id ?_, fields⟩
      rw [inClass]
      exact List.mem_cons_of_mem _ member
  | initializer inClass =>
      have older := classes _ (mem_of_eq_cons inClass)
      exact ⟨grown.modifyClass older _, unit, classes, fields⟩
  | fieldBegins inClass =>
      have older := classes _ (mem_of_eq_cons inClass)
      refine ⟨(grown.pushField _).modifyClass older _, unit, classes, fun id member => ?_⟩
      rcases List.mem_cons.mp member with rfl | earlier
      · exact grown.fields.size_le
      · exact fields id earlier
  | fieldEnds inField =>
      refine ⟨grown, unit, classes, fun id member => fields id ?_⟩
      rw [inField]
      exact List.mem_cons_of_mem _ member
  | methodEnds inClass =>
      have older := classes _ (mem_of_eq_cons inClass)
      exact ⟨(grown.pushMethod _).modifyClass older _, unit, classes, fields⟩

theorem namesInside_follows {before after : Assembly} (follows : before.Follows after)
    (inside : before.model.NamesInside) : after.model.NamesInside := by
  obtain ⟨model, _, openClasses, openFields, _, _, _, _⟩ := after
  obtain ⟨rfl, effect⟩ := follows
  have same {changed : Model} {id : ClassId} {change : ClassEntity → ClassEntity}
      (kept : changed.NamesInside) : (changed.modifyClass id change).NamesInside := by
    intro name found named
    simpa [Model.modifyClass] using kept name found named
  cases effect with
  | nothing => exact inside
  | unit _ => exact inside
  | classStrays => exact inside.pushClass _
  | bodyBegins _ => exact inside.pushClass _
  | innerBegins _ => exact same (inside.pushClass _)
  | outermostBegins => exact inside.pushClass _
  | classEnds _ => exact inside
  | initializer _ => exact same inside
  | fieldBegins _ => exact same inside
  | fieldEnds _ => exact inside
  | methodEnds _ => exact same inside

end Assembly

namespace Model

/-- Events of a further unit, complete or not, leave alone what a model has. -/
theorem Extends.addEvents {base model : Model} (grown : base.Extends model)
    (events : List Event) : base.Extends (model.addEvents events).1 := by
  rw [addEvents_eq]
  have kept := Assembly.steps_keeps (Assembly.Beyond base) (fun _ _ => Assembly.Beyond.follows)
    events (Assembly.Beyond.ofModel grown)
  exact kept.grown

theorem NamesInside.addEvents {model : Model} (inside : model.NamesInside)
    (events : List Event) : (model.addEvents events).1.NamesInside := by
  rw [addEvents_eq]
  exact Assembly.steps_keeps (fun assembly => assembly.model.NamesInside)
    (fun _ _ => Assembly.namesInside_follows) events inside

/-- The models that can come about: from the empty one by the events of further units, all
of them or those up to any point or violation, and by cutting back. -/
inductive Reachable : Model → Prop where
  | empty : Reachable {}
  | addEvents {model : Model} (events : List Event) :
      Reachable model → Reachable (model.addEvents events).1
  | truncate {model : Model} (size : Size) : Reachable model → Reachable (model.truncate size)

theorem Reachable.namesInside {model : Model} (reachable : model.Reachable) :
    model.NamesInside := by
  induction reachable with
  | empty => exact .empty
  | addEvents events _ ih => exact ih.addEvents events
  | truncate size _ ih => exact ih.truncate size

theorem Reachable.addUnit {model : Model} (reachable : model.Reachable) (events : List Event) :
    (model.addUnit events).1.Reachable := by
  rw [addUnit_eq]
  exact reachable.addEvents events

theorem Reachable.settle {α : Type} {model : Model} {result : Model × Except Failure α}
    (reachable : result.1.Reachable) : (model.settle result).1.Reachable := by
  obtain ⟨larger, outcome⟩ := result
  cases outcome with
  | ok value => exact reachable
  | error cause => exact reachable.truncate _

theorem Reachable.addSource {model : Model} (reachable : model.Reachable)
    (source : List Char) : (model.addSource source).1.Reachable := by
  apply Reachable.settle
  split
  · exact reachable.addUnit _
  · exact reachable.addEvents _

/-- Cutting back to the size before the events of a unit restores the model. -/
theorem truncate_addEvents {model : Model} (inside : model.NamesInside) (events : List Event) :
    (model.addEvents events).1.truncate model.size = model :=
  ((Extends.refl inside).addEvents events).truncate_eq

theorem Extends.addUnit {base model : Model} (grown : base.Extends model)
    (events : List Event) : base.Extends (model.addUnit events).1 := by
  rw [addUnit_eq]
  exact grown.addEvents events

theorem Extends.addUnits {base model : Model} (grown : base.Extends model)
    (units : List (List Event)) : base.Extends (model.addUnits units).1 :=
  addUnits_keeps base.Extends (fun _ events earlier => earlier.addEvents events) units grown

/-- A result that is a failure is settled by restoring the model. -/
theorem settle_of_failed {α : Type} {model : Model} {result : Model × Except Failure α}
    (grown : model.Extends result.1) {failure : Failure}
    (failed : (model.settle result).2 = .error failure) : (model.settle result).1 = model := by
  obtain ⟨larger, outcome⟩ := result
  cases outcome with
  | ok value => cases failed
  | error cause => exact grown.truncate_eq

theorem addSource_of_failed {model : Model} (inside : model.NamesInside) {source : List Char}
    {failure : Failure} (failed : (model.addSource source).2 = .error failure) :
    (model.addSource source).1 = model := by
  refine settle_of_failed ?_ failed
  split
  · exact (Extends.refl inside).addUnit _
  · exact (Extends.refl inside).addEvents _

theorem addSources_of_failed {model : Model} (inside : model.NamesInside)
    {sources : List (List Char)} {failure : Failure}
    (failed : (model.addSources sources).2 = .error failure) :
    (model.addSources sources).1 = model := by
  refine settle_of_failed ?_ failed
  split
  · exact (Extends.refl inside).addUnits _
  · exact .refl inside

end Model

/-! ### Sessions -/

namespace Session

variable (session : Session) (files : FileTree)

theorem changeModel_eq {α : Type} (change : Model → α × Model) :
    changeModel change files session =
      ((change session.project.model).1,
        { session with
          project := { session.project with model := (change session.project.model).2 } }) :=
  rfl

theorem build_eq (source : String) :
    build source files session =
      ((session.project.model.addSource source.toList).2,
        { session with
          project := { session.project with
            model := (session.project.model.addSource source.toList).1 } }) :=
  rfl

theorem add_eq (source : String) :
    add source files session =
      match build source files session with
      | (.ok id, built) => (.ok id, (register id files built).2)
      | (.error failure, built) => (.error failure, built) := by
  simp only [add, Bind.bind, ReaderT.bind, StateT.bind]
  cases build source files session with
  | mk result built => cases result <;> rfl

theorem addAll_eq (sources : List String) :
    addAll sources files session =
      match session.project.model.addSources (sources.map String.toList) with
      | (model, .ok ids) =>
          (.ok ids,
            { project := { session.project with model }
              library := (session.library.registerAll (ids.flatMap (namesInUnit model))).2 })
      | (model, .error failure) =>
          (.error failure, { session with project := { session.project with model } }) := by
  simp only [addAll, Bind.bind, ReaderT.bind, StateT.bind, changeModel_eq]
  cases session.project.model.addSources (sources.map String.toList) with
  | mk model result => cases result <;> rfl

section Failed

variable {session files} (inside : session.project.model.NamesInside)

include inside

theorem build_of_failed {source : String} {failure : Failure}
    (failed : (build source files session).1 = .error failure) :
    (build source files session).2 = session := by
  have same := Model.addSource_of_failed inside failed
  rw [build_eq, same]

theorem add_of_failed {source : String} {failure : Failure}
    (failed : (add source files session).1 = .error failure) :
    (add source files session).2 = session := by
  have same : (build source files session).1 = .error failure →
      (build source files session).2 = session := build_of_failed inside
  rw [add_eq] at failed ⊢
  cases built : build source files session with
  | mk result after =>
      rw [built] at failed same
      cases result with
      | ok id => cases failed
      | error cause => exact same failed

theorem addAll_of_failed {sources : List String} {failure : Failure}
    (failed : (addAll sources files session).1 = .error failure) :
    (addAll sources files session).2 = session := by
  have same : (session.project.model.addSources (sources.map String.toList)).2 = .error failure →
      (session.project.model.addSources (sources.map String.toList)).1 = session.project.model :=
    Model.addSources_of_failed inside
  rw [addAll_eq] at failed ⊢
  cases added : session.project.model.addSources (sources.map String.toList) with
  | mk model result =>
      rw [added] at failed same
      cases result with
      | ok ids => cases failed
      | error cause =>
          have restored := same failed
          dsimp only at restored ⊢
          rw [restored]

end Failed

end Session

/-- A build that fails leaves no trace: neither in the project nor in the library.  What
any events of a further unit do to a model is undone by cutting the model back. -/
theorem failed_build_leaves_no_trace {session : Session}
    (reachable : session.project.model.Reachable) (files : FileTree) :
    (∀ source failure, (Session.build source files session).1 = .error failure →
        (Session.build source files session).2 = session) ∧
      (∀ source failure, (Session.add source files session).1 = .error failure →
        (Session.add source files session).2 = session) ∧
      (∀ sources failure, (Session.addAll sources files session).1 = .error failure →
        (Session.addAll sources files session).2 = session) ∧
      ∀ events, (session.project.model.addEvents events).1.truncate session.project.model.size =
        session.project.model := by
  have inside := reachable.namesInside
  refine ⟨fun source failure failed => ?_, fun source failure failed => ?_,
    fun sources failure failed => ?_, fun events => ?_⟩
  · exact Session.build_of_failed inside failed
  · exact Session.add_of_failed inside failed
  · exact Session.addAll_of_failed inside failed
  · exact Model.truncate_addEvents inside events

/-- A project with one class and a source that declares the class again and is refused. -/
theorem failed_build_of_second_class :
    let model := (({} : Model).addSource "class A \x7b\x7d".toList).1
    let session : Session := { project := { model }, library := .ofCore }
    model.Reachable ∧ model.classes.size = 1 ∧
      (Session.add "class A \x7b\x7d \x7d" {} session).1.isOk = false ∧
        (Session.add "class A \x7b\x7d \x7d" {} session).2 = session := by
  intro model session
  have reachable : model.Reachable := .addSource .empty _
  have refused : (Session.add "class A \x7b\x7d \x7d" {} session).1.isOk = false := by
    decide +kernel
  refine ⟨reachable, by decide +kernel, refused, ?_⟩
  cases outcome : (Session.add "class A \x7b\x7d \x7d" {} session).1 with
  | ok id =>
      rw [outcome] at refused
      cases refused
  | error failure => exact (failed_build_leaves_no_trace reachable {}).2.1 _ failure outcome

end JavaDecl
