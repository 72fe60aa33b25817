import JavaDecl.Proofs.ClassesOfUnits

/-!
# Texts that are added together

Adding texts together leaves what adding them one by one leaves: the same project, and a
library with the same names, sources and answers.  A unit that has been added has the same
classes whatever is added later, so it makes no difference when its names are registered.
A text that is refused is refused with the same failure either way.
-/

namespace JavaDecl

namespace Model

variable {model larger : Model}

/-! ### Classes of a unit in a larger model -/

section Grown

variable (linked : model.Linked) (further : model.Extends larger)

include linked further

theorem children_grown {id : ClassId} (inside : id.index < model.classes.size) :
    larger.children id = model.children id := by
  have fields := (linked.listsMembers inside).fields
  have bodies : ((model.classAt id).fields.filterMap fun field => (larger.field field).bodyClass) =
      (model.classAt id).fields.filterMap fun field => (model.field field).bodyClass := by
    refine List.filterMap_congr fun field listed => ?_
    rw [further.field_eq ((fields.mem_iff field).mp listed).1]
  simp only [children, further.classAt_eq inside, bodies]

/-- What is collected from a class inward stays the same, if both depths are enough for all
classes of the smaller model that come after it. -/
theorem withInner_grown {depth other : Nat} {id : ClassId}
    (inside : id.index < model.classes.size) (enough : model.classes.size ≤ id.index + depth)
    (enoughToo : model.classes.size ≤ id.index + other) :
    larger.withInner other id = model.withInner depth id := by
  induction depth generalizing other id with
  | zero => omega
  | succ depth ih =>
      obtain ⟨other, rfl⟩ : ∃ less, other = less + 1 := ⟨other - 1, by omega⟩
      simp only [withInner, children_grown linked further inside]
      refine congrArg (id :: ·) (List.flatMap_congr fun child listed => ?_)
      have around := ((linked.children inside).mem_iff child).mp listed
      have later := linked.descends child id around
      exact ih (inside_of_enclosing around) (by omega) (by omega)

theorem classesInUnit_grown {unit : UnitId} (inside : unit.index < model.units.size) :
    larger.classesInUnit unit = model.classesInUnit unit := by
  have known := further.classes.size_le
  simp only [classesInUnit, further.unit_eq inside]
  refine List.flatMap_congr fun id listed => ?_
  have within := (((linked.outermost unit inside).mem_iff id).mp listed).1
  exact withInner_grown linked further within (by omega) (by omega)

/-- The classes of a unit have the same names in a larger model. -/
theorem namesInUnit_grown {unit : UnitId} (inside : unit.index < model.units.size) :
    Session.namesInUnit larger unit = Session.namesInUnit model unit := by
  unfold Session.namesInUnit
  rw [classesInUnit_grown linked further inside]
  refine List.map_congr_left fun id listed => ?_
  have within := (((linked.classesInUnit inside).1.mem_iff id).mp listed).1
  rw [further.classAt_eq within]

end Grown

end Model

/-! ### Libraries with the same names -/

namespace Library

/-- Two libraries that differ at most in their generations. -/
structure SameNames (library other : Library) : Prop where
  registered : library.registered = other.registered
  sources : library.sources = other.sources
  questions : library.questions = other.questions

variable {library other : Library}

theorem SameNames.answer_eq (same : library.SameNames other) (files : FileTree) :
    library.answer files = other.answer files := by
  funext name
  rw [Library.answer_eq, Library.answer_eq, same.registered, same.sources]

/-- Names that are registered at once and names that are registered one part after the other
give the same names. -/
theorem SameNames.registerAll_append {front back : List String}
    (same : library.SameNames ((other.registerAll front).2.registerAll back).2) :
    library.SameNames (other.registerAll (front ++ back)).2 where
  registered := by
    rw [same.registered]
    exact (List.foldl_append ..).symm
  sources := same.sources
  questions := same.questions

end Library

namespace Session

/-! ### Texts one by one -/

/-- Reads source texts and adds their units one by one, up to the first that is refused. -/
def addEach : List String → SessionM (Except Failure (List UnitId))
  | [] => return .ok []
  | source :: rest => do
      match ← add source with
      | .ok id => return (← addEach rest).map (id :: ·)
      | .error failure => return .error failure

variable (files : FileTree) (session : Session)

theorem addEach_cons (source : String) (rest : List String) :
    addEach (source :: rest) files session =
      match add source files session with
      | (.ok id, added) =>
          ((addEach rest files added).1.map (id :: ·), (addEach rest files added).2)
      | (.error failure, left) => (.error failure, left) := by
  simp only [addEach, Bind.bind, ReaderT.bind, StateT.bind]
  cases add source files session with
  | mk result added => cases result <;> rfl

/-- A text that is accepted is added as the next unit, and the names of its classes are
registered. -/
theorem add_of_accepted {source : String} {grown : Model} {id : UnitId}
    (accepted : (readUnit source.toList).2 = none)
    (added : session.project.model.addUnit (readUnit source.toList).1 = (grown, .ok id)) :
    add source files session =
      (.ok id,
        { project := { session.project with model := grown }
          library := (session.library.registerAll (namesInUnit grown id)).2 }) := by
  rw [add_eq, build_eq, Model.addSource_of_accepted accepted added]
  rfl

/-- A text that is refused fails in the same way whatever it is added to. -/
theorem add_of_refused {source : String} {refused : ParseError}
    (unread : (readUnit source.toList).2 = some refused) :
    (add source files session).1 = .error (.ofParseError refused) := by
  obtain ⟨missing, nested, -⟩ := readUnit_announces source.toList
  have taken := session.project.model.addEvents_of_nested nested
  have failed : (session.project.model.addSource source.toList).2 =
      .error (.ofParseError refused) := by
    unfold Model.addSource
    cases read : readUnit source.toList with
    | mk events outcome =>
        rw [read] at unread taken
        subst unread
        cases grown : session.project.model.addEvents events with
        | mk larger result =>
            rw [grown] at taken
            subst taken
            simp only [grown]
            rfl
  rw [add_eq, build_eq, failed]

variable {files session}

/-- Accepted texts one by one lead to the units that they lead to together.  What is
registered after each of them makes the names that are registered once for all. -/
theorem addEach_of_accepted (built : session.project.model.Built) {sources : List String}
    (accepted : ∀ source ∈ sources, (readUnit source.toList).2 = none) :
    ∃ (grown : Model) (ids : List UnitId) (library : Library),
      session.project.model.addUnits (sources.map fun source => (readUnit source.toList).1) =
          (grown, .ok ids) ∧
        addEach sources files session =
          (.ok ids, { project := { session.project with model := grown }, library }) ∧
        library.SameNames
          (session.library.registerAll (ids.flatMap (namesInUnit grown))).2 := by
  induction sources generalizing session with
  | nil => exact ⟨session.project.model, [], session.library, rfl, rfl, rfl, rfl, rfl⟩
  | cons source sources ih =>
      obtain ⟨first, rest⟩ := List.forall_mem_cons.mp accepted
      obtain ⟨between, added, units, -⟩ := session.project.model.addUnit_of_accepted first
      have one := session.add_of_accepted files first added
      have further : between.Built := built.addUnit first added
      obtain ⟨grown, ids, library, later, each, same⟩ := @ih
        { project := { session.project with model := between }
          library := (session.library.registerAll
            (namesInUnit between ⟨session.project.model.units.size⟩)).2 } further rest
      have grows := (Model.Extends.refl further.reachable.namesInside).addUnits
        (sources.map fun source => (readUnit source.toList).1)
      rw [later] at grows
      have known : session.project.model.units.size < between.units.size :=
        units ▸ Nat.lt_succ_self _
      have names : namesInUnit grown ⟨session.project.model.units.size⟩ =
          namesInUnit between ⟨session.project.model.units.size⟩ :=
        Model.namesInUnit_grown further.linked grows known
      refine ⟨grown, ⟨session.project.model.units.size⟩ :: ids, library, ?_, ?_, ?_⟩
      · simp only [List.map_cons, Model.addUnits, added, later]
        rfl
      · rw [addEach_cons, one]
        simp only [each]
        rfl
      · rw [List.flatMap_cons, names]
        exact same.registerAll_append

theorem addAll_of_accepted {sources : List String} {grown : Model} {ids : List UnitId}
    (accepted : ∀ source ∈ sources, (readUnit source.toList).2 = none)
    (added : session.project.model.addUnits
      (sources.map fun source => (readUnit source.toList).1) = (grown, .ok ids)) :
    addAll sources files session =
      (.ok ids,
        { project := { session.project with model := grown }
          library := (session.library.registerAll (ids.flatMap (namesInUnit grown))).2 }) := by
  have read : (sources.map String.toList).mapM Model.eventsOf =
      .ok (sources.map fun source => (readUnit source.toList).1) := by
    rw [Model.mapM_eventsOf (by simpa using accepted), List.map_map]
    rfl
  have taken : session.project.model.addSources (sources.map String.toList) =
      (grown, .ok ids) := by
    unfold Model.addSources
    rw [read]
    simp only [added]
    rfl
  rw [addAll_eq, taken]

end Session

/-! ### Texts that are refused -/

namespace Model

theorem eventsOf_of_accepted {source : List Char} (accepted : (readUnit source).2 = none) :
    eventsOf source = .ok (readUnit source).1 := by
  unfold eventsOf
  rw [readUnit_of_accepted accepted]

theorem eventsOf_of_refused {source : List Char} {refused : ParseError}
    (unread : (readUnit source).2 = some refused) :
    eventsOf source = .error (.ofParseError refused) := by
  have read : readUnit source = ((readUnit source).1, some refused) := Prod.ext rfl unread
  unfold eventsOf
  rw [read]

/-- Texts are refused with the failure of the first one that is refused. -/
theorem mapM_eventsOf_of_refused {before after : List (List Char)} {failing : List Char}
    {refused : ParseError} (accepted : ∀ source ∈ before, (readUnit source).2 = none)
    (unread : (readUnit failing).2 = some refused) :
    (before ++ failing :: after).mapM eventsOf = .error (.ofParseError refused) := by
  induction before with
  | nil =>
      rw [List.nil_append, List.mapM_cons, eventsOf_of_refused unread]
      rfl
  | cons source before ih =>
      obtain ⟨first, rest⟩ := List.forall_mem_cons.mp accepted
      rw [List.cons_append, List.mapM_cons, eventsOf_of_accepted first, ih rest]
      rfl

end Model

/-- The first text among some that is refused. -/
theorem exists_first_refused {sources : List String}
    (refuses : ∃ source ∈ sources, (readUnit source.toList).2 ≠ none) :
    ∃ before failing after refused, sources = before ++ failing :: after ∧
      (∀ source ∈ before, (readUnit source.toList).2 = none) ∧
        (readUnit failing.toList).2 = some refused := by
  induction sources with
  | nil => simp at refuses
  | cons source rest ih =>
      cases outcome : (readUnit source.toList).2 with
      | some refused => exact ⟨[], source, rest, refused, rfl, by simp, outcome⟩
      | none =>
          obtain ⟨before, failing, after, refused, split, accepted, unread⟩ :=
            ih (by simpa [outcome] using refuses)
          refine ⟨source :: before, failing, after, refused, by rw [split]; rfl, ?_, unread⟩
          exact List.forall_mem_cons.mpr ⟨outcome, accepted⟩

namespace Session

variable {files : FileTree} {session : Session} {before after : List String} {failing : String}
  {refused : ParseError} (accepted : ∀ source ∈ before, (readUnit source.toList).2 = none)
  (unread : (readUnit failing.toList).2 = some refused)

include accepted unread

theorem addAll_of_refused (inside : session.project.model.NamesInside) :
    addAll (before ++ failing :: after) files session =
      (.error (.ofParseError refused), session) := by
  have read : ((before ++ failing :: after).map String.toList).mapM Model.eventsOf =
      .error (.ofParseError refused) := by
    rw [List.map_append, List.map_cons]
    exact Model.mapM_eventsOf_of_refused (by simpa using accepted) unread
  have failed : (addAll (before ++ failing :: after) files session).1 =
      .error (.ofParseError refused) := by
    rw [addAll_eq]
    unfold Model.addSources
    rw [read]
    rfl
  exact Prod.ext failed (addAll_of_failed inside failed)

theorem addEach_of_refused :
    (addEach (before ++ failing :: after) files session).1 = .error (.ofParseError refused) := by
  induction before generalizing session with
  | nil =>
      have failed := session.add_of_refused files unread
      rw [List.nil_append, addEach_cons]
      cases added : add failing files session with
      | mk result left =>
          rw [added] at failed
          subst failed
          rfl
  | cons source before ih =>
      obtain ⟨first, rest⟩ := List.forall_mem_cons.mp accepted
      obtain ⟨between, added, -⟩ := session.project.model.addUnit_of_accepted first
      rw [List.cons_append, addEach_cons, session.add_of_accepted files first added]
      dsimp only
      rw [ih rest]
      rfl

end Session

/-- Texts that are all accepted lead to the same project when they are added together as
when they are added one by one.  The same names are registered in the same order, and all
look-ups yield the same.  If a text is refused, nothing is added together, and the failure is
the one with which the first such text is refused wherever it is added. -/
theorem adding_together_is_adding_each {files : FileTree} {session : Session}
    (built : session.project.model.Built) (sources : List String) :
    ((∀ source ∈ sources, (readUnit source.toList).2 = none) →
        ∃ ids, ∃ together each : Session,
          Session.addAll sources files session = (.ok ids, together) ∧
            Session.addEach sources files session = (.ok ids, each) ∧
            together.project = each.project ∧
            together.library.registered = each.library.registered ∧
            together.library.sources = each.library.sources ∧
            ∀ name scope, (Session.lookUp name scope files together).1 =
              (Session.lookUp name scope files each).1) ∧
      ((∃ source ∈ sources, (readUnit source.toList).2 ≠ none) →
        ∃ before failing after failure, sources = before ++ failing :: after ∧
          (∀ source ∈ before, (readUnit source.toList).2 = none) ∧
            (readUnit failing.toList).2 ≠ none ∧
            Session.addAll sources files session = (.error failure, session) ∧
            (Session.addEach sources files session).1 = .error failure ∧
            ∀ other, (Session.add failing files other).1 = .error failure) := by
  refine ⟨fun accepted => ?_, fun refuses => ?_⟩
  · obtain ⟨grown, ids, library, added, each, same⟩ :=
      @Session.addEach_of_accepted files session built sources accepted
    refine ⟨ids, _, _, Session.addAll_of_accepted accepted added, each, rfl,
      same.registered.symm, same.sources.symm, fun name scope => ?_⟩
    obtain ⟨_, -, one⟩ := Session.lookUp_eq files _ name scope
    obtain ⟨_, -, other⟩ := Session.lookUp_eq files _ name scope
    rw [one, other]
    simp only [Session.meaning, same.answer_eq files]
  · obtain ⟨before, failing, after, refused, rfl, accepted, unread⟩ :=
      exists_first_refused refuses
    refine ⟨before, failing, after, .ofParseError refused, rfl, accepted, by simp [unread], ?_,
      Session.addEach_of_refused accepted unread,
      fun other => other.add_of_refused files unread⟩
    exact Session.addAll_of_refused accepted unread built.reachable.namesInside

/-- A class that two texts declare is registered once, before those that come later, and a text
in the middle that is refused takes all others with it. -/
theorem repeated_class_is_registered_once :
    let session : Session := { project := {}, library := .ofCore }
    let sources := ["class A \x7b\x7d", "package p; class B \x7b\x7d",
      "class A \x7b class C \x7b\x7d \x7d"]
    let broken := ["class A \x7b\x7d", "class B \x7b", "class C"]
    (∃ ids, ∃ together each : Session,
      Session.addAll sources {} session = (.ok ids, together) ∧
        Session.addEach sources {} session = (.ok ids, each) ∧
        together.project = each.project ∧
        together.library.registered = ["A", "p.B", "A$C"] ∧
        each.library.registered = ["A", "p.B", "A$C"]) ∧
      ∃ failure, Session.addAll broken {} session = (.error failure, session) ∧
        (Session.addEach broken {} session).1 = .error failure := by
  intro session sources broken
  have agree := @adding_together_is_adding_each {} session .empty
  have accepted : ∀ source ∈ sources, (readUnit source.toList).2 = none := by
    simp only [← Option.isNone_iff_eq_none]
    decide +kernel
  have refuses : ∃ source ∈ broken, (readUnit source.toList).2 ≠ none :=
    ⟨"class B \x7b", by simp [broken], Option.isSome_iff_ne_none.mp (by decide +kernel)⟩
  have names : (Session.addAll sources {} session).2.library.registered = ["A", "p.B", "A$C"] := by
    decide +kernel
  obtain ⟨ids, together, each, all, one, project, registered, -⟩ := (agree sources).1 accepted
  obtain ⟨_, _, _, failure, -, -, -, none, first, -⟩ := (agree broken).2 refuses
  rw [all] at names
  exact ⟨⟨ids, together, each, all, one, project, names, registered.symm.trans names⟩,
    failure, none, first⟩

end JavaDecl
