import JavaDecl.Proofs.FailedBuilds

/-!
# Classes found by their names

A name finds the first class of the table that has it, whatever has been added to the
model and taken away again.
-/

namespace JavaDecl

/-- A class has a binary or canonical name. -/
def ClassEntity.isNamed (name : String) (entity : ClassEntity) : Bool :=
  entity.binaryName == name || entity.canonicalName == name

namespace Model

def firstNamed? (model : Model) (name : String) : Option ClassId :=
  (model.classes.findIdx? (ClassEntity.isNamed name)).map ClassId.mk

/-- Every name finds the first class that has it. -/
def NamesFirst (model : Model) : Prop :=
  ∀ name, model.classNamed? name = model.firstNamed? name

theorem NamesFirst.empty : NamesFirst {} := by
  intro name
  simp [classNamed?, firstNamed?]

theorem NamesFirst.pushClass {model : Model} (first : model.NamesFirst) (entity : ClassEntity) :
    (model.pushClass entity).NamesFirst := by
  intro name
  have later : (model.pushClass entity).firstNamed? name =
      (model.firstNamed? name).or
        (if entity.isNamed name then some ⟨model.classes.size⟩ else none) := by
    unfold firstNamed?
    rw [show (model.pushClass entity).classes = model.classes.push entity from rfl,
      Array.findIdx?_push]
    cases model.classes.findIdx? (ClassEntity.isNamed name) with
    | some index => rfl
    | none => split <;> rfl
  rw [classNamed?_pushClass, later, first name]
  cases model.firstNamed? name with
  | some id => rfl
  | none => simp [ClassEntity.isNamed]

/-- Changes of classes that leave their names alone change what no name finds. -/
theorem NamesFirst.modifyClass {model : Model} (first : model.NamesFirst) {id : ClassId}
    {change : ClassEntity → ClassEntity}
    (kept : ∀ entity name, (change entity).isNamed name = entity.isNamed name) :
    (model.modifyClass id change).NamesFirst := by
  intro name
  have same : (model.classes.modify id.index change).findIdx? (ClassEntity.isNamed name) =
      model.classes.findIdx? (ClassEntity.isNamed name) := by
    have names : (model.classes.modify id.index change).map (ClassEntity.isNamed name) =
        model.classes.map (ClassEntity.isNamed name) := by
      ext index : 1
      · simp
      · simp only [Array.getElem_map, Array.getElem_modify]
        split
        · exact kept _ name
        · rfl
    have found : ∀ classes : Array ClassEntity, classes.findIdx? (ClassEntity.isNamed name) =
        (classes.map (ClassEntity.isNamed name)).findIdx? fun named => named := by
      intro classes
      rw [Array.findIdx?_map]
      rfl
    rw [found, names, ← found]
  have classes : (model.modifyClass id change).firstNamed? name = model.firstNamed? name :=
    congrArg (Option.map ClassId.mk) same
  rw [classes]
  exact first name

theorem NamesFirst.truncate {model : Model} (first : model.NamesFirst) (size : Size) :
    (model.truncate size).NamesFirst := by
  intro name
  have found : (model.truncate size).classNamed? name =
      (model.classNamed? name).filter fun id => id.index < size.classes := by
    simp [classNamed?, Model.truncate]
  have earlier : (model.truncate size).firstNamed? name =
      ((model.classes.findIdx? (ClassEntity.isNamed name)).bind
        (Option.guard fun index => index < size.classes)).map ClassId.mk := by
    unfold firstNamed? Model.truncate
    rw [Array.findIdx?_take]
  rw [found, first name, earlier]
  unfold firstNamed?
  cases model.classes.findIdx? (ClassEntity.isNamed name) with
  | none => rfl
  | some index =>
      by_cases small : index < size.classes
      · simp [Option.guard, small]
      · simpa [Option.guard, small] using Nat.le_of_not_lt small

end Model

/-- No effect of an event gives a name to another class. -/
theorem Assembly.namesFirst_follows {before after : Assembly} (follows : before.Follows after)
    (first : before.model.NamesFirst) : after.model.NamesFirst := by
  obtain ⟨model, _, openClasses, openFields, _, _, _, _⟩ := after
  obtain ⟨rfl, effect⟩ := follows
  cases effect with
  | nothing => exact first
  | unit _ => exact first
  | classStrays => exact first.pushClass _
  | bodyBegins _ => exact first.pushClass _
  | innerBegins _ => exact (first.pushClass _).modifyClass fun _ _ => rfl
  | outermostBegins => exact first.pushClass _
  | classEnds _ => exact first
  | initializer _ => exact first.modifyClass fun _ _ => rfl
  | fieldBegins _ => exact Model.NamesFirst.modifyClass first fun _ _ => rfl
  | fieldEnds _ => exact first
  | methodEnds _ => exact Model.NamesFirst.modifyClass first fun _ _ => by split <;> rfl

/-- In every model that can come about, names find the first class that has them. -/
theorem Model.Reachable.namesFirst {model : Model} (reachable : model.Reachable) :
    model.NamesFirst := by
  induction reachable with
  | empty => exact .empty
  | @addEvents model events _ ih =>
      rw [addEvents_eq]
      exact Assembly.steps_keeps (fun assembly => assembly.model.NamesFirst)
        (fun _ _ => Assembly.namesFirst_follows) events ih
  | truncate size _ ih => exact ih.truncate size

namespace Model

/-- A class of the model has a name, and no earlier class has it. -/
structure IsFirstNamed (model : Model) (name : String) (id : ClassId) : Prop where
  inside : id.index < model.classes.size
  named : (model.classAt id).isNamed name
  first : ∀ other : ClassId, other.index < model.classes.size →
    (model.classAt other).isNamed name → id.index ≤ other.index

theorem classAt_eq_getElem {model : Model} {index : Nat} (inside : index < model.classes.size) :
    model.classAt ⟨index⟩ = model.classes[index] := by
  simp [classAt, inside]

theorem firstNamed?_eq_some_iff {model : Model} {name : String} {id : ClassId} :
    model.firstNamed? name = some id ↔ model.IsFirstNamed name id := by
  obtain ⟨index⟩ := id
  have found : model.firstNamed? name = some ⟨index⟩ ↔
      model.classes.findIdx? (ClassEntity.isNamed name) = some index := by
    simp [firstNamed?]
  rw [found, Array.findIdx?_eq_some_iff_getElem]
  constructor
  · rintro ⟨inside, named, first⟩
    refine ⟨inside, ?_, fun ⟨other⟩ known has => Nat.le_of_not_lt fun earlier => ?_⟩
    · rwa [classAt_eq_getElem inside]
    · rw [classAt_eq_getElem known] at has
      exact first other earlier has
  · rintro ⟨inside, named, first⟩
    rw [classAt_eq_getElem inside] at named
    refine ⟨inside, named, fun other earlier has => ?_⟩
    have known : other < model.classes.size := Nat.lt_trans earlier inside
    rw [← classAt_eq_getElem known] at has
    exact Nat.not_le.mpr earlier (first ⟨other⟩ known has)

theorem isSome_firstNamed?_iff {model : Model} {name : String} :
    (model.firstNamed? name).isSome ↔
      ∃ id : ClassId, id.index < model.classes.size ∧ (model.classAt id).isNamed name := by
  constructor
  · intro found
    obtain ⟨id, first⟩ := Option.isSome_iff_exists.mp found
    have isFirst := firstNamed?_eq_some_iff.mp first
    exact ⟨id, isFirst.inside, isFirst.named⟩
  · rintro ⟨⟨index⟩, inside, named⟩
    rw [classAt_eq_getElem inside] at named
    have member := Array.getElem_mem inside
    unfold firstNamed?
    rw [Option.isSome_map, Array.findIdx?_isSome, Array.any_eq_true']
    exact ⟨_, member, named⟩

end Model

/-- In every model that can come about, whatever has been added and cut off again, a name
finds a class exactly if a class has it as binary or canonical name, and then it finds the
first one. -/
theorem names_find_first_classes {model : Model} (reachable : model.Reachable) (name : String) :
    (∀ id, model.classNamed? name = some id ↔ model.IsFirstNamed name id) ∧
      ((model.classNamed? name).isSome ↔
        ∃ id : ClassId, id.index < model.classes.size ∧ (model.classAt id).isNamed name) := by
  rw [reachable.namesFirst name]
  exact ⟨fun id => Model.firstNamed?_eq_some_iff, Model.isSome_firstNamed?_iff⟩

/-- Two classes have one name, and the class that is found by it is cut off again. -/
theorem inner_class_is_found_after_rollback :
    let nested := "class A \x7b class B \x7b\x7d \x7d".toList
    let packaged := (({} : Model).addSource "package A; class B \x7b\x7d".toList).1
    let both := (packaged.addSource nested).1
    let again := ((both.truncate ({} : Model).size).addSource nested).1
    both.Reachable ∧ both.classNamed? "A.B" = some ⟨0⟩ ∧ both.classNamed? "A$B" = some ⟨2⟩ ∧
      again.Reachable ∧ again.classNamed? "A.B" = some ⟨1⟩ := by
  intro nested packaged both again
  have reachable : both.Reachable := (Model.Reachable.empty.addSource _).addSource _
  have later : again.Reachable := (reachable.truncate _).addSource _
  have found := names_find_first_classes reachable
  refine ⟨reachable, ((found _).1 _).mpr ?_, ((found _).1 _).mpr ?_, later,
    ((names_find_first_classes later _).1 _).mpr ?_⟩
  all_goals
    apply Model.firstNamed?_eq_some_iff.mp
    decide +kernel

end JavaDecl
