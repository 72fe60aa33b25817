import JavaDecl.Lookup.Candidate
import JavaDecl.Proofs.FailedBuilds

/-!
# Classes around a class

A class begins after the class around it, in every model that can come about.  So the way
outward from a class ends, and a search along it finds what the innermost class has that
has anything at all.
-/

namespace JavaDecl

namespace Model

/-- Each class begins after the class around it. -/
def Descends (model : Model) : Prop :=
  ∀ id outer, (model.classAt id).enclosing = some outer → outer.index < id.index

theorem Descends.empty : Descends {} := by
  intro id outer around
  cases around

variable {model : Model}

theorem Descends.pushClass (descends : model.Descends) {entity : ClassEntity}
    (enclosing : ∀ outer, entity.enclosing = some outer → outer.index < model.classes.size) :
    (model.pushClass entity).Descends := by
  intro id outer around
  rw [classAt_pushClass] at around
  split at around
  · next last =>
      rw [last]
      exact enclosing outer around
  · exact descends id outer around

/-- The place of a class is not among what changes later. -/
theorem Descends.modifyClass (descends : model.Descends) (changed : ClassId)
    {change : ClassEntity → ClassEntity}
    (same : ∀ entity, (change entity).enclosing = entity.enclosing) :
    (model.modifyClass changed change).Descends := by
  intro id outer around
  rw [classAt_modifyClass] at around
  split at around
  · rw [same] at around
    exact descends id outer around
  · exact descends id outer around

theorem classAt_truncate (model : Model) (size : Size) (id : ClassId) :
    (model.truncate size).classAt id =
      if id.index < size.classes then model.classAt id else default := by
  by_cases inside : id.index < model.classes.size
  · simp only [classAt, Model.truncate, Array.getD_eq_getD_getElem?, Array.take_eq_extract,
      Array.getElem?_extract, Nat.zero_add, Nat.sub_zero, Nat.lt_min, inside, and_true]
    split <;> rfl
  · have absent : model.classes.getD id.index default = default := by simp [inside]
    have missing : (model.classes.take size.classes).getD id.index default = default := by
      have few : ¬ id.index < (model.classes.take size.classes).size := by
        simp only [Array.take_eq_extract, Array.size_extract]
        omega
      simp only [Array.getD, few, dite_false]
    simp [classAt, Model.truncate, absent, missing]

theorem Descends.truncate (descends : model.Descends) (size : Size) :
    (model.truncate size).Descends := by
  intro id outer around
  rw [classAt_truncate] at around
  split at around
  · exact descends id outer around
  · cases around

end Model

namespace Assembly

/-- Classes stand in the model in the order in which they begin. -/
structure Ordered (assembly : Assembly) : Prop where
  descends : assembly.model.Descends
  opened : ∀ id ∈ assembly.openClasses, id.index < assembly.model.classes.size

theorem Ordered.pushClass {before : Assembly} (ordered : before.Ordered) (declared : ClassDecl)
    (comment : Option String) (tags : List DocTag) (uses : List (AnnotationUse TypeExpr)) :
    (before.model.pushClass (before.classEntity declared comment tags uses)).Descends ∧
      ∀ id ∈ before.nextClass :: before.openClasses,
        id.index < (before.model.pushClass
          (before.classEntity declared comment tags uses)).classes.size := by
  have larger : (before.model.pushClass
      (before.classEntity declared comment tags uses)).classes.size =
        before.model.classes.size + 1 := Array.size_push ..
  refine ⟨ordered.descends.pushClass fun outer around => ?_, fun id member => ?_⟩
  · exact ordered.opened outer (List.mem_of_mem_head? around)
  · rw [larger]
    rcases List.mem_cons.mp member with rfl | earlier
    · exact Nat.lt_succ_self _
    · exact Nat.lt_succ_of_lt (ordered.opened id earlier)

theorem Ordered.follows {before after : Assembly} (follows : before.Follows after)
    (ordered : before.Ordered) : after.Ordered := by
  have pushed := ordered.pushClass
  obtain ⟨descends, opened⟩ := ordered
  obtain ⟨model, _, openClasses, openFields, _, _, _, _⟩ := after
  obtain ⟨rfl, effect⟩ := follows
  cases effect with
  | nothing => exact ⟨descends, opened⟩
  | unit _ => exact ⟨descends, opened⟩
  | classStrays =>
      exact ⟨(pushed _ _ _ _).1, fun id member =>
        (pushed _ _ _ _).2 id (List.mem_cons_of_mem _ member)⟩
  | bodyBegins _ => exact ⟨(pushed _ _ _ _).1, (pushed _ _ _ _).2⟩
  | innerBegins _ =>
      refine ⟨(pushed _ _ _ _).1.modifyClass _ fun _ => rfl, fun id member => ?_⟩
      simpa [Model.modifyClass] using (pushed _ _ _ _).2 id member
  | outermostBegins => exact ⟨(pushed _ _ _ _).1, (pushed _ _ _ _).2⟩
  | classEnds inClass =>
      refine ⟨descends, fun id member => opened id ?_⟩
      rw [inClass]
      exact List.mem_cons_of_mem _ member
  | initializer _ =>
      refine ⟨descends.modifyClass _ fun _ => rfl, ?_⟩
      simpa [Model.modifyClass] using opened
  | fieldBegins _ =>
      have pushed (entity : FieldEntity) : (before.model.pushField entity).Descends := descends
      refine ⟨(pushed _).modifyClass _ fun _ => rfl, ?_⟩
      simpa [Model.modifyClass, Model.pushField] using opened
  | fieldEnds _ => exact ⟨descends, opened⟩
  | @methodEnds _ _ _ _ isConstructor _ =>
      have pushed (entity : MethodEntity) : (before.model.pushMethod entity).Descends := descends
      refine ⟨(pushed _).modifyClass _ fun _ => ?_, ?_⟩
      · cases isConstructor <;> rfl
      · simpa [Model.modifyClass, Model.pushMethod] using opened

end Assembly

namespace Model

theorem Descends.addEvents {model : Model} (descends : model.Descends) (events : List Event) :
    (model.addEvents events).1.Descends := by
  rw [addEvents_eq]
  have started : (Assembly.ofModel model).Ordered := ⟨descends, by simp [Assembly.ofModel]⟩
  exact (Assembly.steps_keeps Assembly.Ordered (fun _ _ => Assembly.Ordered.follows) events
    started).descends

theorem Reachable.descends {model : Model} (reachable : model.Reachable) : model.Descends := by
  induction reachable with
  | empty => exact .empty
  | addEvents events _ ih => exact ih.addEvents events
  | truncate size _ ih => exact ih.truncate size

/-! ### The way outward -/

variable {α : Type} (model : Model) (has : ClassId → α → Prop)

/-- What a class has, or else what the innermost class around it has that has anything. -/
inductive Innermost : ClassId → α → Prop where
  | here {id : ClassId} {found : α} : has id found → Innermost id found
  | around {id outer : ClassId} {found : α} : (∀ other, ¬ has id other) →
      (model.classAt id).enclosing = some outer → Innermost outer found → Innermost id found

variable {model has} {picks : ClassId → Option α}
  (agree : ∀ id found, picks id = some found ↔ has id found) (descends : model.Descends)

include agree descends

/-- A search along the way outward, if it is long enough for all of it. -/
theorem findSome?_outward {count : Nat} {id : ClassId} (enough : id.index < count) (found : α) :
    (model.outward count id).findSome? picks = some found ↔ model.Innermost has id found := by
  induction count generalizing id with
  | zero => exact absurd enough (Nat.not_lt_zero _)
  | succ count ih =>
      rw [outward, List.findSome?_cons]
      cases picked : picks id with
      | some own =>
          have held := (agree id own).mp picked
          constructor
          · rintro ⟨rfl⟩
            exact .here held
          · intro innermost
            cases innermost with
            | here other => rw [← picked, (agree id found).mpr other]
            | around none _ _ => exact absurd held (none own)
      | none =>
          have none : ∀ other, ¬ has id other := by
            intro other held
            rw [(agree id other).mpr held] at picked
            cases picked
          cases enclosing : (model.classAt id).enclosing with
          | none =>
              constructor
              · intro nothing
                cases nothing
              · intro innermost
                cases innermost with
                | here held => exact absurd held (none found)
                | around _ outer _ =>
                    rw [enclosing] at outer
                    cases outer
          | some outer =>
              have nearer := descends id outer enclosing
              have further := @ih outer (by omega)
              constructor
              · intro later
                exact .around none enclosing (further.mp later)
              · intro innermost
                cases innermost with
                | here held => exact absurd held (none found)
                | around _ next later =>
                    obtain rfl := Option.some.inj (enclosing.symm.trans next)
                    exact further.mpr later

theorem findSome?_around (scope : Scope) (found : α) :
    (model.around scope).findSome? picks = some found ↔
      ∃ id, scope.classId = some id ∧ model.Innermost has id found := by
  unfold around
  cases inClass : scope.classId with
  | none => simp
  | some id =>
      simp [findSome?_outward agree descends (Nat.lt_succ_self id.index)]

end Model

end JavaDecl
