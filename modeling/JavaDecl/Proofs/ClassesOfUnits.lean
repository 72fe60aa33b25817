import Mathlib.Data.List.Nodup
import Mathlib.Logic.Relation
import JavaDecl.Proofs.LinkedModels

/-!
# The classes of a unit

In a linked model the classes around a class lead outward to one that is in none.  So the
classes of a unit, as they are collected from the outermost ones inward, are all that are
in the unit, each of them once and before those in it.
-/

namespace JavaDecl

namespace Model

def DirectlyIn (model : Model) (inner outer : ClassId) : Prop :=
  (model.classAt inner).enclosing = some outer

/-- No class comes before one that it is in. -/
def OuterFirst (model : Model) (ids : List ClassId) : Prop :=
  ids.Pairwise fun earlier later => ¬ Relation.TransGen model.DirectlyIn earlier later

variable {model : Model}

/-! ### The way outward -/

theorem directlyIn_rightUnique : Relator.RightUnique model.DirectlyIn :=
  fun _ _ _ one other => Option.some.inj (one.symm.trans other)

section Descends

variable (descends : model.Descends)

include descends

theorem index_lt_of_in {inner outer : ClassId}
    (within : Relation.TransGen model.DirectlyIn inner outer) : outer.index < inner.index := by
  induction within with
  | single around => exact descends _ _ around
  | tail _ around ih => exact Nat.lt_trans (descends _ _ around) ih

theorem index_le_of_in {inner outer : ClassId}
    (within : Relation.ReflTransGen model.DirectlyIn inner outer) :
    outer.index ≤ inner.index := by
  rcases Relation.reflTransGen_iff_eq_or_transGen.mp within with rfl | strictly
  · exact Nat.le_refl _
  · exact Nat.le_of_lt (index_lt_of_in descends strictly)

/-- The way outward from a class ends. -/
theorem wellFounded_directlyIn :
    WellFounded fun outer inner => model.DirectlyIn inner outer :=
  Subrelation.wf (fun around => descends _ _ around) (measure ClassId.index).wf

/-- No class is in two classes that stand side by side. -/
theorem not_in_both {id one other : ClassId}
    (beside : (model.classAt one).enclosing = (model.classAt other).enclosing)
    (apart : one ≠ other) (first : Relation.ReflTransGen model.DirectlyIn id one) :
    ¬ Relation.ReflTransGen model.DirectlyIn id other := by
  have never {one other : ClassId} (apart : one ≠ other)
      (beside : (model.classAt one).enclosing = (model.classAt other).enclosing) :
      ¬ Relation.ReflTransGen model.DirectlyIn one other := by
    intro within
    rcases Relation.ReflTransGen.cases_head within with same | ⟨outer, around, further⟩
    · exact apart same
    · have before := descends other outer (beside.symm.trans around)
      exact absurd (index_le_of_in descends further) (Nat.not_le.mpr before)
  intro second
  rcases Relation.ReflTransGen.total_of_right_unique directlyIn_rightUnique first second with
    within | within
  · exact never apart beside within
  · exact never apart.symm beside.symm within

/-- What is in classes that stand side by side, class after class. -/
theorem flatMap_beside {siblings : List ClassId} {inner : ClassId → List ClassId}
    (once : siblings.Nodup)
    (beside : ∀ one ∈ siblings, ∀ other ∈ siblings,
      (model.classAt one).enclosing = (model.classAt other).enclosing)
    (lists : ∀ id ∈ siblings,
      ListsExactly (inner id) fun found => Relation.ReflTransGen model.DirectlyIn found id)
    (ordered : ∀ id ∈ siblings, model.OuterFirst (inner id)) :
    ListsExactly (siblings.flatMap inner) (fun found =>
        ∃ id ∈ siblings, Relation.ReflTransGen model.DirectlyIn found id) ∧
      model.OuterFirst (siblings.flatMap inner) := by
  have apart {one other id : ClassId} (first : one ∈ siblings) (second : other ∈ siblings)
      (differ : one ≠ other) (within : Relation.ReflTransGen model.DirectlyIn id one) :=
    not_in_both descends (beside one first other second) differ within
  have listed {id found : ClassId} (sibling : id ∈ siblings) (member : found ∈ inner id) :=
    ((lists id sibling).mem_iff found).mp member
  refine ⟨⟨List.nodup_flatMap.mpr ⟨fun id sibling => (lists id sibling).once, ?_⟩,
    fun found => ?_⟩, List.pairwise_flatMap.mpr ⟨ordered, ?_⟩⟩
  · refine once.pairwise_of_forall_ne fun one first other second differ found left right => ?_
    exact apart first second differ (listed first left) (listed second right)
  · rw [List.mem_flatMap]
    refine exists_congr fun id => and_congr_right fun sibling => ?_
    exact (lists id sibling).mem_iff found
  · refine once.pairwise_of_forall_ne fun one first other second differ earlier left later right
      within => ?_
    exact apart first second differ (listed first left)
      (within.to_reflTransGen.trans (listed second right))

end Descends

/-! ### Classes in a class -/

namespace Linked

variable (linked : model.Linked)

include linked

theorem bodiesIn {id : ClassId} (inside : id.index < model.classes.size) :
    ListsExactly ((model.classAt id).fields.filterMap fun field => (model.field field).bodyClass)
      fun inner => model.DirectlyIn inner id ∧ (model.classAt inner).isConstantBody = true := by
  have fields := (linked.listsMembers inside).fields
  have bodies := linked.linksBodies
  refine ⟨fields.once.filterMap fun one other inner hasOne hasOther => ?_, fun inner => ?_⟩
  · obtain ⟨within, isBody, -⟩ := bodies.body one inner (inside_of_bodyClass hasOne) hasOne
    exact (bodies.constant inner within isBody).unique ⟨inside_of_bodyClass hasOne, hasOne⟩
      ⟨inside_of_bodyClass hasOther, hasOther⟩
  · rw [List.mem_filterMap]
    constructor
    · rintro ⟨field, listed, has⟩
      obtain ⟨known, declaring⟩ := (fields.mem_iff field).mp listed
      obtain ⟨-, isBody, around⟩ := bodies.body field inner known has
      exact ⟨declaring ▸ around, isBody⟩
    · rintro ⟨around, isBody⟩
      obtain ⟨field, known, has⟩ :=
        (bodies.constant inner (inside_of_enclosing around) isBody).exists
      obtain ⟨-, -, same⟩ := bodies.body field inner known has
      have declaring := Option.some.inj (same.symm.trans around)
      exact ⟨field, (fields.mem_iff field).mpr ⟨known, declaring⟩, has⟩

/-- The children of a class are the classes directly in it, the bodies of its constants
among them. -/
theorem children {id : ClassId} (inside : id.index < model.classes.size) :
    ListsExactly (model.children id) fun inner => model.DirectlyIn inner id := by
  refine ((linked.listsMembers inside).nested.append (linked.bodiesIn inside) ?_).congr
    fun inner => ⟨?_, fun around => ?_⟩
  · rintro inner ⟨-, -, plain⟩ ⟨-, isBody⟩
    rw [plain] at isBody
    cases isBody
  · rintro (⟨-, around, -⟩ | ⟨around, -⟩) <;> exact around
  · cases isBody : (model.classAt inner).isConstantBody with
    | false => exact .inl ⟨inside_of_enclosing around, around, rfl⟩
    | true => exact .inr ⟨around, rfl⟩

/-- What is collected from a class inward is all that is in it, if the depth is enough for
all classes that come after it. -/
theorem withInner {depth : Nat} {id : ClassId} (inside : id.index < model.classes.size)
    (enough : model.classes.size ≤ id.index + depth) :
    ListsExactly (model.withInner depth id)
        (fun found => Relation.ReflTransGen model.DirectlyIn found id) ∧
      model.OuterFirst (model.withInner depth id) := by
  have descends := linked.descends
  induction depth generalizing id with
  | zero => omega
  | succ depth ih =>
      have children := linked.children inside
      have deeper {child : ClassId} (listed : child ∈ model.children id) := by
        have around := (children.mem_iff child).mp listed
        have later := descends child id around
        exact ih (inside_of_enclosing around) (by omega)
      obtain ⟨lists, ordered⟩ := flatMap_beside descends children.once
        (fun one first other second => ((children.mem_iff one).mp first).trans
          ((children.mem_iff other).mp second).symm)
        (fun child listed => (deeper listed).1) fun child listed => (deeper listed).2
      have strictly {found : ClassId}
          (listed : found ∈ (model.children id).flatMap (model.withInner depth)) :
          Relation.TransGen model.DirectlyIn found id := by
        obtain ⟨child, member, within⟩ := (lists.mem_iff found).mp listed
        exact .tail' within ((children.mem_iff child).mp member)
      refine ⟨⟨List.nodup_cons.mpr ⟨fun again => ?_, lists.once⟩, fun found => ?_⟩,
        List.pairwise_cons.mpr ⟨fun later listed within => ?_, ordered⟩⟩
      · exact Nat.lt_irrefl _ (index_lt_of_in descends (strictly again))
      · rw [Model.withInner, List.mem_cons, lists.mem_iff, Relation.ReflTransGen.cases_tail_iff]
        refine or_congr eq_comm (exists_congr fun child => ?_)
        rw [children.mem_iff]
        exact and_comm
      · have before := index_lt_of_in descends (strictly listed)
        have after := index_lt_of_in descends within
        omega

/-! ### Classes of a unit -/

/-- Every class is in an outermost one of its unit, or is one. -/
theorem exists_outermost (id : ClassId) (inside : id.index < model.classes.size) :
    ∃ root, Relation.ReflTransGen model.DirectlyIn id root ∧ root.index < model.classes.size ∧
      (model.classAt root).unit = (model.classAt id).unit ∧
        (model.classAt root).enclosing = none := by
  induction id using (wellFounded_directlyIn linked.descends).induction with
  | _ id ih =>
      cases around : (model.classAt id).enclosing with
      | none => exact ⟨id, .refl, inside, rfl, around⟩
      | some outer =>
          have before := linked.descends id outer around
          obtain ⟨root, within, known, inUnit, outermost⟩ :=
            ih outer around (Nat.lt_trans before inside)
          have same := inUnit.trans (linked.around id outer around).symm
          exact ⟨root, .head around within, known, same, outermost⟩

theorem unit_of_in {inner outer : ClassId}
    (within : Relation.ReflTransGen model.DirectlyIn inner outer) :
    (model.classAt inner).unit = (model.classAt outer).unit := by
  induction within with
  | refl => rfl
  | tail _ around ih => exact ih.trans (linked.around _ _ around)

theorem classesInUnit {unit : UnitId} (inside : unit.index < model.units.size) :
    ListsExactly (model.classesInUnit unit)
        (fun id => id.index < model.classes.size ∧ (model.classAt id).unit = unit) ∧
      model.OuterFirst (model.classesInUnit unit) := by
  have roots := linked.outermost unit inside
  have inner {root : ClassId} (listed : root ∈ (model.unit unit).classes) :=
    linked.withInner ((roots.mem_iff root).mp listed).1
      (show model.classes.size ≤ root.index + (model.classes.size + 1) by omega)
  obtain ⟨lists, ordered⟩ := flatMap_beside linked.descends roots.once
    (fun one first other second => ((roots.mem_iff one).mp first).2.2.trans
      ((roots.mem_iff other).mp second).2.2.symm)
    (fun root listed => (inner listed).1) fun root listed => (inner listed).2
  refine ⟨lists.congr fun id => ⟨?_, fun ⟨known, inUnit⟩ => ?_⟩, ordered⟩
  · rintro ⟨root, listed, within⟩
    obtain ⟨known, inUnit, -⟩ := (roots.mem_iff root).mp listed
    refine ⟨?_, (linked.unit_of_in within).trans inUnit⟩
    rcases Relation.ReflTransGen.cases_head within with rfl | ⟨outer, around, -⟩
    · exact known
    · exact inside_of_enclosing around
  · obtain ⟨root, within, rooted, same, outermost⟩ := linked.exists_outermost id known
    exact ⟨root, (roots.mem_iff root).mpr ⟨rooted, same.trans inUnit, outermost⟩, within⟩

theorem classesInUnits :
    ListsExactly ((List.range model.units.size).flatMap fun position =>
        model.classesInUnit ⟨position⟩) fun id => id.index < model.classes.size := by
  have lists {position : Nat} (listed : position ∈ List.range model.units.size) :=
    (linked.classesInUnit (show UnitId.index ⟨position⟩ < _ from List.mem_range.mp listed)).1
  refine ⟨List.nodup_flatMap.mpr ⟨fun position listed => (lists listed).once, ?_⟩, fun id => ?_⟩
  · refine List.nodup_range.pairwise_of_forall_ne fun one first other second differ id left
      right => ?_
    have inOne := (((lists first).mem_iff id).mp left).2
    have inOther := (((lists second).mem_iff id).mp right).2
    exact differ (congrArg UnitId.index (inOne.symm.trans inOther))
  · rw [List.mem_flatMap]
    constructor
    · rintro ⟨position, listed, member⟩
      exact (((lists listed).mem_iff id).mp member).1
    · intro known
      have listed := List.mem_range.mpr (linked.inUnit id known)
      exact ⟨_, listed, ((lists listed).mem_iff id).mpr ⟨known, rfl⟩⟩

end Linked

end Model

end JavaDecl
