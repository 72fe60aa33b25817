import Mathlib.Logic.ExistsUnique
import JavaDecl.Proofs.BuiltModels
import JavaDecl.Proofs.EnclosingClasses

/-!
# Linked models

In a model that is built of accepted texts all declarations are linked in both directions.
Each text adds a unit with an outline, and what the model had before stays as it is.
-/

namespace JavaDecl

namespace Model

def Size.zero : Size := ⟨0, 0, 0, 0⟩

/-- All declarations of a model are linked. -/
structure Linked (model : Model) : Prop where
  spans : model.Spans none .zero model.size
  bodied : model.Bodied .zero model.size
  inUnit : ∀ id : ClassId, id.index < model.classes.size →
    (model.classAt id).unit.index < model.units.size
  around : ∀ id outer, (model.classAt id).enclosing = some outer →
    (model.classAt id).unit = (model.classAt outer).unit
  outermost : ∀ unit : UnitId, unit.index < model.units.size →
    ListsExactly (model.unit unit).classes fun id =>
      id.index < model.classes.size ∧ (model.classAt id).unit = unit ∧
        (model.classAt id).enclosing = none

variable {model larger : Model} {start stop : Size} {owner : Option ClassId} {members : Members}

/-! ### Growth -/

section Grown

variable (reaches : model.Reaches stop) (further : model.Extends larger)

include reaches further

theorem Collects.grown (collects : model.Collects start stop owner members) :
    larger.Collects start stop owner members := by
  have classAt {id : ClassId} (inside : id.index < stop.classes) :=
    further.classAt_eq (Nat.lt_of_lt_of_le inside reaches.classes)
  have field {id : FieldId} (inside : id.index < stop.fields) :=
    further.field_eq (Nat.lt_of_lt_of_le inside reaches.fields)
  have method {id : MethodId} (inside : id.index < stop.methods) :=
    further.method_eq (Nat.lt_of_lt_of_le inside reaches.methods)
  exact
    { nested := collects.nested.congr fun id => and_congr_right fun inside => by
        rw [classAt inside.2]
      fields := collects.fields.congr fun id => and_congr_right fun inside => by
        rw [field inside.2]
      methods := collects.methods.congr fun id => and_congr_right fun inside => by
        rw [method inside.2]
      constructors := collects.constructors.congr fun id => and_congr_right fun inside => by
        rw [method inside.2] }

theorem Spans.grown (spans : model.Spans owner start stop) : larger.Spans owner start stop where
  before := spans.before
  enclosing id inside := by
    rw [further.classAt_eq (Nat.lt_of_lt_of_le inside.2 reaches.classes)]
    exact spans.enclosing id inside
  field id inside := by
    rw [further.field_eq (Nat.lt_of_lt_of_le inside.2 reaches.fields)]
    exact spans.field id inside
  method id inside := by
    rw [further.method_eq (Nat.lt_of_lt_of_le inside.2 reaches.methods)]
    exact spans.method id inside
  inner id inside := by
    rw [further.classAt_eq (Nat.lt_of_lt_of_le inside.2 reaches.classes)]
    exact (spans.inner id inside).grown reaches further

theorem Bodied.grown (bodied : model.Bodied start stop) : larger.Bodied start stop := by
  have classAt {id : ClassId} (inside : id.index < stop.classes) :=
    further.classAt_eq (Nat.lt_of_lt_of_le inside reaches.classes)
  have field {id : FieldId} (inside : id.index < stop.fields) :=
    further.field_eq (Nat.lt_of_lt_of_le inside reaches.fields)
  refine ⟨bodied.before, fun id inner inside has => ?_, fun inner inside isBody => ?_,
    fun one other inner inOne inOther hasOne hasOther => ?_⟩
  · rw [field inside.2] at has ⊢
    obtain ⟨within, known⟩ := bodied.body id inner inside has
    rw [classAt within.2]
    exact ⟨within, known⟩
  · rw [classAt inside.2] at isBody
    obtain ⟨id, within, has⟩ := bodied.constant inner inside isBody
    exact ⟨id, within, (field within.2).symm ▸ has⟩
  · rw [field inOne.2] at hasOne
    rw [field inOther.2] at hasOther
    exact bodied.once one other inner inOne inOther hasOne hasOther

end Grown

/-! ### Units -/

theorem Spans.withUnits (spans : model.Spans owner start stop) (units : Nat) :
    model.Spans owner start { stop with units } :=
  ⟨⟨spans.before.classes, spans.before.methods, spans.before.fields⟩, spans.enclosing,
    spans.field, spans.method, fun id inside => by
      obtain ⟨nested, fields, methods, constructors⟩ := spans.inner id inside
      exact ⟨nested, fields, methods, constructors⟩⟩

theorem Bodied.withUnits (bodied : model.Bodied start stop) (units : Nat) :
    model.Bodied start { stop with units } :=
  ⟨⟨bodied.before.classes, bodied.before.methods, bodied.before.fields⟩, bodied.body,
    bodied.constant, bodied.once⟩

theorem Linked.empty : Linked {} where
  spans := .refl _ _ _
  bodied := .refl _ _
  inUnit id inside := absurd inside (Nat.not_lt_zero _)
  around id outer around := by cases around
  outermost unit inside := absurd inside (Nat.not_lt_zero _)

theorem formed_of_events {source : List Char} (accepted : (readUnit source).2 = none)
    {outline : Outline} (told : outline.events = (readUnit source).1.filter Event.isPart) :
    outline.Formed := by
  obtain ⟨front, back, split, plain, -, other, formed, parts⟩ := readUnit_outlined accepted
  rw [split, List.filter_append, plain, parts.filter, List.nil_append] at told
  rwa [Outline.events_inj told]

/-- What an accepted text adds is linked, and in a unit of its own. -/
structure AddsLinked (model grown : Model) : Prop where
  units : grown.units.size = model.units.size + 1
  spans : grown.Spans none (model.pushUnit {}).size grown.size
  bodied : grown.Bodied (model.pushUnit {}).size grown.size
  inUnit : ∀ id : ClassId, model.classes.size ≤ id.index ∧ id.index < grown.classes.size →
    (grown.classAt id).unit = ⟨model.units.size⟩
  collects : grown.Collects (model.pushUnit {}).size grown.size none
    { nested := (grown.unit ⟨model.units.size⟩).classes }

theorem addsLinked_of_accepted {grown : Model} {source : List Char}
    (accepted : (readUnit source).2 = none)
    (added : model.addUnit (readUnit source).1 = (grown, .ok ⟨model.units.size⟩)) :
    model.AddsLinked grown := by
  obtain ⟨other, again, units, mirrored⟩ := model.addUnit_of_accepted accepted
  obtain rfl : grown = other := (Prod.mk.inj (added.symm.trans again)).1
  obtain ⟨-, outline, told, -, mirrors⟩ := mirrored grown (.refl grown _ _) rfl
  have formed := formed_of_events accepted told
  obtain ⟨spans, collects⟩ := mirrors.owns formed nofun
  exact ⟨units, spans, mirrors.bodied formed, mirrors.inUnit, collects⟩

/-- A class that is in no other is the body of no constant. -/
theorem Bodied.plain_of_outermost (bodied : model.Bodied start stop) {id : ClassId}
    (inside : start.classes ≤ id.index ∧ id.index < stop.classes)
    (outermost : (model.classAt id).enclosing = none) :
    (model.classAt id).isConstantBody = false := by
  cases isBody : (model.classAt id).isConstantBody with
  | false => rfl
  | true =>
      obtain ⟨field, within, has⟩ := bodied.constant id inside isBody
      obtain ⟨-, -, around⟩ := bodied.body field id within has
      rw [outermost] at around
      cases around

/-! ### Places beyond the tables -/

theorem index_lt_of_unit {id : UnitId} (held : model.unit id ≠ default) :
    id.index < model.units.size := by
  by_contra beyond
  exact held (by simp [Model.unit, beyond])

theorem index_lt_of_classAt {id : ClassId} (held : model.classAt id ≠ default) :
    id.index < model.classes.size := by
  by_contra beyond
  exact held (by simp [Model.classAt, beyond])

theorem index_lt_of_method {id : MethodId} (held : model.method id ≠ default) :
    id.index < model.methods.size := by
  by_contra beyond
  exact held (by simp [Model.method, beyond])

theorem index_lt_of_field {id : FieldId} (held : model.field id ≠ default) :
    id.index < model.fields.size := by
  by_contra beyond
  exact held (by simp [Model.field, beyond])

theorem inside_of_enclosing {id outer : ClassId}
    (around : (model.classAt id).enclosing = some outer) : id.index < model.classes.size :=
  index_lt_of_classAt fun absent => by
    rw [absent] at around
    cases around

theorem inside_of_bodyClass {field : FieldId} {inner : ClassId}
    (has : (model.field field).bodyClass = some inner) : field.index < model.fields.size :=
  index_lt_of_field fun absent => by
    rw [absent] at has
    cases has

/-! ### Another unit -/

/-- A class that is in another is in one that comes before it. -/
theorem Spans.enclosing_between (spans : model.Spans none start stop) {id outer : ClassId}
    (inside : start.classes ≤ id.index ∧ id.index < stop.classes)
    (around : (model.classAt id).enclosing = some outer) :
    start.classes ≤ outer.index ∧ outer.index < id.index := by
  rcases spans.enclosing id inside with none | ⟨other, same, within⟩
  · rw [around] at none
    cases none
  · obtain rfl := Option.some.inj (around.symm.trans same)
    exact within

namespace Linked

section AddUnit

variable {grown : Model} (linked : model.Linked) (further : model.Extends grown)
  (adds : model.AddsLinked grown)

include linked further adds

/-- A class is in an earlier unit exactly if the model had it before. -/
theorem inUnit_lt_iff {id : ClassId} (inside : id.index < grown.classes.size) :
    (grown.classAt id).unit.index < model.units.size ↔ id.index < model.classes.size := by
  rcases Nat.lt_or_ge id.index model.classes.size with old | new
  · rw [further.classAt_eq old]
    exact iff_of_true (linked.inUnit id old) old
  · rw [adds.inUnit id ⟨new, inside⟩]
    exact iff_of_false (Nat.lt_irrefl _) (Nat.not_lt.mpr new)

theorem around_of_adds (id outer : ClassId) (around : (grown.classAt id).enclosing = some outer) :
    (grown.classAt id).unit = (grown.classAt outer).unit := by
  have inside := inside_of_enclosing around
  rcases Nat.lt_or_ge id.index model.classes.size with old | new
  · rw [further.classAt_eq old] at around ⊢
    have within := linked.spans.enclosing_between ⟨Nat.zero_le _, old⟩ around
    rw [further.classAt_eq (Nat.lt_trans within.2 old)]
    exact linked.around id outer around
  · have within := adds.spans.enclosing_between ⟨new, inside⟩ around
    rw [adds.inUnit id ⟨new, inside⟩]
    exact (adds.inUnit outer ⟨within.1, Nat.lt_trans within.2 inside⟩).symm

theorem outermost_of_earlier {unit : UnitId} (earlier : unit.index < model.units.size) :
    ListsExactly (grown.unit unit).classes fun id =>
      id.index < grown.classes.size ∧ (grown.classAt id).unit = unit ∧
        (grown.classAt id).enclosing = none := by
  rw [further.unit_eq earlier]
  refine (linked.outermost unit earlier).congr fun id => ⟨?_, ?_⟩
  · rintro ⟨old, known⟩
    rw [further.classAt_eq old]
    exact ⟨Nat.lt_of_lt_of_le old further.classes.size_le, known⟩
  · rintro ⟨inside, inUnit, outermost⟩
    have old := (linked.inUnit_lt_iff further adds inside).mp (inUnit ▸ earlier)
    rw [further.classAt_eq old] at inUnit outermost
    exact ⟨old, inUnit, outermost⟩

theorem outermost_of_last :
    ListsExactly (grown.unit ⟨model.units.size⟩).classes fun id =>
      id.index < grown.classes.size ∧ (grown.classAt id).unit = ⟨model.units.size⟩ ∧
        (grown.classAt id).enclosing = none := by
  refine adds.collects.nested.congr fun id => ⟨?_, ?_⟩
  · rintro ⟨within, outermost, -⟩
    exact ⟨within.2, adds.inUnit id within, outermost⟩
  · rintro ⟨inside, inUnit, outermost⟩
    have new : model.classes.size ≤ id.index := by
      refine Nat.le_of_not_lt fun old => ?_
      have known := (linked.inUnit_lt_iff further adds inside).mpr old
      rw [inUnit] at known
      exact Nat.lt_irrefl _ known
    exact ⟨⟨new, inside⟩, outermost, adds.bodied.plain_of_outermost ⟨new, inside⟩ outermost⟩

theorem addUnit : grown.Linked := by
  have reaches : model.Reaches model.size := .refl model
  have spans := (linked.spans.grown reaches further).withUnits (model.pushUnit {}).units.size
  have bodied := (linked.bodied.grown reaches further).withUnits (model.pushUnit {}).units.size
  refine ⟨spans.append adds.spans nofun, bodied.append adds.bodied,
    fun id inside => ?_, linked.around_of_adds further adds, fun unit inside => ?_⟩
  · rw [adds.units]
    rcases Nat.lt_or_ge id.index model.classes.size with old | new
    · rw [further.classAt_eq old]
      exact Nat.lt_succ_of_lt (linked.inUnit id old)
    · rw [adds.inUnit id ⟨new, inside⟩]
      exact Nat.lt_succ_self _
  · rw [adds.units] at inside
    rcases Nat.lt_or_eq_of_le (Nat.le_of_lt_succ inside) with earlier | last
    · exact linked.outermost_of_earlier further adds earlier
    · obtain rfl : unit = ⟨model.units.size⟩ := congrArg UnitId.mk last
      exact linked.outermost_of_last further adds

end AddUnit

end Linked

theorem Built.linked (built : model.Built) : model.Linked := by
  induction built with
  | empty => exact .empty
  | @addUnit model grown source earlier accepted added ih =>
      have further := (Extends.refl earlier.reachable.namesInside).addUnit (readUnit source).1
      rw [added] at further
      exact ih.addUnit further (addsLinked_of_accepted accepted added)

/-! ### Lists and bodies -/

/-- The lists of a class have exactly what is declared directly in it.  The bodies of its
constants are not in its list of classes. -/
structure ListsMembers (model : Model) (id : ClassId) : Prop where
  nested : ListsExactly (model.classAt id).nested fun inner =>
    inner.index < model.classes.size ∧ (model.classAt inner).enclosing = some id ∧
      (model.classAt inner).isConstantBody = false
  fields : ListsExactly (model.classAt id).fields fun field =>
    field.index < model.fields.size ∧ (model.field field).declaring = id
  methods : ListsExactly (model.classAt id).methods fun method =>
    method.index < model.methods.size ∧ (model.method method).declaring = id ∧
      (model.method method).isConstructor = false
  constructors : ListsExactly (model.classAt id).constructors fun method =>
    method.index < model.methods.size ∧ (model.method method).declaring = id ∧
      (model.method method).isConstructor = true

/-- A class that a field has as its body is the body of a constant, and in the class that
declares the field; and each body of a constant is that of exactly one field. -/
structure LinksBodies (model : Model) : Prop where
  body : ∀ (field : FieldId) (inner : ClassId), field.index < model.fields.size →
    (model.field field).bodyClass = some inner →
      inner.index < model.classes.size ∧ (model.classAt inner).isConstantBody = true ∧
        (model.classAt inner).enclosing = some (model.field field).declaring
  constant : ∀ inner : ClassId, inner.index < model.classes.size →
    (model.classAt inner).isConstantBody = true →
      ∃! field : FieldId, field.index < model.fields.size ∧
        (model.field field).bodyClass = some inner

namespace Linked

theorem listsMembers (linked : model.Linked) {id : ClassId}
    (inside : id.index < model.classes.size) : model.ListsMembers id := by
  have collects := linked.spans.inner id ⟨Nat.zero_le _, inside⟩
  have range (index count : Nat) : (0 ≤ index ∧ index < count) ↔ index < count :=
    and_iff_right (Nat.zero_le _)
  have same {one other : ClassId} : some one = some other ↔ one = other := Option.some_inj
  exact
    { nested := collects.nested.congr fun inner => and_congr_left' (range _ _)
      fields := collects.fields.congr fun field => and_congr (range _ _) same
      methods := collects.methods.congr fun method =>
        and_congr (range _ _) (and_congr_left' same)
      constructors := collects.constructors.congr fun method =>
        and_congr (range _ _) (and_congr_left' same) }

theorem linksBodies (linked : model.Linked) : model.LinksBodies where
  body field inner inside has := by
    obtain ⟨within, known⟩ := linked.bodied.body field inner ⟨Nat.zero_le _, inside⟩ has
    exact ⟨within.2, known⟩
  constant inner inside isBody := by
    obtain ⟨field, within, has⟩ := linked.bodied.constant inner ⟨Nat.zero_le _, inside⟩ isBody
    refine ⟨field, ⟨within.2, has⟩, fun other ⟨known, same⟩ => ?_⟩
    exact linked.bodied.once other field inner ⟨Nat.zero_le _, known⟩ within same has

theorem descends (linked : model.Linked) : model.Descends := fun _ _ around =>
  (linked.spans.enclosing_between ⟨Nat.zero_le _, inside_of_enclosing around⟩ around).2

end Linked

end Model

end JavaDecl
