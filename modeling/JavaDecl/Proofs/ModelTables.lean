import JavaDecl.Model.Basic

/-!
# Tables of a model

What is found in the tables of a model after one of them has changed, and models that
have grown out of others.
-/

namespace JavaDecl

namespace Model

/-! ### Changes of a table -/

section Table

variable {α : Type} (table : Array α)

theorem getD_push (entity other : α) (position : Nat) :
    (table.push entity).getD position other =
      if position = table.size then entity else table.getD position other := by
  simp only [Array.getD_eq_getD_getElem?, Array.getElem?_push]
  split <;> rfl

theorem getD_modify (change : α → α) (other : α) (changed position : Nat) :
    (table.modify changed change).getD position other =
      if changed = position ∧ position < table.size then change (table.getD position other)
      else table.getD position other := by
  simp only [Array.getD_eq_getD_getElem?, Array.getElem?_modify]
  by_cases same : changed = position
  · by_cases inside : position < table.size
    · simp [same, inside]
    · simp [same, inside]
  · simp [same]

/-- A table keeps the entries of an earlier one. -/
def KeepsTable (earlier later : Array α) : Prop :=
  ∀ position < earlier.size, later[position]? = earlier[position]?

variable {table} {earlier later : Array α}

theorem KeepsTable.refl (table : Array α) : KeepsTable table table :=
  fun _ _ => rfl

theorem KeepsTable.size_le (keeps : KeepsTable earlier later) : earlier.size ≤ later.size := by
  apply Nat.le_of_not_lt
  intro larger
  have missing := keeps later.size larger
  simp [larger] at missing

theorem KeepsTable.trans {last : Array α} (first : KeepsTable earlier later)
    (second : KeepsTable later last) : KeepsTable earlier last := by
  intro position inside
  have further := Nat.lt_of_lt_of_le inside first.size_le
  rw [second position further, first position inside]

theorem KeepsTable.push (keeps : KeepsTable earlier later) (entity : α) :
    KeepsTable earlier (later.push entity) := by
  intro position inside
  have further := Nat.lt_of_lt_of_le inside keeps.size_le
  rw [Array.getElem?_push_lt further, ← Array.getElem?_eq_getElem further]
  exact keeps position inside

theorem KeepsTable.modify (keeps : KeepsTable earlier later) {changed : Nat}
    (beyond : earlier.size ≤ changed) (change : α → α) :
    KeepsTable earlier (later.modify changed change) := by
  intro position inside
  have other : changed ≠ position := by omega
  rw [Array.getElem?_modify, if_neg other]
  exact keeps position inside

theorem KeepsTable.take_eq (keeps : KeepsTable earlier later) :
    later.take earlier.size = earlier := by
  apply Array.ext_getElem?
  intro position
  by_cases inside : position < earlier.size
  · have further := Nat.lt_of_lt_of_le inside keeps.size_le
    rw [← keeps position inside]
    have both : position < min earlier.size later.size := by omega
    simp [both]
  · simp only [Array.take_eq_extract, Array.getElem?_extract]
    rw [if_neg (by omega)]
    simp [Nat.le_of_not_lt inside]

theorem KeepsTable.getD_eq (keeps : KeepsTable earlier later) {position : Nat}
    (inside : position < earlier.size) (other : α) :
    later.getD position other = earlier.getD position other := by
  simp only [Array.getD_eq_getD_getElem?, keeps position inside]

end Table

/-! ### Changes of a model -/

variable (model : Model)

theorem unit_pushUnit (entity : UnitEntity) (id : UnitId) :
    (model.pushUnit entity).unit id =
      if id.index = model.units.size then entity else model.unit id :=
  getD_push ..

theorem unit_modifyUnit (changed id : UnitId) (change : UnitEntity → UnitEntity) :
    (model.modifyUnit changed change).unit id =
      if changed.index = id.index ∧ id.index < model.units.size then change (model.unit id)
      else model.unit id :=
  getD_modify ..

theorem classAt_pushClass (entity : ClassEntity) (id : ClassId) :
    (model.pushClass entity).classAt id =
      if id.index = model.classes.size then entity else model.classAt id :=
  getD_push ..

theorem classAt_modifyClass (changed id : ClassId) (change : ClassEntity → ClassEntity) :
    (model.modifyClass changed change).classAt id =
      if changed.index = id.index ∧ id.index < model.classes.size then change (model.classAt id)
      else model.classAt id :=
  getD_modify ..

theorem method_pushMethod (entity : MethodEntity) (id : MethodId) :
    (model.pushMethod entity).method id =
      if id.index = model.methods.size then entity else model.method id :=
  getD_push ..

theorem field_pushField (entity : FieldEntity) (id : FieldId) :
    (model.pushField entity).field id =
      if id.index = model.fields.size then entity else model.field id :=
  getD_push ..

theorem field_modifyField (changed id : FieldId) (change : FieldEntity → FieldEntity) :
    (model.modifyField changed change).field id =
      if changed.index = id.index ∧ id.index < model.fields.size then change (model.field id)
      else model.field id :=
  getD_modify ..

/-- A new class takes the names that no earlier class has. -/
theorem classNamed?_pushClass (entity : ClassEntity) (name : String) :
    (model.pushClass entity).classNamed? name =
      if (model.classNamed? name).isNone ∧
          (entity.binaryName = name ∨ entity.canonicalName = name) then
        some ⟨model.classes.size⟩
      else model.classNamed? name := by
  simp only [classNamed?, pushClass, NameTable.find?_setIfNew]
  have held : ∀ found : Option ClassId, some (found.getD ⟨model.classes.size⟩) =
      if found.isNone then some ⟨model.classes.size⟩ else found := by
    rintro (_ | id) <;> rfl
  by_cases canonical : entity.canonicalName = name
  · by_cases binary : entity.binaryName = name
    · by_cases unknown : model.classIndex.find? name = none
      · simp [binary, canonical, unknown]
      · simp [binary, canonical, held, unknown]
    · simp [binary, canonical, held]
  · by_cases binary : entity.binaryName = name
    · simp [binary, canonical, held]
    · simp [binary, canonical]

/-! ### Growth -/

/-- A model has grown out of another: it keeps what that one has, and all it has more is
found beyond the size of that one. -/
structure Extends (base model : Model) : Prop where
  units : KeepsTable base.units model.units
  classes : KeepsTable base.classes model.classes
  methods : KeepsTable base.methods model.methods
  fields : KeepsTable base.fields model.fields
  names : ∀ name, (model.classNamed? name).filter (·.index < base.classes.size) =
    base.classNamed? name

/-- A model that has grown is restored by cutting it back. -/
theorem Extends.truncate_eq {base model : Model} (grown : base.Extends model) :
    model.truncate base.size = base := by
  have index : (model.classIndex.keep fun id => id.index < base.classes.size) =
      base.classIndex := by
    apply NameTable.eq_of_find?_eq
    intro name
    rw [NameTable.find?_keep]
    exact grown.names name
  unfold truncate size
  rw [grown.units.take_eq, grown.classes.take_eq, grown.methods.take_eq, grown.fields.take_eq,
    index]

end Model

end JavaDecl
