import JavaDecl.Proofs.DeclaredEntities

/-!
# Links between declarations

What an outline declares is linked in both directions: the lists of a class have exactly
the declarations that name the class as the one around them, and the bodies of constants
are those of exactly one constant.  Both are shown for what a model has from one size to
another, and hold from the first size to the last when they hold of two parts.
-/

namespace JavaDecl

/-! ### Lists without omissions -/

/-- A list has exactly the items of which something is said, each of them once. -/
structure ListsExactly {α : Type} (items : List α) (said : α → Prop) : Prop where
  once : items.Nodup
  mem_iff : ∀ item, item ∈ items ↔ said item

namespace ListsExactly

variable {α : Type} {items others : List α} {said other : α → Prop}

theorem congr (lists : ListsExactly items said) (same : ∀ item, said item ↔ other item) :
    ListsExactly items other :=
  ⟨lists.once, fun item => (lists.mem_iff item).trans (same item)⟩

theorem nothing (none : ∀ item, ¬ said item) : ListsExactly [] said :=
  ⟨List.nodup_nil, fun item => iff_of_false List.not_mem_nil (none item)⟩

theorem single {only : α} (same : ∀ item, said item ↔ item = only) :
    ListsExactly [only] said :=
  ⟨List.pairwise_singleton _ only, fun item => List.mem_singleton.trans (same item).symm⟩

/-- What is said of the items of two lists has to exclude the other. -/
theorem append (front : ListsExactly items said) (back : ListsExactly others other)
    (apart : ∀ item, said item → ¬ other item) :
    ListsExactly (items ++ others) fun item => said item ∨ other item where
  once := by
    refine List.nodup_append.mpr ⟨front.once, back.once, ?_⟩
    rintro item first _ second rfl
    exact apart item ((front.mem_iff item).mp first) ((back.mem_iff item).mp second)
  mem_iff item := by rw [List.mem_append, front.mem_iff, back.mem_iff]

/-- Lists of what has indices up to a middle, and from there on. -/
theorem append_between {index : α → Nat} {start middle stop : Nat} (low : start ≤ middle)
    (high : middle ≤ stop)
    (front : ListsExactly items fun item => (start ≤ index item ∧ index item < middle) ∧ said item)
    (back : ListsExactly others fun item => (middle ≤ index item ∧ index item < stop) ∧ said item) :
    ListsExactly (items ++ others) fun item =>
      (start ≤ index item ∧ index item < stop) ∧ said item := by
  refine (front.append back ?_).congr fun item => ⟨?_, fun ⟨inside, known⟩ => ?_⟩
  · rintro item ⟨below, -⟩ ⟨above, -⟩
    omega
  · rintro (⟨inside, known⟩ | ⟨inside, known⟩) <;> exact ⟨by omega, known⟩
  · rcases Nat.lt_or_ge (index item) middle with below | above
    · exact .inl ⟨⟨inside.1, below⟩, known⟩
    · exact .inr ⟨⟨above, inside.2⟩, known⟩

theorem next {index : α → Nat} (injective : Function.Injective index) {only : α}
    (known : said only) :
    ListsExactly [only] fun item =>
      (index only ≤ index item ∧ index item < index only + 1) ∧ said item := by
  refine .single fun item => ⟨fun ⟨inside, _⟩ => injective (by omega), ?_⟩
  rintro rfl
  exact ⟨by omega, known⟩

end ListsExactly

theorem eq_of_between {α : Type} {index : α → Nat} (injective : Function.Injective index)
    {one other : α} (inside : index other ≤ index one ∧ index one < index other + 1) :
    one = other :=
  injective (by omega)

theorem ClassId.index_injective : Function.Injective ClassId.index := fun _ _ => congrArg ClassId.mk

theorem FieldId.index_injective : Function.Injective FieldId.index := fun _ _ => congrArg FieldId.mk

theorem MethodId.index_injective : Function.Injective MethodId.index :=
  fun _ _ => congrArg MethodId.mk

namespace Model

/-- A model of one size has no more than one of another, units left out. -/
structure Size.Before (start stop : Size) : Prop where
  classes : start.classes ≤ stop.classes
  methods : start.methods ≤ stop.methods
  fields : start.fields ≤ stop.fields

theorem Size.Before.refl (size : Size) : size.Before size :=
  ⟨Nat.le_refl _, Nat.le_refl _, Nat.le_refl _⟩

theorem Size.Before.ofClass (size : Size) :
    size.Before { size with classes := size.classes + 1 } :=
  ⟨Nat.le_succ _, Nat.le_refl _, Nat.le_refl _⟩

theorem Size.Before.trans {start middle stop : Size} (first : start.Before middle)
    (second : middle.Before stop) : start.Before stop :=
  ⟨Nat.le_trans first.classes second.classes, Nat.le_trans first.methods second.methods,
    Nat.le_trans first.fields second.fields⟩

/-! ### Members -/

/-- Of what a model has from one size to another, the members of an owner are exactly what
is declared in it.  The body of a constant is no member of its own. -/
structure Collects (model : Model) (start stop : Size) (owner : Option ClassId)
    (members : Members) : Prop where
  nested : ListsExactly members.nested fun id =>
    (start.classes ≤ id.index ∧ id.index < stop.classes) ∧
      (model.classAt id).enclosing = owner ∧ (model.classAt id).isConstantBody = false
  fields : ListsExactly members.fields fun id =>
    (start.fields ≤ id.index ∧ id.index < stop.fields) ∧ some (model.field id).declaring = owner
  methods : ListsExactly members.methods fun id =>
    (start.methods ≤ id.index ∧ id.index < stop.methods) ∧
      some (model.method id).declaring = owner ∧ (model.method id).isConstructor = false
  constructors : ListsExactly members.constructors fun id =>
    (start.methods ≤ id.index ∧ id.index < stop.methods) ∧
      some (model.method id).declaring = owner ∧ (model.method id).isConstructor = true

/-- What a model has from one size to another is declared in one owner or in a class that
comes before it there, and each class there has what is declared in it. -/
structure Spans (model : Model) (owner : Option ClassId) (start stop : Size) : Prop where
  before : start.Before stop
  enclosing : ∀ id : ClassId, start.classes ≤ id.index ∧ id.index < stop.classes →
    (model.classAt id).enclosing = owner ∨ ∃ outer, (model.classAt id).enclosing = some outer ∧
      start.classes ≤ outer.index ∧ outer.index < id.index
  field : ∀ id : FieldId, start.fields ≤ id.index ∧ id.index < stop.fields →
    some (model.field id).declaring = owner ∨
      (start.classes ≤ (model.field id).declaring.index ∧
        (model.field id).declaring.index < stop.classes)
  method : ∀ id : MethodId, start.methods ≤ id.index ∧ id.index < stop.methods →
    some (model.method id).declaring = owner ∨
      (start.classes ≤ (model.method id).declaring.index ∧
        (model.method id).declaring.index < stop.classes)
  inner : ∀ id : ClassId, start.classes ≤ id.index ∧ id.index < stop.classes →
    model.Collects start stop (some id) (model.classAt id).members

variable {model : Model} {start middle stop : Size} {owner : Option ClassId}
  {members others : Members}

namespace Collects

theorem append (low : start.Before middle) (high : middle.Before stop)
    (first : model.Collects start middle owner members)
    (second : model.Collects middle stop owner others) :
    model.Collects start stop owner (members ++ others) where
  nested := .append_between low.classes high.classes first.nested second.nested
  fields := .append_between low.fields high.fields first.fields second.fields
  methods := .append_between low.methods high.methods first.methods second.methods
  constructors :=
    .append_between low.methods high.methods first.constructors second.constructors

/-- Nothing from one size to another is declared in the owner. -/
theorem nothing
    (classes : ∀ id : ClassId, start.classes ≤ id.index ∧ id.index < stop.classes →
      (model.classAt id).enclosing = owner → (model.classAt id).isConstantBody = true)
    (fields : ∀ id : FieldId, start.fields ≤ id.index ∧ id.index < stop.fields →
      some (model.field id).declaring ≠ owner)
    (methods : ∀ id : MethodId, start.methods ≤ id.index ∧ id.index < stop.methods →
      some (model.method id).declaring ≠ owner) : model.Collects start stop owner {} where
  nested := .nothing fun id ⟨inside, around, plain⟩ => by
    rw [classes id inside around] at plain
    cases plain
  fields := .nothing fun id ⟨inside, declaring⟩ => fields id inside declaring
  methods := .nothing fun id ⟨inside, declaring, _⟩ => methods id inside declaring
  constructors := .nothing fun id ⟨inside, declaring, _⟩ => methods id inside declaring

theorem refl (model : Model) (size : Size) (owner : Option ClassId)
    (initializers : List InitializerDecl) : model.Collects size size owner { initializers } :=
  have nothing : model.Collects size size owner {} :=
    .nothing (by omega) (by omega) (by omega)
  ⟨nothing.nested, nothing.fields, nothing.methods, nothing.constructors⟩

end Collects

namespace Spans

theorem refl (model : Model) (owner : Option ClassId) (size : Size) :
    model.Spans owner size size where
  before := .refl size
  enclosing := by omega
  field := by omega
  method := by omega
  inner := by omega

theorem elsewhere (spans : model.Spans owner start stop) {other : Option ClassId}
    (apart : owner ≠ other)
    (outside : ∀ id, other = some id → id.index < start.classes ∨ stop.classes ≤ id.index) :
    model.Collects start stop other {} := by
  refine .nothing (fun inner inside around => ?_) (fun field inside declaring => ?_)
    fun method inside declaring => ?_
  · rcases spans.enclosing inner inside with own | ⟨outer, same, within⟩
    · exact absurd (own.symm.trans around) apart
    · have := outside outer (around.symm.trans same)
      omega
  · rcases spans.field field inside with own | within
    · exact apart (own.symm.trans declaring)
    · have := outside _ declaring.symm
      omega
  · rcases spans.method method inside with own | within
    · exact apart (own.symm.trans declaring)
    · have := outside _ declaring.symm
      omega

/-- The owner is older than both parts, so neither has anything of a class of the other. -/
theorem append (first : model.Spans owner start middle) (second : model.Spans owner middle stop)
    (older : ∀ id, owner = some id → id.index < start.classes) :
    model.Spans owner start stop where
  before := first.before.trans second.before
  enclosing id inside := by
    have low := first.before.classes
    rcases Nat.lt_or_ge id.index middle.classes with below | above
    · exact first.enclosing id ⟨inside.1, below⟩
    · refine (second.enclosing id ⟨above, inside.2⟩).imp_right fun ⟨outer, around, later⟩ => ?_
      exact ⟨outer, around, by omega⟩
  field id inside := by
    have low := first.before.classes
    have high := second.before.classes
    rcases Nat.lt_or_ge id.index middle.fields with below | above
    · exact (first.field id ⟨inside.1, below⟩).imp_right fun within => by omega
    · exact (second.field id ⟨above, inside.2⟩).imp_right fun within => by omega
  method id inside := by
    have low := first.before.classes
    have high := second.before.classes
    rcases Nat.lt_or_ge id.index middle.methods with below | above
    · exact (first.method id ⟨inside.1, below⟩).imp_right fun within => by omega
    · exact (second.method id ⟨above, inside.2⟩).imp_right fun within => by omega
  inner id inside := by
    have other : owner ≠ some id := fun same => by
      have := older id same
      omega
    rcases Nat.lt_or_ge id.index middle.classes with below | above
    · have own := first.inner id ⟨inside.1, below⟩
      have rest := second.elsewhere other fun _ same =>
        .inl (Option.some.inj same ▸ below)
      have both := own.append first.before second.before rest
      rwa [Members.append_nothing] at both
    · have own := second.inner id ⟨above, inside.2⟩
      have rest := first.elsewhere other fun _ same =>
        .inr (Option.some.inj same ▸ above)
      exact rest.append first.before second.before own

end Spans

/-! ### One declaration -/

namespace Collects

/-- A class that is not declared in the owner, or is the body of a constant. -/
theorem skipClass
    (other : (model.classAt ⟨start.classes⟩).enclosing = owner →
      (model.classAt ⟨start.classes⟩).isConstantBody = true) :
    model.Collects start { start with classes := start.classes + 1 } owner {} := by
  refine .nothing (fun id inside around => ?_) (by simp only; omega) (by simp only; omega)
  obtain rfl : id = ⟨start.classes⟩ :=
      eq_of_between ClassId.index_injective inside
  exact other around

theorem ofClass (enclosing : (model.classAt ⟨start.classes⟩).enclosing = owner)
    (plain : (model.classAt ⟨start.classes⟩).isConstantBody = false) :
    model.Collects start { start with classes := start.classes + 1 } owner
      { nested := [⟨start.classes⟩] } where
  nested := .next ClassId.index_injective ⟨enclosing, plain⟩
  fields := .nothing (by simp only; omega)
  methods := .nothing (by simp only; omega)
  constructors := .nothing (by simp only; omega)

theorem ofField (declaring : some (model.field ⟨start.fields⟩).declaring = owner) :
    model.Collects start { start with fields := start.fields + 1 } owner
      { fields := [⟨start.fields⟩] } where
  nested := .nothing (by simp only; omega)
  fields := .next FieldId.index_injective declaring
  methods := .nothing (by simp only; omega)
  constructors := .nothing (by simp only; omega)

theorem ofMethod {isConstructor : Bool}
    (declaring : some (model.method ⟨start.methods⟩).declaring = owner)
    (sort : (model.method ⟨start.methods⟩).isConstructor = isConstructor) :
    model.Collects start { start with methods := start.methods + 1 } owner
      (.ofMethod isConstructor ⟨start.methods⟩) := by
  have apart (flag : Bool) (other : flag ≠ isConstructor) (id : MethodId) :
      ¬ ((start.methods ≤ id.index ∧ id.index < start.methods + 1) ∧
        some (model.method id).declaring = owner ∧ (model.method id).isConstructor = flag) := by
    rintro ⟨inside, -, same⟩
    obtain rfl : id = ⟨start.methods⟩ :=
      eq_of_between MethodId.index_injective inside
    exact other (same.symm.trans sort)
  cases isConstructor with
  | false =>
      exact
        { nested := .nothing (by simp only; omega)
          fields := .nothing (by simp only; omega)
          methods := .next MethodId.index_injective ⟨declaring, sort⟩
          constructors := .nothing (apart true nofun) }
  | true =>
      exact
        { nested := .nothing (by simp only; omega)
          fields := .nothing (by simp only; omega)
          methods := .nothing (apart false nofun)
          constructors := .next MethodId.index_injective ⟨declaring, sort⟩ }

end Collects

namespace Spans

/-- What stands in a class is not declared in the owner of the class. -/
theorem besides (inner : model.Spans (some ⟨start.classes⟩)
      { start with classes := start.classes + 1 } stop)
    (older : ∀ id, owner = some id → id.index < start.classes) :
    model.Collects { start with classes := start.classes + 1 } stop owner {} :=
  inner.elsewhere (fun same => Nat.lt_irrefl _ (older _ same.symm)) fun id same =>
    .inl (Nat.lt_succ_of_lt (older id same))

theorem ofClass (enclosing : (model.classAt ⟨start.classes⟩).enclosing = owner)
    (older : ∀ id, owner = some id → id.index < start.classes)
    (inner : model.Spans (some ⟨start.classes⟩) { start with classes := start.classes + 1 } stop)
    (collects : model.Collects { start with classes := start.classes + 1 } stop
      (some ⟨start.classes⟩) (model.classAt ⟨start.classes⟩).members) :
    model.Spans owner start stop where
  before :=
    ⟨Nat.le_of_succ_le inner.before.classes, inner.before.methods, inner.before.fields⟩
  enclosing id inside := by
    rcases Nat.eq_or_lt_of_le inside.1 with same | later
    · obtain rfl : ⟨start.classes⟩ = id := ClassId.index_injective same
      exact .inl enclosing
    · rcases inner.enclosing id ⟨later, inside.2⟩ with own | ⟨outer, around, below⟩
      · exact .inr ⟨_, own, Nat.le_refl _, later⟩
      · exact .inr ⟨outer, around, Nat.le_of_succ_le below.1, below.2⟩
  field id inside := by
    have := inner.before.classes
    refine .inr ?_
    rcases inner.field id inside with own | within
    · rw [Option.some.inj own]
      exact ⟨Nat.le_refl _, this⟩
    · exact ⟨Nat.le_of_succ_le within.1, within.2⟩
  method id inside := by
    have := inner.before.classes
    refine .inr ?_
    rcases inner.method id inside with own | within
    · rw [Option.some.inj own]
      exact ⟨Nat.le_refl _, this⟩
    · exact ⟨Nat.le_of_succ_le within.1, within.2⟩
  inner id inside := by
    have skipped : model.Collects start { start with classes := start.classes + 1 } (some id) {} :=
      .skipClass fun around => by
        have := older id (enclosing.symm.trans around)
        omega
    rcases Nat.eq_or_lt_of_le inside.1 with same | later
    · obtain rfl : ⟨start.classes⟩ = id := ClassId.index_injective same
      exact skipped.append (.ofClass start) inner.before collects
    · exact skipped.append (.ofClass start) inner.before (inner.inner id ⟨later, inside.2⟩)

theorem ofField (declaring : some (model.field ⟨start.fields⟩).declaring = owner) :
    model.Spans owner start { start with fields := start.fields + 1 } where
  before := ⟨Nat.le_refl _, Nat.le_refl _, Nat.le_succ _⟩
  enclosing := by simp only; omega
  field id inside := by
    obtain rfl : id = ⟨start.fields⟩ :=
      eq_of_between FieldId.index_injective inside
    exact .inl declaring
  method := by simp only; omega
  inner := by simp only; omega

theorem ofMethod (declaring : some (model.method ⟨start.methods⟩).declaring = owner) :
    model.Spans owner start { start with methods := start.methods + 1 } where
  before := ⟨Nat.le_refl _, Nat.le_succ _, Nat.le_refl _⟩
  enclosing := by simp only; omega
  field := by simp only; omega
  method id inside := by
    obtain rfl : id = ⟨start.methods⟩ :=
      eq_of_between MethodId.index_injective inside
    exact .inl declaring
  inner := by simp only; omega

end Spans

/-- What a model has from one size to another is declared in an owner, directly as its
members or in one of them. -/
structure Owns (model : Model) (owner : Option ClassId) (start stop : Size) (members : Members) :
    Prop where
  spans : model.Spans owner start stop
  collects : model.Collects start stop owner members

namespace Owns

theorem refl (model : Model) (owner : Option ClassId) (size : Size)
    (initializers : List InitializerDecl) : model.Owns owner size size { initializers } :=
  ⟨.refl model owner size, .refl model size owner initializers⟩

theorem append (first : model.Owns owner start middle members)
    (second : model.Owns owner middle stop others)
    (older : ∀ id, owner = some id → id.index < start.classes) :
    model.Owns owner start stop (members ++ others) where
  spans := first.spans.append second.spans older
  collects := first.collects.append first.spans.before second.spans.before second.collects

section Class

variable (enclosing : (model.classAt ⟨start.classes⟩).enclosing = owner)
  (older : ∀ id, owner = some id → id.index < start.classes)
  (inner : model.Owns (some ⟨start.classes⟩) { start with classes := start.classes + 1 } stop
    (model.classAt ⟨start.classes⟩).members)

include enclosing older inner

theorem ofClass (plain : (model.classAt ⟨start.classes⟩).isConstantBody = false) :
    model.Owns owner start stop { nested := [⟨start.classes⟩] } where
  spans := .ofClass enclosing older inner.spans inner.collects
  collects := (Collects.ofClass enclosing plain).append (.ofClass start) inner.spans.before
    (inner.spans.besides older)

theorem ofBody (isBody : (model.classAt ⟨start.classes⟩).isConstantBody = true) :
    model.Owns owner start stop {} where
  spans := .ofClass enclosing older inner.spans inner.collects
  collects := (Collects.skipClass fun _ => isBody).append (.ofClass start) inner.spans.before
    (inner.spans.besides older)

end Class

theorem ofField (declaring : some (model.field ⟨start.fields⟩).declaring = owner) :
    model.Owns owner start { start with fields := start.fields + 1 }
      { fields := [⟨start.fields⟩] } :=
  ⟨.ofField declaring, .ofField declaring⟩

theorem ofMethod {isConstructor : Bool}
    (declaring : some (model.method ⟨start.methods⟩).declaring = owner)
    (sort : (model.method ⟨start.methods⟩).isConstructor = isConstructor) :
    model.Owns owner start { start with methods := start.methods + 1 }
      (.ofMethod isConstructor ⟨start.methods⟩) :=
  ⟨.ofMethod declaring, .ofMethod declaring sort⟩

end Owns

/-! ### Bodies of constants -/

/-- Of what a model has from one size to another, the bodies of constants are those of one
field each, and stand in the class that the field stands in. -/
structure Bodied (model : Model) (start stop : Size) : Prop where
  before : start.Before stop
  body : ∀ (field : FieldId) (inner : ClassId),
    start.fields ≤ field.index ∧ field.index < stop.fields →
      (model.field field).bodyClass = some inner →
        (start.classes ≤ inner.index ∧ inner.index < stop.classes) ∧
          (model.classAt inner).isConstantBody = true ∧
            (model.classAt inner).enclosing = some (model.field field).declaring
  constant : ∀ inner : ClassId, start.classes ≤ inner.index ∧ inner.index < stop.classes →
    (model.classAt inner).isConstantBody = true →
      ∃ field : FieldId, (start.fields ≤ field.index ∧ field.index < stop.fields) ∧
        (model.field field).bodyClass = some inner
  once : ∀ (one other : FieldId) (inner : ClassId),
    start.fields ≤ one.index ∧ one.index < stop.fields →
      start.fields ≤ other.index ∧ other.index < stop.fields →
        (model.field one).bodyClass = some inner → (model.field other).bodyClass = some inner →
          one = other

namespace Bodied

theorem refl (model : Model) (size : Size) : model.Bodied size size :=
  ⟨.refl size, by omega, by omega, by omega⟩

theorem append (first : model.Bodied start middle) (second : model.Bodied middle stop) :
    model.Bodied start stop := by
  obtain ⟨lowClasses, -, lowFields⟩ := first.before
  obtain ⟨highClasses, -, highFields⟩ := second.before
  have body : ∀ (field : FieldId) (inner : ClassId),
      start.fields ≤ field.index ∧ field.index < stop.fields →
        (model.field field).bodyClass = some inner →
          (field.index < middle.fields ↔ inner.index < middle.classes) ∧
            (start.classes ≤ inner.index ∧ inner.index < stop.classes) ∧
              (model.classAt inner).isConstantBody = true ∧
                (model.classAt inner).enclosing = some (model.field field).declaring := by
    intro field inner inside has
    rcases Nat.lt_or_ge field.index middle.fields with below | above
    · obtain ⟨within, known⟩ := first.body field inner ⟨inside.1, below⟩ has
      exact ⟨by omega, by omega, known⟩
    · obtain ⟨within, known⟩ := second.body field inner ⟨above, inside.2⟩ has
      exact ⟨by omega, by omega, known⟩
  refine ⟨first.before.trans second.before,
    fun field inner inside has => (body field inner inside has).2, ?_, ?_⟩
  · intro inner inside isBody
    rcases Nat.lt_or_ge inner.index middle.classes with below | above
    · obtain ⟨field, within, has⟩ := first.constant inner ⟨inside.1, below⟩ isBody
      exact ⟨field, by omega, has⟩
    · obtain ⟨field, within, has⟩ := second.constant inner ⟨above, inside.2⟩ isBody
      exact ⟨field, by omega, has⟩
  · intro one other inner inOne inOther hasOne hasOther
    obtain ⟨⟨oneSide, -⟩, otherSide, -⟩ :=
      And.intro (body one inner inOne hasOne) (body other inner inOther hasOther)
    rcases Nat.lt_or_ge inner.index middle.classes with below | above
    · exact first.once one other inner (by omega) (by omega) hasOne hasOther
    · exact second.once one other inner (by omega) (by omega) hasOne hasOther

theorem ofClass (plain : (model.classAt ⟨start.classes⟩).isConstantBody = false) :
    model.Bodied start { start with classes := start.classes + 1 } where
  before := .ofClass start
  body := by simp only; omega
  constant inner inside isBody := by
    obtain rfl : inner = ⟨start.classes⟩ :=
      eq_of_between ClassId.index_injective inside
    rw [plain] at isBody
    cases isBody
  once := by simp only; omega

theorem ofField (bare : (model.field ⟨start.fields⟩).bodyClass = none) :
    model.Bodied start { start with fields := start.fields + 1 } where
  before := ⟨Nat.le_refl _, Nat.le_refl _, Nat.le_succ _⟩
  body field inner inside has := by
    obtain rfl : field = ⟨start.fields⟩ :=
      eq_of_between FieldId.index_injective inside
    rw [bare] at has
    cases has
  constant := by simp only; omega
  once one other inner inOne inOther _ _ :=
    FieldId.index_injective (by simp only at inOne inOther; omega)

theorem ofConstant (has : (model.field ⟨start.fields⟩).bodyClass = some ⟨start.classes⟩)
    (isBody : (model.classAt ⟨start.classes⟩).isConstantBody = true)
    (enclosing : (model.classAt ⟨start.classes⟩).enclosing =
      some (model.field ⟨start.fields⟩).declaring) :
    model.Bodied start
      { start with classes := start.classes + 1, fields := start.fields + 1 } where
  before := ⟨Nat.le_succ _, Nat.le_refl _, Nat.le_succ _⟩
  body field inner inside body := by
    obtain rfl : field = ⟨start.fields⟩ :=
      eq_of_between FieldId.index_injective inside
    obtain rfl := Option.some.inj (has.symm.trans body)
    exact ⟨⟨Nat.le_refl _, Nat.lt_succ_self _⟩, isBody, enclosing⟩
  constant inner inside _ := by
    obtain rfl : inner = ⟨start.classes⟩ :=
      eq_of_between ClassId.index_injective inside
    exact ⟨⟨start.fields⟩, ⟨Nat.le_refl _, Nat.lt_succ_self _⟩, has⟩
  once one other inner inOne inOther _ _ :=
    FieldId.index_injective (by simp only at inOne inOther; omega)

theorem ofMethod (model : Model) (start : Size) :
    model.Bodied start { start with methods := start.methods + 1 } :=
  ⟨⟨Nat.le_refl _, Nat.le_succ _, Nat.le_refl _⟩, by simp only; omega, by simp only; omega,
    by simp only; omega⟩

end Bodied

end Model

/-! ### Outlines -/

namespace Mirrors

variable {model : Model} {unit : UnitId} {owner : Option ClassId} {path : List String}
  {start stop : Model.Size} {outline : Outline} {members : Members}

/-- What an outline declares is linked, in the owner and in all classes that the outline
declares, by induction on the outline. -/
theorem owns (mirrors : Mirrors model unit owner path start outline members stop)
    (formed : outline.Formed) (older : ∀ id, owner = some id → id.index < start.classes) :
    model.Owns owner start stop members := by
  induction mirrors with
  | nothing => exact .refl _ _ _ []
  | aClass holds _ _ innerIh ih =>
      obtain ⟨plain, -, filled, further⟩ := formed
      have inner := innerIh filled fun id same => Option.some.inj same ▸ Nat.lt_succ_self _
      have first := Model.Owns.ofClass holds.enclosing older inner
        (holds.declares.isConstantBody.trans plain)
      refine first.append (ih further fun id same => ?_) older
      exact Nat.lt_of_lt_of_le (older id same) first.spans.before.classes
  | field _ declaring _ _ ih =>
      exact (Model.Owns.ofField (congrArg some declaring)).append (ih formed older) older
  | @constant owner path start middle stop declared body inner rest members declares declaring
      bodyClass holds _ _ innerIh ih =>
      obtain ⟨isBody, -, filled, further⟩ := formed
      have inner := innerIh filled fun id same => Option.some.inj same ▸ Nat.lt_succ_self _
      let next : Model.Size := { start with fields := start.fields + 1 }
      have ofBody : model.Owns (some owner) next middle {} :=
        .ofBody holds.enclosing older inner (holds.declares.isConstantBody.trans isBody)
      have first := (Model.Owns.ofField (congrArg some declaring)).append ofBody older
      refine first.append (ih further fun id same => ?_) older
      exact Nat.lt_of_lt_of_le (older id same) first.spans.before.classes
  | method declares declaring _ ih =>
      exact (Model.Owns.ofMethod (congrArg some declaring) declares.isConstructor).append
        (ih formed older) older
  | @initializer owner path start stop declared rest members _ ih =>
      exact (Model.Owns.refl model _ start [declared]).append (ih formed older) older

theorem bodied (mirrors : Mirrors model unit owner path start outline members stop)
    (formed : outline.Formed) : model.Bodied start stop := by
  induction mirrors with
  | nothing => exact .refl _ _
  | aClass holds _ _ innerIh ih =>
      obtain ⟨plain, -, filled, further⟩ := formed
      have first := Model.Bodied.ofClass (holds.declares.isConstantBody.trans plain)
      exact (first.append (innerIh filled)).append (ih further)
  | field _ _ bare _ ih => exact (Model.Bodied.ofField bare).append (ih formed)
  | constant _ declaring bodyClass holds _ _ innerIh ih =>
      obtain ⟨isBody, -, filled, further⟩ := formed
      have first := Model.Bodied.ofConstant bodyClass (holds.declares.isConstantBody.trans isBody)
        (holds.enclosing.trans (congrArg some declaring.symm))
      exact (first.append (innerIh filled)).append (ih further)
  | method _ _ _ ih => exact (Model.Bodied.ofMethod model _).append (ih formed)
  | initializer _ ih => exact ih formed

/-- What is true of a class, of those in it and of those after it. -/
theorem forall_between {holds : ClassId → Prop} {start middle stop : Nat} (first : holds ⟨start⟩)
    (inner : ∀ id : ClassId, start + 1 ≤ id.index ∧ id.index < middle → holds id)
    (rest : ∀ id : ClassId, middle ≤ id.index ∧ id.index < stop → holds id) (id : ClassId)
    (inside : start ≤ id.index ∧ id.index < stop) : holds id := by
  rcases Nat.eq_or_lt_of_le inside.1 with same | later
  · obtain rfl : ⟨start⟩ = id := ClassId.index_injective same
    exact first
  · rcases Nat.lt_or_ge id.index middle with below | above
    · exact inner id ⟨later, below⟩
    · exact rest id ⟨above, inside.2⟩

theorem inUnit (mirrors : Mirrors model unit owner path start outline members stop) :
    ∀ id : ClassId, start.classes ≤ id.index ∧ id.index < stop.classes →
      (model.classAt id).unit = unit := by
  induction mirrors with
  | nothing => omega
  | aClass holds _ _ innerIh ih => exact forall_between holds.inUnit innerIh ih
  | field _ _ _ _ ih => exact ih
  | constant _ _ _ holds _ _ innerIh ih => exact forall_between holds.inUnit innerIh ih
  | method _ _ _ ih => exact ih
  | initializer _ ih => exact ih

end Mirrors

end JavaDecl
