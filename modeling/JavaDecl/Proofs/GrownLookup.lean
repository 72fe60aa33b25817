import JavaDecl.Lookup.Candidate
import JavaDecl.Proofs.CoherentModels

/-!
# Look-ups in a model that has grown

What a name stands for depends on the unit that it is written in and on the library.
So further units change neither the types that a model stores nor the names that these
are looked up as.
-/

namespace JavaDecl.Model

variable {base model : Model}

/-! ### Declarations stay the same -/

theorem Extends.unit_eq (grown : base.Extends model) {id : UnitId}
    (inside : id.index < base.units.size) : model.unit id = base.unit id :=
  grown.units.getD_eq inside _

theorem Extends.classAt_eq (grown : base.Extends model) {id : ClassId}
    (inside : id.index < base.classes.size) : model.classAt id = base.classAt id :=
  grown.classes.getD_eq inside _

theorem Extends.method_eq (grown : base.Extends model) {id : MethodId}
    (inside : id.index < base.methods.size) : model.method id = base.method id :=
  grown.methods.getD_eq inside _

theorem Extends.field_eq (grown : base.Extends model) {id : FieldId}
    (inside : id.index < base.fields.size) : model.field id = base.field id :=
  grown.fields.getD_eq inside _

/-- The types that a model stores are stored after further units. -/
theorem Extends.mem_typesAt (grown : base.Extends model) {holder : Holder} {ref : TypeRef}
    (held : ref ∈ base.typesAt holder) : ref ∈ model.typesAt holder := by
  cases holder with
  | ofUnit id =>
      by_cases inside : id.index < base.units.size
      · simpa only [typesAt, grown.unit_eq inside] using held
      · have absent : base.unit id = default := by simp [unit, inside]
        simp only [typesAt, absent] at held
        cases held
  | ofClass id =>
      by_cases inside : id.index < base.classes.size
      · simpa only [typesAt, grown.classAt_eq inside] using held
      · have absent : base.classAt id = default := by simp [classAt, inside]
        simp only [typesAt, absent] at held
        cases held
  | ofMethod id =>
      by_cases inside : id.index < base.methods.size
      · simpa only [typesAt, grown.method_eq inside] using held
      · have absent : base.method id = default := by simp [method, inside]
        simp only [typesAt, absent] at held
        cases held
  | ofParameter id position =>
      by_cases inside : id.index < base.methods.size
      · simpa only [typesAt, grown.method_eq inside] using held
      · have absent : base.method id = default := by simp [method, inside]
        simp only [typesAt, absent] at held
        cases held
  | ofField id =>
      by_cases inside : id.index < base.fields.size
      · simpa only [typesAt, grown.fields id.index inside] using held
      · simp [typesAt, inside] at held

theorem Extends.stores (grown : base.Extends model) {ref : TypeRef} (stored : base.Stores ref) :
    model.Stores ref := by
  obtain ⟨holder, outer, held, has⟩ := stored
  exact ⟨holder, outer, grown.mem_typesAt held, has⟩

/-! ### Candidates stay the same -/

variable (coherent : base.Coherent) (grown : base.Extends model)

include coherent in
theorem outward_inside (count : Nat) {id : ClassId} (inside : id.index < base.classes.size) :
    ∀ outer ∈ base.outward count id, outer.index < base.classes.size := by
  induction count generalizing id with
  | zero =>
      intro outer member
      cases member
  | succ count ih =>
      intro outer member
      rcases List.mem_cons.mp member with rfl | further
      · exact inside
      · cases around : (base.classAt id).enclosing with
        | none => simp [around] at further
        | some next =>
            rw [around] at further
            exact ih (coherent.enclosing id next around) outer further

include coherent grown in
theorem outward_eq (count : Nat) {id : ClassId} (inside : id.index < base.classes.size) :
    model.outward count id = base.outward count id := by
  induction count generalizing id with
  | zero => rfl
  | succ count ih =>
      simp only [outward, grown.classAt_eq inside]
      cases around : (base.classAt id).enclosing with
      | none => rfl
      | some next =>
          have same := ih (coherent.enclosing id next around)
          simp [same]

variable {scope : Scope} (inside : scope.Inside base)

include coherent inside in
theorem around_inside : ∀ outer ∈ base.around scope, outer.index < base.classes.size := by
  unfold around
  cases found : scope.classId with
  | none => simp
  | some id => exact outward_inside coherent _ (inside.classId id found)

include coherent grown inside in
theorem around_eq : model.around scope = base.around scope := by
  unfold around
  cases found : scope.classId with
  | none => rfl
  | some id => exact outward_eq coherent grown _ (inside.classId id found)

theorem findSome?_congr {α β : Type} {items : List α} {one other : α → Option β}
    (same : ∀ item ∈ items, one item = other item) :
    items.findSome? one = items.findSome? other := by
  induction items with
  | nil => rfl
  | cons item rest ih =>
      have first := same item List.mem_cons_self
      have later := ih fun other member => same other (List.mem_cons_of_mem _ member)
      simp only [List.findSome?_cons, first, later]

include coherent grown inside in
theorem typeVariable?_eq (name : String) :
    model.typeVariable? name scope = base.typeVariable? name scope := by
  have fromMethod : (scope.method.bind fun id => model.parameterNamed? name (.ofMethod id)) =
      scope.method.bind fun id => base.parameterNamed? name (.ofMethod id) := by
    cases found : scope.method with
    | none => rfl
    | some id =>
        simp [parameterNamed?, typeParametersOf, grown.method_eq (inside.method id found)]
  have fromClasses :
      ((base.around scope).findSome? fun id => model.parameterNamed? name (.ofClass id)) =
        (base.around scope).findSome? fun id => base.parameterNamed? name (.ofClass id) := by
    apply findSome?_congr
    intro id member
    have known := around_inside coherent inside id member
    simp [parameterNamed?, typeParametersOf, grown.classAt_eq known]
  unfold typeVariable?
  rw [fromMethod, around_eq coherent grown inside, fromClasses]

include grown in
theorem simplyNamed?_eq (name : String) {ids : List ClassId}
    (known : ∀ id ∈ ids, id.index < base.classes.size) :
    model.simplyNamed? name ids = base.simplyNamed? name ids := by
  induction ids with
  | nil => rfl
  | cons id rest ih =>
      have first := grown.classAt_eq (known id List.mem_cons_self)
      have later := ih fun other member => known other (List.mem_cons_of_mem _ member)
      unfold simplyNamed? at later ⊢
      simp only [List.find?_cons, first, later]

theorem simplyNamed?_inside {name : String} {ids : List ClassId} {found : ClassId}
    (known : ∀ id ∈ ids, id.index < base.classes.size)
    (named : base.simplyNamed? name ids = some found) : found.index < base.classes.size :=
  known found (List.mem_of_find?_eq_some named)

include coherent grown in
theorem matchIn?_eq (name : String) {id : ClassId} (known : id.index < base.classes.size) :
    model.matchIn? name id = base.matchIn? name id := by
  unfold matchIn?
  dsimp only
  rw [grown.classAt_eq known, simplyNamed?_eq grown name (coherent.nested id)]

include coherent in
theorem matchIn?_inside {name : String} {id found : ClassId}
    (known : id.index < base.classes.size) (matched : base.matchIn? name id = some found) :
    found.index < base.classes.size := by
  unfold matchIn? at matched
  dsimp only at matched
  split at matched
  · obtain rfl := Option.some.inj matched
    exact known
  · exact simplyNamed?_inside (coherent.nested id) matched

include coherent grown inside in
theorem lexicalMatch?_eq (name : String) :
    model.lexicalMatch? name scope = base.lexicalMatch? name scope := by
  unfold lexicalMatch?
  rw [around_eq coherent grown inside, grown.unit_eq inside.unit,
    simplyNamed?_eq grown name (coherent.unitClasses scope.unit)]
  congr 1
  apply findSome?_congr
  intro id member
  exact matchIn?_eq coherent grown name (around_inside coherent inside id member)

include coherent inside in
theorem lexicalMatch?_inside {name : String} {found : ClassId}
    (matched : base.lexicalMatch? name scope = some found) :
    found.index < base.classes.size := by
  rcases Option.or_eq_some_iff.mp matched with near | ⟨-, far⟩
  · obtain ⟨id, member, matched⟩ := List.exists_of_findSome?_eq_some near
    exact matchIn?_inside coherent (around_inside coherent inside id member) matched
  · exact simplyNamed?_inside (coherent.unitClasses scope.unit) far

include coherent grown inside in
theorem lexicalCandidates_eq (name : String) :
    model.lexicalCandidates name scope = base.lexicalCandidates name scope := by
  unfold lexicalCandidates
  rw [lexicalMatch?_eq coherent grown inside]
  cases matched : base.lexicalMatch? name scope with
  | none => rfl
  | some id =>
      have known := lexicalMatch?_inside coherent inside matched
      simp [grown.classAt_eq known]

include coherent grown inside in
theorem candidates_eq (order : LookupOrder) (name : String) :
    model.candidates order name scope = base.candidates order name scope := by
  simp only [candidates, importCandidates, wildcardCandidates, grown.unit_eq inside.unit,
    lexicalCandidates_eq coherent grown inside]

include coherent grown inside in
/-- Further units do not change what a name stands for. -/
theorem resolveName_eq {m : Type → Type} [Monad m] (order : LookupOrder)
    (knows : String → m Bool) (name : String) :
    model.resolveName order knows name scope = base.resolveName order knows name scope := by
  unfold resolveName
  rw [typeVariable?_eq coherent grown inside, candidates_eq coherent grown inside]

end JavaDecl.Model
