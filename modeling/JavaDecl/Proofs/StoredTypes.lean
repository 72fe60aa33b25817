import JavaDecl.Model.Assembly

/-!
# The types that a model stores

`Model.Stores` says of a type that it is written in some declaration of a model, also as
a part of another type or inside of an annotation.  In a coherent model no two of them
have the same site, and the scope of each names declarations that the model has.
-/

namespace JavaDecl

/-! ### The types in an annotation -/

mutual

/-- The types in an annotation, its own first. -/
def AnnotationUse.types {τ : Type} : AnnotationUse τ → List τ
  | ⟨type, values, _⟩ => type :: typesOfPairs values

def typesOfPairs {τ : Type} : List (String × ElementValue τ) → List τ
  | [] => []
  | (_, value) :: rest => value.types ++ typesOfPairs rest

def ElementValue.types {τ : Type} : ElementValue τ → List τ
  | .constant _ => []
  | .classLiteral type => [type]
  | .nested use => use.types
  | .array items => typesOfItems items
  | .expression _ => []

def typesOfItems {τ : Type} : List (ElementValue τ) → List τ
  | [] => []
  | item :: rest => item.types ++ typesOfItems rest

end

/-! ### Sites below others -/

/-- A site is that of another or of a part of it. -/
structure RefSite.Below (inner outer : RefSite) : Prop where
  holder : inner.holder = outer.holder
  role : inner.role = outer.role
  path : outer.path <:+ inner.path

theorem RefSite.Below.refl (site : RefSite) : site.Below site :=
  ⟨rfl, rfl, List.suffix_rfl⟩

theorem RefSite.Below.trans {inner middle outer : RefSite} (one : inner.Below middle)
    (other : middle.Below outer) : inner.Below outer :=
  ⟨one.holder.trans other.holder, one.role.trans other.role, other.path.trans one.path⟩

/-- No site is below both of two. -/
def RefSite.Apart (one other : RefSite) : Prop :=
  ∀ site : RefSite, site.Below one → ¬ site.Below other

theorem RefSite.Apart.symm {one other : RefSite} (apart : one.Apart other) : other.Apart one :=
  fun site first second => apart site second first

theorem RefSite.Apart.of_below {one other inner lower : RefSite} (apart : one.Apart other)
    (first : inner.Below one) (second : lower.Below other) : inner.Apart lower :=
  fun site left right => apart site (left.trans first) (right.trans second)

theorem RefSite.apart_of_role {one other : RefSite} (differ : one.role ≠ other.role) :
    one.Apart other :=
  fun _ first second => differ (first.role.symm.trans second.role)

/-- Different positions in the same part lead to sites that are apart. -/
theorem RefSite.apart_of_position {holder : Holder} {role : RefRole} {path : List Nat}
    {first second : Nat} (differ : first ≠ second) :
    RefSite.Apart { holder, role, path := first :: path }
      { holder, role, path := second :: path } := by
  intro site below other
  obtain ⟨front, left⟩ := below.path
  obtain ⟨back, right⟩ := other.path
  have both : front ++ first :: path = back ++ second :: path := left.trans right.symm
  have heads := (List.append_inj' both rfl).2
  exact differ (List.cons.inj heads).1

/-! ### Types of annotations are apart -/

/-- Types of one scope, at or below a site, no two of which have a part in common. -/
structure SpreadBelow (scope : Scope) (site : RefSite) (refs : List TypeRef) : Prop where
  apart : refs.Pairwise fun one other => one.site.Apart other.site
  placed : ∀ ref ∈ refs, ref.scope = scope ∧ ref.site.Below site

section Annotations

variable {scope : Scope} {holder : Holder} {role : RefRole}

theorem SpreadBelow.nil (site : RefSite) : SpreadBelow scope site [] :=
  ⟨.nil, by simp⟩

theorem SpreadBelow.single {site : RefSite} {ref : TypeRef} (inScope : ref.scope = scope)
    (same : ref.site = site) : SpreadBelow scope site [ref] := by
  refine ⟨List.pairwise_singleton _ _, fun other member => ?_⟩
  rw [List.mem_singleton.mp member, same]
  exact ⟨inScope, .refl site⟩

/-- Types below the positions of a part from one on. -/
structure SpreadFrom (scope : Scope) (holder : Holder) (role : RefRole) (path : List Nat)
    (position : Nat) (refs : List TypeRef) : Prop where
  apart : refs.Pairwise fun one other => one.site.Apart other.site
  placed : ∀ ref ∈ refs, ref.scope = scope ∧ ∃ further ≥ position,
    ref.site.Below { holder, role, path := further :: path }

theorem SpreadFrom.nil (path : List Nat) (position : Nat) :
    SpreadFrom scope holder role path position [] :=
  ⟨.nil, by simp⟩

theorem SpreadFrom.append {path : List Nat} {position : Nat} {front back : List TypeRef}
    (first : SpreadBelow scope { holder, role, path := position :: path } front)
    (rest : SpreadFrom scope holder role path (position + 1) back) :
    SpreadFrom scope holder role path position (front ++ back) := by
  refine ⟨List.pairwise_append.mpr ⟨first.apart, rest.apart, ?_⟩, ?_⟩
  · intro ref inFront other inBack
    obtain ⟨-, further, later, below⟩ := rest.placed other inBack
    have differ : position ≠ further := by omega
    exact (RefSite.apart_of_position differ).of_below (first.placed ref inFront).2 below
  · intro ref member
    rcases List.mem_append.mp member with inFront | inBack
    · obtain ⟨inScope, below⟩ := first.placed ref inFront
      exact ⟨inScope, position, Nat.le_refl _, below⟩
    · obtain ⟨inScope, further, later, below⟩ := rest.placed ref inBack
      exact ⟨inScope, further, by omega, below⟩

theorem SpreadFrom.spread {path : List Nat} {position : Nat} {refs : List TypeRef}
    (spread : SpreadFrom scope holder role path position refs) :
    SpreadBelow scope { holder, role, path } refs := by
  refine ⟨spread.apart, fun ref member => ?_⟩
  obtain ⟨inScope, further, -, below⟩ := spread.placed ref member
  exact ⟨inScope, below.trans ⟨rfl, rfl, List.suffix_cons further path⟩⟩

/-- A type at a path of an annotation. -/
def typeAtPath (scope : Scope) (holder : Holder) (role : RefRole) (path : List Nat)
    (type : TypeExpr) : TypeRef :=
  { type, scope, site := { holder, role, path } }

mutual

theorem AnnotationUse.types_spread (path : List Nat) :
    (use : AnnotationUse TypeExpr) →
      SpreadBelow scope { holder, role, path }
        (use.mapPaths (typeAtPath scope holder role) path).types
  | ⟨type, values, line⟩ => by
      have own : SpreadBelow scope { holder, role, path := 0 :: path }
          [typeAtPath scope holder role (0 :: path) type] := .single rfl rfl
      have rest := types_spread_of_pairs path 1 values
      simpa [AnnotationUse.mapPaths, AnnotationUse.types] using (SpreadFrom.append own rest).spread

theorem types_spread_of_pairs (path : List Nat) (position : Nat) :
    (values : List (String × ElementValue TypeExpr)) →
      SpreadFrom scope holder role path position
        (typesOfPairs (mapPathsOfPairs (typeAtPath scope holder role) path position values))
  | [] => .nil path position
  | (element, value) :: rest => by
      have first := ElementValue.types_spread (position :: path) value
      have others := types_spread_of_pairs path (position + 1) rest
      simpa [mapPathsOfPairs, typesOfPairs] using SpreadFrom.append first others

theorem ElementValue.types_spread (path : List Nat) :
    (value : ElementValue TypeExpr) →
      SpreadBelow scope { holder, role, path }
        (value.mapPaths (typeAtPath scope holder role) path).types
  | .constant text => by
      simpa [ElementValue.mapPaths, ElementValue.types] using SpreadBelow.nil _
  | .classLiteral type => by
      have own : SpreadBelow scope { holder, role, path }
          [typeAtPath scope holder role path type] := .single rfl rfl
      simpa [ElementValue.mapPaths, ElementValue.types] using own
  | .nested use => by
      simpa [ElementValue.mapPaths, ElementValue.types] using use.types_spread path
  | .array items => by
      simpa [ElementValue.mapPaths, ElementValue.types] using
        (types_spread_of_items path 0 items).spread
  | .expression text => by
      simpa [ElementValue.mapPaths, ElementValue.types] using SpreadBelow.nil _

theorem types_spread_of_items (path : List Nat) (position : Nat) :
    (items : List (ElementValue TypeExpr)) →
      SpreadFrom scope holder role path position
        (typesOfItems (mapPathsOfItems (typeAtPath scope holder role) path position items))
  | [] => .nil path position
  | item :: rest => by
      have first := ElementValue.types_spread (position :: path) item
      have others := types_spread_of_items path (position + 1) rest
      simpa [mapPathsOfItems, typesOfItems] using SpreadFrom.append first others

end

end Annotations

/-! ### The types of a declaration are apart -/

/-- Types of one declaration, in one scope and in some roles, no two of which have a part
in common. -/
structure Spread (scope : Scope) (holder : Holder) (roles : RefRole → Prop)
    (refs : List TypeRef) : Prop where
  apart : refs.Pairwise fun one other => one.site.Apart other.site
  placed : ∀ ref ∈ refs, ref.scope = scope ∧ ref.site.holder = holder ∧ roles ref.site.role

namespace Spread

variable {scope : Scope} {holder : Holder} {roles others : RefRole → Prop}

theorem nil : Spread scope holder roles [] :=
  ⟨.nil, by simp⟩

theorem weaken {refs : List TypeRef} (spread : Spread scope holder roles refs)
    (imp : ∀ role, roles role → others role) : Spread scope holder others refs := by
  refine ⟨spread.apart, fun ref member => ?_⟩
  obtain ⟨inScope, held, known⟩ := spread.placed ref member
  exact ⟨inScope, held, imp _ known⟩

theorem append {front back : List TypeRef} (first : Spread scope holder roles front)
    (second : Spread scope holder others back) (differ : ∀ role, roles role → ¬ others role) :
    Spread scope holder (fun role => roles role ∨ others role) (front ++ back) := by
  refine ⟨List.pairwise_append.mpr ⟨first.apart, second.apart, ?_⟩, ?_⟩
  · intro one inFront other inBack
    apply RefSite.apart_of_role
    intro same
    have left := (first.placed one inFront).2.2
    have right := (second.placed other inBack).2.2
    rw [same] at left
    exact differ _ left right
  · intro ref member
    rcases List.mem_append.mp member with inFront | inBack
    · obtain ⟨inScope, held, known⟩ := first.placed ref inFront
      exact ⟨inScope, held, .inl known⟩
    · obtain ⟨inScope, held, known⟩ := second.placed ref inBack
      exact ⟨inScope, held, .inr known⟩

theorem ofBelow {role : RefRole} {path : List Nat} {refs : List TypeRef}
    (spread : SpreadBelow scope { holder, role, path } refs) :
    Spread scope holder (· = role) refs := by
  refine ⟨spread.apart, fun ref member => ?_⟩
  obtain ⟨inScope, below⟩ := spread.placed ref member
  exact ⟨inScope, below.holder, below.role⟩

theorem refAt (role : RefRole) (type : TypeExpr) :
    Spread scope holder (· = role) [Assembly.refAt scope holder role type] :=
  ⟨List.pairwise_singleton _ _, by simp [Assembly.refAt]⟩

theorem pairwise_zipIdx {α : Type} (items : List α) (start : Nat) :
    (items.zipIdx start).Pairwise fun one other => one.2 ≠ other.2 := by
  have numbers : ((items.zipIdx start).map Prod.snd).Pairwise (· < ·) := by
    rw [List.zipIdx_map_snd]
    exact List.pairwise_lt_range'
  exact (List.pairwise_map.mp numbers).imp Nat.ne_of_lt

/-- Types that are written one after the other, each group in roles of its position. -/
theorem flatMap_zipIdx {α : Type} {items : List α} {group : α × Nat → List TypeRef}
    {rolesAt : Nat → RefRole → Prop}
    (spread : ∀ item position, Spread scope holder (rolesAt position) (group (item, position)))
    (differ : ∀ one other role, rolesAt one role → rolesAt other role → one = other) :
    Spread scope holder (fun role => ∃ position < items.length, rolesAt position role)
      (items.zipIdx.flatMap group) := by
  refine ⟨List.pairwise_flatMap.mpr ⟨fun item _ => (spread item.1 item.2).apart, ?_⟩, ?_⟩
  · refine (pairwise_zipIdx items 0).imp fun apart ref inOne other inOther => ?_
    apply RefSite.apart_of_role
    intro same
    have left := ((spread _ _).placed ref inOne).2.2
    have right := ((spread _ _).placed other inOther).2.2
    rw [same] at left
    exact apart (differ _ _ _ left right)
  · intro ref member
    obtain ⟨⟨item, position⟩, listed, inside⟩ := List.mem_flatMap.mp member
    obtain ⟨inScope, held, known⟩ := (spread item position).placed ref inside
    have bounded := (List.mem_zipIdx listed).2.1
    exact ⟨inScope, held, position, by simpa using bounded, known⟩

theorem refsAt {role : Nat → RefRole} (injective : ∀ one other, role one = role other → one = other)
    (types : List TypeExpr) :
    Spread scope holder (fun other => ∃ position < types.length, other = role position)
      (Assembly.refsAt scope holder role types) := by
  rw [Assembly.refsAt, List.map_eq_flatMap]
  apply flatMap_zipIdx (fun type position => refAt (role position) type)
  rintro one other _ rfl same
  exact injective one other same

theorem usesAt {role : Nat → RefRole} (injective : ∀ one other, role one = role other → one = other)
    (uses : List (AnnotationUse TypeExpr)) :
    Spread scope holder (fun other => ∃ position < uses.length, other = role position)
      ((Assembly.usesAt scope holder role uses).flatMap AnnotationUse.types) := by
  have grouped : (Assembly.usesAt scope holder role uses).flatMap AnnotationUse.types =
      uses.zipIdx.flatMap fun item =>
        (item.1.mapPaths (typeAtPath scope holder (role item.2)) []).types := by
    rw [Assembly.usesAt, List.flatMap_map]
    rfl
  rw [grouped]
  apply flatMap_zipIdx (fun use position => ofBelow (use.types_spread []))
  rintro one other _ rfl same
  exact injective one other same

theorem boundsAt (parameters : List (TypeParameter TypeExpr)) :
    Spread scope holder
      (fun role => ∃ position < parameters.length, ∃ inner, role = .bound position inner)
      ((Assembly.parametersAt scope holder parameters).flatMap TypeParameter.bounds) := by
  have grouped : (Assembly.parametersAt scope holder parameters).flatMap TypeParameter.bounds =
      parameters.zipIdx.flatMap fun item =>
        Assembly.refsAt scope holder (.bound item.2) item.1.bounds := by
    rw [Assembly.parametersAt, List.flatMap_map]
  rw [grouped]
  refine flatMap_zipIdx (fun parameter position => ?_) ?_
  · refine (refsAt ?_ parameter.bounds).weaken fun role ⟨inner, _, known⟩ => ⟨inner, known⟩
    intro one other same
    exact (RefRole.bound.inj same).2
  · rintro one other _ ⟨inner, rfl⟩ ⟨_, same⟩
    exact (RefRole.bound.inj same).1

end Spread

/-! ### The types of a model -/

def UnitEntity.packageTypes (entity : UnitEntity) : List TypeRef :=
  entity.package.toList.flatMap fun package => package.uses.flatMap AnnotationUse.types

def ProvidedService.types (provided : ProvidedService) : List TypeRef :=
  provided.service :: provided.implementations

def ModuleEntity.types (entity : ModuleEntity) : List TypeRef :=
  entity.uses.flatMap AnnotationUse.types ++ entity.services ++
    entity.provides.flatMap ProvidedService.types

/-- The types in the declarations of a unit that stand in no class. -/
def UnitEntity.types (entity : UnitEntity) : List TypeRef :=
  entity.packageTypes ++ entity.moduleDecl.toList.flatMap ModuleEntity.types

/-- The types in the header of a class. -/
def ClassEntity.types (entity : ClassEntity) : List TypeRef :=
  entity.typeParameters.flatMap TypeParameter.bounds ++ entity.superclass.toList ++
    entity.interfaces ++ entity.uses.flatMap AnnotationUse.types

/-- The types in the header of a method or constructor, its parameters left out. -/
def MethodEntity.types (entity : MethodEntity) : List TypeRef :=
  entity.typeParameters.flatMap TypeParameter.bounds ++ entity.returnType.toList ++
    entity.exceptions ++ entity.uses.flatMap AnnotationUse.types

def ParameterEntity.types (entity : ParameterEntity) : List TypeRef :=
  [entity.type] ++ entity.uses.flatMap AnnotationUse.types

def FieldEntity.types (entity : FieldEntity) : List TypeRef :=
  [entity.type] ++ entity.uses.flatMap AnnotationUse.types

/-- The types that a holder in a model has, without their parts. -/
def Model.typesAt (model : Model) : Holder → List TypeRef
  | .ofUnit id => (model.unit id).types
  | .ofClass id => (model.classAt id).types
  | .ofMethod id => (model.method id).types
  | .ofField id => model.fields[id.index]?.toList.flatMap FieldEntity.types
  | .ofParameter id position =>
      (model.method id).parameters[position]?.toList.flatMap ParameterEntity.types

/-- A type has another as a part: itself, or a type in an argument of a part. -/
inductive TypeRef.HasPart (outer : TypeRef) : TypeRef → Prop where
  | whole : HasPart outer outer
  | argument {ref part : TypeRef} {arg : TypeArgument TypeRef} :
      HasPart outer ref → arg ∈ ref.args → arg.type? = some part → HasPart outer part

/-- A type is written in a declaration of a model. -/
def Model.Stores (model : Model) (ref : TypeRef) : Prop :=
  ∃ holder, ∃ outer ∈ model.typesAt holder, outer.HasPart ref

/-- The parts of a type that a model stores are stored. -/
theorem Model.Stores.argument {model : Model} {ref part : TypeRef} {arg : TypeArgument TypeRef}
    (stored : model.Stores ref) (member : arg ∈ ref.args) (found : arg.type? = some part) :
    model.Stores part := by
  obtain ⟨holder, outer, held, has⟩ := stored
  exact ⟨holder, outer, held, has.argument member found⟩

/-! ### Sites are unique -/

theorem TypeArgument.type?_map {τ σ : Type} (change : τ → σ) (arg : TypeArgument τ) :
    (arg.map change).type? = arg.type?.map change := by
  cases arg <;> rfl

/-- A type in an argument is written at the position of the argument. -/
theorem TypeRef.exists_part_of_mem_args {ref part : TypeRef} {arg : TypeArgument TypeRef}
    (member : arg ∈ ref.args) (found : arg.type? = some part) :
    ∃ position type, ref.type.args[position]?.bind TypeArgument.type? = some type ∧
      part = ref.part position type := by
  obtain ⟨⟨written, position⟩, listed, rfl⟩ := List.mem_map.mp member
  rw [TypeArgument.type?_map] at found
  obtain ⟨type, inside, rfl⟩ := Option.map_eq_some_iff.mp found
  refine ⟨position, type, ?_, rfl⟩
  rw [List.mem_zipIdx_iff_getElem?.mp listed]
  exact inside

theorem TypeRef.HasPart.placed {outer ref : TypeRef} (has : outer.HasPart ref) :
    ref.scope = outer.scope ∧ ref.site.Below outer.site := by
  induction has with
  | whole => exact ⟨rfl, .refl _⟩
  | @argument ref part arg _ member found ih =>
      obtain ⟨position, type, -, rfl⟩ := exists_part_of_mem_args member found
      have inner : (ref.part position type).site.Below ref.site :=
        ⟨rfl, rfl, List.suffix_cons position ref.site.path⟩
      exact ⟨ih.1, inner.trans ih.2⟩

/-- A part in an argument has a longer path than the whole. -/
theorem TypeRef.HasPart.path_length_lt {outer ref part : TypeRef} {position : Nat}
    {type : TypeExpr} (has : outer.HasPart ref) (same : part = ref.part position type) :
    outer.site.path.length < part.site.path.length := by
  have shorter := has.placed.2.path.length_le
  rw [same]
  exact Nat.lt_succ_of_le shorter

theorem RefSite.child_inj {one other : RefSite} {first second : Nat}
    (same : one.child first = other.child second) : first = second ∧ one = other := by
  obtain ⟨holder, role, path⟩ := one
  obtain ⟨otherHolder, otherRole, otherPath⟩ := other
  simp only [RefSite.child, RefSite.mk.injEq, List.cons.injEq] at same
  obtain ⟨rfl, rfl, rfl, rfl⟩ := same
  exact ⟨rfl, rfl⟩

/-- Parts of a type are told apart by their sites. -/
theorem TypeRef.HasPart.eq_of_site_eq {outer one other : TypeRef} (first : outer.HasPart one)
    (second : outer.HasPart other) (same : one.site = other.site) : one = other := by
  induction first generalizing other with
  | whole =>
      cases second with
      | whole => rfl
      | argument has member found =>
          obtain ⟨position, type, -, equal⟩ := exists_part_of_mem_args member found
          have longer := has.path_length_lt equal
          rw [same] at longer
          exact absurd longer (Nat.lt_irrefl _)
  | argument firstHas member found ih =>
      obtain ⟨position, type, written, equal⟩ := exists_part_of_mem_args member found
      cases second with
      | whole =>
          have longer := firstHas.path_length_lt equal
          rw [same] at longer
          exact absurd longer (Nat.lt_irrefl _)
      | argument has otherMember otherFound =>
          obtain ⟨otherPosition, otherType, otherWritten, otherEqual⟩ :=
            exists_part_of_mem_args otherMember otherFound
          subst equal otherEqual
          obtain ⟨rfl, sameSite⟩ := RefSite.child_inj same
          obtain rfl := ih has sameSite
          rw [otherWritten] at written
          rw [Option.some.inj written]

/-- Two of some types that are apart in pairs are the same or apart. -/
theorem eq_or_apart_of_mem {refs : List TypeRef}
    (apart : refs.Pairwise fun one other => one.site.Apart other.site) {one other : TypeRef}
    (first : one ∈ refs) (second : other ∈ refs) : one = other ∨ one.site.Apart other.site := by
  induction refs with
  | nil => cases first
  | cons ref rest ih =>
      obtain ⟨fromRef, inRest⟩ := List.pairwise_cons.mp apart
      rcases List.mem_cons.mp first with rfl | firstLater
      · rcases List.mem_cons.mp second with rfl | secondLater
        · exact .inl rfl
        · exact .inr (fromRef other secondLater)
      · rcases List.mem_cons.mp second with rfl | secondLater
        · exact .inr (fromRef one firstLater).symm
        · exact ih inRest firstLater secondLater

/-- A scope names declarations that a model has. -/
structure Scope.Inside (scope : Scope) (model : Model) : Prop where
  unit : scope.unit.index < model.units.size
  classId : ∀ id, scope.classId = some id → id.index < model.classes.size
  method : ∀ id, scope.method = some id → id.index < model.methods.size

/-- The types of a holder stand where their sites say, in a scope that the model has. -/
structure Model.SettledAt (model : Model) (holder : Holder) : Prop where
  apart : (model.typesAt holder).Pairwise fun one other => one.site.Apart other.site
  placed : ∀ ref ∈ model.typesAt holder, ref.site.holder = holder ∧ ref.scope.Inside model

/-- No two types that a model stores have the same site. -/
theorem Model.Stores.eq_of_site_eq {model : Model} (settled : ∀ holder, model.SettledAt holder)
    {one other : TypeRef} (first : model.Stores one) (second : model.Stores other)
    (same : one.site = other.site) : one = other := by
  obtain ⟨holder, outer, held, has⟩ := first
  obtain ⟨otherHolder, otherOuter, otherHeld, otherHas⟩ := second
  have below := has.placed.2
  have otherBelow := otherHas.placed.2
  have sameHolder : holder = otherHolder := by
    rw [← ((settled holder).placed outer held).1, ← below.holder, same, otherBelow.holder]
    exact ((settled otherHolder).placed otherOuter otherHeld).1
  subst sameHolder
  rcases eq_or_apart_of_mem (settled holder).apart held otherHeld with rfl | apart
  · exact has.eq_of_site_eq otherHas same
  · rw [← same] at otherBelow
    exact absurd otherBelow (apart _ below)

/-- The scope of a type that a model stores names declarations that the model has. -/
theorem Model.Stores.scope_inside {model : Model} (settled : ∀ holder, model.SettledAt holder)
    {ref : TypeRef} (stored : model.Stores ref) : ref.scope.Inside model := by
  obtain ⟨holder, outer, held, has⟩ := stored
  rw [has.placed.1]
  exact ((settled holder).placed outer held).2

end JavaDecl
