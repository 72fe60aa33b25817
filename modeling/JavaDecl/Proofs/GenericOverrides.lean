import Mathlib.Data.List.Forall2
import JavaDecl.Proofs.InheritedMembers
import JavaDecl.Proofs.UnchangedLibraries

/-!
# Overriding methods with type variables

A method whose parameters have type variables of its class is overridden in a subclass by
one that writes its type arguments in their place.  Both have the same signature as seen
from any class below, so the inherited method is hidden there.
-/

namespace JavaDecl

/-! ### Types that are written alike -/

theorem TypeExpr.addDims_zero (type : TypeExpr) : type.addDims 0 = type := by
  cases type
  rfl

/-- A name means the same in the header of a class and in that of its methods without type
parameters. -/
theorem Session.meaning_of_no_parameters {files : FileTree} {session : Session} {unit : UnitId}
    {owner : ClassId} {id : MethodId}
    (bare : (session.project.model.method id).typeParameters = []) (name : String) :
    session.meaning files name { unit, classId := some owner, method := some id } =
      session.meaning files name { unit, classId := some owner } := by
  have unnamed : session.project.model.parameterNamed? name (.ofMethod id) = none := by
    simp [Model.parameterNamed?, Model.typeParametersOf, bare]
  simp only [meaning, Model.resolveName, Model.typeVariable?, Option.bind_some, Option.bind_none,
    unnamed, Option.none_or]
  rfl

namespace Resolver

variable {resolver : Resolver Id} {means : String → Scope → Option Referent}

/-- Two stored types at places where names mean the same. -/
structure Twin (resolver : Resolver Id) (means : String → Scope → Option Referent)
    (ref other : TypeRef) : Prop where
  stored : resolver.model.Stores ref
  otherStored : resolver.model.Stores other
  scopes : ∀ name, means name ref.scope = means name other.scope

/-- Arguments that are written alike are the same where types that are written alike are. -/
theorem Twin.arguments {ref other : TypeRef} (twin : resolver.Twin means ref other)
    (written : ref.type.args = other.type.args) {typeOf : TypeRef → Id ResolvedType}
    (same : ∀ one another, resolver.Twin means one another → one.type = another.type →
      (typeOf one).run = (typeOf another).run) :
    (ref.args.mapM (argumentType typeOf)).run = (other.args.mapM (argumentType typeOf)).run := by
  have part : ∀ {arg : TypeArgument TypeExpr} {position : Nat} {type : TypeExpr},
      (arg, position) ∈ other.type.args.zipIdx → arg.type? = some type →
        (typeOf (ref.part position type)).run = (typeOf (other.part position type)).run := by
    intro arg position type listed inside
    refine same _ _ ⟨?_, ?_, twin.scopes⟩ rfl
    · rw [← written] at listed
      refine twin.stored.argument (List.mem_map_of_mem listed) ?_
      simp [TypeArgument.type?_map, inside]
    · refine twin.otherStored.argument (List.mem_map_of_mem listed) ?_
      simp [TypeArgument.type?_map, inside]
  rw [List.idRun_mapM, List.idRun_mapM]
  unfold TypeRef.args
  rw [written, List.map_map, List.map_map]
  refine List.map_congr_left fun ⟨arg, position⟩ listed => ?_
  cases arg with
  | type type => exact part listed rfl
  | unbounded => rfl
  | extending bound => exact congrArg ResolvedType.extending (part listed rfl)
  | above bound => exact congrArg ResolvedType.above (part listed rfl)

section Stands

variable (stands : ∀ ref, resolver.model.Stores ref →
  (resolver.referent ref).run = means ref.name ref.scope)

include stands

/-- Types that differ in their dimensions only, one level of substitution further down. -/
theorem Twin.typeAt_succ {ref other : TypeRef} (twin : resolver.Twin means ref other)
    {more : Nat} (written : ref.type = other.type.addDims more) {depth : Nat}
    {viewing : Option ClassId}
    (same : ∀ one another, resolver.Twin means one another → one.type = another.type →
      (resolver.typeAt depth viewing one).run = (resolver.typeAt depth viewing another).run) :
    (resolver.typeAt (depth + 1) viewing ref).run =
      (resolver.typeAt (depth + 1) viewing other).run.addDims more := by
  have names : ref.name = other.name := (congrArg TypeExpr.name written).trans rfl
  have dims : ref.dims = other.dims + more := congrArg TypeExpr.dims written
  have args := twin.arguments ((congrArg TypeExpr.args written).trans rfl) same
  rw [Resolver.typeAt_succ, Resolver.typeAt_succ, stands ref twin.stored,
    stands other twin.otherStored, names, twin.scopes, args, dims]
  rcases means other.name other.scope with _ | ⟨name⟩ | ⟨owner, position⟩
  · rfl
  · rfl
  · exact (ResolvedType.addDims_addDims _ _ _).symm

/-- Types that are written alike are the same as seen from a class. -/
theorem Twin.typeAt_eq {ref other : TypeRef} (twin : resolver.Twin means ref other)
    (written : ref.type = other.type) (depth : Nat) (viewing : Option ClassId) :
    (resolver.typeAt depth viewing ref).run = (resolver.typeAt depth viewing other).run := by
  induction depth generalizing ref other with
  | zero => rfl
  | succ depth ih =>
      rw [← other.type.addDims_zero] at written
      have both := twin.typeAt_succ stands written fun _ _ further alike => ih further alike
      rw [both, ResolvedType.addDims_zero]

/-- A type with more dimensions than another is that one with more dimensions. -/
theorem Twin.typeFrom_eq {ref other : TypeRef} (twin : resolver.Twin means ref other) {more : Nat}
    (written : ref.type = other.type.addDims more) (viewing : Option ClassId) :
    (resolver.typeFrom viewing ref).run =
      (resolver.typeFrom viewing other).run.addDims more :=
  twin.typeAt_succ stands written fun _ _ further alike =>
    further.typeAt_eq stands alike substitutionLimit viewing

end Stands

end Resolver

/-! ### Parameters of overriding methods -/

theorem map_eq_of_forall₂ {α β γ : Type} {related : α → β → Prop} {first : α → γ}
    {second : β → γ} {items : List α} {others : List β}
    (pairs : List.Forall₂ related items others)
    (same : ∀ item ∈ items, ∀ other ∈ others, related item other → first item = second other) :
    items.map first = others.map second := by
  induction pairs with
  | nil => rfl
  | @cons item other items others pair _ ih =>
      have here := same item List.mem_cons_self other List.mem_cons_self pair
      have later := ih fun item member other listed =>
        same item (List.mem_cons_of_mem _ member) other (List.mem_cons_of_mem _ listed)
      rw [List.map_cons, List.map_cons, here, later]

/-- The type of a parameter is written as that of a method that is overridden.  Where that is
a type variable of its class, the argument that a subclass writes for it stands instead. -/
inductive OverridingType (files : FileTree) (session : Session) (declaring : ClassId)
    (super inherited own : TypeRef) : Prop where
  | primitive : isPrimitiveName inherited.name = true → inherited.type.args = [] →
      own.type = inherited.type → OverridingType files session declaring super inherited own
  | argument {position : Nat} {arg : TypeRef} :
      (Session.referent inherited files session).1 =
        some (.variable (.ofClass declaring) position) →
      super.args[position]? = some (.type arg) → own.type = arg.type.addDims inherited.dims →
        OverridingType files session declaring super inherited own

namespace Session

variable {files : FileTree} {session : Session}

theorem meaning_of_primitive {name : String} (primitive : isPrimitiveName name = true)
    (scope : Scope) : session.meaning files name scope = some (.named name) := by
  simp [meaning, Model.resolveName, primitive]

theorem args_of_bare {ref : TypeRef} (bare : ref.type.args = []) : ref.args = [] := by
  simp [TypeRef.args, bare]

theorem scope_of_mem_args {ref part : TypeRef} (member : .type part ∈ ref.args) :
    part.scope = ref.scope := by
  obtain ⟨position, type, -, rfl⟩ := TypeRef.exists_part_of_mem_args member rfl
  rfl

section Overriding

variable {past : List Resolution} (run : Run files session past)
  (unchanged : session.Unchanged past) {root declaring holder : ClassId} {super : TypeRef}
  (supplied : ∀ position, ((session.standing files).argument? root declaring position).run =
    super.args[position]?)
  (listed : super ∈ (session.project.model.classAt holder).superRefs) {own : MethodId}
  (ofHolder : own ∈ (session.project.model.classAt holder).methods)
  (bare : (session.project.model.method own).typeParameters = [])

include run unchanged supplied listed ofHolder bare

/-- The types of two parameters are the same as seen from a class below. -/
theorem typeFrom_eq_of_overriding {inherited : TypeRef} {parameter : ParameterEntity}
    (stored : session.project.model.Stores inherited)
    (member : parameter ∈ (session.project.model.method own).parameters)
    (overriding : OverridingType files session declaring super inherited parameter.type)
    (ended : ((session.standing files).typeWithin? (substitutionLimit + 1) (some root)
      inherited).isSome) :
    ((session.standing files).typeFrom (some root) inherited).run =
      ((session.standing files).typeFrom (some root) parameter.type).run := by
  have ownStored := Model.stores_parameter member
  have stands : ∀ ref, (session.standing files).model.Stores ref →
      ((session.standing files).referent ref).run = session.meaning files ref.name ref.scope :=
    fun ref stored => run.referent_eq_meaning unchanged stored
  cases overriding with
  | primitive primitive plain written =>
      have names : parameter.type.name = inherited.name := congrArg TypeExpr.name written
      have dims : parameter.type.dims = inherited.dims := congrArg TypeExpr.dims written
      have named := (stands inherited stored).trans (meaning_of_primitive primitive _)
      have ownNamed : ((session.standing files).referent parameter.type).run =
          some (.named inherited.name) := by
        rw [stands _ ownStored, names]
        exact meaning_of_primitive primitive _
      have ownPlain : parameter.type.type.args = [] := by
        rw [written]
        exact plain
      have type := Resolver.typeAt_of_typeWithin? (Nat.le_refl _)
        (Resolver.typeWithin?_of_named named (args_of_bare plain) substitutionLimit (some root))
      have ownType := Resolver.typeAt_of_typeWithin? (Nat.le_refl _)
        (Resolver.typeWithin?_of_named ownNamed (args_of_bare ownPlain) substitutionLimit
          (some root))
      rw [dims] at ownType
      exact type.trans ownType.symm
  | @argument position arg isVariable given written =>
      have known : .type arg ∈ super.args := List.mem_of_getElem? given
      have owned := run.owned holder
      have ownScope := (owned.method own ofHolder).2.parameters parameter member
      have argScope := (scope_of_mem_args known).trans (owned.header super listed)
      have twin : (session.standing files).Twin (session.meaning files) parameter.type arg := by
        refine ⟨ownStored, (Model.stores_superRef listed).argument known rfl, fun name => ?_⟩
        rw [ownScope, argScope]
        exact meaning_of_no_parameters bare name
      have variableStands : ((session.standing files).referent inherited).run =
          some (.variable (.ofClass declaring) position) := isVariable
      rw [twin.typeFrom_eq stands written]
      exact Resolver.typeFrom_of_argument variableStands ((supplied position).trans given) ended

/-- Methods with such parameters have the same key as seen from a class below. -/
theorem signatureKey_eq_of_overriding {inherited : MethodId}
    (sameName : (session.project.model.method own).name =
      (session.project.model.method inherited).name)
    (parameters : List.Forall₂ (fun inherited own =>
        OverridingType files session declaring super inherited.type own.type)
      (session.project.model.method inherited).parameters
      (session.project.model.method own).parameters)
    (ended : ∀ parameter ∈ (session.project.model.method inherited).parameters,
      ((session.standing files).typeWithin? (substitutionLimit + 1) (some root)
        parameter.type).isSome) :
    ((session.standing files).signatureKey (session.project.model.method inherited) root).run =
      ((session.standing files).signatureKey (session.project.model.method own) root).run := by
  have types : (session.project.model.method inherited).parameters.map (fun parameter =>
      ((session.standing files).typeFrom (some root) parameter.type).run) =
        (session.project.model.method own).parameters.map fun parameter =>
          ((session.standing files).typeFrom (some root) parameter.type).run := by
    refine map_eq_of_forall₂ parameters fun parameter member other ownMember overriding => ?_
    exact typeFrom_eq_of_overriding run unchanged supplied listed ofHolder bare
      (Model.stores_parameter member) ownMember overriding (ended parameter member)
  unfold Resolver.signatureKey
  rw [Id.run_bind, Id.run_bind, List.idRun_mapM, List.idRun_mapM, types, sameName]

end Overriding

end Session

/-! ### Hidden methods -/

/-- A member whose key an earlier one has is not listed. -/
theorem Aggregates.ne_of_earlier {α : Type} {root : ClassId} {declaring : α → ClassId}
    {heritable : List (ClassId × α)} {key : α → String} {members : List (Member α)}
    (aggregates : Aggregates root declaring heritable key members)
    {front back : List (ClassId × α)} {holder : ClassId} {id : α}
    (split : heritable = front ++ (holder, id) :: back) {earlier : ClassId × α}
    (before : earlier ∈ front) (same : key earlier.2 = key id) :
    ∀ member ∈ members, member.id ≠ id := by
  intro member listed equal
  exact (aggregates.first front holder id back split).mp ⟨member, listed, equal⟩ earlier before same

/-- The members of a class come after those of the classes before it. -/
theorem Model.exists_heritable_split {α : Type} {model : Model}
    {declared : ClassEntity → List α} {isPrivate : α → Bool} {front back : List ClassId}
    {holder : ClassId} {id : α} (listed : id ∈ declared (model.classAt holder))
    (isOpen : isPrivate id = false) :
    ∃ between rest, model.heritable declared isPrivate (front ++ holder :: back) =
      (model.heritable declared isPrivate front ++ between) ++ (holder, id) :: rest := by
  have member : (holder, id) ∈ ((declared (model.classAt holder)).filter fun id =>
      !isPrivate id).map (holder, ·) :=
    List.mem_map_of_mem (List.mem_filter.mpr ⟨listed, by simp [isOpen]⟩)
  obtain ⟨between, rest, split⟩ := List.append_of_mem member
  refine ⟨between, rest ++ model.heritable declared isPrivate back, ?_⟩
  simp only [heritable, List.flatMap_append, List.flatMap_cons, split]
  simp

/-- As seen from a class, a method with type variables of its own class is overridden in the one
class that refers to that class.  There it is written with what is supplied for the variables. -/
structure Overrides (files : FileTree) (session : Session) (root declaring holder : ClassId)
    (super : TypeRef) (inherited own : MethodId) : Prop where
  different : root ≠ declaring
  listed : super ∈ (session.project.model.classAt holder).superRefs
  resolved : session.observe files (·.classOf? super) = some declaring
  only : ∀ id, (session.standing files).Above root id →
    ∀ other ∈ (session.project.model.classAt id).superRefs,
      session.observe files (·.classOf? other) = some declaring → id = holder ∧ other = super
  ofDeclaring : inherited ∈ (session.project.model.classAt declaring).methods
  ofHolder : own ∈ (session.project.model.classAt holder).methods
  isOpen : (session.project.model.method own).isPrivate = false
  sameName : (session.project.model.method own).name =
    (session.project.model.method inherited).name
  bare : (session.project.model.method own).typeParameters = []
  parameters : List.Forall₂ (fun inherited own =>
      OverridingType files session declaring super inherited.type own.type)
    (session.project.model.method inherited).parameters
    (session.project.model.method own).parameters
  /-- No substitution reaches its limit. -/
  ended : ∀ parameter ∈ (session.project.model.method inherited).parameters,
    ((session.standing files).typeWithin? (substitutionLimit + 1) (some root)
      parameter.type).isSome

namespace Overrides

variable {files : FileTree} {session : Session} {past : List Session.Resolution}
  {root declaring holder : ClassId} {super : TypeRef} {inherited own : MethodId}
  {order : List ClassId}
  (overrides : Overrides files session root declaring holder super inherited own)
  (walk : DepthFirst (fun id => session.observe files (·.supertypesOf id)) [] [root] order)

include overrides walk

theorem signatureKey_eq (run : Session.Run files session past) (unchanged : session.Unchanged past)
    (met : holder ∈ order.take hierarchyLimit) :
    (session.observe files fun resolver =>
        resolver.signatureKey (resolver.model.method inherited) root) =
      session.observe files fun resolver =>
        resolver.signatureKey (resolver.model.method own) root := by
  have coherent := run.faithful.coherent
  have supplied := Session.argument?_of_met coherent overrides.different walk met
    overrides.listed overrides.resolved overrides.only
  simp only [Session.observe_signatureKey coherent]
  exact Session.signatureKey_eq_of_overriding run unchanged supplied overrides.listed
    overrides.ofHolder overrides.bare overrides.sameName overrides.parameters overrides.ended

/-- The class that overrides comes before the one that it overrides. -/
theorem holder_first (coherent : session.project.model.Coherent) {front back : List ClassId}
    (split : order = front ++ declaring :: back) : holder ∈ front := by
  rcases walk.exists_earlier split with start | ⟨earlier, listed, after⟩
  · exact absurd (List.mem_singleton.mp start).symm overrides.different
  · have climbed : earlier ∈ order := split ▸ List.mem_append_left _ listed
    simp only [Session.observe_supertypesOf coherent] at walk after
    obtain ⟨ref, refers, stands⟩ := Resolver.mem_supertypesOf.mp after
    rw [← Session.observe_classOf? coherent (Model.stores_superRef refers)] at stands
    have above := (Resolver.mem_iff_above walk).mp climbed
    have sole := overrides.only earlier above ref refers stands
    exact sole.1 ▸ listed

end Overrides

/-- A method with type variables of its class is overridden by one that writes in their place
what its own class supplies for them.  No class below lists the method that is overridden.  Both
have the same key as seen from a class below, if the class that overrides it is among those that
are visited at most in the hierarchy of that class. -/
theorem generic_method_is_overridden {files : FileTree} {session : Session}
    {past : List Session.Resolution} (run : Session.Run files session past)
    (unchanged : session.Unchanged past) {root declaring holder : ClassId} {super : TypeRef}
    {inherited own : MethodId}
    (overrides : Overrides files session root declaring holder super inherited own) :
    (∃ order, DepthFirst (fun id => session.observe files (·.supertypesOf id)) [] [root] order ∧
      (holder ∈ order.take hierarchyLimit →
        (session.observe files fun resolver =>
            resolver.signatureKey (resolver.model.method inherited) root) =
          session.observe files fun resolver =>
            resolver.signatureKey (resolver.model.method own) root)) ∧
      ∀ member ∈ session.observe files (·.methods root true), member.id ≠ inherited := by
  have coherent := run.faithful.coherent
  obtain ⟨order, walk⟩ : ∃ order,
      DepthFirst (fun id => session.observe files (·.supertypesOf id)) [] [root] order :=
    Session.exists_order coherent root
  refine ⟨⟨order, walk, overrides.signatureKey_eq walk run unchanged⟩, fun member known equal => ?_⟩
  have aggregates := run.aggregates_methods walk
  have heritable := (aggregates.sound member known).1
  rw [equal, ((run.owned declaring).method inherited overrides.ofDeclaring).2.declaring]
    at heritable
  obtain ⟨met, -, isOpen⟩ := Model.mem_heritable.mp heritable
  obtain ⟨front, back, taken⟩ := List.append_of_mem met
  have whole : order = front ++ declaring :: (back ++ order.drop hierarchyLimit) := by
    rw [← List.cons_append, ← List.append_assoc, ← taken, List.take_append_drop]
  have before : holder ∈ front := overrides.holder_first walk coherent whole
  have ownHeritable : (holder, own) ∈ session.project.model.heritable ClassEntity.methods
      (fun id => (session.project.model.method id).isPrivate) front :=
    Model.mem_heritable.mpr ⟨before, overrides.ofHolder, overrides.isOpen⟩
  obtain ⟨between, rest, split⟩ : ∃ between rest, session.project.model.heritable
      ClassEntity.methods (fun id => (session.project.model.method id).isPrivate)
      (front ++ declaring :: back) = _ ++ (declaring, inherited) :: rest :=
    Model.exists_heritable_split overrides.ofDeclaring isOpen
  rw [← taken] at split
  have same := overrides.signatureKey_eq walk run unchanged (taken ▸ List.mem_append_left _ before)
  exact aggregates.ne_of_earlier split (List.mem_append_left _ ownHeritable) same.symm member known
    equal

/-! ### A method with an array of a variable -/

/-- What the name of a type means, and how the type is written. -/
structure Spelling where
  means : Option Referent
  name : String
  dims : Nat
  args : Nat
deriving DecidableEq

namespace Session

def spelling (files : FileTree) (session : Session) (ref : TypeRef) : Spelling where
  means := session.meaning files ref.name ref.scope
  name := ref.name
  dims := ref.dims
  args := ref.args.length

theorem spelling_eq {files : FileTree} {session : Session} {ref : TypeRef}
    {means : Option Referent} {name : String} {dims : Nat}
    (spelled : session.spelling files ref = ⟨means, name, dims, 0⟩) :
    session.meaning files ref.name ref.scope = means ∧
      ref.type = { name := name, dims := dims, args := [] } := by
  obtain ⟨⟨written, count, args⟩, scope, site⟩ := ref
  simp only [spelling, Spelling.mk.injEq, TypeRef.args, List.length_map, List.length_zipIdx,
    List.length_eq_zero_iff] at spelled
  obtain ⟨meaning, rfl, rfl, rfl⟩ := spelled
  exact ⟨meaning, rfl⟩

/-- A type of a class without type arguments, seen from anywhere. -/
theorem typeWithin?_of_spelling {files : FileTree} {session : Session}
    (forgotten : session.project.memo = ∅) {ref : TypeRef} {name written : String} {dims : Nat}
    (spelled : session.spelling files ref = ⟨some (.named name), written, dims, 0⟩)
    (depth : Nat) (viewing : Option ClassId) :
    (session.standing files).typeWithin? (depth + 1) viewing ref =
      some (.named name true ref.dims []) := by
  obtain ⟨means, type⟩ := spelling_eq spelled
  exact Resolver.typeWithin?_of_named ((stands_of_forgotten files forgotten ref).trans means)
    (args_of_bare (congrArg TypeExpr.args type)) depth viewing

end Session

/-- A project with a class that takes arrays, a subclass that takes arrays of strings, and a
class below both. -/
def genericSetter : Session :=
  (Session.add ("class A<T> \x7b void set(T[] x, int n) \x7b\x7d \x7d " ++
      "class B extends A<String> \x7b void set(String[] x, int n) \x7b\x7d \x7d " ++
      "class R extends B \x7b\x7d") {} { project := {}, library := .ofCore }).2

theorem genericSetter_headers : ∃ super arg,
    (genericSetter.project.model.classAt ⟨0⟩).superRefs = [] ∧
      (genericSetter.project.model.classAt ⟨1⟩).superRefs = [super] ∧
      (genericSetter.project.model.classAt ⟨2⟩).superRefs.map (genericSetter.meant? {}) =
        [some ⟨1⟩] ∧
      super.args = [.type arg] ∧ genericSetter.meant? {} super = some ⟨0⟩ ∧
      genericSetter.spelling {} arg = ⟨some (.named "java.lang.String"), "String", 0, 0⟩ := by
  have facts : (genericSetter.project.model.classAt ⟨0⟩).superRefs.length = 0 ∧
      ((genericSetter.project.model.classAt ⟨1⟩).superRefs.map fun ref =>
        (genericSetter.meant? {} ref, ref.args.map fun
          | .type part => some (genericSetter.spelling {} part)
          | _ => none)) =
        [(some ⟨0⟩, [some ⟨some (.named "java.lang.String"), "String", 0, 0⟩])] ∧
      (genericSetter.project.model.classAt ⟨2⟩).superRefs.map (genericSetter.meant? {}) =
        [some ⟨1⟩] := by
    decide +kernel
  obtain ⟨bottom, header, below⟩ := facts
  obtain ⟨super, extended, header⟩ := List.map_eq_singleton_iff.mp header
  obtain ⟨meant, superArgs⟩ := Prod.mk.inj header
  obtain ⟨argument, args, shape⟩ := List.map_eq_singleton_iff.mp superArgs
  cases argument with
  | unbounded => cases shape
  | extending bound => cases shape
  | above bound => cases shape
  | type arg =>
      exact ⟨super, arg, List.eq_nil_of_length_eq_zero bottom, extended, below, args, meant,
        Option.some.inj shape⟩

theorem genericSetter_methods :
    (genericSetter.project.model.classAt ⟨0⟩).methods = [⟨0⟩] ∧
      (genericSetter.project.model.classAt ⟨1⟩).methods = [⟨1⟩] ∧
      (genericSetter.project.model.method ⟨1⟩).isPrivate = false ∧
      (genericSetter.project.model.method ⟨1⟩).name =
        (genericSetter.project.model.method ⟨0⟩).name ∧
      (genericSetter.project.model.method ⟨1⟩).typeParameters.length = 0 ∧
      (genericSetter.project.model.method ⟨0⟩).parameters.map
          (fun parameter => genericSetter.spelling {} parameter.type) =
        [⟨some (.variable (.ofClass ⟨0⟩) 0), "T", 1, 0⟩, ⟨some (.named "int"), "int", 0, 0⟩] ∧
      (genericSetter.project.model.method ⟨1⟩).parameters.map
          (fun parameter => genericSetter.spelling {} parameter.type) =
        [⟨some (.named "java.lang.String"), "String", 1, 0⟩,
          ⟨some (.named "int"), "int", 0, 0⟩] := by
  decide +kernel

theorem genericSetter_run : Session.Run {} genericSetter [] :=
  .change (.start {} .ofCore) (.add _ _)

/-- The classes above the one below both, and the one place among them that refers to the class
with the variable. -/
theorem genericSetter_hierarchy : ∃ super arg,
    super ∈ (genericSetter.project.model.classAt ⟨1⟩).superRefs ∧ super.args = [.type arg] ∧
      genericSetter.spelling {} arg = ⟨some (.named "java.lang.String"), "String", 0, 0⟩ ∧
      (genericSetter.standing {}).Above ⟨2⟩ ⟨1⟩ ∧
      genericSetter.observe {} (·.classOf? super) = some ⟨0⟩ ∧
      ∀ id, (genericSetter.standing {}).Above ⟨2⟩ id → id ∈ [ClassId.mk 2, ⟨1⟩, ⟨0⟩] ∧
        ∀ other ∈ (genericSetter.project.model.classAt id).superRefs,
          genericSetter.observe {} (·.classOf? other) = some ⟨0⟩ → id = ⟨1⟩ ∧ other = super := by
  obtain ⟨super, arg, bottom, extended, below, args, meant, argSpelled⟩ := genericSetter_headers
  have first := genericSetter_run.namesFirst
  have coherent := genericSetter_run.faithful.coherent
  have forgotten := genericSetter_run.forgotten
  have stands {id : ClassId} {ref : TypeRef}
      (listed : ref ∈ (genericSetter.project.model.classAt id).superRefs) :
      genericSetter.observe {} (·.classOf? ref) = genericSetter.meant? {} ref := by
    rw [Session.observe_classOf? coherent (Model.stores_superRef listed)]
    exact Session.classOf?_of_forgotten {} first forgotten ref
  have listed : super ∈ (genericSetter.project.model.classAt ⟨1⟩).superRefs := by simp [extended]
  obtain ⟨direct, header, directMeant⟩ := List.map_eq_singleton_iff.mp below
  have above : (genericSetter.standing {}).Above ⟨2⟩ ⟨1⟩ := by
    have member : direct ∈ (genericSetter.project.model.classAt ⟨2⟩).superRefs := by simp [header]
    exact Session.above_of_forgotten {} first forgotten .self member directMeant
  refine ⟨super, arg, listed, args, argSpelled, above, (stands listed).trans meant,
    fun id climbed => ?_⟩
  have known : id ∈ [ClassId.mk 2, ⟨1⟩, ⟨0⟩] := by
    refine Session.mem_of_above_of_forgotten {} first forgotten ?_ (by simp) climbed
    simp [bottom, extended, header, meant, directMeant]
  refine ⟨known, fun other member names => ?_⟩
  rw [stands member] at names
  simp only [List.mem_cons, List.not_mem_nil, or_false] at known
  rcases known with rfl | rfl | rfl
  · rw [header, List.mem_singleton] at member
    rw [member, directMeant] at names
    cases names
  · rw [extended, List.mem_singleton] at member
    exact ⟨rfl, member⟩
  · rw [bottom] at member
    cases member

/-- The class below both does not list the method that takes arrays. -/
theorem setter_of_strings_hides_setter :
    (genericSetter.observe {} fun resolver =>
        resolver.signatureKey (resolver.model.method ⟨0⟩) ⟨2⟩) =
      (genericSetter.observe {} fun resolver =>
        resolver.signatureKey (resolver.model.method ⟨1⟩) ⟨2⟩) ∧
      ∀ member ∈ genericSetter.observe {} (·.methods ⟨2⟩ true), member.id ≠ ⟨0⟩ := by
  obtain ⟨super, arg, listed, args, argSpelled, above, resolved, climbs⟩ := genericSetter_hierarchy
  obtain ⟨ofDeclaring, ofHolder, isOpen, sameName, bare, inherited, own⟩ := genericSetter_methods
  have run := genericSetter_run
  have coherent := run.faithful.coherent
  have forgotten := run.forgotten
  have referent := Session.referent_of_forgotten {} forgotten
  have complete := fun id climbed => (climbs id climbed).1
  have only := fun id climbed => (climbs id climbed).2
  obtain ⟨array, rest, takes, arraySpelled, others⟩ := List.map_eq_cons_iff.mp inherited
  obtain ⟨count, rfl, countSpelled⟩ := List.map_eq_singleton_iff.mp others
  obtain ⟨strings, rest, ownTakes, stringsSpelled, others⟩ := List.map_eq_cons_iff.mp own
  obtain ⟨number, rfl, numberSpelled⟩ := List.map_eq_singleton_iff.mp others
  obtain ⟨arrayMeans, arrayWritten⟩ := Session.spelling_eq arraySpelled
  obtain ⟨-, countWritten⟩ := Session.spelling_eq countSpelled
  obtain ⟨-, stringsWritten⟩ := Session.spelling_eq stringsSpelled
  obtain ⟨-, numberWritten⟩ := Session.spelling_eq numberSpelled
  obtain ⟨-, argWritten⟩ := Session.spelling_eq argSpelled
  have given : super.args[0]? = some (.type arg) := by
    rw [args]
    rfl
  have isVariable := (referent array.type).trans arrayMeans
  have found := Session.argument?_of_only coherent (by decide) (by decide) complete above listed
    resolved only 0
  have arrayStands := (Session.stands_of_forgotten {} forgotten array.type).trans arrayMeans
  have parameters : List.Forall₂ (fun inherited own => OverridingType {} genericSetter ⟨0⟩ super
      inherited.type own.type) (genericSetter.project.model.method ⟨0⟩).parameters
        (genericSetter.project.model.method ⟨1⟩).parameters := by
    rw [takes, ownTakes]
    refine .cons (.argument isVariable given ?_) (.cons (.primitive ?_ ?_ ?_) .nil)
    · simp [stringsWritten, argWritten, arrayWritten, TypeExpr.addDims, TypeRef.dims]
    · simp only [TypeRef.name, countWritten]
      decide
    · rw [countWritten]
    · rw [numberWritten, countWritten]
  have ended : ∀ parameter ∈ (genericSetter.project.model.method ⟨0⟩).parameters,
      ((genericSetter.standing {}).typeWithin? (substitutionLimit + 1) (some ⟨2⟩)
        parameter.type).isSome := by
    rw [takes]
    simp only [List.forall_mem_cons]
    refine ⟨?_, ?_, by simp⟩
    · rw [Resolver.typeWithin?_of_argument arrayStands (found.trans given), substitutionLimit,
        Session.typeWithin?_of_spelling forgotten argSpelled]
      rfl
    · rw [Session.typeWithin?_of_spelling forgotten countSpelled]
      rfl
  have overrides : Overrides {} genericSetter ⟨2⟩ ⟨0⟩ ⟨1⟩ super ⟨0⟩ ⟨1⟩ :=
    { different := by decide
      listed, resolved, only, isOpen, sameName, parameters, ended
      ofDeclaring := by simp [ofDeclaring]
      ofHolder := by simp [ofHolder]
      bare := List.eq_nil_of_length_eq_zero bare }
  obtain ⟨⟨order, walk, keys⟩, hidden⟩ :=
    generic_method_is_overridden run (by simp [Session.Unchanged]) overrides
  refine ⟨keys ?_, hidden⟩
  rw [Session.order_within_limit coherent (by decide) complete walk]
  simp only [Session.observe_supertypesOf coherent] at walk
  exact (Resolver.mem_iff_above walk).mpr above

end JavaDecl
