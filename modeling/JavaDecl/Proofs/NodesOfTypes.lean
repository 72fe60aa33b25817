import JavaDecl.Proofs.InheritedArguments

/-!
# The classes in a resolved type

Every class in a type as it is seen from some class comes from a type of the model that does
not stand for a type variable: from the type itself or an argument of it, from an argument in
a header above the viewing class, or from a bound.  Where all of these lead back to variables
it is the class of all objects.  No hierarchy or bound has to be free of cycles for that.
-/

namespace JavaDecl

namespace ResolvedType

/-- A class or primitive type that a resolved type mentions. -/
structure Node where
  name : String
  isResolved : Bool
deriving DecidableEq, Repr

/-- The class of all objects, where nothing else is known. -/
def Node.object : Node := ⟨objectName, true⟩

mutual

/-- The classes that a type mentions, at any depth of type arguments and wildcards. -/
def nodes : ResolvedType → List Node
  | named name isResolved _ args => ⟨name, isResolved⟩ :: nodesOfArgs args
  | unbounded => []
  | extending bound => bound.nodes
  | above bound => bound.nodes

def nodesOfArgs : List ResolvedType → List Node
  | [] => []
  | arg :: rest => arg.nodes ++ nodesOfArgs rest

end

theorem nodesOfArgs_eq (args : List ResolvedType) : nodesOfArgs args = args.flatMap nodes := by
  induction args with
  | nil => rfl
  | cons arg rest ih => rw [nodesOfArgs, ih, List.flatMap_cons]

@[simp]
theorem nodes_object : object.nodes = [.object] :=
  rfl

@[simp]
theorem nodes_addDims (type : ResolvedType) (more : Nat) :
    (type.addDims more).nodes = type.nodes := by
  cases type <;> rfl

@[simp]
theorem nodes_erased_addDims (type : ResolvedType) (more : Nat) :
    (type.addDims more).erased.nodes = type.erased.nodes := by
  cases type <;> rfl

@[simp]
theorem erased_erased (type : ResolvedType) : type.erased.erased = type.erased := by
  induction type using erased.induct with
  | case1 name isResolved dims args => rfl
  | case2 bound ih => exact ih
  | case3 => rfl
  | case4 bound => rfl

end ResolvedType

theorem TypeRef.HasPart.trans {outer middle inner : TypeRef} (one : outer.HasPart middle)
    (other : middle.HasPart inner) : outer.HasPart inner := by
  induction other with
  | whole => exact one
  | argument _ member found ih => exact ih.argument member found

theorem Model.Stores.part {model : Model} {ref part : TypeRef} (stored : model.Stores ref)
    (has : ref.HasPart part) : model.Stores part := by
  obtain ⟨holder, outer, listed, within⟩ := stored
  exact ⟨holder, outer, listed, within.trans has⟩

namespace Resolver

open ResolvedType (Node)

variable {resolver : Resolver Id}

/-- A type of the model gives a class its name: the one that it stands for, or the one that
is written if it stands for nothing.  A type that stands for a type variable gives none. -/
inductive Gives (resolver : Resolver Id) (ref : TypeRef) : Node → Prop where
  | known {name : String} :
      (resolver.referent ref).run = some (.named name) → Gives resolver ref ⟨name, true⟩
  | unknown : (resolver.referent ref).run = none → Gives resolver ref ⟨ref.name, false⟩

/-- The first bound of a type parameter. -/
def IsBound (resolver : Resolver Id) (bound : TypeRef) : Prop :=
  ∃ owner position,
    (resolver.model.typeParameter? owner position).bind (·.bounds.head?) = some bound

/-- The types of the model that a type, as it is seen from a class, is made of. -/
inductive DrawsOn (resolver : Resolver Id) (viewing : Option ClassId) (ref : TypeRef) :
    TypeRef → Prop where
  | part {part : TypeRef} : ref.HasPart part → DrawsOn resolver viewing ref part
  /-- A type in an argument in the header of the viewing class or a class above it. -/
  | header {viewer id : ClassId} {super outer part : TypeRef} {arg : TypeArgument TypeRef} :
      viewing = some viewer → resolver.Above viewer id →
        super ∈ (resolver.model.classAt id).superRefs → arg ∈ super.args →
          arg.type? = some outer → outer.HasPart part → DrawsOn resolver viewing ref part
  | bound {bound : TypeRef} : resolver.IsBound bound → DrawsOn resolver viewing ref bound

/-! ### What is drawn on -/

theorem DrawsOn.stored {viewing : Option ClassId} {ref origin : TypeRef}
    (stored : resolver.model.Stores ref) (draws : resolver.DrawsOn viewing ref origin) :
    resolver.model.Stores origin := by
  cases draws with
  | part has => exact stored.part has
  | header _ _ listed member found has =>
      exact ((Model.stores_superRef listed).argument member found).part has
  | bound isBound =>
      obtain ⟨owner, position, found⟩ := isBound
      exact Model.stores_bound found

/-- What an argument draws on, the type draws on. -/
theorem DrawsOn.ofArgument {viewing : Option ClassId} {ref part origin : TypeRef}
    {arg : TypeArgument TypeRef} (member : arg ∈ ref.args) (found : arg.type? = some part)
    (draws : resolver.DrawsOn viewing part origin) : resolver.DrawsOn viewing ref origin := by
  cases draws with
  | part has => exact .part ((TypeRef.HasPart.whole.argument member found).trans has)
  | header viewed above listed inHeader outer has =>
      exact .header viewed above listed inHeader outer has
  | bound isBound => exact .bound isBound

/-- What an argument in a header draws on, any type draws on as it is seen from below. -/
theorem DrawsOn.ofHeader {viewer id : ClassId} {ref super part origin : TypeRef}
    {arg : TypeArgument TypeRef} (above : resolver.Above viewer id)
    (listed : super ∈ (resolver.model.classAt id).superRefs) (member : arg ∈ super.args)
    (found : arg.type? = some part) (draws : resolver.DrawsOn (some viewer) part origin) :
    resolver.DrawsOn (some viewer) ref origin := by
  cases draws with
  | part has => exact .header rfl above listed member found has
  | header viewed above listed inHeader outer has =>
      exact .header viewed above listed inHeader outer has
  | bound isBound => exact .bound isBound

/-! ### Where classes come from -/

theorem exists_part_of_mem_nodes {typeOf : TypeRef → Id ResolvedType}
    {arg : TypeArgument TypeRef} {node : Node}
    (listed : node ∈ (argumentType typeOf arg).run.nodes) :
    ∃ part, arg.type? = some part ∧ node ∈ (typeOf part).run.nodes := by
  cases arg with
  | type ref => exact ⟨ref, rfl, listed⟩
  | unbounded => cases listed
  | extending bound => exact ⟨bound, rfl, listed⟩
  | above bound => exact ⟨bound, rfl, listed⟩

/-- What takes the place of a variable that nothing is supplied for comes from a bound. -/
theorem exists_bound_of_mem_nodes {typeOf : TypeRef → Id ResolvedType} {owner : VariableOwner}
    {position : Nat} {node : Node}
    (listed : node ∈ (resolver.erasureBy typeOf owner position).run.nodes) :
    node = .object ∨
      ∃ bound, resolver.IsBound bound ∧ node ∈ (typeOf bound).run.erased.nodes := by
  unfold erasureBy at listed
  split at listed
  · next bound found => exact .inr ⟨bound, ⟨owner, position, found⟩, listed⟩
  · exact .inl (List.mem_singleton.mp listed)

theorem erased_erasureBy {typeOf : TypeRef → Id ResolvedType} (owner : VariableOwner)
    (position : Nat) :
    (resolver.erasureBy typeOf owner position).run.erased =
      (resolver.erasureBy typeOf owner position).run := by
  unfold erasureBy
  split
  · exact ResolvedType.erased_erased _
  · rfl

/-- The erasure of a type that no class views comes from the type itself or from a bound. -/
theorem origin_of_mem_nodes_erased {depth : Nat} {ref : TypeRef} {node : Node}
    (listed : node ∈ (resolver.typeAt depth none ref).run.erased.nodes) :
    node = .object ∨ resolver.Gives ref node ∨
      ∃ bound, resolver.IsBound bound ∧ resolver.Gives bound node := by
  induction depth generalizing ref with
  | zero => exact .inl (List.mem_singleton.mp listed)
  | succ depth ih =>
      rw [typeAt_succ] at listed
      rcases stands : (resolver.referent ref).run with _ | ⟨name⟩ | ⟨owner, position⟩
      · rw [stands] at listed
        obtain rfl := List.mem_singleton.mp listed
        exact .inr (.inl (.unknown stands))
      · rw [stands] at listed
        obtain rfl := List.mem_singleton.mp listed
        exact .inr (.inl (.known stands))
      · have nothing : (resolver.suppliedTo? none owner position).run = none := rfl
        simp only [stands, nothing, ResolvedType.nodes_erased_addDims, erased_erasureBy] at listed
        rcases exists_bound_of_mem_nodes listed with isObject | ⟨bound, isBound, inner⟩
        · exact .inl isObject
        · rcases ih inner with isObject | gives | further
          · exact .inl isObject
          · exact .inr (.inr ⟨bound, isBound, gives⟩)
          · exact .inr (.inr further)

/-- Every class in a type comes from a type that is drawn on, or is the class of all
objects. -/
theorem origin_of_mem_nodes {depth : Nat} {viewing : Option ClassId} {ref : TypeRef}
    {node : Node} (listed : node ∈ (resolver.typeAt depth viewing ref).run.nodes) :
    node = .object ∨ ∃ origin, resolver.DrawsOn viewing ref origin ∧
      resolver.Gives origin node := by
  induction depth generalizing viewing ref with
  | zero => exact .inl (List.mem_singleton.mp listed)
  | succ depth ih =>
      have named {name : String} {isResolved : Bool}
          (gives : resolver.Gives ref ⟨name, isResolved⟩)
          (member : node ∈ (ResolvedType.named name isResolved ref.dims
            (ref.args.mapM (argumentType (resolver.typeAt depth viewing))).run).nodes) :
          node = .object ∨ ∃ origin, resolver.DrawsOn viewing ref origin ∧
            resolver.Gives origin node := by
        rcases List.mem_cons.mp member with rfl | inside
        · exact .inr ⟨ref, .part .whole, gives⟩
        · rw [ResolvedType.nodesOfArgs_eq, List.idRun_mapM] at inside
          obtain ⟨_, mapped, within⟩ := List.mem_flatMap.mp inside
          obtain ⟨arg, among, rfl⟩ := List.mem_map.mp mapped
          obtain ⟨part, found, deeper⟩ := exists_part_of_mem_nodes within
          refine (ih deeper).imp_right fun ⟨origin, draws, gives⟩ => ?_
          exact ⟨origin, draws.ofArgument among found, gives⟩
      rw [typeAt_succ] at listed
      rcases stands : (resolver.referent ref).run with _ | ⟨name⟩ | ⟨owner, position⟩
      · rw [stands] at listed
        exact named (.unknown stands) listed
      · rw [stands] at listed
        exact named (.known stands) listed
      · simp only [stands, ResolvedType.nodes_addDims] at listed
        cases supplied : (resolver.suppliedTo? viewing owner position).run with
        | some arg =>
            rw [supplied] at listed
            obtain ⟨viewer, id, rfl, above, super, inHeader, member⟩ :=
              exists_header_of_suppliedTo? supplied
            obtain ⟨part, found, deeper⟩ := exists_part_of_mem_nodes listed
            refine (ih deeper).imp_right fun ⟨origin, draws, gives⟩ => ?_
            exact ⟨origin, draws.ofHeader above inHeader member found, gives⟩
        | none =>
            rw [supplied] at listed
            rcases exists_bound_of_mem_nodes listed with isObject | ⟨bound, isBound, inner⟩
            · exact .inl isObject
            · rcases origin_of_mem_nodes_erased inner with isObject | gives | further
              · exact .inl isObject
              · exact .inr ⟨bound, .bound isBound, gives⟩
              · obtain ⟨other, alsoBound, gives⟩ := further
                exact .inr ⟨other, .bound alsoBound, gives⟩

end Resolver

/-! ### Names of type variables -/

/-- A name stands for a type variable of the method or of a class around it. -/
def Model.IsVariable (model : Model) (name : String) (scope : Scope) : Prop :=
  (isPrimitiveName name || name.toList.contains '.') = false ∧
    (model.typeVariable? name scope).isSome

theorem Model.eq_variable_of_typeVariable? {model : Model} {name : String} {scope : Scope}
    {found : Referent} (names : model.typeVariable? name scope = some found) :
    ∃ owner position, found = .variable owner position := by
  have ofOwner {owner : VariableOwner} (own : model.parameterNamed? name owner = some found) :
      ∃ owner position, found = .variable owner position := by
    obtain ⟨position, -, rfl⟩ := Option.map_eq_some_iff.mp own
    exact ⟨owner, position, rfl⟩
  rcases Option.or_eq_some_iff.mp names with fromMethod | ⟨-, fromClass⟩
  · obtain ⟨id, -, own⟩ := Option.bind_eq_some_iff.mp fromMethod
    exact ofOwner own
  · obtain ⟨id, -, own⟩ := List.exists_of_findSome?_eq_some fromClass
    exact ofOwner own

/-- A name that a stored type has stands for a type variable in larger models if it does so in
the model. -/
theorem Model.isVariable_iff {model larger : Model} (coherent : model.Coherent)
    (grown : model.Extends larger) {ref : TypeRef} (stored : model.Stores ref) :
    larger.IsVariable ref.name ref.scope ↔ model.IsVariable ref.name ref.scope := by
  unfold IsVariable
  rw [typeVariable?_eq coherent grown (stored.scope_inside coherent.settled)]

namespace Session

variable {files : FileTree} {session : Session} {past : List Resolution}

/-- Whether a name means a type variable does not depend on the library. -/
theorem meaning_eq_variable_iff (files : FileTree) (name : String) (scope : Scope) :
    (∃ owner position, session.meaning files name scope = some (.variable owner position)) ↔
      session.project.model.IsVariable name scope := by
  unfold meaning Model.resolveName Model.IsVariable
  cases isPrimitiveName name || name.toList.contains '.' with
  | true => simp
  | false =>
      cases names : session.project.model.typeVariable? name scope with
      | none => simp
      | some found =>
          obtain ⟨owner, position, rfl⟩ := Model.eq_variable_of_typeVariable? names
          simp

theorem eq_variable_iff_of_meaning {name : String} {scope : Scope} {found : Referent}
    (means : session.meaning files name scope = some found) :
    (∃ owner position, found = .variable owner position) ↔
      session.project.model.IsVariable name scope := by
  rw [← meaning_eq_variable_iff files, means]
  simp only [Option.some.injEq]

/-- Whether a stored type stands for a type variable depends on its name and its place only. -/
theorem Run.referent_eq_variable_iff (run : Run files session past) {ref : TypeRef}
    (stored : session.project.model.Stores ref) :
    (∃ owner position, (Session.referent ref files session).1 = some (.variable owner position)) ↔
      session.project.model.IsVariable ref.name ref.scope := by
  cases stands : (Session.referent ref files session).1 with
  | none => rw [← meaning_eq_variable_iff files, run.faithful.missed stored stands]
  | some found =>
      have same : (∃ owner position, found = .variable owner position) ↔
          session.project.model.IsVariable ref.name ref.scope := by
        refine run.found (fun model ref found => (∃ owner position,
          found = .variable owner position) ↔ model.IsVariable ref.name ref.scope)
          (fun session ref found => eq_variable_iff_of_meaning) ?_ stored stands
        intro model larger ref found coherent grown stored same
        rw [Model.isVariable_iff coherent grown stored]
        exact same
      simpa only [Option.some.injEq] using same

end Session

/-- Every class in a type as it is seen from a class, or from none, is the class of all objects
or has its name from a type of the model: the type itself, a type argument of it or of a
header above, or a bound.  It is the class that this type stands for, or what is written
there if it stands for nothing.  That type never stands for a type variable, and a
variable with its name is written elsewhere. -/
theorem resolved_types_name_no_variables {files : FileTree} {session : Session}
    {past : List Session.Resolution} (run : Session.Run files session past) {ref : TypeRef}
    (stored : session.project.model.Stores ref) (viewing : Option ClassId)
    {node : ResolvedType.Node}
    (listed : node ∈ (session.observe files (·.typeFrom viewing ref)).nodes) :
    node = .object ∨ ∃ origin, session.project.model.Stores origin ∧
      (session.standing files).DrawsOn viewing ref origin ∧
      (session.standing files).Gives origin node ∧
      ∀ other, session.project.model.Stores other →
        (∃ owner position, (Session.referent other files session).1 =
          some (.variable owner position)) →
        other.name = origin.name → other.scope ≠ origin.scope := by
  rw [Session.observe_typeFrom run.faithful.coherent stored, Resolver.typeFrom] at listed
  rcases Resolver.origin_of_mem_nodes listed with isObject | ⟨origin, draws, gives⟩
  · exact .inl isObject
  have originStored : (session.standing files).model.Stores origin := draws.stored stored
  rw [Session.standing_model] at originStored
  refine .inr ⟨origin, originStored, draws, gives, fun other held isVariable name scope => ?_⟩
  rw [run.referent_eq_variable_iff held, name, scope,
    ← run.referent_eq_variable_iff originStored] at isVariable
  obtain ⟨owner, position, stands⟩ := isVariable
  cases gives with
  | known named => exact absurd (stands.symm.trans named) (by simp)
  | unknown unknown => exact absurd (stands.symm.trans unknown) (by simp)

/-- A project with two classes that extend each other and a variable that bounds itself. -/
def selfBounded : Session :=
  (Session.add ("class A<T extends A<T>> extends B<T> \x7b T own; Unknown<T> other; \x7d " ++
      "class B<U> extends A<U> \x7b\x7d") {}
    { project := {}, library := .ofCore }).2

/-- What is written in the classes, and what the names in it mean. -/
theorem selfBounded_declares : ∃ own other bound,
    selfBounded.project.model.fields[0]? = some own ∧
      selfBounded.project.model.fields[1]? = some other ∧
      (selfBounded.project.model.typeParameter? (.ofClass ⟨0⟩) 0).bind (·.bounds.head?) =
        some bound ∧
      selfBounded.meaning {} own.type.name own.type.scope = some (.variable (.ofClass ⟨0⟩) 0) ∧
      other.type.name = "Unknown" ∧
      selfBounded.meaning {} other.type.name other.type.scope = none ∧
      selfBounded.meaning {} bound.name bound.scope = some (.named "A") := by
  have facts : (selfBounded.project.model.fields.toList.map fun field =>
        (field.type.name, selfBounded.meaning {} field.type.name field.type.scope)) =
          [("T", some (.variable (.ofClass ⟨0⟩) 0)), ("Unknown", none)] ∧
      (((selfBounded.project.model.typeParameter? (.ofClass ⟨0⟩) 0).bind (·.bounds.head?)).map
        fun bound => selfBounded.meaning {} bound.name bound.scope) =
          some (some (.named "A")) := by
    decide +kernel
  obtain ⟨fields, bounds⟩ := facts
  obtain ⟨own, rest, split, first, later⟩ := List.map_eq_cons_iff.mp fields
  obtain ⟨other, last, second⟩ := List.map_eq_singleton_iff.mp later
  obtain ⟨bound, bounded, boundMeans⟩ := Option.map_eq_some_iff.mp bounds
  obtain ⟨-, ownMeans⟩ := Prod.mk.inj first
  obtain ⟨otherName, otherMeans⟩ := Prod.mk.inj second
  refine ⟨own, other, bound, ?_, ?_, bounded, ownMeans, otherName, otherMeans, boundMeans⟩
  all_goals simp [← Array.getElem?_toList, split, last]

/-- The class in a type that stands for a variable is that of its bound, though the bound has
the variable in it.  A type that is not known keeps its name from wherever it is seen. -/
theorem nodes_of_self_bounded :
    ∃ own other, selfBounded.project.model.Stores own ∧ selfBounded.project.model.Stores other ∧
      (Session.referent own {} selfBounded).1 = some (.variable (.ofClass ⟨0⟩) 0) ∧
      (selfBounded.observe {} (·.typeFrom none own)).nodes = [⟨"A", true⟩] ∧
      (∃ origin, selfBounded.project.model.Stores origin ∧
        (selfBounded.standing {}).DrawsOn none own origin ∧
        (selfBounded.standing {}).Gives origin ⟨"A", true⟩) ∧
      ∃ origin, selfBounded.project.model.Stores origin ∧
        (selfBounded.standing {}).DrawsOn (some ⟨1⟩) other origin ∧
        (selfBounded.standing {}).Gives origin ⟨"Unknown", false⟩ := by
  obtain ⟨own, other, bound, first, second, bounded, ownMeans, otherName, otherMeans,
    boundMeans⟩ := selfBounded_declares
  have run : Session.Run {} selfBounded [] := .change (.start {} .ofCore) (.add _ _)
  have coherent := run.faithful.coherent
  have forgotten := run.forgotten
  have stands (ref : TypeRef) : ((selfBounded.standing {}).referent ref).run =
      selfBounded.meaning {} ref.name ref.scope :=
    Session.referent_of_forgotten {} forgotten ref
  have stored {field : FieldEntity} {index : Nat}
      (declared : selfBounded.project.model.fields[index]? = some field) :
      selfBounded.project.model.Stores field.type := by
    refine ⟨.ofField ⟨index⟩, field.type, ?_, .whole⟩
    simp [Model.typesAt, declared, FieldEntity.types]
  have nodes : (selfBounded.observe {} (·.typeFrom none own.type)).nodes = [⟨"A", true⟩] := by
    have nothing : ((selfBounded.standing {}).suppliedTo? none (.ofClass ⟨0⟩) 0).run = none := rfl
    rw [Session.observe_typeFrom coherent (stored first), Resolver.typeFrom,
      Resolver.typeAt_succ, stands, ownMeans]
    simp only [nothing, ResolvedType.nodes_addDims]
    unfold Resolver.erasureBy
    rw [Session.standing_model, bounded, substitutionLimit]
    simp only [Id.run_bind, Id.run_pure]
    rw [Resolver.typeAt_succ, stands, boundMeans]
    rfl
  have known : ⟨"Unknown", false⟩ ∈
      (selfBounded.observe {} (·.typeFrom (some ⟨1⟩) other.type)).nodes := by
    rw [Session.observe_typeFrom coherent (stored second), Resolver.typeFrom,
      Resolver.typeAt_succ, stands, otherMeans, otherName]
    exact List.mem_cons_self
  refine ⟨own.type, other.type, stored first, stored second,
    (stands own.type).trans ownMeans, nodes, ?_, ?_⟩
  · rcases resolved_types_name_no_variables run (stored first) none
        (nodes ▸ List.mem_singleton_self _) with isObject | ⟨origin, held, draws, gives, -⟩
    · exact absurd isObject (by decide)
    · exact ⟨origin, held, draws, gives⟩
  · rcases resolved_types_name_no_variables run (stored second) (some ⟨1⟩) known with
      isObject | ⟨origin, held, draws, gives, -⟩
    · exact absurd isObject (by decide)
    · exact ⟨origin, held, draws, gives⟩

end JavaDecl
