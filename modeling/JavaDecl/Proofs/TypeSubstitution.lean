import JavaDecl.Lookup.Substitution
import JavaDecl.Proofs.SupertypeSearch

/-!
# Types through a hierarchy

A type variable seen from a subclass is the type argument that the one supertype with its
owner supplies, seen from the same subclass, or its erasure if that supertype supplies none.
Types whose substitutions end before the limit do not depend on the limit.
-/

namespace JavaDecl

namespace ResolvedType

theorem addDims_zero (type : ResolvedType) : type.addDims 0 = type := by
  cases type <;> rfl

theorem addDims_addDims (type : ResolvedType) (first second : Nat) :
    (type.addDims first).addDims second = type.addDims (first + second) := by
  cases type with
  | named name isResolved dims args => simp [addDims, Nat.add_assoc]
  | unbounded => rfl
  | extending bound => rfl
  | above bound => rfl

end ResolvedType

namespace Resolver

variable {resolver : Resolver Id}

/-! ### Substitutions that end -/

/-- A type as seen from a class, unless its substitutions nest deeper than a number. -/
def typeWithin? (resolver : Resolver Id) : Nat → Option ClassId → TypeRef → Option ResolvedType
  | 0, _, _ => none
  | depth + 1, viewing, ref =>
      let args := ref.args.mapM (argumentType (resolver.typeWithin? depth viewing))
      match (resolver.referent ref).run with
      | some (.variable owner position) =>
          let substituted :=
            match (resolver.suppliedTo? viewing owner position).run with
            | some arg => argumentType (resolver.typeWithin? depth viewing) arg
            | none =>
                match (resolver.model.typeParameter? owner position).bind (·.bounds.head?) with
                | some bound => (resolver.typeWithin? depth none bound).map ResolvedType.erased
                | none => some .object
          substituted.map (·.addDims ref.dims)
      | some (.named name) => args.map (.named name true ref.dims)
      | none => args.map (.named ref.name false ref.dims)

theorem typeAt_succ (depth : Nat) (viewing : Option ClassId) (ref : TypeRef) :
    (resolver.typeAt (depth + 1) viewing ref).run =
      match (resolver.referent ref).run with
      | some (.variable owner position) =>
          ResolvedType.addDims ref.dims <|
            match (resolver.suppliedTo? viewing owner position).run with
            | some arg => (argumentType (resolver.typeAt depth viewing) arg).run
            | none => (resolver.erasureBy (resolver.typeAt depth none) owner position).run
      | some (.named name) =>
          .named name true ref.dims
            (ref.args.mapM (argumentType (resolver.typeAt depth viewing))).run
      | none =>
          .named ref.name false ref.dims
            (ref.args.mapM (argumentType (resolver.typeAt depth viewing))).run := by
  unfold typeAt
  simp only [Id.run_bind]
  rcases (resolver.referent ref).run with _ | ⟨name⟩ | ⟨owner, position⟩
  · rfl
  · rfl
  · simp only [Id.run_bind]
    cases (resolver.suppliedTo? viewing owner position).run <;> rfl

theorem run_argumentType {typeOf : TypeRef → Option ResolvedType}
    {fullTypeOf : TypeRef → Id ResolvedType}
    (same : ∀ ref type, typeOf ref = some type → (fullTypeOf ref).run = type)
    (arg : TypeArgument TypeRef) {type : ResolvedType}
    (ended : argumentType typeOf arg = some type) : (argumentType fullTypeOf arg).run = type := by
  cases arg with
  | type ref => exact same ref type ended
  | unbounded => exact Option.some.inj ended
  | extending bound =>
      obtain ⟨inner, found, result⟩ := Option.bind_eq_some_iff.mp ended
      obtain rfl := Option.some.inj result
      exact congrArg ResolvedType.extending (same bound inner found)
  | above bound =>
      obtain ⟨inner, found, result⟩ := Option.bind_eq_some_iff.mp ended
      obtain rfl := Option.some.inj result
      exact congrArg ResolvedType.above (same bound inner found)

theorem run_mapM {α β : Type} {partly : α → Option β} {full : α → Id β}
    (same : ∀ item value, partly item = some value → (full item).run = value) (items : List α)
    {values : List β} (ended : items.mapM partly = some values) :
    (items.mapM full).run = values := by
  induction items generalizing values with
  | nil => exact Option.some.inj ended
  | cons item rest ih =>
      rw [List.mapM_cons] at ended
      obtain ⟨value, first, further⟩ := Option.bind_eq_some_iff.mp ended
      obtain ⟨others, later, result⟩ := Option.bind_eq_some_iff.mp further
      obtain rfl := Option.some.inj result
      rw [List.mapM_cons, Id.run_bind, Id.run_bind, Id.run_pure, same item value first, ih later]

/-- Where substitutions end, more room for them changes nothing. -/
theorem typeAt_of_typeWithin? {depth room : Nat} (enough : depth ≤ room)
    {viewing : Option ClassId} {ref : TypeRef} {type : ResolvedType}
    (ended : resolver.typeWithin? depth viewing ref = some type) :
    (resolver.typeAt room viewing ref).run = type := by
  induction depth generalizing room viewing ref type with
  | zero => cases ended
  | succ depth ih =>
      obtain ⟨room, rfl⟩ : ∃ further, room = further + 1 := ⟨room - 1, by omega⟩
      have deeper : ∀ {viewing : Option ClassId} {ref : TypeRef} {type : ResolvedType},
          resolver.typeWithin? depth viewing ref = some type →
            (resolver.typeAt room viewing ref).run = type :=
        fun ended => ih (by omega) ended
      have argument := @run_argumentType (resolver.typeWithin? depth viewing)
        (resolver.typeAt room viewing) (fun _ _ => deeper)
      have arguments := @run_mapM _ _ _ _ (fun arg _ => argument arg) ref.args
      rw [typeAt_succ]
      unfold typeWithin? at ended
      dsimp only at ended
      generalize (resolver.referent ref).run = referent at ended ⊢
      rcases referent with _ | ⟨name⟩ | ⟨owner, position⟩
      · obtain ⟨args, listed, rfl⟩ := Option.map_eq_some_iff.mp ended
        dsimp only
        rw [arguments listed]
      · obtain ⟨args, listed, rfl⟩ := Option.map_eq_some_iff.mp ended
        dsimp only
        rw [arguments listed]
      · obtain ⟨inner, substituted, rfl⟩ := Option.map_eq_some_iff.mp ended
        dsimp only at substituted ⊢
        apply congrArg
        cases supplied : (resolver.suppliedTo? viewing owner position).run with
        | some arg =>
            rw [supplied] at substituted
            exact argument arg substituted
        | none =>
            rw [supplied] at substituted
            dsimp only at substituted ⊢
            unfold erasureBy
            cases bounded :
                (resolver.model.typeParameter? owner position).bind (·.bounds.head?) with
            | some bound =>
                rw [bounded] at substituted
                obtain ⟨type, found, rfl⟩ := Option.map_eq_some_iff.mp substituted
                exact congrArg ResolvedType.erased (deeper found)
            | none =>
                rw [bounded] at substituted
                exact Option.some.inj substituted

theorem typeWithin?_of_named {ref : TypeRef} {name : String}
    (stands : (resolver.referent ref).run = some (.named name)) (bare : ref.args = [])
    (depth : Nat) (viewing : Option ClassId) :
    resolver.typeWithin? (depth + 1) viewing ref = some (.named name true ref.dims []) := by
  rw [typeWithin?]
  simp only [stands, bare]
  rfl

/-! ### Variables seen from a subclass -/

/-- What is supplied for a variable is written in a header above the viewing class. -/
theorem exists_header_of_suppliedTo? {viewing : Option ClassId} {owner : VariableOwner}
    {position : Nat} {arg : TypeArgument TypeRef}
    (supplied : (resolver.suppliedTo? viewing owner position).run = some arg) :
    ∃ viewer id, viewing = some viewer ∧ resolver.Above viewer id ∧
      ∃ super ∈ (resolver.model.classAt id).superRefs, arg ∈ super.args := by
  unfold suppliedTo? at supplied
  split at supplied
  · next viewer declaring =>
      by_cases same : viewer = declaring
      · unfold argument? at supplied
        rw [if_pos same] at supplied
        cases supplied
      · rw [run_argument? same] at supplied
        obtain ⟨id, above, super, listed, -, given⟩ := supplies_of_searchFrom supplied
        exact ⟨viewer, id, rfl, above, super, listed, List.mem_of_getElem? given⟩
  · cases supplied

section Variables

variable {viewing owner : ClassId} {position : Nat} {ref : TypeRef}
  (stands : (resolver.referent ref).run = some (.variable (.ofClass owner) position))

include stands

/-- The substitutions for a variable are those for what is supplied for it. -/
theorem typeWithin?_of_argument {arg : TypeRef}
    (supplied : (resolver.argument? viewing owner position).run = some (.type arg))
    (depth : Nat) :
    resolver.typeWithin? (depth + 1) (some viewing) ref =
      (resolver.typeWithin? depth (some viewing) arg).map (·.addDims ref.dims) := by
  have given : (resolver.suppliedTo? (some viewing) (.ofClass owner) position).run =
      some (.type arg) := supplied
  rw [typeWithin?]
  simp only [stands, given]
  rfl

/-- A variable is the plain type argument that is supplied for it, seen from the same class. -/
theorem typeFrom_of_argument {arg : TypeRef}
    (supplied : (resolver.argument? viewing owner position).run = some (.type arg))
    (ended : (resolver.typeWithin? (substitutionLimit + 1) (some viewing) ref).isSome) :
    (resolver.typeFrom (some viewing) ref).run =
      (resolver.typeFrom (some viewing) arg).run.addDims ref.dims := by
  obtain ⟨type, within⟩ := Option.isSome_iff_exists.mp ended
  have outer : (resolver.typeFrom (some viewing) ref).run = type :=
    typeAt_of_typeWithin? (Nat.le_refl _) within
  rw [typeWithin?_of_argument stands supplied] at within
  obtain ⟨inner, found, rfl⟩ := Option.map_eq_some_iff.mp within
  have further : (resolver.typeFrom (some viewing) arg).run = inner :=
    typeAt_of_typeWithin? (Nat.le_succ _) found
  rw [outer, further]

/-- A variable without bounds that nothing is supplied for is the class of all objects. -/
theorem typeWithin?_of_no_bound
    (missing : (resolver.argument? viewing owner position).run = none)
    (unbounded : (resolver.model.typeParameter? (.ofClass owner) position).bind (·.bounds.head?) =
      none) (depth : Nat) :
    resolver.typeWithin? (depth + 1) (some viewing) ref =
      some (ResolvedType.object.addDims ref.dims) := by
  have given : (resolver.suppliedTo? (some viewing) (.ofClass owner) position).run = none :=
    missing
  rw [typeWithin?]
  simp only [stands, given, unbounded]
  rfl

/-- A variable that nothing is supplied for is its erasure. -/
theorem typeFrom_of_no_argument
    (missing : (resolver.argument? viewing owner position).run = none) :
    (resolver.typeFrom (some viewing) ref).run =
      (resolver.erasure (.ofClass owner) position 0).run.addDims ref.dims := by
  have given : (resolver.suppliedTo? (some viewing) (.ofClass owner) position).run = none :=
    missing
  unfold typeFrom
  rw [typeAt_succ, stands]
  dsimp only
  rw [given]
  rfl

end Variables

end Resolver

end JavaDecl
