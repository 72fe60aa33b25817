import JavaDecl.Proofs.InheritedMembers

/-!
# Overloads of a class

A class lists its own methods that are not private if their keys differ.  Keys tell methods
apart by the name, the number of parameters and the erased types of these as seen from the
class.  They do not tell a parameter that takes any number of arguments from one that takes
a single one.
-/

namespace JavaDecl

/-! ### Keys of overloads -/

/-- What tells overloads apart: the name, and for each parameter the name and the dimensions
of its erased type. -/
structure Overload where
  name : String
  parameters : List (String × Nat)
deriving DecidableEq

namespace Overload

def typeText (type : String × Nat) : String :=
  type.1 ++ dimsText type.2

def key (overload : Overload) : String :=
  overload.name ++ "(" ++ ",".intercalate (overload.parameters.map typeText) ++ ")"

/-- The name of a type has none of the characters that keys are put together with. -/
structure PlainType (type : String × Nat) : Prop where
  nonempty : type.1 ≠ ""
  comma : ',' ∉ type.1.toList
  bracket : '[' ∉ type.1.toList

/-- The names have none of the characters that keys are put together with. -/
structure Plain (overload : Overload) : Prop where
  name : '(' ∉ overload.name.toList
  types : ∀ type ∈ overload.parameters, PlainType type

/-- A text up to a character that it does not have is told from what follows. -/
theorem append_cons_inj {α : Type} {front otherFront back otherBack : List α} {item : α}
    (absent : item ∉ front) (otherAbsent : item ∉ otherFront)
    (same : front ++ item :: back = otherFront ++ item :: otherBack) :
    front = otherFront ∧ back = otherBack := by
  rcases split_cases same with ⟨rfl, -⟩ | listed | listed
  · exact ⟨rfl, (List.cons.inj (List.append_cancel_left same)).2⟩
  · exact absurd listed otherAbsent
  · exact absurd listed absent

theorem toList_dimsText_succ (dims : Nat) :
    (dimsText (dims + 1)).toList = '[' :: ']' :: (dimsText dims).toList := by
  unfold dimsText
  rw [String.toList_join, String.toList_join, List.replicate_succ]
  rfl

theorem dimsText_inj {dims other : Nat} (same : (dimsText dims).toList = (dimsText other).toList) :
    dims = other := by
  induction dims generalizing other with
  | zero =>
      cases other with
      | zero => rfl
      | succ other =>
          rw [toList_dimsText_succ] at same
          cases same
  | succ dims ih =>
      cases other with
      | zero =>
          rw [toList_dimsText_succ] at same
          cases same
      | succ other =>
          rw [toList_dimsText_succ, toList_dimsText_succ] at same
          exact congrArg (· + 1) (ih (List.cons.inj (List.cons.inj same).2).2)

theorem comma_notMem_dimsText (dims : Nat) : ',' ∉ (dimsText dims).toList := by
  induction dims with
  | zero => simp [dimsText]
  | succ dims ih =>
      rw [toList_dimsText_succ]
      simpa using ih

/-- A name without brackets is told from the dimensions after it. -/
theorem text_inj {name other : String} {dims otherDims : Nat} (plain : '[' ∉ name.toList)
    (otherPlain : '[' ∉ other.toList)
    (same : name ++ dimsText dims = other ++ dimsText otherDims) :
    name = other ∧ dims = otherDims := by
  have letters := congrArg String.toList same
  rw [String.toList_append, String.toList_append] at letters
  have names : name.toList = other.toList := by
    cases dims with
    | zero =>
        cases otherDims with
        | zero => exact List.append_cancel_right letters
        | succ otherDims =>
            rw [toList_dimsText_succ] at letters
            have bracket : '[' ∈ name.toList := by
              have listed : '[' ∈ name.toList ++ (dimsText 0).toList := by simp [letters]
              simpa [dimsText] using listed
            exact absurd bracket plain
    | succ dims =>
        cases otherDims with
        | zero =>
            rw [toList_dimsText_succ] at letters
            have bracket : '[' ∈ other.toList := by
              have listed : '[' ∈ other.toList ++ (dimsText 0).toList := by simp [← letters]
              simpa [dimsText] using listed
            exact absurd bracket otherPlain
        | succ otherDims =>
            rw [toList_dimsText_succ, toList_dimsText_succ] at letters
            exact (append_cons_inj plain otherPlain letters).1
  refine ⟨String.toList_inj.mp names, dimsText_inj ?_⟩
  rw [names] at letters
  exact List.append_cancel_left letters

variable {types otherTypes : List (String × Nat)}

theorem types_eq_of_texts (plain : ∀ type ∈ types, PlainType type)
    (otherPlain : ∀ type ∈ otherTypes, PlainType type)
    (same : types.map typeText = otherTypes.map typeText) : types = otherTypes := by
  induction types generalizing otherTypes with
  | nil => exact (List.map_eq_nil_iff.mp same.symm).symm
  | cons type rest ih =>
      obtain ⟨otherType, otherRest, rfl, first, later⟩ := List.map_eq_cons_iff.mp same.symm
      obtain ⟨here, plain⟩ := List.forall_mem_cons.mp plain
      obtain ⟨otherHere, otherPlain⟩ := List.forall_mem_cons.mp otherPlain
      obtain ⟨names, dims⟩ := text_inj here.bracket otherHere.bracket first.symm
      rw [ih plain otherPlain later.symm, Prod.ext names dims]

theorem splitOn_texts (plain : ∀ type ∈ types, PlainType type) (nonempty : types ≠ []) :
    ([','].intercalate ((types.map typeText).map String.toList)).splitOn ',' =
      (types.map typeText).map String.toList := by
  refine List.splitOn_intercalate ',' ?_ (by simpa using nonempty)
  intro letters listed
  obtain ⟨text, known, rfl⟩ := List.mem_map.mp listed
  obtain ⟨type, member, rfl⟩ := List.mem_map.mp known
  rw [typeText, String.toList_append, List.mem_append, not_or]
  exact ⟨(plain type member).comma, comma_notMem_dimsText type.2⟩

theorem intercalate_texts_ne_nil (plain : ∀ type ∈ types, PlainType type)
    (nonempty : types ≠ []) :
    [','].intercalate ((types.map typeText).map String.toList) ≠ [] := by
  intro nothing
  have split := splitOn_texts plain nonempty
  rw [nothing] at split
  obtain ⟨type, rest, rfl⟩ := List.exists_cons_of_ne_nil nonempty
  have first : (typeText type).toList = [] := (List.cons.inj split).1.symm
  rw [typeText, String.toList_append, List.append_eq_nil_iff] at first
  exact (plain type List.mem_cons_self).nonempty (by simpa using first.1)

/-- Types with plain names are told apart by their texts with commas between them. -/
theorem intercalate_texts_inj (plain : ∀ type ∈ types, PlainType type)
    (otherPlain : ∀ type ∈ otherTypes, PlainType type)
    (same : [','].intercalate ((types.map typeText).map String.toList) =
      [','].intercalate ((otherTypes.map typeText).map String.toList)) : types = otherTypes := by
  by_cases none : types = []
  · by_cases otherNone : otherTypes = []
    · rw [none, otherNone]
    · rw [none] at same
      exact absurd same.symm (intercalate_texts_ne_nil otherPlain otherNone)
  · by_cases otherNone : otherTypes = []
    · rw [otherNone] at same
      exact absurd same (intercalate_texts_ne_nil plain none)
    · have letters := congrArg (List.splitOn ',') same
      rw [splitOn_texts plain none, splitOn_texts otherPlain otherNone] at letters
      have texts := (List.map_inj_right fun _ _ => String.toList_inj.mp).mp letters
      exact types_eq_of_texts plain otherPlain texts

/-- Plain overloads with the same key are the same. -/
theorem key_inj {one other : Overload} (plain : one.Plain) (otherPlain : other.Plain)
    (same : one.key = other.key) : one = other := by
  have letters := congrArg String.toList same
  simp only [key, String.toList_append, String.toList_intercalate, List.append_assoc] at letters
  obtain ⟨names, rest⟩ := append_cons_inj plain.name otherPlain.name letters
  have texts : _ ++ ")".toList = _ ++ ")".toList := rest
  have texts := List.append_cancel_right texts
  obtain ⟨name, types⟩ := one
  obtain ⟨otherName, otherTypes⟩ := other
  obtain rfl := String.toList_inj.mp names
  obtain rfl := intercalate_texts_inj plain.types otherPlain.types texts
  rfl

end Overload

namespace Resolver

section Overloads

variable {m : Type → Type} [Monad m]

def parameterType (resolver : Resolver m) (countsVarargs : Bool) (viewing : ClassId)
    (parameter : ParameterEntity) : m (String × Nat) := do
  let type := (← resolver.typeFrom (some viewing) parameter.type).erased
  return (type.name, if countsVarargs && parameter.isVarargs then type.dims + 1 else type.dims)

/-- The overload that a method is as seen from a class.  If it is asked for, a parameter that
takes any number of arguments has one more dimension. -/
def overload (resolver : Resolver m) (countsVarargs : Bool) (method : MethodEntity)
    (viewing : ClassId) : m Overload := do
  return { name := method.name
           parameters := ← method.parameters.mapM (resolver.parameterType countsVarargs viewing) }

end Overloads

variable {resolver : Resolver Id} {root : ClassId}

/-- The key of a method is that of its overload, in which any number of arguments counts as
one. -/
theorem run_signatureKey (method : MethodEntity) (viewing : ClassId) :
    (resolver.signatureKey method viewing).run =
      (resolver.overload false method viewing).run.key := by
  unfold signatureKey overload Overload.key
  simp only [Id.run_bind, List.idRun_mapM, Id.run_pure, List.map_map]
  rfl

/-! ### Members that are not inherited -/

/-- The members that a class does not inherit. -/
def ownOf {α : Type} (members : List (Member α)) : List (Member α) :=
  members.filter fun member => !member.isInherited

theorem isInherited_found {α : Type} (holder : ClassId) (id : α) :
    (Member.found root holder id).isInherited = !decide (holder = root) := by
  unfold Member.found
  split <;> simp [Member.isInherited, *]

theorem ownOf_addMember {α : Type} (found : List (String × Member α)) (key : String)
    {holder : ClassId} (other : holder ≠ root) (id : α) :
    ownOf ((addMember found key (Member.found root holder id)).map Prod.snd) =
      ownOf (found.map Prod.snd) := by
  unfold addMember
  split
  · rfl
  · simp [ownOf, isInherited_found, other]

section Collect

variable {α : Type} {declared : ClassEntity → List α} {key? : α → Id (Option String)}
  {isPrivate : α → Bool} {key : α → String}
  (keys : ∀ id, (key? id).run = if isPrivate id then none else some (key id))

include keys

theorem ownOf_collect (found : List (String × Member α)) {holder : ClassId}
    (other : holder ≠ root) :
    ownOf ((resolver.collect declared key? root found holder).run.map Prod.snd) =
      ownOf (found.map Prod.snd) := by
  rw [run_collect keys, List.foldl_map, List.foldl_map]
  exact List.foldlRecOn
    (motive := fun state => ownOf (state.map Prod.snd) = ownOf (found.map Prod.snd)) _ _ rfl
    fun state same id _ => (ownOf_addMember state (key id) other id).trans same

/-- The members that a class does not inherit are those collected from it first. -/
theorem ownOf_run_membersBy
    (inside : resolver.Inside) :
    ownOf (resolver.membersBy declared key? root).run =
      ownOf ((resolver.collect declared key? root [] root).run.map Prod.snd) := by
  obtain ⟨order, walk⟩ := exists_order inside root
  have walked : (resolver.walk (resolver.collect declared key? root) [] root).run = _ :=
    run_walk inside walk []
  rw [run_membersBy, walked]
  cases walk with
  | again old _ => cases old
  | @first _ _ order _ _ later =>
      have others : ∀ id ∈ order.take (hierarchyLimit - 1), id ≠ root := by
        rintro id listed rfl
        exact later.fresh (List.mem_of_mem_take listed) List.mem_cons_self
      exact List.foldlRecOn (motive := fun found => ownOf (found.map Prod.snd) =
        ownOf ((resolver.collect declared key? root [] root).run.map Prod.snd)) _ _ rfl
        fun found same id listed => (ownOf_collect keys found (others id listed)).trans same

end Collect

end Resolver

namespace FirstOfEach

/-- What is found among the members of a class itself is not inherited. -/
theorem ownOf_eq {α : Type} {root : ClassId} {key : α → String} {own : List (ClassId × α)}
    {found : List (String × Member α)} (firsts : FirstOfEach (own.map (keyed root key)) found)
    (declared : ∀ candidate ∈ own, candidate.1 = root) :
    Resolver.ownOf (found.map Prod.snd) = found.map Prod.snd := by
  refine List.filter_eq_self.mpr fun member listed => ?_
  obtain ⟨entry, known, rfl⟩ := List.mem_map.mp listed
  obtain ⟨candidate, inOwn, rfl⟩ := firsts.exists_candidate known
  simp [keyed, Resolver.isInherited_found, declared candidate inOwn]

theorem foldl_of_distinct {α : Type} {items found : List (String × Member α)}
    (distinct : (found ++ items).Pairwise fun one other => one.1 ≠ other.1) :
    items.foldl (fun found item => Resolver.addMember found item.1 item.2) found =
      found ++ items := by
  induction items generalizing found with
  | nil => simp
  | cons item rest ih =>
      have apart := (List.pairwise_append.mp distinct).2.2
      have added : Resolver.addMember found item.1 item.2 = found ++ [item] := by
        unfold Resolver.addMember
        rw [if_neg]
        intro known
        obtain ⟨entry, listed, same⟩ := List.any_eq_true.mp known
        exact apart entry listed item List.mem_cons_self (beq_iff_eq.mp same)
      rw [List.foldl_cons, added, ih (by simpa using distinct)]
      simp

end FirstOfEach

namespace Resolver

variable {resolver : Resolver Id} {α : Type} {declared : ClassEntity → List α}
  {key? : α → Id (Option String)} {isPrivate : α → Bool} {key : α → String}
  (keys : ∀ id, (key? id).run = if isPrivate id then none else some (key id))

include keys

/-- A class lists all its own members that are not private if their keys differ. -/
theorem ownOf_run_membersBy_eq_iff (inside : resolver.Inside) (root : ClassId) :
    ownOf (resolver.membersBy declared key? root).run =
        ((declared (resolver.model.classAt root)).filter fun id => !isPrivate id).map
          (Member.found root root) ↔
      ((declared (resolver.model.classAt root)).filter fun id => !isPrivate id).Pairwise
        fun one other => key one ≠ key other := by
  rw [ownOf_run_membersBy keys inside, run_collect keys]
  generalize (declared (resolver.model.classAt root)).filter (fun id => !isPrivate id) = own
  have firsts : FirstOfEach ((own.map (root, ·)).map (keyed root key)) _ :=
    FirstOfEach.nil.foldl ((own.map (root, ·)).map (keyed root key))
  have here : ∀ id : α, (Member.found root root id).isInherited = false := by
    simp [isInherited_found]
  constructor
  · intro all
    have declaredOnly := firsts.ownOf_eq fun candidate listed => by
      obtain ⟨id, -, rfl⟩ := List.mem_map.mp listed
      rfl
    have distinct := firsts.distinct_keys
    rw [← declaredOnly, all] at distinct
    simpa [List.pairwise_map, Member.id_found] using distinct
  · intro differ
    rw [FirstOfEach.foldl_of_distinct (by simpa [List.pairwise_map, keyed] using differ)]
    simp [ownOf, keyed, here, Function.comp_def]

omit keys in
theorem found_self (root : ClassId) (id : α) : Member.found root root id = { id } :=
  if_pos rfl

omit keys in
/-- A class lists its own methods if their overloads differ, where any number of arguments
counts as one. -/
theorem ownOf_run_methods_eq_iff (inside : resolver.Inside) (owner : ClassId) :
    ownOf (resolver.methods owner true).run =
        ((resolver.model.classAt owner).methods.filter fun id =>
          !(resolver.model.method id).isPrivate).map ({ id := · }) ↔
      ((resolver.model.classAt owner).methods.filter fun id =>
          !(resolver.model.method id).isPrivate).Pairwise fun one other =>
        (resolver.overload false (resolver.model.method one) owner).run.key ≠
          (resolver.overload false (resolver.model.method other) owner).run.key := by
  simp only [← run_signatureKey, methods_eq_membersBy, ← found_self owner]
  exact ownOf_run_membersBy_eq_iff run_methodKey? inside owner

end Resolver

namespace Session

variable {files : FileTree} {session : Session}

theorem Yields.overload (coherent : session.project.model.Coherent) (countsVarargs : Bool)
    (id : MethodId) (viewing : ClassId) :
    Yields files session
      (session.looking.overload countsVarargs (session.project.model.method id) viewing)
      ((session.standing files).overload countsVarargs (session.project.model.method id)
        viewing).run := by
  unfold Resolver.overload
  refine (mapM _ fun parameter listed => ?_).bind (.pure _)
  exact (typeAt coherent _ (some viewing) (Model.stores_parameter listed)).bind (.pure _)

/-- The methods of a class that are not private. -/
def openMethods (session : Session) (owner : ClassId) : List MethodId :=
  (session.project.model.classAt owner).methods.filter fun id =>
    !(session.project.model.method id).isPrivate

def overload (files : FileTree) (session : Session) (countsVarargs : Bool) (viewing : ClassId)
    (id : MethodId) : Overload :=
  session.observe files fun resolver =>
    resolver.overload countsVarargs (resolver.model.method id) viewing

theorem overload_eq (coherent : session.project.model.Coherent) (countsVarargs : Bool)
    (viewing : ClassId) (id : MethodId) :
    session.overload files countsVarargs viewing id =
      ((session.standing files).overload countsVarargs (session.project.model.method id)
        viewing).run :=
  observe_eq (Yields.overload coherent countsVarargs id viewing)

/-- A class lists its own methods if their overloads differ, where any number of arguments
counts as one. -/
theorem ownOf_methods_eq_iff (coherent : session.project.model.Coherent) (owner : ClassId) :
    (Resolver.ownOf (session.observe files (·.methods owner true)) =
        (session.openMethods owner).map ({ id := · }) ↔
      (session.openMethods owner).Pairwise fun one other =>
        (session.overload files false owner one).key ≠
          (session.overload files false owner other).key) := by
  simp only [observe_methods coherent, overload_eq coherent]
  exact Resolver.ownOf_run_methods_eq_iff (inside coherent) owner

/-- What is written of the parameters of a method: what their types mean, how many type
arguments and dimensions these have, and whether they take any number of arguments. -/
def written (files : FileTree) (session : Session) (id : MethodId) :
    List (Option Referent × Nat × Nat × Bool) :=
  (session.project.model.method id).parameters.map fun parameter =>
    (session.meaning files parameter.type.name parameter.type.scope, parameter.type.args.length,
      parameter.type.dims, parameter.isVarargs)

/-- The overload of a method with classes for parameters, where nothing is remembered. -/
theorem overload_of_written (coherent : session.project.model.Coherent)
    (forgotten : session.project.memo = ∅) (countsVarargs : Bool) (viewing : ClassId)
    {id : MethodId} {types : List (String × Nat × Bool)}
    (written : session.written files id =
      types.map fun type => (some (.named type.1), 0, type.2.1, type.2.2)) :
    session.overload files countsVarargs viewing id =
      { name := (session.project.model.method id).name
        parameters := types.map fun type =>
          (type.1, if countsVarargs && type.2.2 then type.2.1 + 1 else type.2.1) } := by
  rw [overload_eq coherent]
  unfold Resolver.overload
  unfold Session.written at written
  rw [Id.run_bind, List.idRun_mapM]
  refine congrArg (Overload.mk _) ?_
  generalize (session.project.model.method id).parameters = parameters at written
  induction types generalizing parameters with
  | nil =>
      rw [List.map_eq_nil_iff.mp written]
      rfl
  | cons type rest ih =>
      obtain ⟨parameter, others, rfl, first, later⟩ := List.map_eq_cons_iff.mp written
      simp only [Prod.mk.injEq] at first
      obtain ⟨means, bare, dims, varargs⟩ := first
      have stands : ((session.standing files).referent parameter.type).run =
          some (.named type.1) := (referent_of_forgotten files forgotten _).trans means
      have named := Resolver.typeAt_of_typeWithin? (Nat.le_refl _)
        (Resolver.typeWithin?_of_named stands (List.eq_nil_of_length_eq_zero bare)
          substitutionLimit (some viewing))
      rw [List.map_cons, List.map_cons, ih others later]
      refine congrArg (· :: _) ?_
      unfold Resolver.parameterType Resolver.typeFrom
      rw [Id.run_bind, named, dims, varargs]
      rfl

end Session

/-- A class lists all its own methods that are not private, in the order in which they are
declared, if their keys differ and only then.  If names are plain, their keys differ if they
are different overloads, where any number of arguments counts as one. -/
theorem own_overloads_are_listed {files : FileTree} {session : Session}
    {past : List Session.Resolution} (run : Session.Run files session past) (owner : ClassId) :
    (Resolver.ownOf (session.observe files (·.methods owner true)) =
        (session.openMethods owner).map ({ id := · }) ↔
      (session.openMethods owner).Pairwise fun one other =>
        (session.observe files fun resolver =>
            resolver.signatureKey (resolver.model.method one) owner) ≠
          session.observe files fun resolver =>
            resolver.signatureKey (resolver.model.method other) owner) ∧
      ((∀ id ∈ session.openMethods owner, (session.overload files false owner id).Plain) →
        (Resolver.ownOf (session.observe files (·.methods owner true)) =
            (session.openMethods owner).map ({ id := · }) ↔
          (session.openMethods owner).Pairwise fun one other =>
            session.overload files false owner one ≠
              session.overload files false owner other)) := by
  have coherent := run.faithful.coherent
  have keyOf : ∀ id, (session.observe files fun resolver =>
      resolver.signatureKey (resolver.model.method id) owner) =
        (session.overload files false owner id).key := by
    intro id
    rw [Session.observe_signatureKey coherent, Session.overload_eq coherent]
    exact Resolver.run_signatureKey _ owner
  have listed : Resolver.ownOf (session.observe files (·.methods owner true)) = _ ↔ _ :=
    Session.ownOf_methods_eq_iff coherent owner
  simp only [keyOf]
  refine ⟨listed, fun plain => listed.trans (List.Pairwise.iff_of_mem fun one other => ?_)⟩
  have told := Overload.key_inj (plain _ one) (plain _ other)
  exact ⟨fun differ same => differ (congrArg Overload.key same),
    fun differ same => differ (told same)⟩

/-- A project with a class that overloads a method with any number of arguments and a class
that overloads one with an array. -/
def stringOverloads : Session :=
  (Session.add ("class C \x7b void f(String a) \x7b\x7d void f(String... a) \x7b\x7d \x7d " ++
      "class D \x7b void f(String a) \x7b\x7d void f(String[] a) \x7b\x7d \x7d") {}
    { project := {}, library := .ofCore }).2

theorem stringOverloads_declares :
    stringOverloads.openMethods ⟨0⟩ = [⟨0⟩, ⟨1⟩] ∧
      stringOverloads.openMethods ⟨1⟩ = [⟨2⟩, ⟨3⟩] ∧
      [0, 1, 2, 3].map (fun index => (stringOverloads.project.model.method ⟨index⟩).name) =
        ["f", "f", "f", "f"] ∧
      [0, 1, 2, 3].map (fun index => stringOverloads.written {} ⟨index⟩) =
        [[(some (.named "java.lang.String"), 0, 0, false)],
          [(some (.named "java.lang.String"), 0, 0, true)],
          [(some (.named "java.lang.String"), 0, 0, false)],
          [(some (.named "java.lang.String"), 0, 1, false)]] := by
  decide +kernel

theorem stringOverloads_run : Session.Run {} stringOverloads [] :=
  .change (.start {} .ofCore) (.add _ _)

theorem stringOverloads_overload (countsVarargs : Bool) (viewing : ClassId) :
    [0, 1, 2, 3].map (fun index => stringOverloads.overload {} countsVarargs viewing ⟨index⟩) =
      [⟨"f", [("java.lang.String", 0)]⟩,
        ⟨"f", [("java.lang.String", if countsVarargs then 1 else 0)]⟩,
        ⟨"f", [("java.lang.String", 0)]⟩, ⟨"f", [("java.lang.String", 1)]⟩] := by
  have coherent := stringOverloads_run.faithful.coherent
  have forgotten := stringOverloads_run.forgotten
  obtain ⟨-, -, names, written⟩ := stringOverloads_declares
  simp only [List.map_cons, List.map_nil, List.cons.injEq, and_true] at names written
  obtain ⟨first, second, third, fourth⟩ := names
  obtain ⟨ofFirst, ofSecond, ofThird, ofFourth⟩ := written
  have overload {id : MethodId} (types : List (String × Nat × Bool)) :=
    @Session.overload_of_written {} stringOverloads coherent forgotten countsVarargs viewing id
      types
  rw [List.map_cons, List.map_cons, List.map_cons, List.map_cons, List.map_nil,
    overload [("java.lang.String", 0, false)] ofFirst,
    overload [("java.lang.String", 0, true)] ofSecond,
    overload [("java.lang.String", 0, false)] ofThird,
    overload [("java.lang.String", 1, false)] ofFourth, first, second, third, fourth]
  cases countsVarargs <;> rfl

/-- Overloads with an array and without one are both listed. -/
theorem overload_with_array_is_listed :
    Resolver.ownOf (stringOverloads.observe {} (·.methods ⟨1⟩ true)) =
      [{ id := ⟨2⟩ }, { id := ⟨3⟩ }] := by
  have own := stringOverloads_declares.2.1
  have overloads := stringOverloads_overload false ⟨1⟩
  simp only [List.map_cons, List.map_nil, List.cons.injEq, and_true] at overloads
  obtain ⟨-, -, third, fourth⟩ := overloads
  have listed := (own_overloads_are_listed stringOverloads_run ⟨1⟩).2
  simp only [own, List.forall_mem_cons, List.pairwise_cons, third, fourth] at listed
  refine (listed ⟨⟨by decide, ?_⟩, ⟨by decide, ?_⟩, by simp⟩).mpr (by simp)
  · intro type member
    rw [List.mem_singleton.mp member]
    exact ⟨by decide, by decide, by decide⟩
  · intro type member
    rw [List.mem_singleton.mp member]
    exact ⟨by decide, by decide, by decide⟩

/-- An overload with any number of arguments is lost: the class does not list both methods
although they are different overloads. -/
theorem overload_with_any_number_is_lost :
    Session.Run {} stringOverloads [] ∧
      ((stringOverloads.openMethods ⟨0⟩).Pairwise fun one other =>
        stringOverloads.overload {} true ⟨0⟩ one ≠ stringOverloads.overload {} true ⟨0⟩ other) ∧
      Resolver.ownOf (stringOverloads.observe {} (·.methods ⟨0⟩ true)) ≠
        (stringOverloads.openMethods ⟨0⟩).map ({ id := · }) := by
  have coherent := stringOverloads_run.faithful.coherent
  have own := stringOverloads_declares.1
  refine ⟨stringOverloads_run, ?_, fun all => ?_⟩
  · have overloads := stringOverloads_overload true ⟨0⟩
    simp only [List.map_cons, List.map_nil, List.cons.injEq, and_true] at overloads
    obtain ⟨first, second, -, -⟩ := overloads
    simp [own, first, second]
  · have overloads := stringOverloads_overload false ⟨0⟩
    simp only [List.map_cons, List.map_nil, List.cons.injEq, and_true] at overloads
    obtain ⟨first, second, -, -⟩ := overloads
    have differ := (Session.ownOf_methods_eq_iff coherent ⟨0⟩).mp all
    simp [own, first, second] at differ

end JavaDecl
