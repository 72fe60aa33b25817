import JavaDecl.Proofs.OwnedMembers
import JavaDecl.Proofs.StandingMembers

/-!
# Type arguments that are inherited

What a type variable of a class is, seen from a class below: the type argument on the way
there, seen from the same class, or the erasure of the variable if there is none.
-/

namespace JavaDecl

namespace Session

/-- What a program yields when it looks types up in a session. -/
def observe {α : Type} (files : FileTree) (session : Session)
    (program : Resolver SessionM → SessionM α) : α :=
  ((do program (← resolver) : SessionM α) files session).1

variable {files : FileTree} {session : Session}

theorem Alike.refl (session : Session) : Alike files session session :=
  ⟨rfl, fun _ _ => rfl⟩

theorem observe_eq {α : Type} {program : Resolver SessionM → SessionM α} {value : α}
    (yields : Yields files session (program session.looking) value) :
    session.observe files program = value :=
  (yields session (.refl session)).1

section Coherent

variable (coherent : session.project.model.Coherent)

include coherent

theorem observe_classOf? {ref : TypeRef} (stored : session.project.model.Stores ref) :
    session.observe files (·.classOf? ref) = ((session.standing files).classOf? ref).run :=
  observe_eq (Yields.classOf? coherent stored)

theorem observe_typeFrom {ref : TypeRef} (stored : session.project.model.Stores ref)
    (viewing : Option ClassId) :
    session.observe files (·.typeFrom viewing ref) =
      ((session.standing files).typeFrom viewing ref).run :=
  observe_eq (Yields.typeAt coherent _ viewing stored)

theorem observe_erasure (owner : VariableOwner) (position depth : Nat) :
    session.observe files (·.erasure owner position depth) =
      ((session.standing files).erasure owner position depth).run :=
  observe_eq (Yields.erasureBy (fun _ => Yields.typeAt coherent _ none) owner position)

omit coherent in
theorem classOf?_of_named {ref : TypeRef} {name : String}
    (stands : (referent ref files session).1 = some (.named name)) :
    ((session.standing files).classOf? ref).run = session.project.model.classNamed? name := by
  have known : ((session.standing files).referent ref).run = some (.named name) := stands
  unfold Resolver.classOf?
  rw [Id.run_bind, known]
  rfl

/-- What a type stands for is a class of the model. -/
theorem inside : (session.standing files).Inside := by
  intro ref id resolved
  unfold Resolver.classOf? at resolved
  rw [Id.run_bind] at resolved
  split at resolved
  · exact coherent.names _ id resolved
  · cases resolved

theorem observe_supertypesOf (id : ClassId) :
    session.observe files (·.supertypesOf id) = ((session.standing files).supertypesOf id).run :=
  observe_eq (Yields.supertypesOf coherent id)

theorem exists_order (root : ClassId) :
    ∃ order, DepthFirst (fun id => session.observe files (·.supertypesOf id)) [] [root] order := by
  simp only [observe_supertypesOf coherent]
  exact Resolver.exists_order (inside coherent) root

/-- The search finds what is written in the one place above a class that refers to the
owner, if it gets there. -/
theorem argument?_of_met {viewing declaring holder : ClassId} (different : viewing ≠ declaring)
    {order : List ClassId}
    (walk : DepthFirst (fun id => session.observe files (·.supertypesOf id)) [] [viewing] order)
    (met : holder ∈ order.take hierarchyLimit) {super : TypeRef}
    (listed : super ∈ (session.project.model.classAt holder).superRefs)
    (resolved : session.observe files (·.classOf? super) = some declaring)
    (only : ∀ id, (session.standing files).Above viewing id →
      ∀ other ∈ (session.project.model.classAt id).superRefs,
        session.observe files (·.classOf? other) = some declaring → id = holder ∧ other = super)
    (position : Nat) :
    ((session.standing files).argument? viewing declaring position).run =
      super.args[position]? := by
  have refers := resolved
  rw [observe_classOf? coherent (Model.stores_superRef listed)] at refers
  have supply : ∀ id, (session.standing files).Above viewing id →
      ∀ other ∈ (session.project.model.classAt id).superRefs,
        ((session.standing files).classOf? other).run = some declaring →
          other.args[position]? = super.args[position]? := by
    intro id climbed other member stands
    rw [← observe_classOf? coherent (Model.stores_superRef member)] at stands
    rw [(only id climbed other member stands).2]
  simp only [observe_supertypesOf coherent] at walk
  exact Resolver.argument?_of_met different (inside coherent) walk supply
    met listed refers

/-- All classes of a hierarchy that is not too large are visited. -/
theorem order_within_limit {root : ClassId} {classes order : List ClassId}
    (bounded : classes.length ≤ hierarchyLimit)
    (complete : ∀ id, (session.standing files).Above root id → id ∈ classes)
    (walk : DepthFirst (fun id => session.observe files (·.supertypesOf id)) [] [root] order) :
    order.take hierarchyLimit = order := by
  simp only [observe_supertypesOf coherent] at walk
  refine List.take_of_length_le (Nat.le_trans ?_ bounded)
  exact walk.nodup.length_le_of_subset fun id met =>
    complete id ((Resolver.mem_iff_above walk).mp met)

/-- The search finds what is written in the one place above a class that refers to the
owner. -/
theorem argument?_of_only {viewing declaring holder : ClassId} (different : viewing ≠ declaring)
    {classes : List ClassId} (bounded : classes.length ≤ hierarchyLimit)
    (complete : ∀ id, (session.standing files).Above viewing id → id ∈ classes)
    (above : (session.standing files).Above viewing holder) {super : TypeRef}
    (listed : super ∈ (session.project.model.classAt holder).superRefs)
    (resolved : session.observe files (·.classOf? super) = some declaring)
    (only : ∀ id, (session.standing files).Above viewing id →
      ∀ other ∈ (session.project.model.classAt id).superRefs,
        session.observe files (·.classOf? other) = some declaring → id = holder ∧ other = super)
    (position : Nat) :
    ((session.standing files).argument? viewing declaring position).run =
      super.args[position]? := by
  obtain ⟨order, walk⟩ := exists_order coherent viewing
  refine argument?_of_met coherent different walk ?_ listed resolved only position
  rw [order_within_limit coherent bounded complete walk]
  simp only [observe_supertypesOf coherent] at walk
  exact (Resolver.mem_iff_above walk).mpr above

end Coherent

end Session

/-- A type variable of a class, seen from another class.  Among that class and its supertypes
one refers to the owner of the variable, and it does so once.  The variable is the plain
argument that is written there, seen from the same class, or its erasure if none is. -/
theorem variable_seen_through_hierarchy {files : FileTree} {session : Session}
    {past : List Session.Resolution} (run : Session.Run files session past)
    {viewing declaring holder : ClassId} (different : viewing ≠ declaring)
    {classes : List ClassId} (bounded : classes.length ≤ hierarchyLimit)
    (complete : ∀ id, (session.standing files).Above viewing id → id ∈ classes)
    (above : (session.standing files).Above viewing holder) {super : TypeRef}
    (listed : super ∈ (session.project.model.classAt holder).superRefs)
    (resolved : session.observe files (·.classOf? super) = some declaring)
    (only : ∀ id, (session.standing files).Above viewing id →
      ∀ other ∈ (session.project.model.classAt id).superRefs,
        session.observe files (·.classOf? other) = some declaring → id = holder ∧ other = super)
    {ref : TypeRef} (stored : session.project.model.Stores ref) {position : Nat}
    (stands : (Session.referent ref files session).1 =
      some (.variable (.ofClass declaring) position)) :
    (∀ arg, super.args[position]? = some (.type arg) →
        ((session.standing files).typeWithin? (substitutionLimit + 1) (some viewing) ref).isSome →
          session.observe files (·.typeFrom (some viewing) ref) =
            (session.observe files (·.typeFrom (some viewing) arg)).addDims ref.dims) ∧
      (super.args[position]? = none →
        session.observe files (·.typeFrom (some viewing) ref) =
          (session.observe files (·.erasure (.ofClass declaring) position 0)).addDims
            ref.dims) := by
  have coherent := run.faithful.coherent
  have found := Session.argument?_of_only coherent different bounded complete above listed
    resolved only position
  have isVariable : ((session.standing files).referent ref).run =
      some (.variable (.ofClass declaring) position) := stands
  rw [Session.observe_typeFrom coherent stored]
  constructor
  · intro arg given ended
    have argStored := (Model.stores_superRef listed).argument (List.mem_of_getElem? given) rfl
    rw [Session.observe_typeFrom coherent argStored]
    exact Resolver.typeFrom_of_argument isVariable (found.trans given) ended
  · intro missing
    rw [Session.observe_erasure coherent]
    exact Resolver.typeFrom_of_no_argument isVariable (found.trans missing)

/-- A project with a class that holds an array and a subclass of it that holds strings. -/
def stringHolder : Session :=
  (Session.add "class A<T> \x7b T[] items; \x7d class R extends A<String> \x7b\x7d" {}
    { project := {}, library := .ofCore }).2

/-- What is written in the classes of the project, and what the names in it mean. -/
theorem stringHolder_declares : ∃ super arg field,
    (stringHolder.project.model.classAt ⟨0⟩).superRefs = [] ∧
      (stringHolder.project.model.classAt ⟨1⟩).superRefs = [super] ∧
      super.args = [.type arg] ∧ arg.args = [] ∧
      stringHolder.project.model.fields[0]? = some field ∧
      stringHolder.meaning {} super.name super.scope = some (.named "A") ∧
      stringHolder.meaning {} arg.name arg.scope = some (.named "java.lang.String") ∧
      stringHolder.meaning {} field.type.name field.type.scope =
        some (.variable (.ofClass ⟨0⟩) 0) ∧
      arg.dims = 0 ∧ field.type.dims = 1 ∧
      stringHolder.project.model.firstNamed? "A" = some ⟨0⟩ := by
  have facts : (stringHolder.project.model.classAt ⟨0⟩).superRefs.length = 0 ∧
      ((stringHolder.project.model.classAt ⟨1⟩).superRefs.map fun ref =>
        (stringHolder.meaning {} ref.name ref.scope,
          ref.args.map fun
            | .type part =>
                some (stringHolder.meaning {} part.name part.scope, part.dims, part.args.length)
            | _ => none)) =
        [(some (.named "A"), [some (some (.named "java.lang.String"), 0, 0)])] ∧
      (stringHolder.project.model.fields.toList.map fun field =>
        (stringHolder.meaning {} field.type.name field.type.scope, field.type.dims)) =
          [(some (.variable (.ofClass ⟨0⟩) 0), 1)] ∧
      stringHolder.project.model.firstNamed? "A" = some ⟨0⟩ := by
    decide +kernel
  obtain ⟨bottom, header, items, named⟩ := facts
  obtain ⟨super, extended, header⟩ := List.map_eq_singleton_iff.mp header
  obtain ⟨superMeans, superArgs⟩ := Prod.mk.inj header
  obtain ⟨argument, args, shape⟩ := List.map_eq_singleton_iff.mp superArgs
  obtain ⟨field, fields, item⟩ := List.map_eq_singleton_iff.mp items
  obtain ⟨itemMeans, itemDims⟩ := Prod.mk.inj item
  cases argument with
  | unbounded => cases shape
  | extending bound => cases shape
  | above bound => cases shape
  | type arg =>
      obtain ⟨argMeans, argShape⟩ := Prod.mk.inj (Option.some.inj shape)
      obtain ⟨argDims, argArgs⟩ := Prod.mk.inj argShape
      have first : stringHolder.project.model.fields[0]? = some field := by
        simp [← Array.getElem?_toList, fields]
      exact ⟨super, arg, field, List.eq_nil_of_length_eq_zero bottom, extended, args,
        List.eq_nil_of_length_eq_zero argArgs, first, superMeans, argMeans, itemMeans, argDims,
        itemDims, named⟩

/-- The array of a variable, seen from a subclass that gives the variable a class. -/
theorem items_seen_from_string_holder :
    ∃ ref, stringHolder.project.model.Stores ref ∧
      (Session.referent ref {} stringHolder).1 = some (.variable (.ofClass ⟨0⟩) 0) ∧
        stringHolder.observe {} (·.typeFrom (some ⟨1⟩) ref) =
          .named "java.lang.String" true 1 [] := by
  obtain ⟨super, arg, field, topmost, extended, args, bare, first, superMeans, argMeans,
    itemMeans, argDims, itemDims, named⟩ := stringHolder_declares
  have run : Session.Run {} stringHolder [] := .change (.start {} .ofCore) (.add _ _)
  have coherent := run.faithful.coherent
  have forgotten := run.forgotten
  have meaning := Session.referent_of_forgotten {} forgotten
  have listed : super ∈ (stringHolder.project.model.classAt ⟨1⟩).superRefs := by simp [extended]
  have superStored := Model.stores_superRef listed
  have given : super.args[0]? = some (.type arg) := by
    rw [args]
    rfl
  have stored : stringHolder.project.model.Stores field.type := by
    refine ⟨.ofField ⟨0⟩, field.type, ?_, .whole⟩
    simp [Model.typesAt, first, FieldEntity.types]
  have superStands : ((stringHolder.standing {}).classOf? super).run = some ⟨0⟩ := by
    rw [Session.classOf?_of_named ((meaning super).trans superMeans), run.namesFirst]
    exact named
  have resolved : stringHolder.observe {} (·.classOf? super) = some ⟨0⟩ := by
    rw [Session.observe_classOf? coherent superStored]
    exact superStands
  have climbs : ∀ id, (stringHolder.standing {}).Above ⟨1⟩ id → id = ⟨1⟩ ∨ id = ⟨0⟩ :=
    fun id climbed => climbed.eq_or_eq extended superStands topmost
  have complete : ∀ id, (stringHolder.standing {}).Above ⟨1⟩ id → id ∈ [ClassId.mk 1, ⟨0⟩] := by
    intro id climbed
    simpa using climbs id climbed
  have only : ∀ id, (stringHolder.standing {}).Above ⟨1⟩ id →
      ∀ other ∈ (stringHolder.project.model.classAt id).superRefs,
        stringHolder.observe {} (·.classOf? other) = some ⟨0⟩ → id = ⟨1⟩ ∧ other = super := by
    intro id climbed other member _
    rcases climbs id climbed with rfl | rfl
    · rw [extended, List.mem_singleton] at member
      exact ⟨rfl, member⟩
    · rw [topmost] at member
      cases member
  have stands : ((stringHolder.standing {}).referent field.type).run =
      some (.variable (.ofClass ⟨0⟩) 0) := (meaning field.type).trans itemMeans
  have argStands : ((stringHolder.standing {}).referent arg).run =
      some (.named "java.lang.String") := (meaning arg).trans argMeans
  have within : ∀ depth, (stringHolder.standing {}).typeWithin? (depth + 1) (some ⟨1⟩) arg =
      some (.named "java.lang.String" true arg.dims []) :=
    fun depth => Resolver.typeWithin?_of_named argStands bare depth _
  have found := Session.argument?_of_only coherent (by decide) (by decide) complete .self
    listed resolved only 0
  have ended : ((stringHolder.standing {}).typeWithin? (substitutionLimit + 1) (some ⟨1⟩)
      field.type).isSome := by
    rw [Resolver.typeWithin?_of_argument stands (found.trans given), substitutionLimit, within]
    rfl
  have seen := (variable_seen_through_hierarchy run (by decide) (by decide) complete .self
    listed resolved only stored stands).1 arg given ended
  have argSeen : stringHolder.observe {} (·.typeFrom (some ⟨1⟩) arg) =
      .named "java.lang.String" true arg.dims [] := by
    rw [Session.observe_typeFrom coherent
      (superStored.argument (List.mem_of_getElem? given) rfl)]
    exact Resolver.typeAt_of_typeWithin? (Nat.le_refl _) (within substitutionLimit)
  refine ⟨field.type, stored, stands, ?_⟩
  rw [seen, argSeen, argDims, itemDims]
  rfl

end JavaDecl
