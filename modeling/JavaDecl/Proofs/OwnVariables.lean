import JavaDecl.Proofs.InterlinkedModels
import JavaDecl.Proofs.NodesOfTypes
import JavaDecl.Proofs.StandingMembers

/-!
# Type variables in their own class

A type that stands for a type variable, seen from the class that it is written in, is the
erasure of the variable.  The headers above that class give no arguments to its own variables,
nor to those of its methods.  They may give some to a class around it, if it extends that class
as well, and only then the type is something else.
-/

namespace JavaDecl

namespace Session

variable {files : FileTree} {session : Session} {past : List Resolution}

/-- A type stands for a type variable only if that is what its name means where it is written:
the variable of the method, or else that of the innermost class with such a variable. -/
theorem Run.typeVariable?_eq (run : Run files session past) {ref : TypeRef}
    (stored : session.project.model.Stores ref) {owner : VariableOwner} {position : Nat}
    (stands : (referent ref files session).1 = some (.variable owner position)) :
    session.project.model.typeVariable? ref.name ref.scope = some (.variable owner position) := by
  refine run.found (fun model ref found => ∀ owner position,
    found = .variable owner position → model.typeVariable? ref.name ref.scope = some found)
    ?_ ?_ stored stands owner position rfl
  · intro session ref found means owner position isVariable
    unfold meaning Model.resolveName at means
    split at means
    · cases means
      cases isVariable
    · split at means
      · next parameter names => exact names.trans means
      · next missing =>
          obtain ⟨name, -, rfl⟩ := Option.map_eq_some_iff.mp means
          cases isVariable
  · intro model larger ref found coherent larger stored holds owner position isVariable
    rw [Model.typeVariable?_eq coherent larger (stored.scope_inside coherent.settled)]
    exact holds owner position isVariable

end Session

namespace Model

variable {model : Model} {name : String} {owner : VariableOwner} {position : Nat}

/-- The owner of a type variable is the method or a class around the place. -/
theorem owner_of_typeVariable? {scope : Scope}
    (names : model.typeVariable? name scope = some (.variable owner position)) :
    (∃ method, owner = .ofMethod method ∧ scope.method = some method) ∨
      ∃ id, owner = .ofClass id ∧ id ∈ model.around scope := by
  have ofOwner {other : VariableOwner}
      (own : model.parameterNamed? name other = some (.variable owner position)) :
      owner = other := by
    obtain ⟨_, -, same⟩ := Option.map_eq_some_iff.mp own
    cases same
    rfl
  rcases Option.or_eq_some_iff.mp names with fromMethod | ⟨-, fromClass⟩
  · obtain ⟨method, inMethod, own⟩ := Option.bind_eq_some_iff.mp fromMethod
    exact .inl ⟨method, ofOwner own, inMethod⟩
  · obtain ⟨id, listed, own⟩ := List.exists_of_findSome?_eq_some fromClass
    exact .inr ⟨id, ofOwner own, listed⟩

end Model

namespace Resolver

variable {resolver : Resolver Id} {viewing : Option ClassId} {viewer : ClassId}

/-! ### Variables that nothing is supplied for -/

/-- No header above a class gives an argument to a variable, unless it is one of its own. -/
def Withholds (resolver : Resolver Id) (viewer : ClassId) (owner : VariableOwner)
    (position : Nat) : Prop :=
  ∀ declaring, owner = .ofClass declaring → declaring ≠ viewer →
    ∀ arg, ¬ resolver.Supplies viewer declaring position arg

theorem Withholds.suppliedTo? {owner : VariableOwner} {position : Nat}
    (withholds : resolver.Withholds viewer owner position) :
    (resolver.suppliedTo? (some viewer) owner position).run = none := by
  cases owner with
  | ofMethod id => rfl
  | ofClass declaring =>
      change (resolver.argument? viewer declaring position).run = none
      by_cases same : viewer = declaring
      · unfold argument?
        rw [if_pos same]
        rfl
      · rw [run_argument? same, Option.eq_none_iff_forall_ne_some]
        intro arg found
        exact withholds declaring rfl (Ne.symm same) arg (supplies_of_searchFrom found)

/-- A direct supertype comes first. -/
theorem argument?_of_direct {declaring : ClassId} (different : viewer ≠ declaring)
    {super : TypeRef} (single : (resolver.model.classAt viewer).superRefs = [super])
    (refers : (resolver.classOf? super).run = some declaring) (position : Nat) :
    (resolver.argument? viewer declaring position).run = super.args[position]? := by
  rw [run_argument? different, searchFrom_succ, single]
  simp [refers, hierarchyLimit]

theorem typeAt_of_unsupplied {ref : TypeRef} {owner : VariableOwner} {position : Nat}
    (stands : (resolver.referent ref).run = some (.variable owner position))
    (missing : (resolver.suppliedTo? viewing owner position).run = none) (depth : Nat) :
    (resolver.typeAt (depth + 1) viewing ref).run =
      (resolver.erasureBy (resolver.typeAt depth none) owner position).run.addDims ref.dims := by
  rw [typeAt_succ, stands]
  simp only [missing]

/-- Arguments are the same where the types in them are. -/
theorem argumentType_congr {typeOf other : TypeRef → Id ResolvedType} {arg : TypeArgument TypeRef}
    (same : ∀ part, arg.type? = some part → (typeOf part).run = (other part).run) :
    (argumentType typeOf arg).run = (argumentType other arg).run := by
  cases arg with
  | type ref => exact same ref rfl
  | unbounded => rfl
  | extending bound => exact congrArg ResolvedType.extending (same bound rfl)
  | above bound => exact congrArg ResolvedType.above (same bound rfl)

/-- A type, seen from a class that supplies nothing for the variables in it, is the type as no
class sees it. -/
theorem typeAt_eq_typeAt_none {depth : Nat} {ref : TypeRef}
    (missing : ∀ part, ref.HasPart part → ∀ owner position,
      (resolver.referent part).run = some (.variable owner position) →
        (resolver.suppliedTo? viewing owner position).run = none) :
    (resolver.typeAt depth viewing ref).run = (resolver.typeAt depth none ref).run := by
  induction depth generalizing ref with
  | zero => rfl
  | succ depth ih =>
      have args : (ref.args.mapM (argumentType (resolver.typeAt depth viewing))).run =
          (ref.args.mapM (argumentType (resolver.typeAt depth none))).run := by
        rw [List.idRun_mapM, List.idRun_mapM]
        refine List.map_congr_left fun arg listed => argumentType_congr fun part found => ?_
        have within : ref.HasPart part := .argument .whole listed found
        exact ih fun inner has => missing inner (within.trans has)
      rcases stands : (resolver.referent ref).run with _ | ⟨name⟩ | ⟨owner, position⟩
      · rw [typeAt_succ, typeAt_succ, stands, args]
      · rw [typeAt_succ, typeAt_succ, stands, args]
      · rw [typeAt_of_unsupplied stands (missing ref .whole owner position stands),
          typeAt_of_unsupplied stands rfl]

/-- No header above a class gives an argument to a class around it. -/
def Apart (resolver : Resolver Id) (viewer : ClassId) : Prop :=
  ∀ outer ∈ resolver.model.outward (viewer.index + 1) viewer, ∀ position,
    resolver.Withholds viewer (.ofClass outer) position

/-- Nothing is supplied for a variable from the class that it is written in. -/
theorem Apart.suppliedTo? (apart : resolver.Apart viewer) {name : String} {scope : Scope}
    (inside : scope.classId = some viewer) {owner : VariableOwner} {position : Nat}
    (names : resolver.model.typeVariable? name scope = some (.variable owner position)) :
    (resolver.suppliedTo? (some viewer) owner position).run = none := by
  rcases Model.owner_of_typeVariable? names with ⟨method, rfl, -⟩ | ⟨id, rfl, listed⟩
  · rfl
  · unfold Model.around at listed
    rw [inside] at listed
    exact (apart id listed position).suppliedTo?

end Resolver

namespace Session

variable {files : FileTree} {session : Session} {past : List Resolution} {inner : ClassId}

/-! ### Types in their own class -/

section Run

variable (run : Run files session past)

include run

/-- A variable, seen from the class that it is written in, is its erasure if nothing is
supplied for it there. -/
theorem observe_typeOf_variable {ref : TypeRef} (stored : session.project.model.Stores ref)
    (inside : ref.scope.classId = some inner) {owner : VariableOwner} {position : Nat}
    (stands : (Session.referent ref files session).1 = some (.variable owner position))
    (withholds : (session.standing files).Withholds inner owner position) :
    session.observe files (·.typeOf ref) =
      (session.observe files (·.erasure owner position 0)).addDims ref.dims := by
  have coherent := run.faithful.coherent
  have isVariable : ((session.standing files).referent ref).run =
      some (.variable owner position) := stands
  calc session.observe files (·.typeOf ref)
      = session.observe files (·.typeFrom (some inner) ref) := by
        simp only [Resolver.typeOf, inside]
    _ = ((session.standing files).typeFrom (some inner) ref).run :=
        observe_typeFrom coherent stored _
    _ = ((session.standing files).erasure owner position 0).run.addDims ref.dims :=
        Resolver.typeAt_of_unsupplied isVariable withholds.suppliedTo? _
    _ = (session.observe files (·.erasure owner position 0)).addDims ref.dims := by
        rw [observe_erasure coherent]

section Apart

variable (apart : (session.standing files).Apart inner)

include apart

/-- Types of a class that is apart from the classes around it do not depend on what is above
the class. -/
theorem typeFrom_own {holder : Holder} {ref : TypeRef}
    (listed : ref ∈ session.project.model.typesAt holder)
    (inside : (session.project.model.scopeOf holder).classId = some inner) :
    Yields files session (session.looking.typeFrom (some inner) ref)
      (session.observe files (·.typeFrom none ref)) := by
  have coherent := run.faithful.coherent
  have stored : session.project.model.Stores ref := ⟨holder, ref, listed, .whole⟩
  have same : ((session.standing files).typeFrom (some inner) ref).run =
      ((session.standing files).typeFrom none ref).run := by
    refine Resolver.typeAt_eq_typeAt_none fun part has owner position stands => ?_
    refine apart.suppliedTo? ?_ (run.typeVariable?_eq (stored.part has) stands)
    rw [run.holdsOwn.scope_eq coherent listed has, inside]
  rw [observe_typeFrom coherent stored, ← same]
  exact Yields.typeAt coherent _ (some inner) stored

/-- The result of a method that is declared in such a class. -/
theorem resultType_own {id : MethodId}
    (declared : (session.project.model.method id).declaring = inner) :
    session.observe files (·.resultType? { id }) =
      (session.project.model.method id).returnType.map fun ref =>
        session.observe files (·.typeFrom none ref) := by
  refine observe_eq ?_
  unfold Resolver.resultType?
  simp only [looking_model, Option.getD_none, declared]
  cases returns : (session.project.model.method id).returnType with
  | none => exact .pure none
  | some ref =>
      have listed : ref ∈ session.project.model.typesAt (.ofMethod id) := by
        simp [Model.typesAt, MethodEntity.types, returns]
      exact (typeFrom_own run apart listed (congrArg some declared)).bind (.pure _)

theorem parameterTypes_own {id : MethodId}
    (declared : (session.project.model.method id).declaring = inner) :
    session.observe files (·.parameterTypes { id }) =
      (session.project.model.method id).parameters.map fun parameter =>
        session.observe files (·.typeFrom none parameter.type) := by
  refine observe_eq ?_
  unfold Resolver.parameterTypes
  simp only [looking_model, Option.getD_none, declared]
  rw [← Id.run_pure (List.map _ _), ← List.mapM_pure]
  refine Yields.mapM _ fun parameter member => ?_
  obtain ⟨position, found⟩ := List.mem_iff_getElem?.mp member
  have listed : parameter.type ∈ session.project.model.typesAt (.ofParameter id position) :=
    Model.mem_typesAt_ofParameter.mpr ⟨parameter, found, by simp [ParameterEntity.types]⟩
  exact typeFrom_own run apart listed (congrArg some declared)

theorem fieldType_own {id : FieldId} (present : id.index < session.project.model.fields.size)
    (declared : (session.project.model.field id).declaring = inner) :
    session.observe files (·.fieldType { id }) =
      session.observe files (·.typeFrom none (session.project.model.field id).type) := by
  refine observe_eq ?_
  unfold Resolver.fieldType
  simp only [looking_model, Option.getD_none, declared]
  have listed : (session.project.model.field id).type ∈
      session.project.model.typesAt (.ofField id) :=
    Model.mem_typesAt_ofField.mpr ⟨present, by simp [FieldEntity.types]⟩
  exact typeFrom_own run apart listed (congrArg some declared)

end Apart

end Run

end Session

/-- A type variable, seen from the class that it is written in, is its erasure.  In every run a
stored type stands for the variable that its name means there, and that is its erasure with
the dimensions of the type, unless a header above its class gives an argument to a class
around it that has the variable.  Where no header does so, the types of the methods and
fields that the class declares are as no class sees them, so they do not depend on headers. -/
theorem own_variables_are_erased {files : FileTree} {session : Session}
    {past : List Session.Resolution} (run : Session.Run files session past) (inner : ClassId) :
    (∀ ref, session.project.model.Stores ref → ref.scope.classId = some inner →
      ∀ owner position,
        (Session.referent ref files session).1 = some (.variable owner position) →
          session.project.model.typeVariable? ref.name ref.scope =
            some (.variable owner position) ∧
          ((session.standing files).Withholds inner owner position →
            session.observe files (·.typeOf ref) =
              (session.observe files (·.erasure owner position 0)).addDims ref.dims)) ∧
    ((session.standing files).Apart inner →
      (∀ id : MethodId, (session.project.model.method id).declaring = inner →
        session.observe files (·.resultType? { id }) =
          (session.project.model.method id).returnType.map (fun ref =>
            session.observe files (·.typeFrom none ref)) ∧
        session.observe files (·.parameterTypes { id }) =
          (session.project.model.method id).parameters.map fun parameter =>
            session.observe files (·.typeFrom none parameter.type)) ∧
      ∀ id : FieldId, id.index < session.project.model.fields.size →
        (session.project.model.field id).declaring = inner →
          session.observe files (·.fieldType { id }) =
            session.observe files (·.typeFrom none (session.project.model.field id).type)) := by
  refine ⟨fun ref stored inside owner position stands => ⟨?_, fun withholds => ?_⟩,
    fun apart => ⟨fun id declared => ⟨?_, ?_⟩, fun id present declared => ?_⟩⟩
  · exact run.typeVariable?_eq stored stands
  · exact Session.observe_typeOf_variable run stored inside stands withholds
  · exact Session.resultType_own run apart declared
  · exact Session.parameterTypes_own run apart declared
  · exact Session.fieldType_own run apart present declared

/-! ### A class in a generic class -/

/-- A project of one source text. -/
def Session.ofText (source : String) : Session :=
  (Session.add source {} { project := {}, library := .ofCore }).2

namespace Session

theorem run_ofText (source : String) : Run {} (ofText source) [] :=
  .change (.start {} .ofCore) (.add _ _)

theorem referent_ofText (source : String) (ref : TypeRef) :
    (referent ref {} (ofText source)).1 = (ofText source).meaning {} ref.name ref.scope :=
  referent_of_forgotten {} (run_ofText source).forgotten ref

theorem classOf?_ofText {source name : String} {ref : TypeRef}
    (means : (ofText source).meaning {} ref.name ref.scope = some (.named name)) :
    (((ofText source).standing {}).classOf? ref).run =
      (ofText source).project.model.firstNamed? name := by
  rw [classOf?_of_named ((referent_ofText source ref).trans means), (run_ofText source).namesFirst]

end Session

/-- A class that is apart from the generic class around it. -/
def apartFromOuter : Session :=
  .ofText "class A<T> \x7b class B extends C<String> \x7b T own; \x7d \x7d class C<S> \x7b\x7d"

/-- What is written in the classes, and what the names in it mean. -/
theorem apartFromOuter_declares : ∃ super field,
    (apartFromOuter.project.model.classAt ⟨1⟩).superRefs = [super] ∧
      apartFromOuter.meaning {} super.name super.scope = some (.named "C") ∧
      apartFromOuter.project.model.firstNamed? "C" = some ⟨2⟩ ∧
      (apartFromOuter.project.model.classAt ⟨2⟩).superRefs = [] ∧
      apartFromOuter.project.model.fields[0]? = some field ∧
      field.declaring = ⟨1⟩ ∧ field.type.scope.classId = some ⟨1⟩ ∧ field.type.dims = 0 ∧
      apartFromOuter.meaning {} field.type.name field.type.scope =
        some (.variable (.ofClass ⟨0⟩) 0) ∧
      apartFromOuter.project.model.outward 2 ⟨1⟩ = [⟨1⟩, ⟨0⟩] ∧
      (apartFromOuter.project.model.typeParameter? (.ofClass ⟨0⟩) 0).bind (·.bounds.head?) =
        none := by
  have facts : ((apartFromOuter.project.model.classAt ⟨1⟩).superRefs.map fun ref =>
        apartFromOuter.meaning {} ref.name ref.scope) = [some (.named "C")] ∧
      apartFromOuter.project.model.firstNamed? "C" = some ⟨2⟩ ∧
      (apartFromOuter.project.model.classAt ⟨2⟩).superRefs.length = 0 ∧
      (apartFromOuter.project.model.fields.toList.map fun field =>
        (field.declaring, field.type.scope.classId, field.type.dims,
          apartFromOuter.meaning {} field.type.name field.type.scope)) =
        [(⟨1⟩, some ⟨1⟩, 0, some (.variable (.ofClass ⟨0⟩) 0))] ∧
      apartFromOuter.project.model.outward 2 ⟨1⟩ = [⟨1⟩, ⟨0⟩] ∧
      ((apartFromOuter.project.model.typeParameter? (.ofClass ⟨0⟩) 0).bind
        (·.bounds.head?)).isNone := by
    decide +kernel
  obtain ⟨headers, named, topmost, fields, around, unbounded⟩ := facts
  obtain ⟨super, header, means⟩ := List.map_eq_singleton_iff.mp headers
  obtain ⟨field, only, shape⟩ := List.map_eq_singleton_iff.mp fields
  simp only [Prod.mk.injEq] at shape
  obtain ⟨declared, inside, dims, fieldMeans⟩ := shape
  have first : apartFromOuter.project.model.fields[0]? = some field := by
    simp [← Array.getElem?_toList, only]
  exact ⟨super, field, header, means, named, List.eq_nil_of_length_eq_zero topmost, first,
    declared, inside, dims, fieldMeans, around, Option.isNone_iff_eq_none.mp unbounded⟩

/-- The variable of the outer class is its erasure in the inner class. -/
theorem outer_variable_is_erased :
    ∃ field, apartFromOuter.project.model.fields[0]? = some field ∧
      apartFromOuter.observe {} (·.typeOf field.type) = .named "java.lang.Object" true 0 [] ∧
      apartFromOuter.observe {} (·.fieldType { id := ⟨0⟩ }) =
        apartFromOuter.observe {} (·.typeFrom none field.type) := by
  obtain ⟨super, field, header, means, named, topmost, first, declared, inside, dims,
    fieldMeans, around, unbounded⟩ := apartFromOuter_declares
  have run : Session.Run {} apartFromOuter [] := Session.run_ofText _
  obtain ⟨ofVariable, ofMembers⟩ := own_variables_are_erased run ⟨1⟩
  have refers : ((apartFromOuter.standing {}).classOf? super).run = some ⟨2⟩ :=
    (Session.classOf?_ofText means).trans named
  have withholds (position : Nat) :
      (apartFromOuter.standing {}).Withholds ⟨1⟩ (.ofClass ⟨0⟩) position := by
    rintro declaring ⟨rfl⟩ - arg ⟨id, above, ref, listed, toOuter, -⟩
    rcases above.eq_or_eq header refers topmost with rfl | rfl
    · rw [Session.standing_model, header, List.mem_singleton] at listed
      rw [listed, refers] at toOuter
      cases toOuter
    · rw [Session.standing_model, topmost] at listed
      cases listed
  have apart : (apartFromOuter.standing {}).Apart ⟨1⟩ := by
    intro outer listed position
    change outer ∈ apartFromOuter.project.model.outward 2 ⟨1⟩ at listed
    rw [around] at listed
    simp only [List.mem_cons, List.not_mem_nil, or_false] at listed
    rcases listed with rfl | rfl
    · rintro declaring ⟨rfl⟩ different
      exact absurd rfl different
    · exact withholds position
  have present : 0 < apartFromOuter.project.model.fields.size :=
    (Array.getElem?_eq_some_iff.mp first).1
  have same : apartFromOuter.project.model.field ⟨0⟩ = field := by
    simp [Model.field, first]
  have stored : apartFromOuter.project.model.Stores field.type := by
    refine ⟨.ofField ⟨0⟩, field.type, ?_, .whole⟩
    simp [Model.typesAt, first, FieldEntity.types]
  have stands := (Session.referent_ofText _ field.type).trans fieldMeans
  have erased := (ofVariable field.type stored inside _ _ stands).2 (withholds 0)
  refine ⟨field, first, ?_, ?_⟩
  · rw [erased, dims, Session.observe_erasure run.faithful.coherent]
    unfold Resolver.erasure Resolver.erasureBy
    rw [Session.standing_model, unbounded]
    rfl
  · rw [(ofMembers apart).2 ⟨0⟩ present (same ▸ declared), same]

/-- A class that extends the generic class around it. -/
def extendsOuter : Session :=
  .ofText "class A<T> \x7b class B extends A<String> \x7b T own; \x7d \x7d"

/-- What is written in the class, and what the names in it mean. -/
theorem extendsOuter_declares : ∃ super arg field,
    (extendsOuter.project.model.classAt ⟨1⟩).superRefs = [super] ∧ super.args = [.type arg] ∧
      arg.args = [] ∧ arg.dims = 0 ∧
      extendsOuter.meaning {} super.name super.scope = some (.named "A") ∧
      extendsOuter.meaning {} arg.name arg.scope = some (.named "java.lang.String") ∧
      extendsOuter.project.model.firstNamed? "A" = some ⟨0⟩ ∧
      extendsOuter.project.model.fields[0]? = some field ∧
      field.type.scope.classId = some ⟨1⟩ ∧ field.type.dims = 0 ∧
      extendsOuter.meaning {} field.type.name field.type.scope =
        some (.variable (.ofClass ⟨0⟩) 0) ∧
      (extendsOuter.project.model.typeParameter? (.ofClass ⟨0⟩) 0).bind (·.bounds.head?) =
        none := by
  have headers : ((extendsOuter.project.model.classAt ⟨1⟩).superRefs.map fun ref =>
        (extendsOuter.meaning {} ref.name ref.scope,
          ref.args.map fun
            | .type part =>
                some (extendsOuter.meaning {} part.name part.scope, part.dims, part.args.length)
            | _ => none)) =
        [(some (.named "A"), [some (some (.named "java.lang.String"), 0, 0)])] := by
    decide +kernel
  have others : (extendsOuter.project.model.fields.toList.map fun field =>
        (field.type.scope.classId, field.type.dims,
          extendsOuter.meaning {} field.type.name field.type.scope)) =
        [(some ⟨1⟩, 0, some (.variable (.ofClass ⟨0⟩) 0))] ∧
      extendsOuter.project.model.firstNamed? "A" = some ⟨0⟩ ∧
      ((extendsOuter.project.model.typeParameter? (.ofClass ⟨0⟩) 0).bind
        (·.bounds.head?)).isNone := by
    decide +kernel
  obtain ⟨fields, named, unbounded⟩ := others
  obtain ⟨super, header, shape⟩ := List.map_eq_singleton_iff.mp headers
  obtain ⟨superMeans, superArgs⟩ := Prod.mk.inj shape
  obtain ⟨argument, args, argShape⟩ := List.map_eq_singleton_iff.mp superArgs
  obtain ⟨field, only, fieldShape⟩ := List.map_eq_singleton_iff.mp fields
  simp only [Prod.mk.injEq] at fieldShape
  obtain ⟨inside, dims, fieldMeans⟩ := fieldShape
  cases argument with
  | unbounded | extending bound | above bound => cases argShape
  | type arg =>
      simp only [Option.some.injEq, Prod.mk.injEq] at argShape
      obtain ⟨argMeans, argDims, argArgs⟩ := argShape
      have first : extendsOuter.project.model.fields[0]? = some field := by
        simp [← Array.getElem?_toList, only]
      exact ⟨super, arg, field, header, args, List.eq_nil_of_length_eq_zero argArgs, argDims,
        superMeans, argMeans, named, first, inside, dims, fieldMeans,
        Option.isNone_iff_eq_none.mp unbounded⟩

/-- The variable of the outer class is not its erasure in an inner class that extends the
outer one: it is the argument in the header of the inner class. -/
theorem outer_variable_is_replaced :
    ∃ ref, extendsOuter.project.model.Stores ref ∧ ref.scope.classId = some ⟨1⟩ ∧
      (Session.referent ref {} extendsOuter).1 = some (.variable (.ofClass ⟨0⟩) 0) ∧
      extendsOuter.observe {} (·.typeOf ref) = .named "java.lang.String" true 0 [] ∧
      (extendsOuter.observe {} (·.erasure (.ofClass ⟨0⟩) 0 0)).addDims ref.dims =
        .named "java.lang.Object" true 0 [] := by
  obtain ⟨super, arg, field, header, args, bare, argDims, superMeans, argMeans, named, first,
    inside, dims, fieldMeans, unbounded⟩ := extendsOuter_declares
  have run : Session.Run {} extendsOuter [] := Session.run_ofText _
  have coherent := run.faithful.coherent
  have stored : extendsOuter.project.model.Stores field.type := by
    refine ⟨.ofField ⟨0⟩, field.type, ?_, .whole⟩
    simp [Model.typesAt, first, FieldEntity.types]
  have stands : ((extendsOuter.standing {}).referent field.type).run =
      some (.variable (.ofClass ⟨0⟩) 0) := (Session.referent_ofText _ _).trans fieldMeans
  have argStands : ((extendsOuter.standing {}).referent arg).run =
      some (.named "java.lang.String") := (Session.referent_ofText _ _).trans argMeans
  have refers : ((extendsOuter.standing {}).classOf? super).run = some ⟨0⟩ :=
    (Session.classOf?_ofText superMeans).trans named
  have supplied : ((extendsOuter.standing {}).suppliedTo? (some ⟨1⟩) (.ofClass ⟨0⟩) 0).run =
      some (.type arg) := by
    have given := Resolver.argument?_of_direct (by decide) header refers 0
    rw [args] at given
    exact given
  refine ⟨field.type, stored, inside, stands, ?_, ?_⟩
  · simp only [Resolver.typeOf, inside]
    rw [Session.observe_typeFrom coherent stored, Resolver.typeFrom, Resolver.typeAt_succ, stands]
    simp only [supplied]
    rw [Resolver.argumentType, substitutionLimit, Resolver.typeAt_succ, argStands, bare, argDims,
      dims]
    rfl
  · rw [dims, Session.observe_erasure coherent]
    unfold Resolver.erasure Resolver.erasureBy
    rw [Session.standing_model, unbounded]
    rfl

end JavaDecl
