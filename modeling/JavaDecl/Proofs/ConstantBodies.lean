import JavaDecl.Proofs.AddedUnits
import JavaDecl.Proofs.BegunClasses
import JavaDecl.Proofs.FirstSupertypes

/-!
# Bodies of enumeration constants

The body of an enumeration constant extends its enumeration by the simple name of it.  The name
is looked up inside the body, where it leads outward to the enumeration, unless a type variable
or a class in the body has it as well.  So the body inherits what the enumeration declares.
-/

namespace JavaDecl

namespace Model

variable {model : Model} {body enum : ClassId} {ref : TypeRef}

/-! ### Bodies and their enumerations -/

/-- A class is the body of a constant of an enumeration, which it names as its superclass. -/
structure BodyOf (model : Model) (enum : ClassId) (ref : TypeRef) (body : ClassId) : Prop where
  isBody : (model.classAt body).isConstantBody = true
  around : (model.classAt body).enclosing = some enum
  superclass : (model.classAt body).superclass = some ref
  alone : (model.classAt body).superRefs = [ref]
  named : ref.name = (model.classAt enum).name
  free : (model.classAt body).typeParameters = []
  headed : (model.classAt enum).isConstantBody = false
  simple : IsSimpleName (model.classAt enum).name

/-- A class that is declared as the body of a constant names one superclass. -/
theorem exists_superRefs_of_declares {entity : ClassEntity} {owner name : String} {line : Nat}
    (declares : entity.Declares (ReadM.constantBody owner name line)) :
    ∃ ref, entity.superclass = some ref ∧ entity.superRefs = [ref] ∧ ref.name = owner := by
  have interfaces : entity.interfaces = [] := List.map_eq_nil_iff.mp declares.interfaces
  have extended : entity.superclass.toList.map TypeRef.type = [{ name := owner }] :=
    declares.superclass
  cases found : entity.superclass with
  | none => simp [found] at extended
  | some ref =>
      have written : ref.type = { name := owner } := by simpa [found] using extended
      exact ⟨ref, rfl, by simp [ClassEntity.superRefs, found, interfaces],
        congrArg TypeExpr.name written⟩

/-- An enumeration has not begun as the body of a constant. -/
theorem Begun.headed_of_enumeration {isName : String → Prop} (begun : model.Begun isName enum)
    (enumeration : (model.classAt enum).kind = .enumeration) :
    (model.classAt enum).isConstantBody = false ∧ isName (model.classAt enum).name := by
  cases begun with
  | headed plain named => exact ⟨plain, named⟩
  | body _ _ declares =>
      have ordinary := enumeration.symm.trans declares.kind
      cases ordinary

/-- The bodies of constants in a unit without escapes, and the enumerations around them. -/
theorem IsUnitOf.exists_bodyOf {source : List Char} {unit : UnitId} {earlier : Nat}
    (isUnit : model.IsUnitOf source unit earlier) (linked : model.Linked)
    (unescaped : Text.IsUnescaped source) (inUnit : (model.classAt body).unit = unit)
    (isBody : (model.classAt body).isConstantBody = true)
    (around : (model.classAt body).enclosing = some enum) :
    earlier ≤ body.index ∧ ∃ ref, model.BodyOf enum ref body := by
  obtain ⟨-, start, stop, mirrors, after, all⟩ := isUnit
  have begun := mirrors.begun unescaped
  have inside := inside_of_enclosing around
  have within := all body inside inUnit
  have outer := all enum (Nat.lt_trans (linked.descends body enum around) inside)
    ((linked.around body enum around).symm.trans inUnit)
  refine ⟨Nat.le_trans after within.1, ?_⟩
  cases begun body within with
  | headed plain _ =>
      rw [isBody] at plain
      cases plain
  | @body owner name line enclosing enumeration declares =>
      obtain rfl := Option.some.inj (around.symm.trans enclosing)
      obtain ⟨ref, superclass, alone, named⟩ := exists_superRefs_of_declares declares
      obtain ⟨headed, simple⟩ := (begun enum outer).headed_of_enumeration enumeration
      have free := List.map_eq_nil_iff.mp declares.typeParameters
      exact ⟨ref, isBody, around, superclass, alone, named, free, headed, simple⟩

theorem BodyOf.grown {larger : Model} (bodyOf : model.BodyOf enum ref body)
    (descends : model.Descends) (further : model.Extends larger) :
    larger.BodyOf enum ref body := by
  have inside := inside_of_enclosing bodyOf.around
  have bodyAt := further.classAt_eq inside
  have enumAt := further.classAt_eq
    (Nat.lt_trans (descends body enum bodyOf.around) inside)
  obtain ⟨isBody, around, superclass, alone, named, free, headed, simple⟩ := bodyOf
  rw [← bodyAt] at isBody around superclass alone free
  rw [← enumAt] at named headed simple
  exact ⟨isBody, around, superclass, alone, named, free, headed, simple⟩

/-! ### The name of the enumeration inside a body -/

theorem in_of_mem_outward {id outer : ClassId} {count : Nat}
    (listed : outer ∈ model.outward count id) :
    Relation.ReflTransGen model.DirectlyIn id outer := by
  induction count generalizing id with
  | zero => cases listed
  | succ count ih =>
      rw [outward, List.mem_cons] at listed
      rcases listed with rfl | further
      · exact .refl
      · cases around : (model.classAt id).enclosing with
        | none => simp [around] at further
        | some next =>
            rw [around] at further
            exact .head around (ih further)

/-- Nothing hides an enumeration from one of its bodies: no type parameter of the enumeration or of
a class around it has its name, no class that is declared in the body has it, and no earlier
class has its full name. -/
structure Unhidden (model : Model) (enum body : ClassId) : Prop where
  parameters : ∀ outer, Relation.ReflTransGen model.DirectlyIn enum outer →
    ∀ parameter ∈ (model.classAt outer).typeParameters,
      parameter.name ≠ (model.classAt enum).name
  nested : ∀ inner ∈ (model.classAt body).nested,
    (model.classAt inner).name ≠ (model.classAt enum).name
  earlier : ∀ other : ClassId, other.index < enum.index →
    (model.classAt other).isNamed (model.classAt enum).binaryName = false

theorem parameterNamed?_eq_none {name : String} {id : ClassId}
    (none : ∀ parameter ∈ (model.classAt id).typeParameters, parameter.name ≠ name) :
    model.parameterNamed? name (.ofClass id) = .none := by
  simpa [parameterNamed?, typeParametersOf] using none

namespace BodyOf

variable (bodyOf : model.BodyOf enum ref body) (descends : model.Descends)
  (unhidden : model.Unhidden enum body) (unit : UnitId)

include bodyOf descends

theorem exists_around_eq : ∃ outward,
    model.around { unit, classId := some body } = body :: enum :: outward ∧
      ∀ outer ∈ enum :: outward, Relation.ReflTransGen model.DirectlyIn enum outer := by
  have before := descends body enum bodyOf.around
  obtain ⟨count, same⟩ := Nat.exists_eq_succ_of_ne_zero (Nat.ne_of_gt (Nat.zero_lt_of_lt before))
  have beyond : model.around { unit, classId := some body } =
      body :: model.outward (count + 1) enum := by
    simp [Model.around, outward, bodyOf.around, same]
  have further : ∀ outer ∈ model.outward (count + 1) enum,
      Relation.ReflTransGen model.DirectlyIn enum outer := fun _ => in_of_mem_outward
  exact ⟨_, beyond, further⟩

include unhidden

theorem typeVariable?_eq_none :
    model.typeVariable? ref.name { unit, classId := some body } = none := by
  obtain ⟨outward, around, further⟩ := bodyOf.exists_around_eq descends unit
  rw [typeVariable?, Option.bind_none, Option.none_or, around, List.findSome?_eq_none_iff]
  intro outer listed
  refine parameterNamed?_eq_none fun parameter declared => ?_
  rcases List.mem_cons.mp listed with rfl | above
  · simp [bodyOf.free] at declared
  · rw [bodyOf.named]
    exact unhidden.parameters outer (further outer above) parameter declared

/-- The body does not mean itself, so the name means the enumeration. -/
theorem lexicalMatch?_eq :
    model.lexicalMatch? ref.name { unit, classId := some body } = some enum := by
  obtain ⟨outward, around, -⟩ := bodyOf.exists_around_eq descends unit
  have inBody : model.matchIn? (model.classAt enum).name body = none := by
    simpa [matchIn?, bodyOf.isBody, simplyNamed?] using unhidden.nested
  have inEnum : model.matchIn? (model.classAt enum).name enum = some enum := by
    simp [matchIn?, bodyOf.headed]
  rw [lexicalMatch?, around, bodyOf.named, List.findSome?_cons, inBody, List.findSome?_cons, inEnum]
  rfl

/-- In a body the name of the superclass stands for the enumeration, if that is known. -/
theorem resolveName_eq {knows : String → Bool}
    (known : knows (model.classAt enum).binaryName = true) :
    Id.run (model.resolveName .nestedFirst (fun asked => pure (knows asked)) ref.name
      { unit, classId := some body }) = some (.named (model.classAt enum).binaryName) := by
  have simple : IsSimpleName ref.name := bodyOf.named ▸ bodyOf.simple
  have nearest : model.lexicalCandidates ref.name { unit, classId := some body } =
      [.ifKnown (model.classAt enum).binaryName] := by
    rw [lexicalCandidates, bodyOf.lexicalMatch?_eq descends unhidden unit]
    rfl
  unfold resolveName candidates
  rw [if_neg (by simpa [IsSimpleName] using simple),
    bodyOf.typeVariable?_eq_none descends unhidden unit]
  simp [nearest, firstAdmissible, known]

end BodyOf

end Model

namespace Session

variable {files : FileTree} {before added session : Session} {past : List Resolution}
  {body enum : ClassId} {ref : TypeRef}

/-- The name of the superclass of a body means the enumeration in all later sessions. -/
theorem Later.meaning_eq (later : Later files added session) (run : Run files added past)
    (order : added.project.settings.order = .nestedFirst)
    (bodyOf : added.project.model.BodyOf enum ref body)
    (unhidden : added.project.model.Unhidden enum body)
    (known : added.library.answer files (added.project.model.classAt enum).binaryName = true) :
    session.meaning files ref.name ref.scope =
      some (.named (added.project.model.classAt enum).binaryName) := by
  have coherent := run.faithful.coherent
  have keeps := later.keeps coherent
  have listed : ref ∈ (added.project.model.classAt body).superRefs := by simp [bodyOf.alone]
  have inside := (Model.stores_superRef listed).scope_inside coherent.settled
  have scope : ref.scope =
      { unit := (added.project.model.classAt body).unit, classId := some body } := by
    refine (run.holdsOwn.classAt body).types ref ?_
    simp [ClassEntity.types, bodyOf.superclass]
  rw [meaning, keeps.settings, order, Model.resolveName_eq coherent keeps.model.grown inside, scope]
  exact bodyOf.resolveName_eq run.built.linked.descends unhidden _ (keeps.library _ known)

theorem AddsUnit.run {source : String} {unit : UnitId}
    (adds : before.AddsUnit files source unit added) (run : Run files before past) :
    Run files added past := by
  cases adds with
  | alone _ => exact .change run (.add before source)
  | together _ _ _ => exact .change run (.addAll before _)

/-- The enumeration is found by its full name in all later sessions. -/
theorem Later.isFirstNamed (later : Later files added session)
    (coherent : added.project.model.Coherent)
    (inside : enum.index < added.project.model.classes.size)
    (unhidden : added.project.model.Unhidden enum body) :
    session.project.model.IsFirstNamed (added.project.model.classAt enum).binaryName enum := by
  have further := (later.keeps coherent).model.grown
  refine ⟨Nat.lt_of_lt_of_le inside further.classes.size_le, ?_, fun other _ named => ?_⟩
  · rw [further.classAt_eq inside]
    simp [ClassEntity.isNamed]
  · refine Nat.le_of_not_lt fun earlier => ?_
    rw [further.classAt_eq (Nat.lt_trans earlier inside), unhidden.earlier other earlier] at named
    cases named

/-- A type that stands for a full name stands for the first class that has it. -/
theorem classOf?_of_first (first : session.project.model.NamesFirst) {name : String}
    (stands : (referent ref files session).1 = some (.named name))
    (named : session.project.model.IsFirstNamed name enum) :
    ((session.standing files).classOf? ref).run = some enum := by
  have found : ((session.standing files).referent ref).run = some (.named name) := stands
  unfold Resolver.classOf?
  rw [Id.run_bind, found]
  exact (first name).trans (Model.firstNamed?_eq_some_iff.mpr named)

theorem observe_superclassOf? (coherent : session.project.model.Coherent) (id : ClassId) :
    session.observe files (·.superclassOf? id) =
      ((session.standing files).superclassOf? id).run := by
  refine observe_eq ?_
  unfold Resolver.superclassOf?
  rw [looking_model, standing_model]
  cases extended : (session.project.model.classAt id).superclass with
  | none => exact .pure none
  | some ref =>
      have listed : ref ∈ (session.project.model.classAt id).superRefs := by
        simp [ClassEntity.superRefs, extended]
      exact Yields.classOf? coherent (Model.stores_superRef listed)

/-- In all later sessions the superclass of a body is the enumeration around it. -/
theorem Later.exists_bodyOf (later : Later files added session) (run : Run files before past)
    (order : before.project.settings.order = .nestedFirst) {source : String} {unit : UnitId}
    (adds : before.AddsUnit files source unit added)
    (unescaped : Text.IsUnescaped source.toList)
    (inUnit : (added.project.model.classAt body).unit = unit)
    (isBody : (added.project.model.classAt body).isConstantBody = true)
    (around : (added.project.model.classAt body).enclosing = some enum)
    (unhidden : added.project.model.Unhidden enum body) :
    ∃ past ref, Run files session past ∧ session.project.model.BodyOf enum ref body ∧
      ((session.standing files).classOf? ref).run = some enum := by
  obtain ⟨⟨isUnit, registered⟩, settings⟩ := adds.hasUnit run.built
  have grown := adds.run run
  have coherent := grown.faithful.coherent
  have linked := grown.built.linked
  obtain ⟨new, ref, bodyOf⟩ := isUnit.exists_bodyOf linked unescaped inUnit isBody around
  have inside := Nat.lt_trans (linked.descends body enum around) (Model.inside_of_enclosing around)
  have beside := (linked.around body enum around).symm.trans inUnit
  have known := registered _ (List.mem_map_of_mem
    (((linked.classesInUnit isUnit.known).1.mem_iff enum).mpr ⟨inside, beside⟩))
  have listed : ref ∈ added.project.model.typesAt (.ofClass body) := by
    simp [Model.typesAt, ClassEntity.types, bodyOf.superclass]
  have unseen : ¬ (Holder.ofClass body).Inside before.project.model := Nat.not_lt.mpr new
  obtain ⟨past, further, stands⟩ := later.referent_eq ⟨_, ref, listed, .whole⟩
    (fun _ later => later.meaning_eq grown (settings ▸ order) bodyOf unhidden known) grown
    (run.site_ne_of_new coherent unseen listed)
  exact ⟨past, ref, further, bodyOf.grown linked.descends (later.keeps coherent).model.grown,
    classOf?_of_first further.namesFirst stands (later.isFirstNamed coherent inside unhidden)⟩

end Session

/-- The body of a constant has the enumeration around it as its superclass, whatever is done and
looked up after its unit has been added, and however deep the enumeration is nested.  Each method
of the enumeration that is not private is inherited by the body, unless a method that the body
declares or an earlier one of the enumeration has the same signature as seen from the body. -/
theorem constant_bodies_inherit {files : FileTree} {before added session : Session}
    {past : List Session.Resolution} (run : Session.Run files before past)
    (order : before.project.settings.order = .nestedFirst) {source : String} {unit : UnitId}
    (adds : before.AddsUnit files source unit added)
    (unescaped : Text.IsUnescaped source.toList) {body enum : ClassId}
    (inUnit : (added.project.model.classAt body).unit = unit)
    (isBody : (added.project.model.classAt body).isConstantBody = true)
    (around : (added.project.model.classAt body).enclosing = some enum)
    (unhidden : added.project.model.Unhidden enum body) (later : added.Later files session) :
    session.observe files (·.superclassOf? body) = some enum ∧
      ∀ front method back, (session.project.model.classAt enum).methods = front ++ method :: back →
        (session.project.model.method method).isPrivate = false →
          ∃ member ∈ session.observe files (·.methods body true),
            session.observe files (fun resolver =>
                resolver.signatureKey (resolver.model.method member.id) body) =
              session.observe files (fun resolver =>
                resolver.signatureKey (resolver.model.method method) body) ∧
            (member = { id := method, viewing := body } ∨
              (∃ own ∈ (session.project.model.classAt body).methods, member = { id := own }) ∨
              ∃ earlier ∈ front, member = { id := earlier, viewing := body }) := by
  obtain ⟨past, ref, further, bodyOf, refers⟩ :=
    later.exists_bodyOf run order adds unescaped inUnit isBody around unhidden
  have coherent := further.faithful.coherent
  have nearer := further.built.linked.descends body enum bodyOf.around
  refine ⟨?_, fun front method back methods heritable => ?_⟩
  · rw [Session.observe_superclassOf? coherent]
    unfold Resolver.superclassOf?
    rw [Session.standing_model, bodyOf.superclass]
    exact refers
  · have supertypes : ((session.standing files).supertypesOf body).run = [enum] := by
      unfold Resolver.supertypesOf
      rw [Resolver.run_filterMapM, Session.standing_model, bodyOf.alone]
      simp [refers]
    simp only [Session.observe_signatureKey coherent, Session.observe_methods coherent,
      Resolver.methods_eq_membersBy]
    refine Resolver.exists_member_of_first Resolver.run_methodKey? (Session.inside coherent)
      supertypes ?_ methods heritable
    rintro rfl
    exact Nat.lt_irrefl _ nearer

/-- An enumeration in a body of another, to which a further unit is added. -/
theorem inner_body_inherits :
    let before : Session := { project := {}, library := .ofCore }
    let source := "package p; enum E \x7b A \x7b enum F \x7b B \x7b void g() \x7b\x7d \x7d; " ++
      "void f() \x7b\x7d void g() \x7b\x7d private void h() \x7b\x7d \x7d \x7d \x7d"
    let added := (Session.add source {} before).2
    let session := (Session.build "class F extends p.E \x7b\x7d" {} added).2
    (session.project.model.classAt ⟨2⟩).methods = [⟨1⟩] ++ ⟨2⟩ :: [⟨3⟩] ∧
      (session.project.model.method ⟨2⟩).isPrivate = false ∧
      session.observe {} (·.superclassOf? ⟨3⟩) = some ⟨2⟩ ∧
      ∃ member ∈ session.observe {} (·.methods ⟨3⟩ true),
        session.observe {} (fun resolver =>
            resolver.signatureKey (resolver.model.method member.id) ⟨3⟩) =
          session.observe {} (fun resolver =>
            resolver.signatureKey (resolver.model.method ⟨2⟩) ⟨3⟩) ∧
        (member = { id := ⟨2⟩, viewing := some ⟨3⟩ } ∨
          (∃ own ∈ (session.project.model.classAt ⟨3⟩).methods, member = { id := own }) ∨
          ∃ earlier ∈ [MethodId.mk 1], member = { id := earlier, viewing := some ⟨3⟩ }) := by
  intro before source added session
  obtain ⟨succeeded, free, earlier, nested, inUnit, isBody, around, methods, heritable⟩ :
      (Session.add source {} before).1 = .ok ⟨0⟩ ∧
        (∀ entity ∈ added.project.model.classes, entity.typeParameters.isEmpty = true) ∧
        (∀ index < 2, (added.project.model.classAt ⟨index⟩).isNamed
          (added.project.model.classAt ⟨2⟩).binaryName = false) ∧
        (added.project.model.classAt ⟨3⟩).nested = [] ∧
        (added.project.model.classAt ⟨3⟩).unit = ⟨0⟩ ∧
        (added.project.model.classAt ⟨3⟩).isConstantBody = true ∧
        (added.project.model.classAt ⟨3⟩).enclosing = some ⟨2⟩ ∧
        (session.project.model.classAt ⟨2⟩).methods = [⟨1⟩] ++ ⟨2⟩ :: [⟨3⟩] ∧
        (session.project.model.method ⟨2⟩).isPrivate = false := by
    decide +kernel
  have unhidden : added.project.model.Unhidden ⟨2⟩ ⟨3⟩ := by
    constructor
    · intro outer _ parameter declared
      have inside : outer.index < added.project.model.classes.size :=
        Model.index_lt_of_classAt fun absent => by
          rw [absent] at declared
          cases declared
      have none := free _ (Array.getElem_mem inside)
      rw [← Model.classAt_eq_getElem inside] at none
      simp [List.isEmpty_iff.mp none] at declared
    · simp [nested]
    · exact fun other => earlier other.index
  have later : added.Later {} session := .change .same (.build added _)
  obtain ⟨superclass, inherits⟩ := constant_bodies_inherit (.start {} .ofCore) rfl
    (.alone succeeded) (.of_notMem (by decide +kernel)) inUnit isBody around unhidden later
  exact ⟨methods, heritable, superclass, inherits _ _ _ methods heritable⟩

end JavaDecl
