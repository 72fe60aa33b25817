import JavaDecl.Proofs.AddedUnits
import JavaDecl.Proofs.ClassNames
import JavaDecl.Proofs.DeclaredEntities
import JavaDecl.Proofs.GenericOverrides
import JavaDecl.Proofs.InterfaceTexts

/-!
# Hierarchies of many interfaces

An interface that extends any number of others, and behind them one that gives an argument to a
type parameter.  If there are so many others that a search ends before it gets to that one, then
the argument is not found, and a method is not recognised as overridden.
-/

namespace JavaDecl

/-! ### Adding interfaces -/

namespace InterfaceText

variable {unit : InterfaceText}

def fullName (unit : InterfaceText) : String :=
  ((unit.package.map (· ++ ".")).getD "") ++ unit.name

/-- A class that has come from the text of an interface. -/
structure Describes (unit : InterfaceText) (entity : ClassEntity) : Prop where
  supertypes : entity.superRefs.map TypeRef.name = unit.extended
  named : ∀ name, entity.isNamed name = true ↔ name = unit.fullName

/-- The model with the unit of the interface, in front of the interface. -/
def packageIn (unit : InterfaceText) (model : Model) : Model :=
  match unit.package with
  | some name => (model.pushUnit {}).modifyUnit ⟨model.units.size⟩ fun entity =>
      { entity with package := some { name, uses := [], comment := none, line := 1 } }
  | none => model.pushUnit {}

theorem packageName_packageIn (unit : InterfaceText) (model : Model) :
    ((unit.packageIn model).unit ⟨model.units.size⟩).packageName = unit.package := by
  unfold packageIn
  cases unit.package <;>
    simp [Model.unit, Model.pushUnit, Model.modifyUnit, UnitEntity.packageName,
      Array.getElem_modify]

theorem exists_addUnit (unit : InterfaceText) (model : Model) :
    ∃ entity grown id, unit.Describes entity ∧ model.addUnit unit.events = (grown, .ok id) ∧
      grown.classes = model.classes.push entity := by
  let before : Assembly := { model := unit.packageIn model, unit := ⟨model.units.size⟩ }
  let entity := before.classEntity unit.declared none [] []
  have supertypes : entity.superRefs.map TypeRef.name = unit.extended := by
    have types : entity.superRefs.map TypeRef.type = unit.declared.extending ++ [] :=
      Assembly.map_type_refsAt _ _ RefRole.interface (unit.declared.extending ++ [])
    rw [List.append_nil, declared] at types
    have named := congrArg (List.map TypeExpr.name) types
    rw [List.map_map, List.map_map] at named
    exact named.trans (List.map_id _)
  have names : entity.binaryName = unit.fullName ∧ entity.canonicalName = unit.fullName := by
    have package : (before.model.unit before.unit).packageName = unit.package :=
      packageName_packageIn unit model
    simp only [entity, Assembly.classEntity, package]
    exact ⟨rfl, rfl⟩
  have named (name : String) : entity.isNamed name = true ↔ name = unit.fullName := by
    simp only [ClassEntity.isNamed, names, Bool.or_self, beq_iff_eq]
    exact eq_comm
  have grows : ∃ grown id, model.addUnit unit.events = (grown, .ok id) ∧
      grown.classes = model.classes.push entity := by
    unfold Model.addUnit events packageEvents
    simp only [entity, before, packageIn]
    cases unit.package <;> exact ⟨_, _, rfl, rfl⟩
  obtain ⟨grown, id, added, classes⟩ := grows
  exact ⟨entity, grown, id, ⟨supertypes, named⟩, added, classes⟩

theorem IsPlain.exists_addSource (plain : unit.IsPlain) (model : Model) :
    ∃ entity, unit.Describes entity ∧
      (model.addSource unit.phrase.text.toList).1.classes = model.classes.push entity := by
  obtain ⟨entity, grown, id, describes, added, classes⟩ := unit.exists_addUnit model
  refine ⟨entity, describes, ?_⟩
  unfold Model.addSource
  rw [plain.readUnit_eq]
  dsimp only
  rw [added]
  exact classes

end InterfaceText

namespace Session

/-- A session after the texts of some interfaces have been built. -/
def buildEach (units : List InterfaceText) (session : Session) : Session :=
  units.foldl (fun session unit => (build unit.phrase.text {} session).2) session

theorem run_buildEach {session : Session} (units : List InterfaceText)
    (run : Run {} session []) : Run {} (session.buildEach units) [] :=
  List.foldlRecOn (motive := fun session => Run {} session []) _ _ run
    fun session run unit _ => .change run (.build session unit.phrase.text)

/-- The classes of the interfaces come behind the others. -/
theorem exists_buildEach {units : List InterfaceText} (plain : ∀ unit ∈ units, unit.IsPlain)
    (session : Session) :
    ∃ entities, List.Forall₂ InterfaceText.Describes units entities ∧
      (session.buildEach units).project.model.classes =
        session.project.model.classes ++ entities.toArray := by
  induction units generalizing session with
  | nil => exact ⟨[], .nil, by simp [buildEach]⟩
  | cons unit rest ih =>
      obtain ⟨here, others⟩ := List.forall_mem_cons.mp plain
      obtain ⟨entity, describes, classes⟩ := here.exists_addSource session.project.model
      obtain ⟨entities, further, all⟩ := ih others (build unit.phrase.text {} session).2
      refine ⟨entity :: entities, .cons describes further, ?_⟩
      have built : (build unit.phrase.text {} session).2.project.model.classes =
          session.project.model.classes.push entity := classes
      rw [built] at all
      rw [buildEach, List.foldl_cons, ← buildEach, all]
      simp

theorem size_buildEach {units : List InterfaceText} (plain : ∀ unit ∈ units, unit.IsPlain)
    (session : Session) :
    (session.buildEach units).project.model.classes.size =
      session.project.model.classes.size + units.length := by
  obtain ⟨entities, describes, classes⟩ := exists_buildEach plain session
  rw [classes, describes.length_eq]
  simp

theorem describes_buildEach {units : List InterfaceText} (plain : ∀ unit ∈ units, unit.IsPlain)
    (session : Session) {number : Nat} {unit : InterfaceText}
    (listed : units[number]? = some unit) :
    unit.Describes ((session.buildEach units).project.model.classAt
      ⟨session.project.model.classes.size + number⟩) := by
  obtain ⟨entities, describes, classes⟩ := exists_buildEach plain session
  obtain ⟨within, rfl⟩ := List.getElem?_eq_some_iff.mp listed
  have known : number < entities.length := describes.length_eq ▸ within
  have found : (session.buildEach units).project.model.classAt
      ⟨session.project.model.classes.size + number⟩ = entities[number] := by
    rw [Model.classAt, classes, Array.getD_eq_getD_getElem?,
      Array.getElem?_append_right (Nat.le_add_right _ _)]
    simp [known]
  rw [found]
  exact List.Forall₂.get describes within known

theorem later_buildEach (units : List InterfaceText) (session : Session) :
    Later {} session (session.buildEach units) :=
  List.foldlRecOn (motive := Later {} session) _ _ .same
    fun session later unit _ => .change later (.build session unit.phrase.text)

end Session

/-! ### A crowd -/

/-- An interface with a method whose parameter has a type variable, and one that overrides the
method with a class in its place. -/
def overridingInterfaces : Session :=
  (Session.build ("package p; interface A<T> \x7b void m(T x); \x7d " ++
      "interface B extends p.A<java.lang.String> \x7b void m(java.lang.String x); \x7d") {}
    { project := {}, library := .ofCore }).2

/-- An interface that has nothing to do with either. -/
def bystander (number : Nat) : InterfaceText where
  package := some "p"
  name := "N" ++ number.repr

def bystanders (count : Nat) : List InterfaceText :=
  (List.range count).map bystander

/-- An interface that extends many others and then the one that overrides the method. -/
def lowest (count : Nat) : InterfaceText where
  name := "R"
  extended := (bystanders count).map InterfaceText.fullName ++ ["p.B"]

def crowded (count : Nat) : Session :=
  overridingInterfaces.buildEach (bystanders count ++ [lowest count])

theorem length_bystanders (count : Nat) : (bystanders count).length = count := by
  simp [bystanders]

theorem getElem?_bystanders {count number : Nat} (among : number < count) :
    (bystanders count)[number]? = some (bystander number) := by
  simp [bystanders, among]

theorem isPlainWord_bystander (number : Nat) : IsPlainWord (bystander number).name.toList := by
  have letters : (bystander number).name.toList = 'N' :: Nat.toDigits 10 number := by
    simp [bystander]
  rw [letters]
  constructor
  · simp only [Lexeme.isWord, Bool.and_eq_true, List.all_eq_true]
    refine ⟨by decide, fun digit listed => ?_⟩
    simp [Lexeme.continuesWord, Nat.isDigit_of_mem_toDigits (by decide) (by decide) listed]
  · unfold Keyword.ofSpelling?
    rw [List.find?_eq_none]
    intro keyword _ same
    have start : keyword.spelling.toList.head? ≠ some 'N' := by cases keyword <;> decide
    rw [beq_iff_eq.mp same, String.toList_ofList] at start
    exact start rfl

theorem toList_fullName_bystander (number : Nat) :
    (bystander number).fullName.toList = ['p', '.'] ++ (bystander number).name.toList := by
  simp [bystander, InterfaceText.fullName]

theorem isPlainName_bystander (number : Nat) : IsPlainName (bystander number).fullName := by
  refine ⟨[['p'], (bystander number).name.toList], by simp, ?_,
    by simp [toList_fullName_bystander]⟩
  simp only [List.forall_mem_cons]
  exact ⟨by decide, isPlainWord_bystander number, by simp⟩

theorem isPlain_crowd (count : Nat) : ∀ unit ∈ bystanders count ++ [lowest count],
    unit.IsPlain := by
  rw [List.forall_mem_append, List.forall_mem_singleton, bystanders, List.forall_mem_map]
  constructor
  · intro number _
    refine ⟨?_, isPlainWord_bystander number, by simp [bystander]⟩
    rintro _ ⟨⟩
    decide
  · refine ⟨by simp [lowest], (by decide : IsPlainWord "R".toList), ?_⟩
    rw [lowest, List.forall_mem_append, List.forall_mem_singleton, List.forall_mem_map, bystanders,
      List.forall_mem_map]
    exact ⟨fun number _ => isPlainName_bystander number, by decide⟩

def crowdedNames (count : Nat) : List String :=
  ["p.A", "p.B"] ++ (bystanders count).map InterfaceText.fullName ++ ["R"]

theorem nodup_crowdedNames (count : Nat) : (crowdedNames count).Nodup := by
  have third (number : Nat) : (bystander number).fullName.toList[2]? = some 'N' := by
    rw [toList_fullName_bystander]
    simp [bystander]
  have injective : Function.Injective (InterfaceText.fullName ∘ bystander) := by
    intro number other same
    have letters := congrArg String.toList same
    simp only [Function.comp_apply, toList_fullName_bystander] at letters
    have digits : Nat.toDigits 10 number = Nat.toDigits 10 other := by
      simpa [bystander] using letters
    have value := congrArg (Nat.ofDigitChars 10 · 0) digits
    simpa using value
  have row : ((bystanders count).map InterfaceText.fullName).Nodup := by
    rw [bystanders, List.map_map]
    exact List.nodup_range.map injective
  have apart {name : String} (other : name.toList[2]? ≠ some 'N') :
      ∀ another ∈ (bystanders count).map InterfaceText.fullName, name ≠ another := by
    rw [List.forall_mem_map, bystanders, List.forall_mem_map]
    rintro number _ rfl
    exact other (third number)
  have front : ∀ name ∈ ["p.A", "p.B"],
      ∀ another ∈ (bystanders count).map InterfaceText.fullName, name ≠ another := by
    simp only [List.forall_mem_cons]
    exact ⟨apart (by decide), apart (by decide), by simp⟩
  refine List.nodup_append.mpr ⟨List.nodup_append.mpr ⟨by decide, row, front⟩, by simp, ?_⟩
  simp only [List.forall_mem_append, List.forall_mem_singleton]
  exact ⟨by decide, fun another listed => (apart (by decide) another listed).symm⟩

theorem size_overridingInterfaces : overridingInterfaces.project.model.classes.size = 2 := by
  decide +kernel

theorem size_methods_overridingInterfaces :
    overridingInterfaces.project.model.methods.size = 2 := by
  decide +kernel

theorem describes_crowded {count number : Nat} {unit : InterfaceText}
    (listed : (bystanders count ++ [lowest count])[number]? = some unit) :
    unit.Describes ((crowded count).project.model.classAt ⟨2 + number⟩) := by
  have describes := Session.describes_buildEach (isPlain_crowd count) overridingInterfaces listed
  rwa [size_overridingInterfaces] at describes

theorem size_crowded (count : Nat) :
    (crowded count).project.model.classes.size = 2 + count + 1 := by
  have size := Session.size_buildEach (isPlain_crowd count) overridingInterfaces
  rw [size_overridingInterfaces] at size
  rw [crowded, size]
  simp [length_bystanders, Nat.add_assoc]

theorem overridingInterfaces_names :
    (∀ name, (overridingInterfaces.project.model.classAt ⟨0⟩).isNamed name = true ↔
        name = "p.A") ∧
      ∀ name, (overridingInterfaces.project.model.classAt ⟨1⟩).isNamed name = true ↔
        name = "p.B" := by
  have facts : ((overridingInterfaces.project.model.classAt ⟨0⟩).binaryName = "p.A" ∧
      (overridingInterfaces.project.model.classAt ⟨0⟩).canonicalName = "p.A") ∧
      (overridingInterfaces.project.model.classAt ⟨1⟩).binaryName = "p.B" ∧
      (overridingInterfaces.project.model.classAt ⟨1⟩).canonicalName = "p.B" := by
    decide +kernel
  obtain ⟨first, second⟩ := facts
  constructor <;> intro name
  · simp only [ClassEntity.isNamed, first, Bool.or_self, beq_iff_eq]
    exact eq_comm
  · simp only [ClassEntity.isNamed, second, Bool.or_self, beq_iff_eq]
    exact eq_comm

theorem overridingInterfaces_headers : ∃ super arg,
    (overridingInterfaces.project.model.classAt ⟨0⟩).superRefs = [] ∧
      (overridingInterfaces.project.model.classAt ⟨1⟩).superRefs = [super] ∧
      super.name = "p.A" ∧ super.args = [.type arg] ∧
      arg.type = { name := "java.lang.String" } := by
  have facts : (overridingInterfaces.project.model.classAt ⟨0⟩).superRefs.length = 0 ∧
      ((overridingInterfaces.project.model.classAt ⟨1⟩).superRefs.map fun ref =>
        (ref.name, ref.args.map fun
          | .type part => some (overridingInterfaces.spelling {} part)
          | _ => none)) =
        [("p.A", [some ⟨some (.named "java.lang.String"), "java.lang.String", 0, 0⟩])] := by
    decide +kernel
  obtain ⟨bottom, header⟩ := facts
  obtain ⟨super, extended, header⟩ := List.map_eq_singleton_iff.mp header
  obtain ⟨named, superArgs⟩ := Prod.mk.inj header
  obtain ⟨argument, args, shape⟩ := List.map_eq_singleton_iff.mp superArgs
  cases argument with
  | unbounded => cases shape
  | extending bound => cases shape
  | above bound => cases shape
  | type arg =>
      exact ⟨super, arg, List.eq_nil_of_length_eq_zero bottom, extended, named, args,
        (Session.spelling_eq (Option.some.inj shape)).2⟩

theorem overridingInterfaces_methods : ∃ parameter own,
    (overridingInterfaces.project.model.classAt ⟨0⟩).methods = [⟨0⟩] ∧
      (overridingInterfaces.project.model.classAt ⟨1⟩).methods = [⟨1⟩] ∧
      (overridingInterfaces.project.model.method ⟨0⟩).isPrivate = false ∧
      (overridingInterfaces.project.model.method ⟨1⟩).isPrivate = false ∧
      (overridingInterfaces.project.model.method ⟨0⟩).name = "m" ∧
      (overridingInterfaces.project.model.method ⟨1⟩).name = "m" ∧
      (overridingInterfaces.project.model.method ⟨1⟩).typeParameters = [] ∧
      (overridingInterfaces.project.model.method ⟨0⟩).parameters = [parameter] ∧
      (overridingInterfaces.project.model.method ⟨1⟩).parameters = [own] ∧
      parameter.type.type = { name := "T" } ∧
      overridingInterfaces.project.model.typeVariable? "T" parameter.type.scope =
        some (.variable (.ofClass ⟨0⟩) 0) ∧
      own.type.type = { name := "java.lang.String" } := by
  have facts : (overridingInterfaces.project.model.classAt ⟨0⟩).methods = [⟨0⟩] ∧
      (overridingInterfaces.project.model.classAt ⟨1⟩).methods = [⟨1⟩] ∧
      (overridingInterfaces.project.model.method ⟨0⟩).isPrivate = false ∧
      (overridingInterfaces.project.model.method ⟨1⟩).isPrivate = false ∧
      (overridingInterfaces.project.model.method ⟨0⟩).name = "m" ∧
      (overridingInterfaces.project.model.method ⟨1⟩).name = "m" ∧
      (overridingInterfaces.project.model.method ⟨1⟩).typeParameters.length = 0 ∧
      ((overridingInterfaces.project.model.method ⟨0⟩).parameters.map fun parameter =>
        (overridingInterfaces.spelling {} parameter.type,
          overridingInterfaces.project.model.typeVariable? "T" parameter.type.scope)) =
        [(⟨some (.variable (.ofClass ⟨0⟩) 0), "T", 0, 0⟩,
          some (.variable (.ofClass ⟨0⟩) 0))] ∧
      ((overridingInterfaces.project.model.method ⟨1⟩).parameters.map fun parameter =>
        overridingInterfaces.spelling {} parameter.type) =
        [⟨some (.named "java.lang.String"), "java.lang.String", 0, 0⟩] := by
    decide +kernel
  obtain ⟨first, second, isOpen, ownOpen, name, ownName, bare, takes, ownTakes⟩ := facts
  obtain ⟨parameter, parameters, spelled⟩ := List.map_eq_singleton_iff.mp takes
  obtain ⟨own, ownParameters, ownSpelled⟩ := List.map_eq_singleton_iff.mp ownTakes
  obtain ⟨written, isVariable⟩ := Prod.mk.inj spelled
  exact ⟨parameter, own, first, second, isOpen, ownOpen, name, ownName,
    List.eq_nil_of_length_eq_zero bare, parameters, ownParameters, (Session.spelling_eq written).2,
    isVariable, (Session.spelling_eq ownSpelled).2⟩

theorem run_overridingInterfaces : Session.Run {} overridingInterfaces [] :=
  .change (.start {} .ofCore) (.build _ _)

theorem run_crowded (count : Nat) : Session.Run {} (crowded count) [] :=
  Session.run_buildEach _ run_overridingInterfaces

theorem extends_crowded (count : Nat) :
    overridingInterfaces.project.model.Extends (crowded count).project.model :=
  ((Session.later_buildEach _ _).keeps run_overridingInterfaces.faithful.coherent).model.grown

/-! ### Names in a crowd -/

section Crowded

variable {count : Nat}

theorem classAt_crowded {id : ClassId} (first : id.index < 2) :
    (crowded count).project.model.classAt id = overridingInterfaces.project.model.classAt id :=
  (extends_crowded count).classAt_eq (size_overridingInterfaces ▸ first)

theorem isNamed_crowded {index : Nat} {name : String}
    (found : (crowdedNames count)[index]? = some name) (other : String) :
    ((crowded count).project.model.classAt ⟨index⟩).isNamed other = true ↔ other = name := by
  match index, found with
  | 0, found =>
      cases found
      rw [classAt_crowded (by decide)]
      exact overridingInterfaces_names.1 other
  | 1, found =>
      cases found
      rw [classAt_crowded (by decide)]
      exact overridingInterfaces_names.2 other
  | number + 2, found =>
      have further : ((bystanders count ++ [lowest count]).map InterfaceText.fullName)[number]? =
          some name := by
        rw [List.map_append]
        exact found
      rw [List.getElem?_map] at further
      obtain ⟨unit, listed, rfl⟩ := Option.map_eq_some_iff.mp further
      have describes := describes_crowded listed
      rw [Nat.add_comm 2 number] at describes
      exact describes.named other

theorem firstNamed?_crowded {index : Nat} {name : String}
    (found : (crowdedNames count)[index]? = some name) :
    (crowded count).project.model.firstNamed? name = some ⟨index⟩ := by
  have size : (crowded count).project.model.classes.size = (crowdedNames count).length := by
    rw [size_crowded]
    simp [crowdedNames, length_bystanders]
    omega
  obtain ⟨inside, same⟩ := List.getElem?_eq_some_iff.mp found
  refine Model.firstNamed?_eq_some_iff.mpr ⟨size ▸ inside, (isNamed_crowded found name).mpr rfl, ?_⟩
  intro ⟨place⟩ known another
  have within : place < (crowdedNames count).length := size ▸ known
  have shared := (isNamed_crowded (List.getElem?_eq_getElem within) name).mp another
  exact Nat.le_of_eq ((nodup_crowdedNames count).getElem_inj_iff.mp (same.trans shared))

theorem Session.meaning_of_dotted {session : Session} {name : String}
    (dotted : '.' ∈ name.toList) (scope : Scope) :
    session.meaning {} name scope = some (.named name) := by
  simp [meaning, Model.resolveName, dotted]

theorem Session.meaning_of_variable {session : Session} {name : String} {scope : Scope}
    {found : Referent} (simple : (isPrimitiveName name || name.toList.contains '.') = false)
    (names : session.project.model.typeVariable? name scope = some found) :
    session.meaning {} name scope = some found := by
  unfold meaning Model.resolveName
  rw [simple, names]
  rfl

/-- The supertypes of a class, by the names in its header. -/
theorem supertypesOf_crowded (id : ClassId)
    (dotted : ∀ ref ∈ ((crowded count).project.model.classAt id).superRefs,
      '.' ∈ ref.name.toList) :
    (crowded count).observe {} (·.supertypesOf id) =
      (((crowded count).project.model.classAt id).superRefs.map TypeRef.name).filterMap
        (crowded count).project.model.firstNamed? := by
  have run := run_crowded count
  rw [Session.observe_supertypesOf run.faithful.coherent,
    Session.supertypesOf_of_forgotten {} run.namesFirst run.forgotten, List.filterMap_map]
  refine List.filterMap_congr fun ref listed => ?_
  unfold Session.meant?
  rw [Session.meaning_of_dotted (dotted ref listed)]
  rfl

theorem supertypesOf_upper : (crowded count).observe {} (·.supertypesOf ⟨0⟩) = [] := by
  obtain ⟨super, arg, none, -⟩ := overridingInterfaces_headers
  have bare : ((crowded count).project.model.classAt ⟨0⟩).superRefs = [] := by
    rw [classAt_crowded (by decide), none]
  rw [supertypesOf_crowded ⟨0⟩ (by simp [bare]), bare]
  rfl

theorem supertypesOf_overriding :
    (crowded count).observe {} (·.supertypesOf ⟨1⟩) = [⟨0⟩] := by
  obtain ⟨super, arg, -, extended, named, -⟩ := overridingInterfaces_headers
  have single : ((crowded count).project.model.classAt ⟨1⟩).superRefs = [super] := by
    rw [classAt_crowded (by decide), extended]
  rw [supertypesOf_crowded ⟨1⟩ (by simp [single, named]), single, List.map_singleton, named]
  have found : (crowded count).project.model.firstNamed? "p.A" = some ⟨0⟩ :=
    firstNamed?_crowded rfl
  simp [found]

theorem supertypesOf_bystander {number : Nat} (among : number < count) :
    (crowded count).observe {} (·.supertypesOf ⟨2 + number⟩) = [] := by
  have listed : (bystanders count ++ [lowest count])[number]? = some (bystander number) := by
    rw [List.getElem?_append_left (by rwa [length_bystanders]), getElem?_bystanders among]
  have supertypes := (describes_crowded listed).supertypes
  have bare := List.map_eq_nil_iff.mp supertypes
  rw [supertypesOf_crowded _ (by simp [bare]), bare]
  rfl

def bystanderIds (count : Nat) : List ClassId :=
  (List.range count).map fun number => ⟨2 + number⟩

theorem supertypesOf_lowest :
    (crowded count).observe {} (·.supertypesOf ⟨2 + count⟩) = bystanderIds count ++ [⟨1⟩] := by
  have listed : (bystanders count ++ [lowest count])[count]? = some (lowest count) := by
    simp [length_bystanders]
  have supertypes := (describes_crowded listed).supertypes
  have dotted : ∀ name ∈ (lowest count).extended, '.' ∈ name.toList := by
    rw [lowest, List.forall_mem_append, List.forall_mem_singleton, List.forall_mem_map, bystanders,
      List.forall_mem_map]
    exact ⟨fun number _ => by simp [toList_fullName_bystander], by decide⟩
  rw [← supertypes, List.forall_mem_map] at dotted
  rw [supertypesOf_crowded _ dotted, supertypes, lowest, List.filterMap_append, bystanders,
    List.map_map, List.filterMap_map, bystanderIds, ← List.filterMap_eq_map]
  have last : (crowded count).project.model.firstNamed? "p.B" = some ⟨1⟩ :=
    firstNamed?_crowded rfl
  refine congrArg₂ _ (List.filterMap_congr fun number among => ?_) (by simp [last])
  have inside := List.mem_range.mp among
  have found : (crowdedNames count)[number + 2]? = some (bystander number).fullName := by
    have listed := getElem?_bystanders inside
    have row : ((bystanders count).map InterfaceText.fullName ++ ["R"])[number]? =
        some (bystander number).fullName := by
      rw [List.getElem?_append_left (by simpa [length_bystanders]), List.getElem?_map, listed]
      rfl
    exact row
  have named := firstNamed?_crowded found
  rwa [Nat.add_comm number 2] at named

end Crowded

/-! ### A search that ends too early -/

/-- Classes without supertypes are met one after the other. -/
theorem DepthFirst.of_topmost {next : ClassId → List ClassId} {ids met pending order : List ClassId}
    (distinct : ids.Nodup) (fresh : ∀ id ∈ ids, id ∉ met) (topmost : ∀ id ∈ ids, next id = [])
    (rest : DepthFirst next (ids.reverse ++ met) pending order) :
    DepthFirst next met (ids ++ pending) (ids ++ order) := by
  induction ids generalizing met with
  | nil => exact rest
  | cons id ids ih =>
      obtain ⟨single, distinct⟩ := List.nodup_cons.mp distinct
      obtain ⟨new, fresh⟩ := List.forall_mem_cons.mp fresh
      obtain ⟨bare, topmost⟩ := List.forall_mem_cons.mp topmost
      refine .first new ?_
      rw [bare, List.nil_append]
      refine ih distinct (fun other listed => ?_) topmost (by simpa using rest)
      rw [List.mem_cons, not_or]
      exact ⟨fun same => single (same ▸ listed), fresh other listed⟩

section Crowded

variable {count : Nat}

/-- The bystanders are met before the class that overrides the method. -/
def crowdedOrder (count : Nat) : List ClassId :=
  (⟨2 + count⟩ :: bystanderIds count) ++ [⟨1⟩, ⟨0⟩]

theorem mem_bystanderIds {id : ClassId} :
    id ∈ bystanderIds count ↔ ∃ number < count, ⟨2 + number⟩ = id := by
  simp [bystanderIds]

theorem not_mem_bystanderIds {index : Nat} (outside : index < 2 ∨ 2 + count ≤ index) :
    (⟨index⟩ : ClassId) ∉ bystanderIds count := by
  rw [mem_bystanderIds]
  rintro ⟨number, among, same⟩
  have place := congrArg ClassId.index same
  dsimp only at place
  omega

theorem walk_crowded (count : Nat) :
    DepthFirst (fun id => (crowded count).observe {} (·.supertypesOf id)) [] [⟨2 + count⟩]
      (crowdedOrder count) := by
  have distinct : (bystanderIds count).Nodup := by
    refine List.nodup_range.map fun number other same => ?_
    simpa using same
  have topmost : ∀ id ∈ bystanderIds count,
      (crowded count).observe {} (·.supertypesOf id) = [] := by
    intro id listed
    obtain ⟨number, among, rfl⟩ := mem_bystanderIds.mp listed
    exact supertypesOf_bystander among
  have new {index : Nat} (outside : index < 2) {met : List ClassId}
      (fresh : (⟨index⟩ : ClassId) ∉ met) :
      ⟨index⟩ ∉ (bystanderIds count).reverse ++ (⟨2 + count⟩ :: met) := by
    simp only [List.mem_append, List.mem_reverse, List.mem_cons, ClassId.mk.injEq, not_or]
    exact ⟨not_mem_bystanderIds (.inl outside), by omega, fresh⟩
  refine .first (by simp) ?_
  rw [supertypesOf_lowest, List.append_nil]
  refine .of_topmost distinct ?_ topmost (.first (new (by decide) (by simp)) ?_)
  · intro id listed
    rw [List.mem_singleton]
    rintro rfl
    exact not_mem_bystanderIds (.inr (Nat.le_refl _)) listed
  · rw [supertypesOf_overriding, List.append_nil]
    refine .first ?_ ?_
    · rw [List.mem_cons, not_or]
      exact ⟨by decide, new (by decide) (by simp)⟩
    · rw [supertypesOf_upper]
      exact .done _

/-- One class refers to the one with the type variable. -/
theorem eq_of_mem_supertypesOf_crowded {id : ClassId} (met : id ∈ crowdedOrder count)
    (refers : ⟨0⟩ ∈ (crowded count).observe {} (·.supertypesOf id)) : id = ⟨1⟩ := by
  simp only [crowdedOrder, List.cons_append, List.mem_cons, List.mem_append, List.not_mem_nil,
    or_false] at met
  rcases met with rfl | bystander | rfl | rfl
  · rw [supertypesOf_lowest, List.mem_append, List.mem_singleton] at refers
    rcases refers with bystander | same
    · exact absurd bystander (not_mem_bystanderIds (.inl (by decide)))
    · exact absurd same (by decide)
  · obtain ⟨number, among, rfl⟩ := mem_bystanderIds.mp bystander
    rw [supertypesOf_bystander among] at refers
    cases refers
  · rfl
  · rw [supertypesOf_upper] at refers
    cases refers

/-- The search for what stands for the type variable ends among the bystanders. -/
theorem argument?_crowded (enough : hierarchyLimit ≤ count + 1) :
    (((crowded count).standing {}).argument? ⟨2 + count⟩ ⟨0⟩ 0).run = none := by
  have coherent := (run_crowded count).faithful.coherent
  have walk := walk_crowded count
  simp only [Session.observe_supertypesOf coherent] at walk
  refine Resolver.argument?_of_unmet (by simp) (Session.inside coherent) walk fun id met => ?_
  have front : id ∈ ⟨2 + count⟩ :: bystanderIds count := by
    have taken : (crowdedOrder count).take (count + 1) = ⟨2 + count⟩ :: bystanderIds count :=
      List.take_left' (by simp [bystanderIds])
    rw [← taken]
    exact List.take_subset_take_left _ enough met
  refine Bool.eq_false_of_not_eq_true fun refers => ?_
  obtain ⟨ref, listed, stands⟩ := List.any_eq_true.mp refers
  have direct := Resolver.mem_supertypesOf.mpr ⟨ref, listed, beq_iff_eq.mp stands⟩
  rw [← Session.observe_supertypesOf coherent] at direct
  have same := eq_of_mem_supertypesOf_crowded (List.mem_append_left _ front) direct
  rw [same, List.mem_cons] at front
  rcases front with first | bystander
  · have place := congrArg ClassId.index first
    dsimp only at place
    omega
  · exact not_mem_bystanderIds (.inl (by decide)) bystander

theorem method_crowded {id : MethodId} (first : id.index < 2) :
    (crowded count).project.model.method id = overridingInterfaces.project.model.method id :=
  (extends_crowded count).method_eq (size_methods_overridingInterfaces ▸ first)

/-- What the types of the parameters are written as, and what they mean. -/
theorem crowded_parameters (count : Nat) : ∃ parameter own,
    ((crowded count).project.model.method ⟨0⟩).parameters = [parameter] ∧
      ((crowded count).project.model.method ⟨1⟩).parameters = [own] ∧
      parameter.type.type = { name := "T" } ∧ own.type.type = { name := "java.lang.String" } ∧
      (((crowded count).standing {}).referent parameter.type).run =
        some (.variable (.ofClass ⟨0⟩) 0) ∧
      (((crowded count).standing {}).referent own.type).run =
        some (.named "java.lang.String") := by
  obtain ⟨parameter, own, -, -, -, -, -, -, -, takes, ownTakes, written, isVariable, ownWritten⟩ :=
    overridingInterfaces_methods
  have coherent := run_overridingInterfaces.faithful.coherent
  have forgotten := (run_crowded count).forgotten
  have stored : overridingInterfaces.project.model.Stores parameter.type :=
    Model.stores_parameter (by rw [takes]; exact List.mem_singleton_self _)
  have named : parameter.type.name = "T" := congrArg TypeExpr.name written
  have ownNamed : own.type.name = "java.lang.String" := congrArg TypeExpr.name ownWritten
  refine ⟨parameter, own, ?_, ?_, written, ownWritten, ?_, ?_⟩
  · rw [method_crowded (by decide), takes]
  · rw [method_crowded (by decide), ownTakes]
  · rw [Session.stands_of_forgotten {} forgotten, named]
    refine Session.meaning_of_variable (by decide) ?_
    rw [Model.typeVariable?_eq coherent (extends_crowded count)
      (stored.scope_inside coherent.settled), isVariable]
  · rw [Session.stands_of_forgotten {} forgotten, ownNamed]
    exact Session.meaning_of_dotted (by decide) _

theorem Resolver.signatureKey_of_single {resolver : Resolver Id} {method : MethodEntity}
    {viewing : ClassId} {parameter : ParameterEntity} {type : ResolvedType}
    (takes : method.parameters = [parameter])
    (seen : (resolver.typeFrom (some viewing) parameter.type).run = type) :
    (resolver.signatureKey method viewing).run =
      method.name ++ "(" ++ ",".intercalate [type.erased.erasedText] ++ ")" := by
  unfold signatureKey
  rw [Id.run_bind, List.idRun_mapM, takes, List.map_singleton, seen]
  rfl

section Enough

variable (enough : hierarchyLimit ≤ count + 1)

include enough

/-- The parameters have types of different classes as seen from the lowest class. -/
theorem crowded_types : ∃ parameter own,
    ((crowded count).project.model.method ⟨0⟩).parameters = [parameter] ∧
      ((crowded count).project.model.method ⟨1⟩).parameters = [own] ∧
      ((crowded count).standing {}).typeWithin? (substitutionLimit + 1) (some ⟨2 + count⟩)
        parameter.type = some .object ∧
      ((crowded count).standing {}).typeWithin? (substitutionLimit + 1) (some ⟨2 + count⟩)
        own.type = some (.named "java.lang.String" true 0 []) := by
  obtain ⟨parameter, own, takes, ownTakes, written, ownWritten, stands, ownStands⟩ :=
    crowded_parameters count
  have unbounded : ((crowded count).project.model.typeParameter? (.ofClass ⟨0⟩) 0).bind
      (·.bounds.head?) = none := by
    have bare : ((overridingInterfaces.project.model.classAt ⟨0⟩).typeParameters[0]?.bind
        (·.bounds.head?)).isNone = true := by
      decide +kernel
    rw [Model.typeParameter?, Model.typeParametersOf, classAt_crowded (by decide)]
    exact Option.isNone_iff_eq_none.mp bare
  have type := Resolver.typeWithin?_of_no_bound stands (argument?_crowded enough) unbounded
    substitutionLimit
  have ownType := Resolver.typeWithin?_of_named ownStands
    (Session.args_of_bare (congrArg TypeExpr.args ownWritten)) substitutionLimit
    (some ⟨2 + count⟩)
  rw [TypeRef.dims, written] at type
  rw [TypeRef.dims, ownWritten] at ownType
  exact ⟨parameter, own, takes, ownTakes, type, ownType⟩

theorem crowded_keys :
    ((crowded count).observe {} fun resolver =>
        resolver.signatureKey (resolver.model.method ⟨0⟩) ⟨2 + count⟩) = "m(java.lang.Object)" ∧
      ((crowded count).observe {} fun resolver =>
        resolver.signatureKey (resolver.model.method ⟨1⟩) ⟨2 + count⟩) =
          "m(java.lang.String)" := by
  obtain ⟨-, -, -, -, -, -, name, ownName, -⟩ := overridingInterfaces_methods
  obtain ⟨parameter, own, takes, ownTakes, type, ownType⟩ := crowded_types enough
  have coherent := (run_crowded count).faithful.coherent
  rw [Session.observe_signatureKey coherent, Session.observe_signatureKey coherent,
    Resolver.signatureKey_of_single takes (Resolver.typeAt_of_typeWithin? (Nat.le_refl _) type),
    Resolver.signatureKey_of_single ownTakes
      (Resolver.typeAt_of_typeWithin? (Nat.le_refl _) ownType),
    method_crowded (by decide), method_crowded (by decide), name, ownName]
  exact ⟨by decide, by decide⟩

theorem crowded_overrides : ∃ super arg, super.args = [.type arg] ∧
    Overrides {} (crowded count) ⟨2 + count⟩ ⟨0⟩ ⟨1⟩ super ⟨0⟩ ⟨1⟩ := by
  have run := run_crowded count
  have coherent := run.faithful.coherent
  obtain ⟨super, arg, -, extended, named, args, argWritten⟩ := overridingInterfaces_headers
  obtain ⟨-, -, ofDeclaring, ofHolder, -, ownOpen, name, ownName, bare, -⟩ :=
    overridingInterfaces_methods
  obtain ⟨parameter, own, takes, ownTakes, written, ownWritten, stands, -⟩ :=
    crowded_parameters count
  have single : ((crowded count).project.model.classAt ⟨1⟩).superRefs = [super] := by
    rw [classAt_crowded (by decide), extended]
  have listed : super ∈ ((crowded count).project.model.classAt ⟨1⟩).superRefs := by simp [single]
  have found : (crowded count).project.model.firstNamed? "p.A" = some ⟨0⟩ :=
    firstNamed?_crowded rfl
  have resolved : (crowded count).observe {} (·.classOf? super) = some ⟨0⟩ := by
    rw [Session.observe_classOf? coherent (Model.stores_superRef listed),
      Session.classOf?_of_forgotten {} run.namesFirst run.forgotten, Session.meant?, named,
      Session.meaning_of_dotted (by decide)]
    exact found
  refine ⟨super, arg, args, ?_⟩
  refine
    { different := by simp
      listed, resolved
      only := fun id above other member refers => ?_
      ofDeclaring := by rw [classAt_crowded (by decide), ofDeclaring]; simp
      ofHolder := by rw [classAt_crowded (by decide), ofHolder]; simp
      isOpen := by rw [method_crowded (by decide), ownOpen]
      sameName := by rw [method_crowded (by decide), method_crowded (by decide), name, ownName]
      bare := by rw [method_crowded (by decide), bare]
      parameters := ?_
      ended := ?_ }
  · have walk := walk_crowded count
    simp only [Session.observe_supertypesOf coherent] at walk
    have met := (Resolver.mem_iff_above walk).mpr above
    rw [Session.observe_classOf? coherent (Model.stores_superRef member)] at refers
    have direct : ⟨0⟩ ∈ (((crowded count).standing {}).supertypesOf id).run :=
      Resolver.mem_supertypesOf.mpr ⟨other, member, refers⟩
    rw [← Session.observe_supertypesOf coherent] at direct
    obtain rfl := eq_of_mem_supertypesOf_crowded met direct
    rw [single, List.mem_singleton] at member
    exact ⟨rfl, member⟩
  · rw [takes, ownTakes]
    have given : super.args[0]? = some (.type arg) := by
      rw [args]
      rfl
    refine .cons (.argument stands given ?_) .nil
    rw [ownWritten, argWritten, TypeRef.dims, written]
    rfl
  · obtain ⟨another, -, again, -, type, -⟩ := crowded_types enough
    rw [again, List.forall_mem_singleton, type]
    rfl

end Enough

end Crowded

/-- The one method has been overridden by the other, but from below both have different keys. -/
theorem crowd_conceals_override :
    Session.Run {} (crowded hierarchyLimit) [] ∧ (crowded hierarchyLimit).Unchanged [] ∧
      ((crowded hierarchyLimit).standing {}).Above ⟨2 + hierarchyLimit⟩ ⟨1⟩ ∧
      ((crowded hierarchyLimit).project.model.method ⟨0⟩).isPrivate = false ∧
      (∃ super arg, super.args = [.type arg] ∧
        Overrides {} (crowded hierarchyLimit) ⟨2 + hierarchyLimit⟩ ⟨0⟩ ⟨1⟩ super ⟨0⟩ ⟨1⟩) ∧
      ((crowded hierarchyLimit).observe {} fun resolver =>
          resolver.signatureKey (resolver.model.method ⟨0⟩) ⟨2 + hierarchyLimit⟩) ≠
        (crowded hierarchyLimit).observe {} fun resolver =>
          resolver.signatureKey (resolver.model.method ⟨1⟩) ⟨2 + hierarchyLimit⟩ := by
  have run := run_crowded hierarchyLimit
  have coherent := run.faithful.coherent
  obtain ⟨-, -, -, -, isOpen, -⟩ := overridingInterfaces_methods
  have walk := walk_crowded hierarchyLimit
  simp only [Session.observe_supertypesOf coherent] at walk
  obtain ⟨key, ownKey⟩ := crowded_keys (Nat.le_succ hierarchyLimit)
  refine ⟨run, by simp [Session.Unchanged], (Resolver.mem_iff_above walk).mp ?_, ?_,
    crowded_overrides (Nat.le_succ hierarchyLimit), ?_⟩
  · exact List.mem_append_right _ List.mem_cons_self
  · rw [method_crowded (by decide), isOpen]
  · rw [key, ownKey]
    decide

end JavaDecl
