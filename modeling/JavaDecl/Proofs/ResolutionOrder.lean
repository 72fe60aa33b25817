import JavaDecl.Proofs.EnclosingClasses
import JavaDecl.Proofs.RememberedLookups

/-!
# The order of resolution

What a simple name stands for is said here without a search: which full name each origin
offers for it, which of these are admissible, and which origin comes first.  The look-up
of a name finds exactly that, in every model that can come about and with every library.
-/

namespace JavaDecl

/-! ### Texts -/

namespace UnitEntity

theorem withoutTail?_eq_some_iff (tail text lead : String) :
    withoutTail? tail text = some lead ↔ text = lead ++ tail := by
  unfold withoutTail?
  rw [← String.toList_inj, String.toList_append]
  constructor
  · intro cut
    split at cut
    · next ends =>
        obtain ⟨front, whole⟩ := List.isSuffixOf_iff_suffix.mp ends
        have same : String.ofList front = lead := by
          simpa [← whole] using cut
        rw [← whole, ← same, String.toList_ofList]
    · cases cut
  · intro whole
    have ends : tail.toList.isSuffixOf text.toList = true :=
      List.isSuffixOf_iff_suffix.mpr ⟨lead.toList, whole.symm⟩
    rw [if_pos ends, whole]
    simp

theorem withoutLead?_eq_some_iff (lead text rest : String) :
    withoutLead? lead text = some rest ↔ text = lead ++ rest := by
  unfold withoutLead?
  rw [← String.toList_inj, String.toList_append]
  constructor
  · intro cut
    split at cut
    · next starts =>
        obtain ⟨back, whole⟩ := List.isPrefixOf_iff_prefix.mp starts
        have same : String.ofList back = rest := by
          simpa [← whole] using cut
        rw [← whole, ← same, String.toList_ofList]
    · cases cut
  · intro whole
    have starts : lead.toList.isPrefixOf text.toList = true :=
      List.isPrefixOf_iff_prefix.mpr ⟨rest.toList, whole.symm⟩
    rw [if_pos starts, whole]
    simp

end UnitEntity

/-- Where the full name for a simple name comes from. -/
inductive Origin where
  /-- The class around the name or beside it that has the simple name. -/
  | lexical
  | singleImport
  | package
  | javaLang
  /-- A member of the package that an import names, by the position of the import. -/
  | wildcard (position : Nat)
  /-- A member of the class that an import names, by the position of the import. -/
  | wildcardMember (position : Nat)
deriving DecidableEq

/-- Origins of a lower rank come first. -/
def Origin.rank (order : LookupOrder) : Origin → Nat
  | lexical => match order with
    | .nestedFirst => 0
    | .importsFirst => 1
  | singleImport => match order with
    | .nestedFirst => 1
    | .importsFirst => 0
  | package => 2
  | javaLang => 3
  | wildcard position => 4 + 2 * position
  | wildcardMember position => 4 + 2 * position + 1

/-- A single import is always admissible, another full name if it is known. -/
def Origin.Admits (knows : String → Bool) (origin : Origin) (fullName : String) : Prop :=
  origin = .singleImport ∨ knows fullName = true

/-- An item has a property, and no item before it has. -/
def FirstWith {α : Type} (holds : α → Prop) (items : List α) (item : α) : Prop :=
  ∃ front back, items = front ++ item :: back ∧ holds item ∧ ∀ earlier ∈ front, ¬ holds earlier

namespace Model

variable (model : Model) (name : String)

/-! ### Type variables -/

/-- The first type variable with a name that an owner declares. -/
def Declares (owner : VariableOwner) (found : Referent) : Prop :=
  ∃ parameter position,
    FirstWith (fun declared => declared.1.name = name) (model.typeParametersOf owner).zipIdx
      (parameter, position) ∧
    found = .variable owner position

/-- The type variable with a name at a place: that of the method, or else that of the
innermost class around the place which declares one. -/
inductive NamesVariable (scope : Scope) : Referent → Prop where
  | ofMethod {id : MethodId} {found : Referent} : scope.method = some id →
      model.Declares name (.ofMethod id) found → NamesVariable scope found
  | ofClass {id : ClassId} {found : Referent} :
      (∀ method other, scope.method = some method →
        ¬ model.Declares name (.ofMethod method) other) →
      scope.classId = some id →
      model.Innermost (fun around => model.Declares name (.ofClass around)) id found →
        NamesVariable scope found

/-! ### Classes around a name -/

/-- The class that a simple name means in the body of a class: the class itself, unless it
is the body of a constant, or else the first class with that name directly in it. -/
inductive MeansIn (id : ClassId) : ClassId → Prop where
  | itself : (model.classAt id).name = name → (model.classAt id).isConstantBody = false →
      MeansIn id id
  | nested {found : ClassId} :
      ((model.classAt id).name = name → (model.classAt id).isConstantBody = true) →
      FirstWith (fun inner => (model.classAt inner).name = name) (model.classAt id).nested found →
        MeansIn id found

/-- The class that a simple name means where it stands: in the innermost class around it
where it means any, or else among the outermost classes of the unit. -/
inductive LexicallyMeans (scope : Scope) : ClassId → Prop where
  | inClass {id found : ClassId} : scope.classId = some id →
      model.Innermost (model.MeansIn name) id found → LexicallyMeans scope found
  | inUnit {found : ClassId} :
      (∀ id other, scope.classId = some id →
        ¬ model.Innermost (model.MeansIn name) id other) →
      FirstWith (fun outermost => (model.classAt outermost).name = name)
        (model.unit scope.unit).classes found →
        LexicallyMeans scope found

/-! ### Imports -/

/-- An import as it is written imports a name alone, under a full name.  The word `static`
is no part of that. -/
def ImportsAlone (written fullName : String) : Prop :=
  (¬ ∃ lead, written = lead ++ ".*") ∧
    (written = "static " ++ fullName ∨
      written = fullName ∧ ¬ ∃ rest, written = "static " ++ rest) ∧
    ∃ lead, fullName = lead ++ ("." ++ name)

/-- An import as it is written imports all that a package or class has. -/
def ImportsAll (written lead : String) : Prop :=
  written = "static " ++ lead ++ ".*" ∨
    written = lead ++ ".*" ∧ ¬ ∃ rest, lead = "static " ++ rest

/-! ### Full names -/

/-- The full names that are offered for a simple name at a place, with their origins. -/
inductive Offers (scope : Scope) : Origin → String → Prop where
  | lexical {id : ClassId} : model.LexicallyMeans name scope id →
      Offers scope .lexical (model.classAt id).binaryName
  | singleImport {written fullName : String} :
      FirstWith (fun text => ∃ other, ImportsAlone name text other) (model.unit scope.unit).imports
        written →
      ImportsAlone name written fullName → Offers scope .singleImport fullName
  | inPackage {package : PackageEntity} : (model.unit scope.unit).package = some package →
      Offers scope .package (package.name ++ "." ++ name)
  | inNoPackage : (model.unit scope.unit).package = none → Offers scope .package name
  | javaLang : Offers scope .javaLang ("java.lang." ++ name)
  | wildcard {position : Nat} {written lead : String} :
      (model.unit scope.unit).imports[position]? = some written → ImportsAll written lead →
        Offers scope (.wildcard position) (lead ++ "." ++ name)
  | wildcardMember {position : Nat} {written lead : String} :
      (model.unit scope.unit).imports[position]? = some written → ImportsAll written lead →
        Offers scope (.wildcardMember position) (lead ++ "$" ++ name)

/-- What a name stands for at a place, given which full names are known. -/
inductive StandsFor (order : LookupOrder) (knows : String → Bool) (scope : Scope) :
    Option Referent → Prop where
  /-- A primitive type and a dotted name stand for themselves. -/
  | itself : isPrimitiveName name = true ∨ '.' ∈ name.toList →
      StandsFor order knows scope (some (.named name))
  | typeVariable {found : Referent} : isPrimitiveName name = false → '.' ∉ name.toList →
      model.NamesVariable name scope found → StandsFor order knows scope (some found)
  /-- No origin before this one offers an admissible full name. -/
  | fullName {origin : Origin} {fullName : String} : isPrimitiveName name = false →
      '.' ∉ name.toList → (∀ found, ¬ model.NamesVariable name scope found) →
      model.Offers name scope origin fullName → origin.Admits knows fullName →
      (∀ other otherName, model.Offers name scope other otherName →
        other.rank order < origin.rank order → ¬ other.Admits knows otherName) →
        StandsFor order knows scope (some (.named fullName))
  | nothing : isPrimitiveName name = false → '.' ∉ name.toList →
      (∀ found, ¬ model.NamesVariable name scope found) →
      (∀ origin fullName, model.Offers name scope origin fullName →
        ¬ origin.Admits knows fullName) →
        StandsFor order knows scope none

/-! ### Finding type variables -/

variable {model name}

theorem find?_eq_some_iff_firstWith {α : Type} {holds : α → Prop} {test : α → Bool}
    (agree : ∀ item, test item = true ↔ holds item) (items : List α) (item : α) :
    items.find? test = some item ↔ FirstWith holds items item := by
  rw [List.find?_eq_some_iff_append]
  constructor
  · rintro ⟨found, front, back, whole, none⟩
    refine ⟨front, back, whole, (agree item).mp found, fun earlier member held => ?_⟩
    have missed := none earlier member
    rw [(agree earlier).mpr held] at missed
    cases missed
  · rintro ⟨front, back, whole, found, none⟩
    refine ⟨(agree item).mpr found, front, back, whole, fun earlier member => ?_⟩
    rw [Bool.not_eq_true', Bool.eq_false_iff]
    exact fun held => none earlier member ((agree earlier).mp held)

theorem parameterNamed?_eq_some_iff (owner : VariableOwner) (found : Referent) :
    model.parameterNamed? name owner = some found ↔ model.Declares name owner found := by
  unfold parameterNamed? Declares
  rw [List.findIdx?_eq_fst_find?_zipIdx, Option.map_map, Option.map_eq_some_iff]
  constructor
  · rintro ⟨⟨parameter, position⟩, first, rfl⟩
    exact ⟨parameter, position,
      (find?_eq_some_iff_firstWith (by simp) _ _).mp first, rfl⟩
  · rintro ⟨parameter, position, first, rfl⟩
    exact ⟨(parameter, position), (find?_eq_some_iff_firstWith (by simp) _ _).mpr first, rfl⟩

theorem typeVariable?_eq_some_iff (descends : model.Descends) (scope : Scope)
    (found : Referent) :
    model.typeVariable? name scope = some found ↔ model.NamesVariable name scope found := by
  have agree (id : ClassId) (found : Referent) :
      model.parameterNamed? name (.ofClass id) = some found ↔
        model.Declares name (.ofClass id) found := parameterNamed?_eq_some_iff _ _
  have outward := findSome?_around agree descends scope
  unfold typeVariable?
  cases own : scope.method.bind fun id => model.parameterNamed? name (.ofMethod id) with
  | some first =>
      obtain ⟨id, inMethod, named⟩ := Option.bind_eq_some_iff.mp own
      have declared := (parameterNamed?_eq_some_iff _ _).mp named
      constructor
      · rintro ⟨rfl⟩
        exact .ofMethod inMethod declared
      · intro names
        cases names with
        | ofMethod same other =>
            obtain rfl := Option.some.inj (inMethod.symm.trans same)
            rw [← named, (parameterNamed?_eq_some_iff _ _).mpr other]
            rfl
        | ofClass none _ _ => exact absurd declared (none _ _ inMethod)
  | none =>
      have missed : ∀ method other, scope.method = some method →
          ¬ model.Declares name (.ofMethod method) other := by
        intro method other inMethod declared
        rw [inMethod, Option.bind_some, (parameterNamed?_eq_some_iff _ _).mpr declared] at own
        cases own
      rw [Option.none_or, outward found]
      constructor
      · rintro ⟨id, inClass, innermost⟩
        exact .ofClass missed inClass innermost
      · intro names
        cases names with
        | ofMethod inMethod declared => exact absurd declared (missed _ _ inMethod)
        | ofClass _ inClass innermost => exact ⟨_, inClass, innermost⟩

/-! ### Finding classes around a name -/

theorem simplyNamed?_eq_some_iff (ids : List ClassId) (found : ClassId) :
    model.simplyNamed? name ids = some found ↔
      FirstWith (fun id => (model.classAt id).name = name) ids found :=
  find?_eq_some_iff_firstWith (by simp) ids found

theorem matchIn?_eq_some_iff (id found : ClassId) :
    model.matchIn? name id = some found ↔ model.MeansIn name id found := by
  unfold matchIn?
  dsimp only
  split
  · next own =>
      have itself : (model.classAt id).name = name ∧
          (model.classAt id).isConstantBody = false := by simpa using own
      constructor
      · rintro ⟨rfl⟩
        exact .itself itself.1 itself.2
      · intro means
        cases means with
        | itself _ _ => rfl
        | nested other _ =>
            have body := other itself.1
            rw [itself.2] at body
            cases body
  · next other =>
      have onlyBody : (model.classAt id).name = name →
          (model.classAt id).isConstantBody = true := by simpa using other
      rw [simplyNamed?_eq_some_iff]
      constructor
      · exact .nested onlyBody
      · intro means
        cases means with
        | itself same plain =>
            rw [onlyBody same] at plain
            cases plain
        | nested _ first => exact first

theorem lexicalMatch?_eq_some_iff (descends : model.Descends) (scope : Scope)
    (found : ClassId) :
    model.lexicalMatch? name scope = some found ↔ model.LexicallyMeans name scope found := by
  have agree (id found : ClassId) :
      model.matchIn? name id = some found ↔ model.MeansIn name id found :=
    matchIn?_eq_some_iff id found
  have outward := findSome?_around agree descends scope
  unfold lexicalMatch?
  cases inside : (model.around scope).findSome? (model.matchIn? name) with
  | some first =>
      obtain ⟨id, inClass, innermost⟩ := (outward first).mp inside
      constructor
      · rintro ⟨rfl⟩
        exact .inClass inClass innermost
      · intro means
        cases means with
        | inClass same other => rw [← inside, (outward found).mpr ⟨_, same, other⟩]; rfl
        | inUnit none _ => exact absurd innermost (none _ _ inClass)
  | none =>
      have missed : ∀ id other, scope.classId = some id →
          ¬ model.Innermost (model.MeansIn name) id other := by
        intro id other inClass innermost
        rw [(outward other).mpr ⟨id, inClass, innermost⟩] at inside
        cases inside
      rw [Option.none_or, simplyNamed?_eq_some_iff]
      constructor
      · exact .inUnit missed
      · intro means
        cases means with
        | inClass inClass innermost => exact absurd innermost (missed _ _ inClass)
        | inUnit _ first => exact first

/-! ### Finding imports -/

/-- The full name under which an import as it is written imports a name alone. -/
def importedAlone? (name written : String) : Option String :=
  if (UnitEntity.withoutTail? ".*" written).isNone then
    some ((UnitEntity.withoutLead? "static " written).getD written) |>.filter fun fullName =>
      (UnitEntity.withoutTail? ("." ++ name) fullName).isSome
  else none

/-- The package or class of which an import as it is written imports everything. -/
def importedAll? (written : String) : Option String :=
  (UnitEntity.withoutTail? ".*" written).map fun lead =>
    (UnitEntity.withoutLead? "static " lead).getD lead

theorem withoutTail?_isSome_iff (tail text : String) :
    (UnitEntity.withoutTail? tail text).isSome = true ↔ ∃ lead, text = lead ++ tail := by
  simp [Option.isSome_iff_exists, UnitEntity.withoutTail?_eq_some_iff]

/-- A text without a word that it may start with. -/
theorem withoutLead?_getD_eq_iff (lead text rest : String) :
    (UnitEntity.withoutLead? lead text).getD text = rest ↔
      text = lead ++ rest ∨ text = rest ∧ ¬ ∃ other, text = lead ++ other := by
  have cut := UnitEntity.withoutLead?_eq_some_iff lead text
  cases found : UnitEntity.withoutLead? lead text with
  | some own =>
      have whole := (cut own).mp found
      constructor
      · rintro rfl
        exact .inl whole
      · rintro (other | ⟨_, none⟩)
        · rw [(cut rest).mpr other] at found
          exact (Option.some.inj found).symm
        · exact absurd ⟨own, whole⟩ none
  | none =>
      have missed : ¬ ∃ other, text = lead ++ other := by
        rintro ⟨other, whole⟩
        rw [(cut other).mpr whole] at found
        cases found
      constructor
      · rintro rfl
        exact .inr ⟨rfl, missed⟩
      · rintro (whole | ⟨same, _⟩)
        · exact absurd ⟨rest, whole⟩ missed
        · exact same

theorem importedAlone?_eq_some_iff (written fullName : String) :
    importedAlone? name written = some fullName ↔ ImportsAlone name written fullName := by
  have wildcard := withoutTail?_isSome_iff ".*" written
  unfold importedAlone? ImportsAlone
  split
  · next single =>
      have plain : ¬ ∃ lead, written = lead ++ ".*" := by
        rw [← wildcard]
        simpa using single
      rw [Option.filter_eq_some_iff, Option.some_inj, withoutLead?_getD_eq_iff,
        withoutTail?_isSome_iff]
      simp only [plain, not_false_eq_true, true_and]
  · next other =>
      have every : ∃ lead, written = lead ++ ".*" := by
        rw [← wildcard, Option.isSome_iff_ne_none]
        simpa using other
      simp only [every, not_true_eq_false, false_and, reduceCtorEq]

theorem importedAll?_eq_some_iff (written lead : String) :
    importedAll? written = some lead ↔ ImportsAll written lead := by
  unfold importedAll? ImportsAll
  rw [Option.map_eq_some_iff]
  simp only [UnitEntity.withoutTail?_eq_some_iff, withoutLead?_getD_eq_iff]
  constructor
  · rintro ⟨own, rfl, rfl | ⟨rfl, none⟩⟩
    · exact .inl rfl
    · exact .inr ⟨rfl, none⟩
  · rintro (rfl | ⟨rfl, none⟩)
    · exact ⟨"static " ++ lead, rfl, .inl rfl⟩
    · exact ⟨lead, rfl, .inr ⟨rfl, none⟩⟩

/-- The single import of a name is the first import that imports it alone. -/
theorem singleImport?_eq (unit : UnitEntity) :
    unit.singleImport? name = unit.imports.findSome? (importedAlone? name) := by
  unfold UnitEntity.singleImport? UnitEntity.singleImports
  induction unit.imports with
  | nil => rfl
  | cons written rest ih =>
      rw [List.findSome?_cons, ← ih]
      by_cases single : (UnitEntity.withoutTail? ".*" written).isNone
      · simp only [List.filter_cons, importedAlone?, if_pos single, List.map_cons,
          List.find?_cons, Option.filter_some]
        cases (UnitEntity.withoutTail? ("." ++ name)
          ((UnitEntity.withoutLead? "static " written).getD written)).isSome <;> rfl
      · simp only [List.filter_cons, importedAlone?, if_neg single]

theorem singleImport?_eq_some_iff (unit : UnitEntity) (fullName : String) :
    unit.singleImport? name = some fullName ↔
      ∃ written,
        FirstWith (fun text => ∃ other, ImportsAlone name text other) unit.imports written ∧
          ImportsAlone name written fullName := by
  rw [singleImport?_eq, List.findSome?_eq_some_iff]
  simp only [importedAlone?_eq_some_iff, Option.eq_none_iff_forall_ne_some, ne_eq, FirstWith]
  constructor
  · rintro ⟨front, written, back, whole, alone, none⟩
    refine ⟨written, ⟨front, back, whole, ⟨fullName, alone⟩, ?_⟩, alone⟩
    rintro earlier member ⟨other, held⟩
    exact none earlier member other held
  · rintro ⟨written, ⟨front, back, whole, -, none⟩, alone⟩
    exact ⟨front, written, back, whole, alone,
      fun earlier member other held => none earlier member ⟨other, held⟩⟩

/-! ### Full names in order -/

/-- The full names that one import of everything offers. -/
def wildcardOffers (name : String) (item : String × Nat) : List (Origin × String) :=
  ((importedAll? item.1).map fun lead =>
    [(.wildcard item.2, lead ++ "." ++ name), (.wildcardMember item.2, lead ++ "$" ++ name)]).getD
      []

def lexicalOffers (model : Model) (name : String) (scope : Scope) : List (Origin × String) :=
  ((model.lexicalMatch? name scope).map fun id =>
    (.lexical, (model.classAt id).binaryName)).toList

def singleOffers (unit : UnitEntity) (name : String) : List (Origin × String) :=
  ((unit.singleImport? name).map fun fullName => (.singleImport, fullName)).toList

/-- The full names for a simple name with their origins, in order. -/
def offers (model : Model) (order : LookupOrder) (name : String) (scope : Scope) :
    List (Origin × String) :=
  let unit := model.unit scope.unit
  (match order with
    | .nestedFirst => model.lexicalOffers name scope ++ singleOffers unit name
    | .importsFirst => singleOffers unit name ++ model.lexicalOffers name scope) ++
    [(.package, unit.inPackage name), (.javaLang, "java.lang." ++ name)] ++
      unit.imports.zipIdx.flatMap (wildcardOffers name)

def Offer.candidate : Origin × String → Candidate
  | (.singleImport, fullName) => .certain fullName
  | (_, fullName) => .ifKnown fullName

theorem map_wildcardOffers (imports : List String) (first : Nat) :
    ((imports.zipIdx first).flatMap (wildcardOffers name)).map Offer.candidate =
      (UnitEntity.wildcardImports { imports }).flatMap fun (lead, _) =>
        [.ifKnown (lead ++ "." ++ name), .ifKnown (lead ++ "$" ++ name)] := by
  induction imports generalizing first with
  | nil => rfl
  | cons written rest ih =>
      rw [List.zipIdx_cons, List.flatMap_cons, List.map_append, ih]
      unfold UnitEntity.wildcardImports wildcardOffers importedAll?
      cases cut : UnitEntity.withoutTail? ".*" written with
      | none => simp [cut]
      | some lead =>
          simp only [List.filterMap_cons, cut, List.map_cons, List.flatMap_cons, Option.map_some,
            Option.getD_some]
          cases UnitEntity.withoutLead? "static " lead <;> rfl

theorem map_offers (order : LookupOrder) (scope : Scope) :
    (model.offers order name scope).map Offer.candidate = model.candidates order name scope := by
  have imported : (((model.unit scope.unit).imports.zipIdx.flatMap (wildcardOffers name)).map
      Offer.candidate) = model.wildcardCandidates name scope := map_wildcardOffers _ 0
  have lexical : (model.lexicalOffers name scope).map Offer.candidate =
      model.lexicalCandidates name scope := by
    unfold lexicalOffers lexicalCandidates
    cases model.lexicalMatch? name scope <;> rfl
  have single : (singleOffers (model.unit scope.unit) name).map Offer.candidate =
      model.importCandidates name scope := by
    unfold singleOffers importCandidates
    cases (model.unit scope.unit).singleImport? name <;> rfl
  unfold offers candidates
  dsimp only
  rw [List.map_append, List.map_append, imported]
  cases order <;> simp only [List.map_append, lexical, single] <;> rfl

theorem mem_wildcardOffers (imports : List String) (origin : Origin) (fullName : String) :
    (origin, fullName) ∈ imports.zipIdx.flatMap (wildcardOffers name) ↔
      ∃ position written lead, imports[position]? = some written ∧ ImportsAll written lead ∧
        (origin = .wildcard position ∧ fullName = lead ++ "." ++ name ∨
          origin = .wildcardMember position ∧ fullName = lead ++ "$" ++ name) := by
  rw [List.mem_flatMap]
  constructor
  · rintro ⟨⟨written, position⟩, member, offered⟩
    have present := List.mk_mem_zipIdx_iff_getElem?.mp member
    cases found : importedAll? written with
    | none => simp [wildcardOffers, found] at offered
    | some lead =>
        refine ⟨position, written, lead, present, (importedAll?_eq_some_iff _ _).mp found, ?_⟩
        simpa [wildcardOffers, found] using offered
  · rintro ⟨position, written, lead, present, all, offered⟩
    refine ⟨(written, position), List.mk_mem_zipIdx_iff_getElem?.mpr present, ?_⟩
    simpa [wildcardOffers, (importedAll?_eq_some_iff _ _).mpr all] using offered

theorem mem_lexicalOffers (descends : model.Descends) (scope : Scope) (offer : Origin × String) :
    offer ∈ model.lexicalOffers name scope ↔
      ∃ id, model.LexicallyMeans name scope id ∧
        offer = (.lexical, (model.classAt id).binaryName) := by
  simp [lexicalOffers, ← lexicalMatch?_eq_some_iff descends, @eq_comm _ offer]

theorem mem_singleOffers (unit : UnitEntity) (offer : Origin × String) :
    offer ∈ singleOffers unit name ↔
      ∃ fullName, unit.singleImport? name = some fullName ∧ offer = (.singleImport, fullName) := by
  simp [singleOffers, @eq_comm _ offer]

/-- The list of full names has exactly those that are offered. -/
theorem mem_offers (descends : model.Descends) (order : LookupOrder) (scope : Scope)
    (origin : Origin) (fullName : String) :
    (origin, fullName) ∈ model.offers order name scope ↔
      model.Offers name scope origin fullName := by
  have listed : (origin, fullName) ∈ model.offers order name scope ↔
      ((origin, fullName) ∈ model.lexicalOffers name scope ∨
        (origin, fullName) ∈ singleOffers (model.unit scope.unit) name) ∨
      (origin, fullName) ∈ [(Origin.package, (model.unit scope.unit).inPackage name),
        (.javaLang, "java.lang." ++ name)] ∨
      (origin, fullName) ∈
        (model.unit scope.unit).imports.zipIdx.flatMap (wildcardOffers name) := by
    unfold offers
    cases order <;> simp only [List.mem_append, or_assoc]
    rw [or_left_comm]
  rw [listed, mem_wildcardOffers, mem_lexicalOffers descends, mem_singleOffers]
  constructor
  · rintro ((⟨id, means, ⟨⟩⟩ | ⟨_, found, ⟨⟩⟩) | near |
      ⟨position, written, lead, present, all, ⟨rfl, rfl⟩ | ⟨rfl, rfl⟩⟩)
    · exact .lexical means
    · obtain ⟨written, first, alone⟩ := (singleImport?_eq_some_iff _ _).mp found
      exact .singleImport first alone
    · rcases List.mem_cons.mp near with package | language
      · obtain ⟨rfl, rfl⟩ := Prod.mk.inj package
        unfold UnitEntity.inPackage UnitEntity.packageName
        cases declared : (model.unit scope.unit).package with
        | none => exact .inNoPackage declared
        | some package => exact .inPackage declared
      · obtain ⟨rfl, rfl⟩ := Prod.mk.inj (List.mem_singleton.mp language)
        exact .javaLang
    · exact .wildcard present all
    · exact .wildcardMember present all
  · intro offered
    cases offered with
    | lexical means => exact .inl (.inl ⟨_, means, rfl⟩)
    | singleImport first alone =>
        exact .inl (.inr ⟨_, (singleImport?_eq_some_iff _ _).mpr ⟨_, first, alone⟩, rfl⟩)
    | inPackage declared =>
        refine .inr (.inl ?_)
        simp [UnitEntity.inPackage, UnitEntity.packageName, declared]
    | inNoPackage declared =>
        refine .inr (.inl ?_)
        simp [UnitEntity.inPackage, UnitEntity.packageName, declared]
    | javaLang => exact .inr (.inl (by simp))
    | wildcard present all => exact .inr (.inr ⟨_, _, _, present, all, .inl ⟨rfl, rfl⟩⟩)
    | wildcardMember present all => exact .inr (.inr ⟨_, _, _, present, all, .inr ⟨rfl, rfl⟩⟩)

theorem pairwise_wildcardOffers (order : LookupOrder) (imports : List String) (first : Nat) :
    ((imports.zipIdx first).flatMap (wildcardOffers name)).Pairwise
        (fun one other => one.1.rank order < other.1.rank order) ∧
      ∀ offer ∈ (imports.zipIdx first).flatMap (wildcardOffers name),
        4 + 2 * first ≤ offer.1.rank order := by
  induction imports generalizing first with
  | nil => exact ⟨.nil, by simp⟩
  | cons written rest ih =>
      obtain ⟨sorted, later⟩ := ih (first + 1)
      have own : ∀ offer ∈ wildcardOffers name (written, first),
          4 + 2 * first ≤ offer.1.rank order ∧ offer.1.rank order < 4 + 2 * (first + 1) := by
        intro offer member
        cases found : importedAll? written with
        | none => simp [wildcardOffers, found] at member
        | some lead =>
            simp only [wildcardOffers, found, Option.map_some, Option.getD_some, List.mem_cons,
              List.not_mem_nil, or_false] at member
            rcases member with rfl | rfl <;> simp only [Origin.rank] <;> omega
      have pair : (wildcardOffers name (written, first)).Pairwise
          (fun one other => one.1.rank order < other.1.rank order) := by
        cases found : importedAll? written with
        | none => simp [wildcardOffers, found]
        | some lead => simp [wildcardOffers, found, Origin.rank]
      rw [List.zipIdx_cons, List.flatMap_cons]
      refine ⟨List.pairwise_append.mpr ⟨pair, sorted, ?_⟩, ?_⟩
      · intro one member other further
        have before := (own one member).2
        have after := later other further
        omega
      · intro offer member
        rcases List.mem_append.mp member with near | further
        · exact (own offer near).1
        · have after := later offer further
          omega

theorem origin_of_mem_lexicalOffers {scope : Scope} {offer : Origin × String}
    (member : offer ∈ model.lexicalOffers name scope) : offer.1 = .lexical := by
  obtain ⟨id, -, rfl⟩ := Option.map_eq_some_iff.mp (Option.mem_toList.mp member)
  rfl

theorem origin_of_mem_singleOffers {unit : UnitEntity} {offer : Origin × String}
    (member : offer ∈ singleOffers unit name) : offer.1 = .singleImport := by
  obtain ⟨fullName, -, rfl⟩ := Option.map_eq_some_iff.mp (Option.mem_toList.mp member)
  rfl

/-- The full names are listed in the order of their origins. -/
theorem pairwise_offers (order : LookupOrder) (scope : Scope) :
    (model.offers order name scope).Pairwise
      fun one other => one.1.rank order < other.1.rank order := by
  obtain ⟨sorted, later⟩ :=
    @pairwise_wildcardOffers name order (model.unit scope.unit).imports 0
  unfold offers
  dsimp only
  refine List.pairwise_append.mpr ⟨?_, sorted, ?_⟩
  · unfold lexicalOffers singleOffers
    cases model.lexicalMatch? name scope <;>
      cases (model.unit scope.unit).singleImport? name <;> cases order <;> simp [Origin.rank]
  · intro one member other further
    have after := later other further
    have near : one.1 = .lexical ∨ one.1 = .singleImport ∨ one.1 = .package ∨
        one.1 = .javaLang := by
      rcases List.mem_append.mp member with first | last
      · have found : one ∈ model.lexicalOffers name scope ∨
            one ∈ singleOffers (model.unit scope.unit) name := by
          cases order
          · exact List.mem_append.mp first
          · exact (List.mem_append.mp first).symm
        rcases found with lexical | single
        · exact .inl (origin_of_mem_lexicalOffers lexical)
        · exact .inr (.inl (origin_of_mem_singleOffers single))
      · rcases List.mem_cons.mp last with rfl | language
        · exact .inr (.inr (.inl rfl))
        · rw [List.mem_singleton.mp language]
          exact .inr (.inr (.inr rfl))
    have small : one.1.rank order < 4 := by
      rcases near with origin | origin | origin | origin <;> rw [origin] <;> cases order <;>
        decide
    omega

/-! ### The first admissible full name -/

/-- Among items in strict order the first with a property is the one before which no item
has it. -/
theorem find?_eq_some_iff_of_pairwise {α : Type} {rank : α → Nat} {items : List α}
    (sorted : items.Pairwise fun one other => rank one < rank other) (test : α → Bool)
    (item : α) :
    items.find? test = some item ↔
      item ∈ items ∧ test item = true ∧
        ∀ other ∈ items, rank other < rank item → test other = false := by
  rw [List.find?_eq_some_iff_append]
  constructor
  · rintro ⟨found, front, back, rfl, none⟩
    obtain ⟨-, above, -⟩ := List.pairwise_append.mp sorted
    refine ⟨by simp, found, fun other member less => ?_⟩
    rcases List.mem_append.mp member with before | after
    · simpa using none other before
    · rcases List.mem_cons.mp after with rfl | later
      · exact absurd less (Nat.lt_irrefl _)
      · have more := (List.pairwise_cons.mp above).1 other later
        omega
  · rintro ⟨member, found, none⟩
    obtain ⟨front, back, rfl⟩ := List.append_of_mem member
    refine ⟨found, front, back, rfl, fun earlier before => ?_⟩
    have less := (List.pairwise_append.mp sorted).2.2 earlier before item List.mem_cons_self
    simpa using none earlier (List.mem_append_left _ before) less

def Offer.admits (knows : String → Bool) (offer : Origin × String) : Bool :=
  offer.1 == .singleImport || knows offer.2

theorem Offer.admits_iff (knows : String → Bool) (origin : Origin) (fullName : String) :
    Offer.admits knows (origin, fullName) = true ↔ origin.Admits knows fullName := by
  simp [Offer.admits, Origin.Admits]

theorem firstAdmissible_offers (knows : String → Bool) (list : List (Origin × String)) :
    Id.run (firstAdmissible (fun asked => pure (knows asked)) (list.map Offer.candidate)) =
      (list.find? (Offer.admits knows)).map Prod.snd := by
  induction list with
  | nil => rfl
  | cons offer rest ih =>
      obtain ⟨origin, fullName⟩ := offer
      cases origin with
      | singleImport => rfl
      | _ =>
          cases known : knows fullName <;>
            simp_all [Offer.admits, Offer.candidate, firstAdmissible]

/-- The first admissible candidate is a full name that is offered and admissible, such that
no origin before its own offers an admissible one. -/
theorem firstAdmissible_eq_some_iff (descends : model.Descends) (order : LookupOrder)
    (knows : String → Bool) (scope : Scope) (fullName : String) :
    Id.run (firstAdmissible (fun asked => pure (knows asked))
        (model.candidates order name scope)) = some fullName ↔
      ∃ origin, model.Offers name scope origin fullName ∧ origin.Admits knows fullName ∧
        ∀ other otherName, model.Offers name scope other otherName →
          other.rank order < origin.rank order → ¬ other.Admits knows otherName := by
  have sorted : (model.offers order name scope).Pairwise
      fun one other => one.1.rank order < other.1.rank order := pairwise_offers order scope
  have first (origin : Origin) :=
    find?_eq_some_iff_of_pairwise sorted (Offer.admits knows) (origin, fullName)
  rw [← map_offers, firstAdmissible_offers, Option.map_eq_some_iff]
  constructor
  · rintro ⟨⟨origin, _⟩, found, rfl⟩
    obtain ⟨member, admitted, none⟩ := (first origin).mp found
    refine ⟨origin, (mem_offers descends order scope _ _).mp member,
      (Offer.admits_iff _ _ _).mp admitted, fun other otherName offered less admits => ?_⟩
    have missed := none _ ((mem_offers descends order scope _ _).mpr offered) less
    rw [(Offer.admits_iff _ _ _).mpr admits] at missed
    cases missed
  · rintro ⟨origin, offered, admits, none⟩
    refine ⟨(origin, fullName), (first origin).mpr
      ⟨(mem_offers descends order scope _ _).mpr offered, (Offer.admits_iff _ _ _).mpr admits,
        fun other member less => ?_⟩, rfl⟩
    have missed := none _ _ ((mem_offers descends order scope _ _).mp member) less
    rw [← Offer.admits_iff, Bool.not_eq_true] at missed
    exact missed

theorem firstAdmissible_eq_none_iff (descends : model.Descends) (order : LookupOrder)
    (knows : String → Bool) (scope : Scope) :
    Id.run (firstAdmissible (fun asked => pure (knows asked))
        (model.candidates order name scope)) = none ↔
      ∀ origin fullName, model.Offers name scope origin fullName →
        ¬ origin.Admits knows fullName := by
  rw [← map_offers, firstAdmissible_offers, Option.map_eq_none_iff, List.find?_eq_none]
  constructor
  · intro none origin fullName offered
    rw [← Offer.admits_iff]
    exact none _ ((mem_offers descends order scope _ _).mpr offered)
  · rintro none ⟨origin, fullName⟩ member
    rw [Offer.admits_iff]
    exact none _ _ ((mem_offers descends order scope _ _).mp member)

/-- A simple name is looked up among type variables, and then among full names. -/
theorem run_resolveName {order : LookupOrder} {knows : String → Bool}
    (simple : isPrimitiveName name = false) (plain : '.' ∉ name.toList) (scope : Scope) :
    Id.run (model.resolveName order (fun asked => pure (knows asked)) name scope) =
      (model.typeVariable? name scope).or
        ((Id.run (firstAdmissible (fun asked => pure (knows asked))
          (model.candidates order name scope))).map .named) := by
  unfold resolveName
  rw [if_neg (by simp [simple, plain])]
  cases model.typeVariable? name scope <;> rfl

theorem typeVariable?_eq_none_iff (descends : model.Descends) (scope : Scope) :
    model.typeVariable? name scope = none ↔ ∀ found, ¬ model.NamesVariable name scope found := by
  rw [Option.eq_none_iff_forall_ne_some]
  exact forall_congr' fun found => not_congr (typeVariable?_eq_some_iff descends scope found)

/-- The search for a name finds something that the name stands for. -/
theorem standsFor_resolveName (descends : model.Descends) (order : LookupOrder)
    (knows : String → Bool) (scope : Scope) :
    model.StandsFor name order knows scope
      (Id.run (model.resolveName order (fun asked => pure (knows asked)) name scope)) := by
  by_cases own : isPrimitiveName name = true ∨ '.' ∈ name.toList
  · unfold resolveName
    rw [if_pos (by simpa using own)]
    exact .itself own
  obtain ⟨simple, plain⟩ : isPrimitiveName name = false ∧ '.' ∉ name.toList := by simpa using own
  rw [run_resolveName simple plain]
  cases names : model.typeVariable? name scope with
  | some parameter =>
      exact .typeVariable simple plain ((typeVariable?_eq_some_iff descends scope _).mp names)
  | none =>
      have none := (typeVariable?_eq_none_iff descends scope).mp names
      cases found : Id.run (firstAdmissible (fun asked => pure (knows asked))
          (model.candidates order name scope)) with
      | some fullName =>
          obtain ⟨origin, offered, admits, first⟩ :=
            (firstAdmissible_eq_some_iff descends order knows scope fullName).mp found
          exact .fullName simple plain none offered admits first
      | none =>
          exact .nothing simple plain none
            ((firstAdmissible_eq_none_iff descends order knows scope).mp found)

/-- The search for a name finds all that the name stands for. -/
theorem StandsFor.resolveName_eq (descends : model.Descends) {order : LookupOrder}
    {knows : String → Bool} {scope : Scope} {result : Option Referent}
    (stands : model.StandsFor name order knows scope result) :
    Id.run (model.resolveName order (fun asked => pure (knows asked)) name scope) = result := by
  cases stands with
  | itself own =>
      unfold resolveName
      rw [if_pos (by simpa using own)]
      rfl
  | typeVariable simple plain names =>
      rw [run_resolveName simple plain, (typeVariable?_eq_some_iff descends scope _).mpr names]
      rfl
  | fullName simple plain none offered admits first =>
      rw [run_resolveName simple plain, (typeVariable?_eq_none_iff descends scope).mpr none,
        (firstAdmissible_eq_some_iff descends order knows scope _).mpr
          ⟨_, offered, admits, first⟩]
      rfl
  | nothing simple plain none missed =>
      rw [run_resolveName simple plain, (typeVariable?_eq_none_iff descends scope).mpr none,
        (firstAdmissible_eq_none_iff descends order knows scope).mpr missed]
      rfl

/-- A name stands for what the search finds and for nothing else. -/
theorem resolveName_eq_iff (descends : model.Descends) (order : LookupOrder)
    (knows : String → Bool) (scope : Scope) (result : Option Referent) :
    Id.run (model.resolveName order (fun asked => pure (knows asked)) name scope) = result ↔
      model.StandsFor name order knows scope result :=
  ⟨fun found => found ▸ standsFor_resolveName descends order knows scope,
    fun stands => stands.resolveName_eq descends⟩

end Model

/-- A look-up finds what the name stands for at the place and nothing else: itself, a type
variable, or the first admissible one of the full names that are offered for it. -/
theorem lookUp_follows_order {session : Session} (reachable : session.project.model.Reachable)
    (files : FileTree) (name : String) (scope : Scope) (result : Option Referent) :
    (Session.lookUp name scope files session).1 = result ↔
      session.project.model.StandsFor name session.project.settings.order
        (session.library.answer files) scope result := by
  obtain ⟨library, -, looked⟩ := session.lookUp_eq files name scope
  rw [looked]
  exact Model.resolveName_eq_iff reachable.descends _ _ scope result

/-- An inner class that the library does not know yields to the single import of its name. -/
theorem unknown_inner_class_yields_to_import :
    let source := "import p.Name; class A \x7b class Name \x7b\x7d Name field; \x7d"
    let session := (Session.build source {} { project := {}, library := .ofCore }).2
    session.project.model.Reachable ∧
      session.project.model.StandsFor "Name" .nestedFirst (session.library.answer {})
        { unit := ⟨0⟩, classId := some ⟨0⟩ } (some (.named "p.Name")) := by
  intro source session
  have reachable : session.project.model.Reachable := .addSource .empty _
  refine ⟨reachable, (lookUp_follows_order reachable {} "Name" _ _).mp ?_⟩
  decide +kernel

end JavaDecl
