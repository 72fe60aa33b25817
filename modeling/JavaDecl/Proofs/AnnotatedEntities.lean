import JavaDecl.Proofs.MirroredUnits
import JavaDecl.Proofs.WrittenRecords

/-!
# Annotations and the declarations they are written on

Every declaration of a source text that is accepted has, in the model, the annotations that
are written among its own modifiers and no others.  They are announced right before it, and
none waits where those of another declaration come.
-/

namespace JavaDecl

/-! ### What declarations carry -/

def AnnotationUse.written (use : AnnotationUse TypeRef) : AnnotationUse TypeExpr :=
  use.mapPaths (fun _ ref => ref.type) []

mutual

/-- An annotation and those among its values, which may hold others in turn. -/
def AnnotationUse.all {τ : Type} : AnnotationUse τ → List (AnnotationUse τ)
  | ⟨type, values, line⟩ => ⟨type, values, line⟩ :: usesOfPairs values

def usesOfPairs {τ : Type} : List (String × ElementValue τ) → List (AnnotationUse τ)
  | [] => []
  | (_, value) :: rest => value.uses ++ usesOfPairs rest

def ElementValue.uses {τ : Type} : ElementValue τ → List (AnnotationUse τ)
  | .nested use => use.all
  | .array items => usesOfItems items
  | .constant _ | .classLiteral _ | .expression _ => []

def usesOfItems {τ : Type} : List (ElementValue τ) → List (AnnotationUse τ)
  | [] => []
  | item :: rest => item.uses ++ usesOfItems rest

end

/-- Annotations of a declaration are those that are written on it, and the declaration holds
each of them, also those among the values of others. -/
structure Bears (holder : Holder) (uses : List (AnnotationUse TypeRef))
    (written : List (AnnotationUse TypeExpr)) : Prop where
  written : uses.map AnnotationUse.written = written
  holder : ∀ use ∈ uses, ∀ inner ∈ use.all, inner.holder = holder

section MapPaths

variable {scope : Scope} {holder : Holder} {role : RefRole}

mutual

/-- An annotation is read back from its types in the model. -/
theorem AnnotationUse.mapPaths_type (path other : List Nat) :
    (use : AnnotationUse TypeExpr) →
      (use.mapPaths (typeAtPath scope holder role) path).mapPaths (fun _ ref => ref.type) other =
        use
  | ⟨type, values, line⟩ => by
      simp [AnnotationUse.mapPaths, typeAtPath, mapPathsOfPairs_type]

theorem mapPathsOfPairs_type (path other : List Nat) (position first : Nat) :
    (values : List (String × ElementValue TypeExpr)) →
      mapPathsOfPairs (fun _ ref => ref.type) other first
        (mapPathsOfPairs (typeAtPath scope holder role) path position values) = values
  | [] => rfl
  | (element, value) :: rest => by
      simp [mapPathsOfPairs, ElementValue.mapPaths_type, mapPathsOfPairs_type]

theorem ElementValue.mapPaths_type (path other : List Nat) :
    (value : ElementValue TypeExpr) →
      (value.mapPaths (typeAtPath scope holder role) path).mapPaths (fun _ ref => ref.type) other =
        value
  | .constant text => rfl
  | .classLiteral type => rfl
  | .nested use => by simp [ElementValue.mapPaths, AnnotationUse.mapPaths_type]
  | .array items => by simp [ElementValue.mapPaths, mapPathsOfItems_type]
  | .expression text => rfl

theorem mapPathsOfItems_type (path other : List Nat) (position first : Nat) :
    (items : List (ElementValue TypeExpr)) →
      mapPathsOfItems (fun _ ref => ref.type) other first
        (mapPathsOfItems (typeAtPath scope holder role) path position items) = items
  | [] => rfl
  | item :: rest => by
      simp [mapPathsOfItems, ElementValue.mapPaths_type, mapPathsOfItems_type]

end

mutual

theorem AnnotationUse.holder_of_mem_all (path : List Nat) :
    (use : AnnotationUse TypeExpr) →
      ∀ inner ∈ (use.mapPaths (typeAtPath scope holder role) path).all, inner.holder = holder
  | ⟨type, values, line⟩ => by
      simp only [AnnotationUse.mapPaths, AnnotationUse.all, List.forall_mem_cons]
      exact ⟨rfl, holder_of_mem_usesOfPairs path 1 values⟩

theorem holder_of_mem_usesOfPairs (path : List Nat) (position : Nat) :
    (values : List (String × ElementValue TypeExpr)) →
      ∀ inner ∈ usesOfPairs (mapPathsOfPairs (typeAtPath scope holder role) path position values),
        inner.holder = holder
  | [] => by simp [mapPathsOfPairs, usesOfPairs]
  | (element, value) :: rest => by
      simp only [mapPathsOfPairs, usesOfPairs, List.forall_mem_append]
      exact ⟨ElementValue.holder_of_mem_uses (position :: path) value,
        holder_of_mem_usesOfPairs path (position + 1) rest⟩

theorem ElementValue.holder_of_mem_uses (path : List Nat) :
    (value : ElementValue TypeExpr) →
      ∀ inner ∈ (value.mapPaths (typeAtPath scope holder role) path).uses, inner.holder = holder
  | .constant text | .classLiteral type | .expression text => by
      simp [ElementValue.mapPaths, ElementValue.uses]
  | .nested use => by
      simpa only [ElementValue.mapPaths, ElementValue.uses] using
        AnnotationUse.holder_of_mem_all path use
  | .array items => by
      simpa only [ElementValue.mapPaths, ElementValue.uses] using
        holder_of_mem_usesOfItems path 0 items

theorem holder_of_mem_usesOfItems (path : List Nat) (position : Nat) :
    (items : List (ElementValue TypeExpr)) →
      ∀ inner ∈ usesOfItems (mapPathsOfItems (typeAtPath scope holder role) path position items),
        inner.holder = holder
  | [] => by simp [mapPathsOfItems, usesOfItems]
  | item :: rest => by
      simp only [mapPathsOfItems, usesOfItems, List.forall_mem_append]
      exact ⟨ElementValue.holder_of_mem_uses (position :: path) item,
        holder_of_mem_usesOfItems path (position + 1) rest⟩

end

theorem bears_usesAt (scope : Scope) (holder : Holder) (role : Nat → RefRole)
    (uses : List (AnnotationUse TypeExpr)) :
    Bears holder (Assembly.usesAt scope holder role uses) uses := by
  constructor
  · unfold Assembly.usesAt
    rw [List.map_map]
    refine Eq.trans (List.map_congr_left fun pair _ => ?_) (List.zipIdx_map_fst 0 uses)
    exact AnnotationUse.mapPaths_type [] [] pair.1
  · intro use member
    obtain ⟨pair, -, rfl⟩ := List.mem_map.mp member
    exact AnnotationUse.holder_of_mem_all [] pair.1

end MapPaths

/-- A method or constructor bears what is written on it and on its parameters. -/
structure MethodEntity.BearsWritten (entity : MethodEntity) (id : MethodId)
    (written : WrittenMethod) : Prop where
  name : entity.name = written.header.declared.name
  isConstructor : entity.isConstructor = written.header.declared.isConstructor
  uses : Bears (.ofMethod id) entity.uses written.header.uses
  parameters : Lists written.parameters 0 entity.parameters.length fun position parameter =>
    ∃ found, entity.parameters[position]? = some found ∧
      found.name = parameter.declared.name ∧
        Bears (.ofParameter id position) found.uses parameter.uses

/-- The declarations of a unit that has been added bear what is written on them, in the order
of the text.  There are no others. -/
structure Model.BearsWritten (model grown : Model) (unit : UnitId) (writing : UnitWriting) :
    Prop where
  package : Option.Rel
    (fun entity written => entity.name = written.declared.name ∧
      Bears (.ofUnit unit) entity.uses written.uses)
    (grown.unit unit).package writing.package
  moduleDecl : Option.Rel
    (fun entity written => entity.name = written.declared.name ∧
      Bears (.ofUnit unit) entity.uses written.uses)
    (grown.unit unit).moduleDecl writing.moduleDecl
  classes : Lists writing.declarations.classes model.classes.size grown.classes.size
    fun position written => (grown.classAt ⟨position⟩).name = written.declared.name ∧
      Bears (.ofClass ⟨position⟩) (grown.classAt ⟨position⟩).uses written.uses
  fields : Lists writing.declarations.allFields model.fields.size grown.fields.size
    fun position written => (grown.field ⟨position⟩).name = written.declared.name ∧
      Bears (.ofField ⟨position⟩) (grown.field ⟨position⟩).uses written.uses
  methods : Lists writing.declarations.methods model.methods.size grown.methods.size
    fun position written => (grown.method ⟨position⟩).BearsWritten ⟨position⟩ written

/-- Lists with the same keys have entries for each other. -/
theorem Lists.ofKeys {α β κ : Type} {items : List α} {others : List β} {start count : Nat}
    {holds : Nat → α → Prop} {holds' : Nat → β → Prop} {key : α → κ} {key' : β → κ}
    (lists : Lists items start count holds) (same : items.map key = others.map key')
    (imp : ∀ position item other, key item = key' other → holds position item →
      holds' position other) : Lists others start count holds' := by
  have length : items.length = others.length := by simpa using congrArg List.length same
  refine ⟨by rw [lists.count, length], fun position other found => ?_⟩
  have listed : (others.map key')[position]? = some (key' other) := by simp [found]
  rw [← same, List.getElem?_map, Option.map_eq_some_iff] at listed
  obtain ⟨item, there, equal⟩ := listed
  exact imp _ item other equal (lists.holds position item there)

/-- Entries for the same key are related to the same. -/
theorem rel_of_keys {α β γ κ : Type} {entity : Option α} {item : Option β}
    {other : Option γ} {holds : α → β → Prop} {holds' : α → γ → Prop} {key : β → κ}
    {key' : γ → κ} (related : Option.Rel holds entity item) (same : item.map key = other.map key')
    (imp : ∀ found one another, key one = key' another → holds found one →
      holds' found another) : Option.Rel holds' entity other := by
  cases related with
  | none =>
      cases other with
      | none => exact .none
      | some another => cases same
  | some known =>
      cases other with
      | none => cases same
      | some another => exact .some (imp _ _ _ (Option.some.inj same) known)

theorem methodEntity_bearsWritten (unit : UnitId) (owner : ClassId) (id : MethodId)
    {written : WrittenMethod} {method : MethodRecord} (same : method.bare = written.record) :
    (Assembly.methodEntity unit owner id method.waiting written.header.declared).BearsWritten id
      written := by
  obtain ⟨isConstructor, notes, parameters, declared⟩ := method
  simp only [MethodRecord.bare, WrittenMethod.record, Notes.bare, MethodRecord.mk.injEq,
    Notes.mk.injEq, true_and] at same
  obtain ⟨rfl, uses, rfl, -⟩ := same
  refine ⟨rfl, rfl, uses ▸ bears_usesAt _ _ _ _, ?_⟩
  refine ⟨by simp [Assembly.methodEntity, MethodRecord.waiting], fun position parameter found => ?_⟩
  rw [Nat.zero_add]
  let scope : Scope := { unit, classId := some owner, method := some id }
  refine ⟨Assembly.parameterEntity scope id position parameter.declared parameter.uses, ?_, rfl,
    bears_usesAt _ _ _ _⟩
  simp [Assembly.methodEntity, MethodRecord.waiting, found, scope]

theorem Model.Records.bearsWritten {model grown : Model} {unit : UnitId} {record : UnitRecord}
    {writing : UnitWriting} (records : model.Records grown unit record)
    (same : record.bare = writing.record) : model.BearsWritten grown unit writing := by
  simp only [UnitRecord.bare, UnitWriting.record, UnitRecord.adding, UnitRecord.mk.injEq,
    List.nil_append] at same
  obtain ⟨-, package, moduleDecl, classes, fields, methods⟩ := same
  have entry {α : Type} {item : α × Notes} {written : Annotated α}
      (equal : Prod.map id Notes.bare item = written.entry) :
      item.1 = written.declared ∧ item.2.uses = written.uses :=
    ⟨congrArg Prod.fst equal, congrArg (Notes.uses ∘ Prod.snd) equal⟩
  refine ⟨?_, ?_, records.classes.ofKeys classes ?_, records.fields.ofKeys fields ?_,
    records.methods.ofKeys methods ?_⟩
  · have related : Option.Rel (fun entity entry => entity = packageOf unit entry)
        (grown.unit unit).package record.package := by
      rw [records.package]
      cases record.package with
      | none => exact .none
      | some noted => exact .some rfl
    refine rel_of_keys related package fun found one another equal bears => ?_
    obtain ⟨declared, uses⟩ := entry equal
    rw [bears, ← declared, ← uses]
    exact ⟨rfl, bears_usesAt _ _ _ _⟩
  · refine rel_of_keys records.moduleDecl moduleDecl fun found one another equal bears => ?_
    obtain ⟨declared, uses⟩ := entry equal
    rw [bears.name, bears.uses, declared, uses]
    exact ⟨rfl, bears_usesAt _ _ _ _⟩
  · intro position one another equal bears
    obtain ⟨declared, uses⟩ := entry equal
    have marks : (grown.classAt ⟨position⟩).uses = _ := congrArg Marks.uses bears.marks
    rw [bears.name, declared, marks]
    exact ⟨rfl, uses ▸ bears_usesAt _ _ _ _⟩
  · intro position one another equal bears
    obtain ⟨declared, uses⟩ := entry equal
    have marks : (grown.field ⟨position⟩).uses = _ := congrArg Marks.uses bears.marks
    rw [bears.name, declared, marks]
    exact ⟨rfl, uses ▸ bears_usesAt _ _ _ _⟩
  · rintro position one another equal ⟨declared, owner, ended, entity⟩
    have same : declared = another.header.declared := by
      have known := congrArg MethodRecord.declared equal
      exact Option.some.inj (ended.symm.trans known)
    rw [entity, same]
    exact methodEntity_bearsWritten unit owner ⟨position⟩ equal

/-- Where the annotations of a declaration begin to be announced, none waits. -/
def NoneWaits (model : Model) (events : List Event) (parts : List (Annotated Event)) : Prop :=
  ∀ front part back before after, parts = front ++ part :: back → events = before ++ after →
    before.filter Event.isWritten = saying front →
      ∃ between, Assembly.Takes before (.ofModel model) between ∧ between.uses = []

theorem noneWaits_of_accepted (model : Model) {source : List Char} (writing : UnitWriting)
    (accepted : (readUnit source).2 = none) :
    NoneWaits model (readUnit source).1 writing.parts := by
  intro front part back before after parts split plain
  obtain ⟨missing, nested, complete, -⟩ := readUnit_announces source
  rw [complete accepted, List.append_nil] at nested
  obtain ⟨last, taken, -⟩ := Assembly.takes_nested nested (Assembly.standsIn_ofModel model)
  rw [split] at taken
  obtain ⟨between, first, -⟩ := Assembly.takes_append.mp taken
  refine ⟨between, first, ?_⟩
  have matched := ((Assembly.Matches.ofModel model).takes first).notes
  have proper : ∀ part ∈ front, part.IsProper := fun part member =>
    writing.parts_proper part (parts ▸ List.mem_append_left _ member)
  have bare : (recordOf before).bare = (saying front).foldl UnitRecord.after {} := by
    rw [bare_recordOf, plain, recordOf]
  have none : (recordOf before).bare.notes = {} := by
    rw [bare, (foldl_saying rfl proper).1]
    exact (foldl_saying rfl proper).2
  exact (congrArg Notes.uses matched).trans (congrArg Notes.uses none)

/-- What is announced of a text that is accepted is what is written in it, each declaration
right behind the annotations among its own modifiers.  Only annotations and comments come
between an annotation and the declaration that takes it, and none waits where the next ones
come.  In the model each declaration bears exactly the annotations that are written on it,
in their order and as their holder, all variables of one field declaration the same ones. -/
theorem annotations_stay_in_place (model : Model) {source : List Char}
    (accepted : (readUnit source).2 = none) :
    ∃ writing grown rest, UnitText source writing (TokenStream.ofSource source).rest rest ∧
      (readUnit source).1.filter Event.isWritten = saying writing.parts ∧
        HandsOver (readUnit source).1 ∧ NoneWaits model (readUnit source).1 writing.parts ∧
          model.addSource source = (grown, .ok ⟨model.units.size⟩) ∧
            model.BearsWritten grown ⟨model.units.size⟩ writing := by
  obtain ⟨writing, rest, stands, told⟩ := unitText_of_accepted accepted
  obtain ⟨grown, added, -⟩ := model.addUnit_of_accepted accepted
  refine ⟨writing, grown, rest, stands, told, handsOver_of_accepted accepted,
    noneWaits_of_accepted model writing accepted, Model.addSource_of_accepted accepted added, ?_⟩
  refine (Model.addUnit_records added).2.bearsWritten ?_
  rw [bare_recordOf, told, recordOf_saying]

/-- Two variables behind the same annotations, one of which holds another. -/
theorem variables_share_annotations :
    let source := "class C \x7b @A(@B) @D int i, j; void f(@E int k) \x7b\x7d \x7d".toList
    (readUnit source).2 = none ∧ ∃ writing grown,
      ({} : Model).addSource source = (grown, .ok ⟨0⟩) ∧
        grown.fields.toList.map (fun field => (field.name, field.uses.map (·.type.name))) =
          [("i", ["A", "D"]), ("j", ["A", "D"])] ∧
        ({} : Model).BearsWritten grown ⟨0⟩ writing := by
  intro source
  have accepted : (readUnit source).2 = none := Option.isNone_iff_eq_none.mp (by decide +kernel)
  have names : (({} : Model).addSource source).1.fields.toList.map
      (fun field => (field.name, field.uses.map (·.type.name))) =
        [("i", ["A", "D"]), ("j", ["A", "D"])] := by
    decide +kernel
  obtain ⟨writing, grown, _, -, -, -, -, added, bears⟩ := annotations_stay_in_place {} accepted
  rw [added] at names
  exact ⟨accepted, writing, grown, added, names, bears⟩

end JavaDecl
