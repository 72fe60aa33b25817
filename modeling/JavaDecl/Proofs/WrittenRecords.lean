import JavaDecl.Proofs.HandedAnnotations
import JavaDecl.Proofs.UnitRecords

/-!
# Records of what is written

A record says the same of annotations whatever comments, imports and directives come between
the events, and that of what is written in a unit has each declaration with the annotations
among its own modifiers.
-/

namespace JavaDecl

/-! ### Records without comments -/

/-- The annotations that wait, without the comment and its tags. -/
def Notes.bare (notes : Notes) : Notes where
  uses := notes.uses

def MethodRecord.bare (method : MethodRecord) : MethodRecord :=
  { method with notes := method.notes.bare }

/-- A record without comments and tags. -/
def UnitRecord.bare (record : UnitRecord) : UnitRecord where
  notes := record.notes.bare
  package := record.package.map (Prod.map id Notes.bare)
  moduleDecl := record.moduleDecl.map (Prod.map id Notes.bare)
  classes := record.classes.map (Prod.map id Notes.bare)
  fields := record.fields.map (Prod.map id Notes.bare)
  methods := record.methods.map MethodRecord.bare

/-- Changes of the last item that agree on what is kept. -/
theorem map_changeLast_of {α β : Type} {change : α → α} {other : β → β} {keep : α → β}
    (agree : ∀ item, keep (change item) = other (keep item)) (items : List α) :
    (changeLast change items).map keep = changeLast other (items.map keep) := by
  induction items with
  | nil => rfl
  | cons item rest ih =>
      cases rest with
      | nil => simp [changeLast, agree]
      | cons next rest => simpa [changeLast] using ih

theorem bare_after_of_isWritten (record : UnitRecord) {event : Event}
    (isWritten : event.isWritten) : (record.after event).bare = record.bare.after event := by
  cases event with
  | parameter declared =>
      simp only [UnitRecord.after, UnitRecord.bare, UnitRecord.mk.injEq, true_and]
      exact ⟨rfl, map_changeLast_of (by intro _; rfl) _⟩
  | endConstructor declared | endMethod declared =>
      simp only [UnitRecord.after, UnitRecord.bare, UnitRecord.mk.injEq, true_and]
      exact ⟨rfl, map_changeLast_of (by intro _; rfl) _⟩
  | docText | docTag | imported | requires | exported | opened | uses | provides => cases isWritten
  | _ => simp [UnitRecord.after, UnitRecord.bare, MethodRecord.bare, Notes.after, Notes.bare]

theorem bare_after_of_not_isWritten (record : UnitRecord) {event : Event}
    (unwritten : event.isWritten = false) : (record.after event).bare = record.bare := by
  cases event <;> first | rfl | cases unwritten

/-- What is noted of annotations depends on what is written alone. -/
theorem bare_recordOf (events : List Event) :
    (recordOf events).bare = recordOf (events.filter Event.isWritten) := by
  have fold (record : UnitRecord) : (events.foldl UnitRecord.after record).bare =
      (events.filter Event.isWritten).foldl UnitRecord.after record.bare := by
    induction events generalizing record with
    | nil => rfl
    | cons event rest ih =>
        rw [List.foldl_cons, ih]
        by_cases isWritten : event.isWritten = true
        · rw [List.filter_cons_of_pos isWritten, List.foldl_cons,
            bare_after_of_isWritten record isWritten]
        · rw [List.filter_cons_of_neg isWritten,
            bare_after_of_not_isWritten record (Bool.eq_false_iff.mpr isWritten)]
  exact fold {}

/-! ### The record of what is written -/

def Annotated.entry {α : Type} (written : Annotated α) : α × Notes :=
  (written.declared, { uses := written.uses })

def WrittenMethod.record (written : WrittenMethod) : MethodRecord where
  isConstructor := written.header.declared.isConstructor
  notes := { uses := written.header.uses }
  parameters := written.parameters.map fun parameter => (parameter.declared, parameter.uses)
  declared := some written.header.declared

namespace Writing

/-- The classes, each before those in it. -/
@[simp]
def classes : Writing → List (Annotated ClassDecl)
  | nothing => []
  | aClass header inner rest => header :: (inner.classes ++ rest.classes)
  | constantWithBody _ body inner rest => ⟨body, []⟩ :: (inner.classes ++ rest.classes)
  | fields _ rest | constant _ rest | method _ rest | initializer _ rest => rest.classes

/-- The fields and enumeration constants; all variables of a declaration have its
annotations. -/
@[simp]
def allFields : Writing → List (Annotated VariableDecl)
  | nothing => []
  | aClass _ inner rest => inner.allFields ++ rest.allFields
  | fields group rest =>
      group.declared.map (⟨·, group.uses⟩) ++ rest.allFields
  | constant header rest => header :: rest.allFields
  | constantWithBody header _ inner rest => header :: (inner.allFields ++ rest.allFields)
  | method _ rest | initializer _ rest => rest.allFields

@[simp]
def methods : Writing → List WrittenMethod
  | nothing => []
  | aClass _ inner rest | constantWithBody _ _ inner rest => inner.methods ++ rest.methods
  | method written rest => written :: rest.methods
  | fields _ rest | constant _ rest | initializer _ rest => rest.methods

end Writing

def UnitRecord.adding (record : UnitRecord) (writing : Writing) : UnitRecord :=
  { record with
    classes := record.classes ++ writing.classes.map Annotated.entry
    fields := record.fields ++ writing.allFields.map Annotated.entry
    methods := record.methods ++ writing.methods.map WrittenMethod.record }

/-- Nothing waits after an event that has taken its annotations. -/
theorem Annotated.IsProper.after {part : Annotated Event} (proper : part.IsProper) :
    ({ uses := part.uses } : Notes).after part.declared = {} := by
  obtain ⟨declared, uses⟩ := part
  obtain ⟨isWritten, plain, takes⟩ := proper
  rcases takes with rfl | takes
  · cases declared <;> first | rfl | contradiction
  · cases declared <;> first | rfl | cases takes

/-- The record after an event and the annotations in front of it. -/
def UnitRecord.told (record : UnitRecord) (part : Annotated Event) : UnitRecord :=
  { record with notes := { uses := part.uses } }.after part.declared

theorem foldl_annotating (record : UnitRecord) (uses : List (AnnotationUse TypeExpr)) :
    (annotating uses).foldl UnitRecord.after record =
      { record with notes := { record.notes with uses := record.notes.uses ++ uses } } := by
  induction uses generalizing record with
  | nil => simp
  | cons use uses ih =>
      change (annotating uses).foldl UnitRecord.after (record.after (.annotated use)) = _
      rw [ih]
      simp [UnitRecord.after, Notes.after]

/-- Events are told with their annotations, and nothing waits after them. -/
theorem foldl_saying {record : UnitRecord} (none : record.notes = {})
    {parts : List (Annotated Event)} (proper : ∀ part ∈ parts, part.IsProper) :
    (saying parts).foldl UnitRecord.after record = parts.foldl UnitRecord.told record ∧
      (parts.foldl UnitRecord.told record).notes = {} := by
  induction parts generalizing record with
  | nil => exact ⟨rfl, none⟩
  | cons part parts ih =>
      obtain ⟨first, rest⟩ := List.forall_mem_cons.mp proper
      have told : (annotating part.uses).foldl UnitRecord.after record =
          { record with notes := { uses := part.uses } } := by
        rw [foldl_annotating, none]
        rfl
      rw [saying_cons, List.foldl_append, List.foldl_cons, told, List.foldl_cons]
      exact ih first.after rest

theorem foldl_parameters {record : UnitRecord} {methods : List MethodRecord} {last : MethodRecord}
    (none : record.notes = {}) (begun : record.methods = methods ++ [last])
    (parameters : List (Annotated VariableDecl)) :
    (parameters.map (·.map Event.parameter)).foldl UnitRecord.told record =
      { record with
        methods := methods ++ [{ last with
          parameters := last.parameters ++
            parameters.map fun parameter => (parameter.declared, parameter.uses) }] } := by
  induction parameters generalizing record last with
  | nil => simp [← begun]
  | cons parameter parameters ih =>
      have told : record.told (parameter.map .parameter) =
          { record with
            methods := methods ++ [{ last with
              parameters := last.parameters ++ [(parameter.declared, parameter.uses)] }] } := by
        simp [UnitRecord.told, UnitRecord.after, Annotated.map, Notes.after, begun, none]
      rw [List.map_cons, List.foldl_cons, told, ih (by exact none) rfl]
      simp

theorem foldl_method {record : UnitRecord} (none : record.notes = {}) (written : WrittenMethod) :
    written.parts.foldl UnitRecord.told record =
      { record with methods := record.methods ++ [written.record] } := by
  obtain ⟨⟨declared, uses⟩, parameters⟩ := written
  have begun : record.told ⟨Event.beginOf declared.isConstructor, uses⟩ =
      { record with
        methods := record.methods ++
          [{ isConstructor := declared.isConstructor, notes := { uses } }] } := by
    cases sort : declared.isConstructor <;>
      simp [UnitRecord.told, UnitRecord.after, Event.beginOf, Notes.after, none]
  have ended (between : UnitRecord) (same : between.notes = {}) :
      between.told ⟨Event.endOf declared.isConstructor declared, []⟩ =
        { between with
          methods := changeLast ({ · with declared := some declared }) between.methods } := by
    cases sort : declared.isConstructor <;>
      simp [UnitRecord.told, UnitRecord.after, Event.endOf, Notes.after, same]
  have split : WrittenMethod.parts ⟨⟨declared, uses⟩, parameters⟩ =
      ⟨Event.beginOf declared.isConstructor, uses⟩ ::
        (parameters.map (·.map .parameter) ++
          [⟨Event.endOf declared.isConstructor declared, []⟩]) := rfl
  rw [split, List.foldl_cons, List.foldl_append, List.foldl_cons, List.foldl_nil, begun,
    foldl_parameters (by exact none) rfl, ended _ (by exact none)]
  simp [WrittenMethod.record]

theorem foldl_fieldParts {record : UnitRecord} (none : record.notes = {})
    (group : Annotated (List VariableDecl)) :
    (fieldParts group).foldl UnitRecord.told record =
      { record with
        fields := record.fields ++
          group.declared.map fun declared => (declared, { uses := group.uses }) } := by
  obtain ⟨declared, uses⟩ := group
  induction declared generalizing record with
  | nil => simp [fieldParts]
  | cons first rest ih =>
      have split : fieldParts ⟨first :: rest, uses⟩ =
          ⟨.beginField first, uses⟩ :: ⟨.endField, []⟩ :: fieldParts ⟨rest, uses⟩ := rfl
      have told : (record.told ⟨.beginField first, uses⟩).told ⟨.endField, []⟩ =
          { record with fields := record.fields ++ [(first, { uses })] } := by
        simp [UnitRecord.told, UnitRecord.after, Notes.after, none]
      rw [split, List.foldl_cons, List.foldl_cons, told, ih (by exact none)]
      simp

theorem foldl_parts {record : UnitRecord} (none : record.notes = {}) (writing : Writing) :
    writing.parts.foldl UnitRecord.told record = record.adding writing := by
  induction writing generalizing record with
  | nothing => simp [Writing.parts, UnitRecord.adding]
  | aClass header inner rest innerIh ih =>
      rw [Writing.parts, List.foldl_cons, List.foldl_append, List.foldl_cons, innerIh rfl, ih rfl]
      simp [UnitRecord.adding, UnitRecord.told, UnitRecord.after, Annotated.entry, Annotated.map,
        Notes.after, none]
  | fields group rest ih =>
      rw [Writing.parts, List.foldl_append, foldl_fieldParts none, ih (by exact none)]
      simp [UnitRecord.adding, Annotated.entry, Function.comp_def]
  | constant header rest ih =>
      rw [Writing.parts, List.foldl_cons, List.foldl_cons, ih rfl]
      simp [UnitRecord.adding, UnitRecord.told, UnitRecord.after, Annotated.entry, Annotated.map,
        Notes.after, none]
  | constantWithBody header body inner rest innerIh ih =>
      rw [Writing.parts, List.foldl_cons, List.foldl_cons, List.foldl_append, List.foldl_cons,
        List.foldl_cons, innerIh rfl, ih rfl]
      simp [UnitRecord.adding, UnitRecord.told, UnitRecord.after, Annotated.entry, Annotated.map,
        Notes.after, none]
  | method written rest ih =>
      rw [Writing.parts, List.foldl_append, foldl_method none, ih (by exact none)]
      simp [UnitRecord.adding]
  | initializer declared rest ih =>
      rw [Writing.parts, List.foldl_cons, ih rfl]
      simp [UnitRecord.adding, UnitRecord.told, UnitRecord.after, Notes.after, none]

def UnitWriting.record (writing : UnitWriting) : UnitRecord :=
  UnitRecord.adding
    { package := writing.package.map Annotated.entry
      moduleDecl := writing.moduleDecl.map Annotated.entry } writing.declarations

theorem recordOf_saying (writing : UnitWriting) :
    recordOf (saying writing.parts) = writing.record := by
  rw [recordOf, (foldl_saying rfl writing.parts_proper).1, UnitWriting.parts, List.foldl_append,
    UnitWriting.record, ← foldl_parts rfl]
  congr 1
  obtain ⟨package, moduleDecl, declarations⟩ := writing
  cases package <;> cases moduleDecl <;> rfl

end JavaDecl
