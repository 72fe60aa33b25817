import JavaDecl.Proofs.UnitRecords
import Mathlib.Data.List.Induction

/-!
# Comments and the declarations after them

A doc comment waits until an event takes it, and so do its tags.  What a unit's declarations
are documented with is told here from the events alone.  The package, an import, a class, a
method, a field, an initializer and a module take the comment that waits, and the end of a
class drops it.  A parameter does not, so that a comment in a list of parameters goes to the
declaration after the method.
-/

namespace JavaDecl

namespace Event

/-- The text of a new comment. -/
def docText? : Event → Option String
  | docText text => some text
  | _ => none

/-- A tag of the comment before it. -/
def docTag? : Event → Option DocTag
  | docTag tag => some tag
  | _ => none

def isClassBegin : Event → Bool
  | beginClass _ => true
  | _ => false

def isFieldBegin : Event → Bool
  | beginField _ => true
  | _ => false

def isMethodBegin : Event → Bool
  | beginMethod | beginConstructor => true
  | _ => false

def isPackage : Event → Bool
  | package _ => true
  | _ => false

def isModuleHeader : Event → Bool
  | moduleHeader _ => true
  | _ => false

def isParameter : Event → Bool
  | parameter _ => true
  | _ => false

/-- Whether the comment that waits is taken or dropped. -/
def takesComment : Event → Bool
  | package _ | imported _ | beginClass _ | endClass | beginConstructor | beginMethod
  | beginField _ | initializer _ | moduleHeader _ => true
  | _ => false

/-- Whether a declaration is announced or a class ends.  Parameters are declared too. -/
def declares (event : Event) : Bool :=
  event.takesComment || event.isParameter

end Event

/-! ### Comments that wait -/

/-- No comment comes and none is taken. -/
def Quiet (takes : Event → Bool) (events : List Event) : Prop :=
  ∀ event ∈ events, takes event = false ∧ event.docText? = none

/-- A comment and tags wait after some events: the last comment that no later event has
taken, with the tags after it. -/
inductive Waits (takes : Event → Bool) (events : List Event) :
    Option String → List DocTag → Prop where
  | comment {front back : List Event} {text : String} :
      events = front ++ .docText text :: back → Quiet takes back →
        Waits takes events (some text) (back.filterMap Event.docTag?)
  | taken {front back : List Event} {event : Event} :
      events = front ++ event :: back → takes event = true → event.docText? = none →
        Quiet takes back → Waits takes events none (back.filterMap Event.docTag?)
  | never : Quiet takes events → Waits takes events none (events.filterMap Event.docTag?)

/-- The comment and tags that wait after one more event. -/
def waitAfter (takes : Event → Bool) (waiting : Option String × List DocTag) (event : Event) :
    Option String × List DocTag :=
  match event.docText? with
  | some text => (some text, [])
  | none =>
      if takes event then (none, []) else (waiting.1, waiting.2 ++ event.docTag?.toList)

theorem foldl_waitAfter_of_quiet {takes : Event → Bool} {events : List Event}
    (quiet : Quiet takes events) (waiting : Option String × List DocTag) :
    events.foldl (waitAfter takes) waiting =
      (waiting.1, waiting.2 ++ events.filterMap Event.docTag?) := by
  induction events generalizing waiting with
  | nil => simp
  | cons event rest ih =>
      obtain ⟨untaken, plain⟩ := quiet event List.mem_cons_self
      have first : waitAfter takes waiting event =
          (waiting.1, waiting.2 ++ event.docTag?.toList) := by
        simp [waitAfter, plain, untaken]
      have later : Quiet takes rest := fun other member =>
        quiet other (List.mem_cons_of_mem _ member)
      rw [List.foldl_cons, first, ih later, List.filterMap_cons]
      cases event.docTag? <;> simp

theorem Quiet.concat {takes : Event → Bool} {events : List Event} (quiet : Quiet takes events)
    {event : Event} (untaken : takes event = false) (plain : event.docText? = none) :
    Quiet takes (events ++ [event]) := by
  intro other member
  rcases List.mem_append.mp member with before | last
  · exact quiet other before
  · rw [List.mem_singleton.mp last]
    exact ⟨untaken, plain⟩

/-- An event that neither brings nor takes a comment may bring a tag. -/
theorem Waits.concat {takes : Event → Bool} {events : List Event} {comment : Option String}
    {tags : List DocTag} (waits : Waits takes events comment tags) {event : Event}
    (untaken : takes event = false) (plain : event.docText? = none) :
    Waits takes (events ++ [event]) comment (tags ++ event.docTag?.toList) := by
  have further (back : List Event) : back.filterMap Event.docTag? ++ event.docTag?.toList =
      (back ++ [event]).filterMap Event.docTag? := by
    cases tag : event.docTag? <;> simp [List.filterMap_append, tag]
  cases waits with
  | @comment front back text split quiet =>
      rw [further]
      exact .comment (by rw [split, List.append_assoc, List.cons_append])
        (quiet.concat untaken plain)
  | @taken front back other split takes unwritten quiet =>
      rw [further]
      exact .taken (by rw [split, List.append_assoc, List.cons_append]) takes unwritten
        (quiet.concat untaken plain)
  | never quiet =>
      rw [further]
      exact .never (quiet.concat untaken plain)

/-- What waits is told by one pass over the events. -/
theorem waits_iff {takes : Event → Bool} {events : List Event} {comment : Option String}
    {tags : List DocTag} :
    Waits takes events comment tags ↔
      events.foldl (waitAfter takes) (none, []) = (comment, tags) := by
  constructor
  · intro waits
    cases waits with
    | @comment front back text split quiet =>
        rw [split, List.foldl_append, List.foldl_cons, foldl_waitAfter_of_quiet quiet]
        rfl
    | taken split takes plain quiet =>
        rw [split, List.foldl_append, List.foldl_cons, foldl_waitAfter_of_quiet quiet]
        simp [waitAfter, plain, takes]
    | never quiet =>
        rw [foldl_waitAfter_of_quiet quiet]
        rfl
  · -- The last event decides, so the induction goes from the end of the events.
    induction events using List.reverseRecOn generalizing comment tags with
    | nil =>
        rintro ⟨⟩
        exact .never (by simp [Quiet])
    | append_singleton front event ih =>
        intro told
        rw [List.foldl_append, List.foldl_cons, List.foldl_nil, waitAfter] at told
        have none : Quiet takes [] := by simp [Quiet]
        cases text : event.docText? with
        | some own =>
            rw [text] at told
            cases told
            have isText : event = .docText own := by
              cases event <;> cases text
              rfl
            rw [isText]
            exact .comment rfl none
        | none =>
            rw [text] at told
            by_cases taken : takes event = true
            · simp only [taken, if_true, Prod.mk.injEq] at told
              obtain ⟨rfl, rfl⟩ := told
              exact .taken rfl taken text none
            · simp only [taken, Bool.false_eq_true, if_false, Prod.mk.injEq] at told
              obtain ⟨rfl, rfl⟩ := told
              exact (ih rfl).concat (Bool.eq_false_iff.mpr taken) text

/-! ### Comments in records -/

theorem waits_recordOf (events : List Event) :
    Waits Event.takesComment events (recordOf events).notes.comment
      (recordOf events).notes.tags := by
  rw [waits_iff]
  induction events using List.reverseRecOn with
  | nil => rfl
  | append_singleton front event ih =>
      rw [List.foldl_append, ih, recordOf_append]
      cases event <;> simp [waitAfter, Notes.after, Event.docText?, Event.docTag?,
        Event.takesComment]

/-- A list in a record, which gets one more entry at certain events and changes at no other. -/
structure Listing (β : Type) where
  list : UnitRecord → List β
  begins : Event → Bool
  entry : UnitRecord → Event → Option β
  start : list {} = []
  grows : ∀ record event, list (record.after event) = list record ++ (entry record event).toList
  counts : ∀ record event, (entry record event).isSome = begins event

namespace Listing

def classes : Listing (ClassDecl × Notes) where
  list := UnitRecord.classes
  begins := Event.isClassBegin
  entry record
    | .beginClass declared => some (declared, record.notes)
    | _ => none
  start := rfl
  grows record event := by cases event <;> simp [UnitRecord.after]
  counts record event := by cases event <;> rfl

def fields : Listing (VariableDecl × Notes) where
  list := UnitRecord.fields
  begins := Event.isFieldBegin
  entry record
    | .beginField declared => some (declared, record.notes)
    | _ => none
  start := rfl
  grows record event := by cases event <;> simp [UnitRecord.after]
  counts record event := by cases event <;> rfl

/-- What is noted for the methods of a record.  Parameters and ends do not change it. -/
def methods : Listing Notes where
  list record := record.methods.map MethodRecord.notes
  begins := Event.isMethodBegin
  entry record
    | .beginMethod | .beginConstructor => some record.notes
    | _ => none
  start := rfl
  grows record event := by
    cases event <;> simp [UnitRecord.after, map_changeLast]
  counts record event := by cases event <;> rfl

variable {β : Type} (listing : Listing β)

/-- What a record lists stays listed after further events. -/
theorem prefix_foldl (record : UnitRecord) (events : List Event) :
    listing.list record <+: listing.list (events.foldl UnitRecord.after record) := by
  induction events generalizing record with
  | nil => exact List.prefix_rfl
  | cons event rest ih =>
      have one : listing.list record <+: listing.list (record.after event) := by
        rw [listing.grows]
        exact List.prefix_append _ _
      exact one.trans (ih (record.after event))

theorem length_recordOf (events : List Event) :
    (listing.list (recordOf events)).length = events.countP listing.begins := by
  induction events using List.reverseRecOn with
  | nil => exact congrArg List.length listing.start
  | append_singleton front event ih =>
      have one := listing.counts (recordOf front) event
      rw [recordOf_append, List.foldl_cons, List.foldl_nil, listing.grows, List.length_append, ih,
        List.countP_append, List.countP_singleton, ← one]
      cases listing.entry (recordOf front) event <;> rfl

/-- The entry for an event stands behind those for the events before it. -/
theorem getElem?_recordOf {front back : List Event} {event : Event} {item : β}
    (added : listing.entry (recordOf front) event = some item) :
    (listing.list (recordOf (front ++ event :: back)))[front.countP listing.begins]? =
      some item := by
  have now : listing.list ((recordOf front).after event) =
      listing.list (recordOf front) ++ [item] := by
    rw [listing.grows, added]
    rfl
  have kept := listing.prefix_foldl ((recordOf front).after event) back
  rw [← List.foldl_cons, ← recordOf_append, now] at kept
  obtain ⟨more, whole⟩ := kept
  rw [← whole, ← listing.length_recordOf front, List.append_assoc]
  simp

end Listing

/-- Events that change no part of a record leave it as it is. -/
theorem foldl_after_eq {β : Type} (part : UnitRecord → β) {changes : Event → Bool}
    (keeps : ∀ record event, changes event = false → part (record.after event) = part record)
    {events : List Event} (others : ∀ event ∈ events, changes event = false)
    (record : UnitRecord) : part (events.foldl UnitRecord.after record) = part record := by
  induction events generalizing record with
  | nil => rfl
  | cons event rest ih =>
      have further := ih fun later member => others later (List.mem_cons_of_mem _ member)
      rw [List.foldl_cons, further, keeps record event (others event List.mem_cons_self)]

theorem package_recordOf {front back : List Event} {declared : PackageDecl}
    (last : ∀ event ∈ back, event.isPackage = false) :
    (recordOf (front ++ .package declared :: back)).package =
      some (declared, (recordOf front).notes) := by
  rw [recordOf_append, List.foldl_cons]
  refine foldl_after_eq UnitRecord.package (fun record event other => ?_) last _
  cases event <;> first | rfl | cases other

theorem moduleDecl_recordOf {front back : List Event} {declared : ModuleDecl}
    (last : ∀ event ∈ back, event.isModuleHeader = false) :
    (recordOf (front ++ .moduleHeader declared :: back)).moduleDecl =
      some (declared, (recordOf front).notes) := by
  rw [recordOf_append, List.foldl_cons]
  refine foldl_after_eq UnitRecord.moduleDecl (fun record event other => ?_) last _
  cases event <;> first | rfl | cases other

/-! ### Documented declarations -/

/-- A declaration is documented with what waits after the events before it. -/
def Documented (takes : Event → Bool) (before : List Event) (holder : Holder)
    (comment : Option String) (tags : List HeldTag) : Prop :=
  ∃ waiting, Waits takes before comment waiting ∧ tags = Assembly.tagsOf holder waiting

/-- The declarations that the events of a unit begin are documented with what waits for them.
They are found in the order of their beginnings behind those of the model before, and there
are no others. -/
structure Model.DocumentedBy (takes : Event → Bool) (model grown : Model) (unit : UnitId)
    (events : List Event) : Prop where
  classCount : grown.classes.size = model.classes.size + events.countP Event.isClassBegin
  classAt : ∀ front declared back, events = front ++ .beginClass declared :: back →
    let id : ClassId := ⟨model.classes.size + front.countP Event.isClassBegin⟩
    Documented takes front (.ofClass id) (grown.classAt id).comment (grown.classAt id).tags
  fieldCount : grown.fields.size = model.fields.size + events.countP Event.isFieldBegin
  field : ∀ front declared back, events = front ++ .beginField declared :: back →
    let id : FieldId := ⟨model.fields.size + front.countP Event.isFieldBegin⟩
    Documented takes front (.ofField id) (grown.field id).comment (grown.field id).tags
  methodCount : grown.methods.size = model.methods.size + events.countP Event.isMethodBegin
  method : ∀ front event back, event.isMethodBegin = true → events = front ++ event :: back →
    let id : MethodId := ⟨model.methods.size + front.countP Event.isMethodBegin⟩
    Documented takes front (.ofMethod id) (grown.method id).comment (grown.method id).tags
  /-- The tags of a package's comment are dropped. -/
  package : ∀ front declared back, events = front ++ .package declared :: back →
    (∀ event ∈ back, event.isPackage = false) →
      ∃ entity tags, (grown.unit unit).package = some entity ∧
        Waits takes front entity.comment tags
  /-- The tags of a module's comment are dropped. -/
  moduleDecl : ∀ front declared back, events = front ++ .moduleHeader declared :: back →
    (∀ event ∈ back, event.isModuleHeader = false) →
      ∃ entity tags, (grown.unit unit).moduleDecl = some entity ∧
        Waits takes front entity.comment tags

/-- What is noted after some events waits, and becomes the marks of a declaration. -/
theorem documented_of_marks {front : List Event} {scope : Scope} {holder : Holder}
    {marks : Marks} (same : marks = (recordOf front).notes.marks scope holder) :
    Documented Event.takesComment front holder marks.comment marks.tags := by
  rw [same]
  exact ⟨_, waits_recordOf front, rfl⟩

namespace Model.Records

variable {model grown : Model} {unit : UnitId} {front back : List Event}

theorem documented_classAt {declared : ClassDecl}
    (records : model.Records grown unit (recordOf (front ++ .beginClass declared :: back))) :
    let id : ClassId := ⟨model.classes.size + front.countP Event.isClassBegin⟩
    Documented Event.takesComment front (.ofClass id) (grown.classAt id).comment
      (grown.classAt id).tags := by
  have listed : (recordOf (front ++ .beginClass declared :: back)).classes[
      front.countP Event.isClassBegin]? = some (declared, (recordOf front).notes) :=
    Listing.classes.getElem?_recordOf rfl
  exact documented_of_marks (records.classes.holds _ _ listed).marks

theorem documented_field {declared : VariableDecl}
    (records : model.Records grown unit (recordOf (front ++ .beginField declared :: back))) :
    let id : FieldId := ⟨model.fields.size + front.countP Event.isFieldBegin⟩
    Documented Event.takesComment front (.ofField id) (grown.field id).comment
      (grown.field id).tags := by
  have listed : (recordOf (front ++ .beginField declared :: back)).fields[
      front.countP Event.isFieldBegin]? = some (declared, (recordOf front).notes) :=
    Listing.fields.getElem?_recordOf rfl
  exact documented_of_marks (records.fields.holds _ _ listed).marks

theorem documented_method {event : Event} (begins : event.isMethodBegin = true)
    (records : model.Records grown unit (recordOf (front ++ event :: back))) :
    let id : MethodId := ⟨model.methods.size + front.countP Event.isMethodBegin⟩
    Documented Event.takesComment front (.ofMethod id) (grown.method id).comment
      (grown.method id).tags := by
  intro id
  have added : Listing.methods.entry (recordOf front) event = some (recordOf front).notes := by
    cases event <;> first | rfl | cases begins
  have listed : ((recordOf (front ++ event :: back)).methods.map MethodRecord.notes)[
      front.countP Event.isMethodBegin]? = some (recordOf front).notes :=
    Listing.methods.getElem?_recordOf added
  rw [List.getElem?_map, Option.map_eq_some_iff] at listed
  obtain ⟨method, found, notes⟩ := listed
  obtain ⟨declared, owner, -, entity⟩ := records.methods.holds _ _ found
  have marks : (grown.method id).marks = (recordOf front).notes.marks
      { unit, classId := some owner, method := some id } (.ofMethod id) := by
    rw [entity, ← notes]
    rfl
  exact documented_of_marks marks

theorem documented_package {declared : PackageDecl}
    (last : ∀ event ∈ back, event.isPackage = false)
    (records : model.Records grown unit (recordOf (front ++ .package declared :: back))) :
    ∃ entity tags, (grown.unit unit).package = some entity ∧
      Waits Event.takesComment front entity.comment tags := by
  refine ⟨packageOf unit (declared, (recordOf front).notes), _, ?_, waits_recordOf front⟩
  rw [records.package, package_recordOf last]
  rfl

theorem documented_moduleDecl {declared : ModuleDecl}
    (last : ∀ event ∈ back, event.isModuleHeader = false)
    (records : model.Records grown unit (recordOf (front ++ .moduleHeader declared :: back))) :
    ∃ entity tags, (grown.unit unit).moduleDecl = some entity ∧
      Waits Event.takesComment front entity.comment tags := by
  have related := records.moduleDecl
  rw [moduleDecl_recordOf last] at related
  cases present : (grown.unit unit).moduleDecl with
  | none =>
      rw [present] at related
      cases related
  | some entity =>
      rw [present] at related
      cases related with
      | some bears =>
          refine ⟨entity, (recordOf front).notes.tags, rfl, ?_⟩
          rw [bears.comment]
          exact waits_recordOf front

end Model.Records

/-- A comment and its tags go to the declaration whose event is the first after it that takes
comments, and to no other. -/
theorem comment_goes_to_next_declaration {model grown : Model} {events : List Event}
    {id : UnitId} (added : model.addUnit events = (grown, .ok id)) :
    model.DocumentedBy Event.takesComment grown id events := by
  obtain ⟨-, records⟩ := Model.addUnit_records added
  constructor
  case classCount =>
    rw [records.classes.count]
    exact congrArg _ (Listing.classes.length_recordOf events)
  case fieldCount =>
    rw [records.fields.count]
    exact congrArg _ (Listing.fields.length_recordOf events)
  case methodCount =>
    have length := Listing.methods.length_recordOf events
    rw [records.methods.count]
    exact congrArg _ (by simpa [Listing.methods] using length)
  case classAt =>
    rintro front declared back rfl
    exact records.documented_classAt
  case field =>
    rintro front declared back rfl
    exact records.documented_field
  case method =>
    rintro front event back begins rfl
    exact records.documented_method begins
  case package =>
    rintro front declared back rfl last
    exact records.documented_package last
  case moduleDecl =>
    rintro front declared back rfl last
    exact records.documented_moduleDecl last

/-- A class with a comment, whose method has none. -/
theorem comment_goes_to_class :
    let events := (readUnit "/** A. */ class A \x7b void f() \x7b\x7d \x7d".toList).1
    let grown := (({} : Model).addUnit events).1
    ({} : Model).addUnit events = (grown, .ok ⟨0⟩) ∧
      ({} : Model).DocumentedBy Event.takesComment grown ⟨0⟩ events := by
  intro events grown
  have added : ({} : Model).addUnit events = (grown, .ok ⟨0⟩) :=
    Prod.ext rfl (by decide +kernel)
  exact ⟨added, comment_goes_to_next_declaration added⟩

/-- Events around the beginning of a field. -/
theorem split_at_field {events : List Event} {position : Nat}
    (begins : events[position]?.any Event.isFieldBegin = true) :
    ∃ declared, events =
      events.take position ++ .beginField declared :: events.drop (position + 1) := by
  cases found : events[position]? with
  | none => simp [found] at begins
  | some event =>
      obtain ⟨inside, same⟩ := List.getElem?_eq_some_iff.mp found
      rw [found] at begins
      cases event with
      | beginField declared =>
          refine ⟨declared, ?_⟩
          rw [← same, ← List.drop_eq_getElem_cons inside, List.take_append_drop]
      | _ => cases begins

/-- The comment of a parameter reaches the field after its method. -/
theorem comment_of_parameter_reaches_field :
    let source := "class C \x7b void f(/** Only for x. */ int x) \x7b\x7d int y; \x7d"
    let events := (readUnit source.toList).1
    let grown := (({} : Model).addUnit events).1
    ({} : Model).addUnit events = (grown, .ok ⟨0⟩) ∧
      (grown.field ⟨0⟩).name = "y" ∧ (grown.field ⟨0⟩).comment = some "Only for x." ∧
        ¬ ({} : Model).DocumentedBy Event.declares grown ⟨0⟩ events := by
  intro source events grown
  have carries : (grown.field ⟨0⟩).comment = some "Only for x." := by decide +kernel
  refine ⟨Prod.ext rfl (by decide +kernel), by decide +kernel, carries, fun documented => ?_⟩
  obtain ⟨declared, split⟩ := split_at_field
    (show events[5]?.any Event.isFieldBegin = true by decide +kernel)
  obtain ⟨tags, waits, -⟩ := documented.field _ declared _ split
  have first : (⟨({} : Model).fields.size + (events.take 5).countP Event.isFieldBegin⟩ :
      FieldId) = ⟨0⟩ := by decide +kernel
  have nothing : ((events.take 5).foldl (waitAfter Event.declares) (none, [])).1 = none := by
    decide +kernel
  rw [waits_iff.mp waits, first, carries] at nothing
  cases nothing

end JavaDecl
