import JavaDecl.Proofs.UnitReading

/-!
# Outlines of compilation units

The outline of a unit has its classes with what is declared in them, in the order of the
source.  It is what the beginnings and ends among the events of the unit say, whatever
comments and annotations stand between them.
-/

namespace JavaDecl

/-- The beginning or end of a declaration in a class or unit, and a part of one. -/
def Event.isPart : Event → Bool
  | beginClass _ | endClass | beginConstructor | endConstructor _ | beginMethod | endMethod _
  | parameter _ | beginField _ | endField | initializer _ => true
  | _ => false

def Event.package? : Event → Option String
  | package declared => some declared.name
  | _ => none

/-- Declarations that stand one after the other in a class or unit.  The last argument of
each constructor has those after the first one. -/
inductive Outline where
  | nothing
  /-- A class with what is declared in it. -/
  | aClass (declared : ClassDecl) (inner rest : Outline)
  | field (declared : VariableDecl) (rest : Outline)
  /-- An enumeration constant with the class that its body declares. -/
  | constant (declared : VariableDecl) (body : ClassDecl) (inner rest : Outline)
  /-- A method or constructor with its parameters. -/
  | method (isConstructor : Bool) (parameters : List VariableDecl) (declared : MethodDecl)
      (rest : Outline)
  | initializer (declared : InitializerDecl) (rest : Outline)

namespace Outline

def events : Outline → List Event
  | nothing => []
  | aClass declared inner rest =>
      .beginClass declared :: (inner.events ++ .endClass :: rest.events)
  | field declared rest => .beginField declared :: .endField :: rest.events
  | constant declared body inner rest =>
      .beginField declared :: .beginClass body ::
        (inner.events ++ .endClass :: .endField :: rest.events)
  | method isConstructor parameters declared rest =>
      Event.beginOf isConstructor ::
        (parameters.map .parameter ++ Event.endOf isConstructor declared :: rest.events)
  | initializer declared rest => .initializer declared :: rest.events

def append : Outline → Outline → Outline
  | nothing, back => back
  | aClass declared inner rest, back => aClass declared inner (rest.append back)
  | field declared rest, back => field declared (rest.append back)
  | constant declared body inner rest, back => constant declared body inner (rest.append back)
  | method isConstructor parameters declared rest, back =>
      method isConstructor parameters declared (rest.append back)
  | initializer declared rest, back => initializer declared (rest.append back)

@[simp]
theorem events_append (front back : Outline) :
    (front.append back).events = front.events ++ back.events := by
  induction front with
  | nothing => rfl
  | aClass declared inner rest _ ih => simp [append, events, ih]
  | field declared rest ih => simp [append, events, ih]
  | constant declared body inner rest _ ih => simp [append, events, ih]
  | method isConstructor parameters declared rest ih => simp [append, events, ih]
  | initializer declared rest ih => simp [append, events, ih]

/-- Only bodies of constants are declared as such, and classes extend one class at most. -/
def Formed : Outline → Prop
  | nothing => True
  | aClass declared inner rest =>
      declared.isConstantBody = false ∧ declared.ExtendsOnce ∧ inner.Formed ∧ rest.Formed
  | field _ rest => rest.Formed
  | constant _ body inner rest =>
      body.isConstantBody = true ∧ body.ExtendsOnce ∧ inner.Formed ∧ rest.Formed
  | method _ _ _ rest => rest.Formed
  | initializer _ rest => rest.Formed

theorem Formed.append {front back : Outline} (first : front.Formed) (second : back.Formed) :
    (front.append back).Formed := by
  induction front with
  | nothing => exact second
  | aClass declared inner rest _ ih =>
      obtain ⟨plain, once, filled, further⟩ := first
      exact ⟨plain, once, filled, ih further⟩
  | field declared rest ih => exact ih first
  | constant declared body inner rest _ ih =>
      obtain ⟨isBody, once, filled, further⟩ := first
      exact ⟨isBody, once, filled, ih further⟩
  | method isConstructor parameters declared rest ih => exact ih first
  | initializer declared rest ih => exact ih first

/-! ### Reading an outline back -/

/-- What may come after the declarations of a class or unit. -/
def Closes (events : List Event) : Prop :=
  events = [] ∨ ∃ rest, events = .endClass :: rest

theorem Closes.ofEnd (rest : List Event) : Closes (.endClass :: rest) :=
  .inr ⟨rest, rfl⟩

/-- Parameters end where the method or constructor ends. -/
theorem eq_of_parameters {first second : List VariableDecl} {isConstructor : Bool}
    {one other : MethodDecl} {tail last : List Event}
    (same : first.map Event.parameter ++ Event.endOf isConstructor one :: tail =
      second.map Event.parameter ++ Event.endOf isConstructor other :: last) :
    first = second ∧ one = other ∧ tail = last := by
  induction first generalizing second with
  | nil =>
      cases second with
      | nil => cases isConstructor <;> simpa [Event.endOf] using same
      | cons parameter second => cases isConstructor <;> simp [Event.endOf] at same
  | cons parameter first ih =>
      cases second with
      | nil => cases isConstructor <;> simp [Event.endOf] at same
      | cons parameter second =>
          simp only [List.map_cons, List.cons_append, List.cons.injEq, Event.parameter.injEq]
            at same
          obtain ⟨rfl, rfl, known⟩ := same.imp_right ih
          exact ⟨rfl, known⟩

/-- Nothing is declared where a class or unit closes. -/
theorem eq_nothing_of_events {outline : Outline} {tail last : List Event}
    (same : outline.events ++ tail = last) (closes : Closes last) : outline = nothing := by
  have ends : ∀ event ∈ last.head?, event = .endClass := by
    rcases closes with rfl | ⟨rest, rfl⟩ <;> simp
  subst same
  cases outline with
  | nothing => rfl
  | method isConstructor =>
      have begins := ends (Event.beginOf isConstructor) rfl
      cases isConstructor <;> cases begins
  | _ => cases ends _ rfl

/-- Beginnings and ends that are those of two outlines, up to where both close, are those of
one. -/
theorem eq_of_events {first second : Outline} {tail last : List Event}
    (same : first.events ++ tail = second.events ++ last) (ends : Closes tail)
    (closes : Closes last) : first = second ∧ tail = last := by
  -- The tails vary along the induction: for an inner outline they begin where its class ends.
  induction first generalizing second tail last with
  | nothing =>
      obtain rfl := eq_nothing_of_events same.symm ends
      exact ⟨rfl, same⟩
  | aClass declared inner rest innerIh ih =>
      cases second with
      | aClass declared inner rest =>
          simp only [events, List.cons_append, List.append_assoc, List.cons.injEq,
            Event.beginClass.injEq] at same
          obtain ⟨rfl, filled⟩ := same
          obtain ⟨rfl, further⟩ := innerIh filled (.ofEnd _) (.ofEnd _)
          obtain ⟨rfl, rfl⟩ := ih (List.cons.inj further).2 ends closes
          exact ⟨rfl, rfl⟩
      | nothing => cases eq_nothing_of_events same closes
      | method isConstructor => cases isConstructor <;> simp [events, Event.beginOf] at same
      | _ => simp [events] at same
  | field declared rest ih =>
      cases second with
      | field declared rest =>
          simp only [events, List.cons_append, List.cons.injEq, Event.beginField.injEq,
            true_and] at same
          obtain ⟨rfl, further⟩ := same
          obtain ⟨rfl, rfl⟩ := ih further ends closes
          exact ⟨rfl, rfl⟩
      | nothing => cases eq_nothing_of_events same closes
      | method isConstructor => cases isConstructor <;> simp [events, Event.beginOf] at same
      | _ => simp [events] at same
  | constant declared body inner rest innerIh ih =>
      cases second with
      | constant declared body inner rest =>
          simp only [events, List.cons_append, List.append_assoc, List.cons.injEq,
            Event.beginField.injEq, Event.beginClass.injEq] at same
          obtain ⟨rfl, rfl, filled⟩ := same
          obtain ⟨rfl, further⟩ := innerIh filled (.ofEnd _) (.ofEnd _)
          simp only [List.cons.injEq, true_and] at further
          obtain ⟨rfl, rfl⟩ := ih further ends closes
          exact ⟨rfl, rfl⟩
      | nothing => cases eq_nothing_of_events same closes
      | method isConstructor => cases isConstructor <;> simp [events, Event.beginOf] at same
      | _ => simp [events] at same
  | method isConstructor parameters declared rest ih =>
      cases second with
      | method other parameters declared rest =>
          have sort : isConstructor = other := by
            cases isConstructor <;> cases other <;> simp [events, Event.beginOf] at same ⊢
          subst sort
          simp only [events, List.cons_append, List.append_assoc, List.cons.injEq,
            true_and] at same
          obtain ⟨rfl, rfl, further⟩ := eq_of_parameters same
          obtain ⟨rfl, rfl⟩ := ih further ends closes
          exact ⟨rfl, rfl⟩
      | nothing => cases eq_nothing_of_events same closes
      | _ => cases isConstructor <;> simp [events, Event.beginOf] at same
  | initializer declared rest ih =>
      cases second with
      | initializer declared rest =>
          simp only [events, List.cons_append, List.cons.injEq, Event.initializer.injEq] at same
          obtain ⟨rfl, further⟩ := same
          obtain ⟨rfl, rfl⟩ := ih further ends closes
          exact ⟨rfl, rfl⟩
      | nothing => cases eq_nothing_of_events same closes
      | method isConstructor => cases isConstructor <;> simp [events, Event.beginOf] at same
      | _ => simp [events] at same

/-- An outline is known by its beginnings and ends. -/
theorem events_inj {first second : Outline} (same : first.events = second.events) :
    first = second :=
  (eq_of_events (by rw [same]) (.inl rfl) (.inl rfl)).1

end Outline

/-! ### Parts among other events -/

/-- The parts of declarations among some events.  No package declaration is among them. -/
structure HasParts (events parts : List Event) : Prop where
  filter : events.filter Event.isPart = parts
  free : ∀ event ∈ events, event.package? = none

namespace HasParts

theorem nil : HasParts [] [] :=
  ⟨rfl, by simp⟩

theorem append {front back parts others : List Event} (first : HasParts front parts)
    (second : HasParts back others) : HasParts (front ++ back) (parts ++ others) where
  filter := by rw [List.filter_append, first.filter, second.filter]
  free event member := (List.mem_append.mp member).elim (first.free event) (second.free event)

theorem cons {event : Event} {events parts : List Event} (isPart : event.isPart)
    (rest : HasParts events parts) : HasParts (event :: events) (event :: parts) where
  filter := by rw [List.filter_cons_of_pos isPart, rest.filter]
  free := by
    have unpackaged : event.package? = none := by
      cases event <;> first | rfl | cases isPart
    exact List.forall_mem_cons.mpr ⟨unpackaged, rest.free⟩

theorem ofOthers {events : List Event}
    (others : ∀ event ∈ events, event.isPart = false ∧ event.package? = none) :
    HasParts events [] where
  filter := List.filter_eq_nil_iff.mpr fun event member => by simp [others event member]
  free event member := (others event member).2

theorem ofComments {events : List Event} (comments : EventLanguage.comments.Holds events) :
    HasParts events [] := by
  refine .ofOthers fun event member => ?_
  have isComment : event.isComment := comments event member
  cases event <;> first | exact ⟨rfl, rfl⟩ | cases isComment

theorem annotating (uses : List (AnnotationUse TypeExpr)) : HasParts (annotating uses) [] := by
  constructor <;> simp [JavaDecl.annotating, Event.isPart, Event.package?]

theorem beginOf {isConstructor : Bool} {events parts : List Event}
    (rest : HasParts events parts) :
    HasParts (Event.beginOf isConstructor :: events) (Event.beginOf isConstructor :: parts) :=
  rest.cons (by cases isConstructor <;> rfl)

theorem endOf {isConstructor : Bool} {declared : MethodDecl} {events parts : List Event}
    (rest : HasParts events parts) :
    HasParts (Event.endOf isConstructor declared :: events)
      (Event.endOf isConstructor declared :: parts) :=
  rest.cons (by cases isConstructor <;> rfl)

end HasParts

/-! ### The outline of what is read -/

def EventLanguage.outlined : EventLanguage where
  Holds events := ∃ outline : Outline, outline.Formed ∧ HasParts events outline.events
  concat := fun ⟨front, first, begins⟩ ⟨back, second, ends⟩ =>
    ⟨front.append back, first.append second, by simpa using begins.append ends⟩
  ofComments comments := ⟨.nothing, trivial, .ofComments comments⟩

def EventLanguage.parameters : EventLanguage where
  Holds events := ∃ parameters : List VariableDecl, HasParts events (parameters.map .parameter)
  concat := fun ⟨front, begins⟩ ⟨back, ends⟩ =>
    ⟨front ++ back, by simpa using begins.append ends⟩
  ofComments comments := ⟨[], .ofComments comments⟩

/-- The outlines of what stands in each surrounding. -/
def EventLanguage.outlines : Surrounding → EventLanguage
  | .unit | .inClass => outlined
  | .inField => comments
  | .inMethod _ => parameters

theorem EventLanguage.forms_outlines : Forms outlines where
  aClass {surrounding uses declared inner} admits plain once filled := by
    obtain ⟨outline, formed, parts⟩ := filled
    have whole : outlined.Holds
        (annotating uses ++ .beginClass declared :: (inner ++ [.endClass])) :=
      ⟨.aClass declared outline .nothing, ⟨plain, once, formed, trivial⟩,
        (HasParts.annotating uses).append (.cons rfl (parts.append (.cons rfl .nil)))⟩
    cases surrounding with
    | unit => exact whole
    | inClass => exact whole
    | inField => cases plain.symm.trans admits
    | inMethod isConstructor => cases admits
  initializer declared := ⟨.initializer declared .nothing, trivial, .cons rfl .nil⟩
  field {uses declared gap} comments :=
    ⟨.field declared .nothing, trivial, (HasParts.annotating uses).append
      (.cons rfl ((HasParts.ofComments comments).append (.cons rfl .nil)))⟩
  constant {uses declared body gap inner} comments isBody once filled := by
    obtain ⟨outline, formed, parts⟩ := filled
    exact ⟨.constant declared body outline .nothing, ⟨isBody, once, formed, trivial⟩,
      (HasParts.annotating uses).append (.cons rfl ((HasParts.ofComments comments).append
        (.cons rfl (parts.append (.cons rfl (.cons rfl .nil))))))⟩
  method {isConstructor uses declared inner} filled := by
    obtain ⟨parameters, parts⟩ := filled
    exact ⟨.method isConstructor parameters declared .nothing, trivial,
      (HasParts.annotating uses).append (.beginOf (parts.append (.endOf .nil)))⟩
  parameter {isConstructor uses declared} :=
    ⟨[declared], (HasParts.annotating uses).append (.cons rfl .nil)⟩

theorem HasParts.ofModule {events : List Event} (module : AnnotatedModule events) :
    HasParts events [] := by
  obtain ⟨uses, gap, _, comments, ⟨declared, directives, known, rfl⟩, rfl⟩ := module
  have body : HasParts (.moduleHeader declared :: directives) [] := by
    have test : ∀ event ∈ Event.moduleHeader declared :: directives,
        event.isPart = false ∧ event.package? = none := by
      intro event member
      rcases List.mem_cons.mp member with rfl | member
      · exact ⟨rfl, rfl⟩
      · have plain : event.isDirective ∨ event.isComment := known event member
        cases event <;> first | exact ⟨rfl, rfl⟩ | cases plain <;> contradiction
    exact .ofOthers test
  exact (HasParts.annotating uses).append ((HasParts.ofComments comments).append body)

theorem HasParts.ofImports {events : List Event}
    (imports : EventLanguage.imports.Holds events) : HasParts events [] := by
  refine .ofOthers fun event member => ?_
  have plain : event.isImport ∨ event.isComment := imports event member
  cases event <;> first | exact ⟨rfl, rfl⟩ | cases plain <;> contradiction

theorem HasParts.packages {events : List Event} (parts : HasParts events []) :
    events.filterMap Event.package? = [] :=
  List.filterMap_eq_nil_iff.mpr parts.free

/-- The events of a unit that is accepted have one outline, and its package declaration, if
it has one, comes before. -/
theorem readUnit_outlined {source : List Char} (accepted : (readUnit source).2 = none) :
    ∃ front back, (readUnit source).1 = front ++ back ∧ front.filter Event.isPart = [] ∧
      (∃ package : Option String, front.filterMap Event.package? = package.toList) ∧
        EventLanguage.outlined.Holds back := by
  obtain ⟨missing, unit, complete, -⟩ :=
    readUnit_announces_unit EventLanguage.forms_outlines source
  rw [complete accepted, List.append_nil] at unit
  obtain ⟨_, _, ⟨leading, _, before, ⟨packaged, imports, declares, imported, rfl⟩, rfl⟩,
    ⟨gap, body, between, known, rfl⟩, told⟩ := unit
  have first := HasParts.ofComments before
  have second := HasParts.ofImports imported
  refine ⟨leading ++ (packaged ++ imports), gap ++ body, told, ?_, ?_, ?_⟩
  · rw [List.filter_append, List.filter_append, first.filter, second.filter]
    rcases declares with rfl | ⟨uses, comments, declared, plain, rfl⟩
    · rfl
    · have uses := HasParts.annotating uses
      have comments := HasParts.ofComments plain
      simp [uses.filter, comments.filter, Event.isPart]
  · rw [List.filterMap_append, List.filterMap_append, first.packages, second.packages]
    rcases declares with rfl | ⟨uses, comments, declared, plain, rfl⟩
    · exact ⟨none, rfl⟩
    · have uses := HasParts.annotating uses
      have comments := HasParts.ofComments plain
      exact ⟨some declared.name, by simp [uses.packages, comments.packages, Event.package?]⟩
  · have gap := EventLanguage.outlined.ofComments between
    rcases known with outlined | module
    · exact EventLanguage.outlined.concat gap outlined
    · exact EventLanguage.outlined.concat gap ⟨.nothing, trivial, .ofModule module⟩

end JavaDecl
