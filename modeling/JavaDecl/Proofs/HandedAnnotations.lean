import JavaDecl.Proofs.WrittenReading

/-!
# Annotations are handed over

Where a source text that is accepted announces an annotation, only annotations and comments
come before the declaration that takes it.
-/

namespace JavaDecl

/-- Annotations and comments come, and then a declaration. -/
def Reaches (events : List Event) : Prop :=
  ∃ gap target rest, events = gap ++ target :: rest ∧
    (∀ event ∈ gap, event.isAnnotation ∨ event.isComment) ∧ target.takesUses

/-- Between each annotation and the declaration that takes it, there are only annotations and
comments. -/
def HandsOver (events : List Event) : Prop :=
  ∀ front use back, events = front ++ .annotated use :: back → Reaches back

theorem Reaches.append {events : List Event} (reaches : Reaches events) (further : List Event) :
    Reaches (events ++ further) := by
  obtain ⟨gap, target, rest, rfl, plain, takes⟩ := reaches
  exact ⟨gap, target, rest ++ further, by simp, plain, takes⟩

namespace HandsOver

theorem nil : HandsOver [] := by
  intro front use back split
  simp at split

theorem cons {event : Event} {events : List Event}
    (reaches : event.isAnnotation → Reaches events) (rest : HandsOver events) :
    HandsOver (event :: events) := by
  intro front use back split
  rcases List.cons_eq_append_iff.mp split with ⟨-, same⟩ | ⟨front, -, rfl⟩
  · obtain ⟨rfl, rfl⟩ := List.cons.inj same
    exact reaches rfl
  · exact rest front use back rfl

theorem other {event : Event} {events : List Event} (plain : event.isAnnotation = false)
    (rest : HandsOver events) : HandsOver (event :: events) :=
  .cons (fun annotates => by simp [plain] at annotates) rest

theorem append {front back : List Event} (first : HandsOver front) (second : HandsOver back) :
    HandsOver (front ++ back) := by
  intro before use after split
  rcases List.append_eq_append_iff.mp split with ⟨more, rfl, same⟩ | ⟨more, rfl, same⟩
  · exact second more use after same
  · rcases List.cons_eq_append_iff.mp same with ⟨rfl, same⟩ | ⟨further, rfl, rfl⟩
    · exact second [] use after same.symm
    · exact (first before use further rfl).append back

theorem ofOthers {events : List Event} (others : ∀ event ∈ events, event.isAnnotation = false) :
    HandsOver events := by
  intro front use back split
  have annotates := others (.annotated use) (by simp [split])
  cases annotates

theorem annotated {uses : List (AnnotationUse TypeExpr)} {gap rest : List Event} {target : Event}
    (comments : EventLanguage.comments.Holds gap) (takes : target.takesUses)
    (further : HandsOver rest) : HandsOver (annotating uses ++ (gap ++ target :: rest)) := by
  have plain : ∀ event ∈ gap, event.isAnnotation = false := by
    intro event member
    have isComment : event.isComment := comments event member
    cases event <;> first | rfl | cases isComment
  have last : target.isAnnotation = false := by
    cases target <;> first | rfl | cases takes
  induction uses with
  | nil =>
      change HandsOver (gap ++ target :: rest)
      exact append (.ofOthers plain) (.other last further)
  | cons use uses ih =>
      refine .cons (fun _ => ⟨annotating uses ++ gap, target, rest, ?_, ?_, takes⟩) ih
      · exact (List.append_assoc _ _ _).symm
      · intro event member
        rcases List.mem_append.mp member with annotates | between
        · obtain ⟨other, -, rfl⟩ := List.mem_map.mp annotates
          exact .inl rfl
        · exact .inr (comments event between)

theorem directly {uses : List (AnnotationUse TypeExpr)} {rest : List Event} {target : Event}
    (takes : target.takesUses) (further : HandsOver rest) :
    HandsOver (annotating uses ++ target :: rest) :=
  annotated EventLanguage.comments.nothing takes further

end HandsOver

def EventLanguage.handing : EventLanguage where
  Holds := HandsOver
  concat := .append
  ofComments comments := .ofOthers fun event member => by
    have isComment : event.isComment := comments event member
    cases event <;> first | rfl | cases isComment

theorem EventLanguage.forms_handing : Forms fun _ => handing where
  aClass _ _ _ inner := .directly rfl (.append inner (.other rfl .nil))
  initializer _ := .other rfl .nil
  field gap := .directly rfl (.append (handing.ofComments gap) (.other rfl .nil))
  constant gap _ _ inner :=
    .directly rfl (.append (handing.ofComments gap)
      (.other rfl (.append inner (.other rfl (.other rfl .nil)))))
  method {isConstructor uses declared inner} nested :=
    .directly (Event.takesUses_beginOf isConstructor)
      (.append nested (.other (by cases isConstructor <;> rfl) .nil))
  parameter := .directly rfl .nil

theorem HandsOver.ofUnitEvents {events : List Event}
    (unit : UnitEvents (fun _ => EventLanguage.handing) events) : HandsOver events := by
  obtain ⟨_, _, ⟨leading, _, comments, ⟨package, imports, packaged, imported, rfl⟩, rfl⟩,
    ⟨between, body, gap, classesOrModule, rfl⟩, rfl⟩ := unit
  have others {kind : Event → Prop} {events : List Event}
      (plain : ∀ event, kind event → event.isAnnotation = false)
      (known : ∀ event ∈ events, kind event ∨ event.isComment) : HandsOver events :=
    .ofOthers fun event member => (known event member).elim (plain event) fun isComment => by
      cases event <;> first | rfl | cases isComment
  have imports : HandsOver imports :=
    others (fun event isImport => by cases event <;> first | rfl | cases isImport) imported
  have opens : HandsOver package := by
    rcases packaged with rfl | ⟨uses, gap, declared, comments, rfl⟩
    · exact .nil
    · exact .annotated comments rfl .nil
  have closes : HandsOver body := by
    rcases classesOrModule with handed | ⟨uses, gap, _, comments, ⟨declared, directives, known,
      rfl⟩, rfl⟩
    · exact handed
    · exact .annotated comments rfl (others
        (fun event isDirective => by cases event <;> first | rfl | cases isDirective) known)
  exact .append (.append (EventLanguage.handing.ofComments comments) (.append opens imports))
    (.append (EventLanguage.handing.ofComments gap) closes)

theorem handsOver_of_accepted {source : List Char} (accepted : (readUnit source).2 = none) :
    HandsOver (readUnit source).1 := by
  obtain ⟨missing, unit, complete, -⟩ := readUnit_announces_unit EventLanguage.forms_handing source
  rw [complete accepted, List.append_nil] at unit
  exact .ofUnitEvents unit

end JavaDecl
