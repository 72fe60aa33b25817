import JavaDecl.Proofs.FittingEvents

/-!
# Declarations that fit their source

If the events of field declarations fit, so do all events of the declarations around them, and
with them all events of an accepted source.
-/

namespace JavaDecl

namespace ReadM

/-- All events fit that declare no initial value, and those of field declarations fit. -/
structure FieldsFit (fits : Event → Prop) (source : List Char) : Prop where
  plain : ∀ event : Event, event.isValued = false → fits event
  fieldRest : ∀ {budget line : Nat} {modifiers : Modifiers} {type : TypeExpr} {text : List Char}
    {name : Head}, text <:+ source → Head.of? text = some name → name.kind = .identifier →
      Leads False source (fieldRest budget modifiers type line name.text) name.rest
        fun _ _ told => ∀ event ∈ told, fits event

namespace FieldsFit

variable {fits : Event → Prop} {source : List Char} (fields : FieldsFit fits source)

include fields

theorem emit {event : Event} (content : event.isComment = false)
    (plain : event.isValued = false) : AllFit fits source (emit event) := fun _ =>
  (emit_delivers content).mono fun _ _ _ same told member => by
    rw [same.2.2, List.mem_singleton] at member
    exact member ▸ fields.plain event plain

theorem telling : TellingRules fun _ part => AllFit fits source part where
  toPhraseRules := allFit_phrases fits source
  emit _ content _ plain := fields.emit content plain

/-- The rest of a member from its name on, if it is no constructor. -/
theorem named {budget line : Nat} {modifiers : Modifiers} {type : TypeExpr}
    {typeParameters : List (TypeParameter TypeExpr)} : AllFit fits source (do
      let name ← identifier
      if ← isMark .leftParen then
        ReadM.emitAnnotations modifiers.uses
        ReadM.emit .beginMethod
        ReadM.methodRest budget
          { name, returnType := some type, modifiers := modifiers.words, typeParameters, line }
      else if typeParameters.isEmpty then ReadM.fieldRest budget modifiers type line name
      else refuse "'(' after generic method name") := by
  intro text
  refine Leads.within fun inside => identifier_finds.bind
    fun name rest told ⟨quiet, head, found, isName, same, left⟩ => ?_
  subst quiet same left
  refine (isNext_stays _ _).bind fun answer rest told ⟨left, quiet⟩ => ?_
  subst left quiet
  split
  · exact ((fields.telling.emitAnnotations _).bind fun _ => (fields.emit rfl rfl).bind fun _ =>
      fields.telling.methodRest budget _) _
  · split
    · exact fields.fieldRest inside found isName
    · exact refuse_fails

theorem memberRest (budget : Nat) (modifiers : Modifiers) :
    AllFit fits source (memberRest budget modifiers) := by
  have rules := fields.telling
  refine rules.nextLine.bind fun _ => (rules.optionalParameters budget).bind fun _ =>
    (rules.both (rules.isNext _) (rules.isAt 1 _)).bind fun _ => ?_
  split
  · exact rules.identifier.bind fun _ => (fields.telling.emitAnnotations _).bind fun _ =>
      (fields.emit rfl rfl).bind fun _ => rules.methodRest budget _
  · exact (rules.typeExpr budget).bind fun _ => fields.named

/-- All events of classes fit.  Nothing is needed of names or of where a class begins. -/
theorem classes : ClassRules (fun _ => True) fun _ _ _ part => AllFit fits source part where
  within _ := fields.telling
  bind := .bind
  fault _ := .fault
  named expected rest := (fields.telling.expect .identifier expected).bind fun token =>
    rest token trivial
  memberRest _ := fields.memberRest
  begins _ := fields.emit rfl rfl
  ends _ _ := fields.emit rfl rfl

end FieldsFit

end ReadM

/-- All events of an accepted source fit, doc comments apart. -/
theorem readUnit_fit {fits : Event → Prop} {source : List Char}
    (fields : ReadM.FieldsFit fits source) (accepted : (readUnit source).2 = none) {event : Event}
    (told : event ∈ (readUnit source).1) (content : event.isComment = false) : fits event := by
  have ran := fields.classes.compilationUnit (readingBudget source) _ _ _
    (Reading.stands_ofSource source)
  unfold readUnit at accepted told
  revert accepted told
  cases outcome : ReadM.compilationUnit (readingBudget source) (.ofSource source) with
  | error failure after => nofun
  | ok value after =>
      intro _ member
      rw [outcome] at ran
      obtain ⟨rest, told, holds, stands⟩ := ran
      refine holds event ?_
      rw [← List.nil_append told, ← stands.said, List.mem_filter]
      exact ⟨member, by rw [content]; rfl⟩

end JavaDecl
