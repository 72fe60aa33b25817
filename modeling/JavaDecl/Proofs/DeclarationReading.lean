import JavaDecl.Grammar.Unit
import JavaDecl.Proofs.PhraseReading

/-!
# Reading declarations announces events that nest

Every part of the grammar that announces declarations announces events of the language of
what it stands in, whatever these languages are, if declarations can be formed in them.
What opens is closed by the same part of the grammar, so a fault leaves the front of such
events.
-/

namespace JavaDecl

/-- Only interfaces have more than one type after `extends`. -/
def ClassDecl.ExtendsOnce (declared : ClassDecl) : Prop :=
  declared.kind ≠ .interface → declared.extending.length ≤ 1

/-- Languages for what stands in each surrounding, in which declarations are formed. -/
structure EventLanguage.Forms (languages : Surrounding → EventLanguage) : Prop where
  aClass : ∀ {surrounding : Surrounding} {uses : List (AnnotationUse TypeExpr)}
    {declared : ClassDecl} {inner : List Event}, surrounding.Admits declared →
      declared.isConstantBody = false → declared.ExtendsOnce → (languages .inClass).Holds inner →
        (languages surrounding).Holds
          (annotating uses ++ .beginClass declared :: (inner ++ [.endClass]))
  initializer : ∀ declared : InitializerDecl, (languages .inClass).Holds [.initializer declared]
  field : ∀ {uses : List (AnnotationUse TypeExpr)} {declared : VariableDecl} {gap : List Event},
    comments.Holds gap →
      (languages .inClass).Holds (annotating uses ++ .beginField declared :: (gap ++ [.endField]))
  /-- An enumeration constant with a body. -/
  constant : ∀ {uses : List (AnnotationUse TypeExpr)} {declared : VariableDecl}
    {body : ClassDecl} {gap inner : List Event}, comments.Holds gap →
      body.isConstantBody = true → body.ExtendsOnce → (languages .inClass).Holds inner →
        (languages .inClass).Holds
          (annotating uses ++ .beginField declared ::
            (gap ++ .beginClass body :: (inner ++ [.endClass, .endField])))
  method : ∀ {isConstructor : Bool} {uses : List (AnnotationUse TypeExpr)}
    {declared : MethodDecl} {inner : List Event},
      (languages (.inMethod isConstructor)).Holds inner →
        (languages .inClass).Holds
          (annotating uses ++ Event.beginOf isConstructor ::
            (inner ++ [Event.endOf isConstructor declared]))
  parameter : ∀ {isConstructor : Bool} {uses : List (AnnotationUse TypeExpr)}
    {declared : VariableDecl},
      (languages (.inMethod isConstructor)).Holds (annotating uses ++ [.parameter declared])

theorem EventLanguage.forms_nested : Forms nested where
  aClass admits _ _ inner := .aClass admits inner .nothing
  initializer _ := .initializer .nothing
  field gap := .field (.ofComments gap) .nothing
  constant {uses declared body gap inner} comments isBody _ nested := by
    have opened : Nested .inField (gap ++ .beginClass body :: (inner ++ [.endClass])) :=
      .append (.ofComments comments) (.unannotatedClass isBody nested)
    have whole : Nested .inClass (annotating uses ++ .beginField declared ::
        ((gap ++ .beginClass body :: (inner ++ [.endClass])) ++ .endField :: [])) :=
      .field opened .nothing
    simpa [EventLanguage.nested] using whole
  method inner := .method inner .nothing
  parameter := .parameter .nothing

/-- Sequences of a language with an ending after them. -/
def EventLanguage.EndingIn (language : EventLanguage) (ending : List Event → Prop)
    (events : List Event) : Prop :=
  ∃ inner back, language.Holds inner ∧ ending back ∧ events = inner ++ back

namespace ReadM

open Reading

variable {language : EventLanguage} {before : Reading} {budget : Nat}
  {languages : Surrounding → EventLanguage}

namespace Announces

variable {α β : Type} {ending : List Event → Prop}

theorem lead {part : ReadM α} {next : α → ReadM β} {mid : α → Reading → Prop}
    {post : β → Reading → Prop} (possible : ∃ back, ending back)
    (first : Announces language.Holds part before mid)
    (second : ∀ value between, before.Follows language.Holds between → mid value between →
      Announces (language.EndingIn ending) (next value) between post) :
    Announces (language.EndingIn ending) (part >>= next) before post := by
  obtain ⟨last, ends⟩ := possible
  refine chain ?_ ⟨last, [], last, language.nothing, ends, rfl⟩ first second
  rintro front _ front_holds ⟨inner, back, inner_holds, ends, rfl⟩
  exact ⟨front ++ inner, back, language.concat front_holds inner_holds, ends, by simp⟩

theorem finish {part : ReadM α} {post : α → Reading → Prop}
    (last : Announces ending part before post) :
    Announces (language.EndingIn ending) part before post :=
  last.widen fun events ends => ⟨[], events, language.nothing, ends, rfl⟩

end Announces

/-! ### Announcements -/

theorem emit_adds (event : Event) (before : Reading) :
    emit event before = .ok ⟨⟩ (before.announce [event]) :=
  rfl

theorem emitAnnotations_adds (uses : List (AnnotationUse TypeExpr)) (before : Reading) :
    emitAnnotations uses before = .ok ⟨⟩ (before.announce (annotating uses)) := by
  induction uses generalizing before with
  | nil => simp [emitAnnotations, annotating, announce, Pure.pure, EStateM.pure]
  | cons use uses ih =>
      have split : emitAnnotations (use :: uses) =
          emit (.annotated use) >>= fun _ => emitAnnotations uses := rfl
      rw [split]
      simp only [Bind.bind, EStateM.bind, emit_adds, ih]
      simp [annotating, announce]

theorem emit_announces_of {event : Event} {whole : List Event → Prop} (holds : whole [event])
    (before : Reading) : Announces whole (emit event) before fun _ _ => True := by
  unfold Announces
  rw [emit_adds]
  exact ⟨⟨⟨[event], by simp [announce], holds⟩, Nat.le_refl _⟩, trivial⟩

theorem emit_finishes (event : Event) (before : Reading) :
    Announces (language.EndingIn (· = [event])) (emit event) before fun _ _ => True := by
  refine .finish (emit_announces_of ?_ before)
  rfl

@[simp] theorem size_announce (reading : Reading) (events : List Event) :
    (reading.announce events).size = reading.size := rfl

/-! ### Methods -/

theorem acceptReceiver_announces (language : EventLanguage) (before : Reading) :
    Announces language.Holds acceptReceiver before fun _ _ => True := by
  apply Announces.bind (acceptKeyword_announces language .thisKw before)
  intro alone start _ _
  split
  · exact .pure trivial
  refine .bind (.both (isNext_announces language .identifier start) fun mid =>
    .both (isAt_announces language 1 _ mid) fun last => (isAt_announces language 2 _ last).forget)
    fun qualified between _ _ => ?_
  split
  · exact .bind (takeMany_announces language 3 between) fun _ _ _ _ => .pure trivial
  · exact .pure trivial

theorem varargsMessage_ne (name : String) :
    "varargs parameter '" ++ name ++ "' must be the last parameter" ≠ "nesting too deep" := by
  intro equal
  have := congrArg (·.toList.head?) equal
  simp at this

theorem resultDimensions_announces (language : EventLanguage) (declared : MethodDecl)
    (enough : before.size < budget) :
    Announces language.Holds (resultDimensions budget declared) before fun result _ =>
      result.isConstructor = declared.isConstructor := by
  apply Announces.bind (dimensions_announces language enough)
  intro more start _ _
  split
  · exact .pure rfl
  split
  · exact .pure rfl
  · exact .bind (peek_announces language 0 start) fun _ _ _ _ =>
      .fault (ParseError.not_isExhaustion_of_ne (by decide))

def MethodEnd (isConstructor : Bool) (events : List Event) : Prop :=
  ∃ declared : MethodDecl, events = [Event.endOf isConstructor declared]

theorem noBody_announces (language : EventLanguage) (before : Reading) :
    Announces language.Holds methodRest.noBody before fun _ _ => True :=
  .bind (expectMark_announces language .semicolon _ before) fun _ _ _ _ => .pure trivial

/-- The events of a method or constructor after its beginning. -/
def MethodRest (languages : Surrounding → EventLanguage) (declared : MethodDecl) :
    List Event → Prop :=
  (languages (.inMethod declared.isConstructor)).EndingIn (MethodEnd declared.isConstructor)

theorem methodEnd_possible (isConstructor : Bool) : ∃ back, MethodEnd isConstructor back :=
  ⟨_, default, rfl⟩

section MethodRest

variable {declared : MethodDecl}

theorem emit_endOf_announces {result : MethodDecl}
    (same : result.isConstructor = declared.isConstructor) (before : Reading) :
    Announces (MethodRest languages declared) (emit (ReadM.endOf result)) before
      fun _ _ => True := by
  refine .finish (emit_announces_of ⟨result, ?_⟩ before)
  simp only [ReadM.endOf, Event.endOf, same]

/-- The end of a method after its body or the semicolon in place of one. -/
theorem bodyAndEnd_announces {result : Option String → MethodDecl}
    (same : ∀ body, (result body).isConstructor = declared.isConstructor) (before : Reading) :
    Announces (MethodRest languages declared)
      (do
        let body ← if ← isMark .leftBrace then some <$> blockText else methodRest.noBody
        emit (ReadM.endOf (result body))) before fun _ _ => True := by
  have possible := methodEnd_possible declared.isConstructor
  apply Announces.lead possible (isMark_announces _ .leftBrace before)
  intro braced start _ _
  split
  · exact .lead possible (.map (blockText_announces _ start).forget) fun body last _ _ =>
      emit_endOf_announces (same body) last
  · exact .lead possible (noBody_announces _ start) fun body last _ _ =>
      emit_endOf_announces (same body) last

theorem defaultAndEnd_announces {result : Option String → Option String → MethodDecl}
    (same : ∀ defaultValue body,
      (result defaultValue body).isConstructor = declared.isConstructor)
    (enough : before.size < budget) :
    Announces (MethodRest languages declared)
      (do
        let defaultValue ←
          if ← acceptKeyword .defaultKw then some <$> expressionText budget [.semicolon]
          else pure none
        let body ← if ← isMark .leftBrace then some <$> blockText else methodRest.noBody
        emit (ReadM.endOf (result defaultValue body))) before fun _ _ => True := by
  have possible := methodEnd_possible declared.isConstructor
  refine .lead possible (acceptKeyword_announces _ .defaultKw before)
    fun given start follows _ => ?_
  have := follows.size_le
  split
  · exact .lead possible (.map (expressionText_announces _ _ (by omega)).forget)
      fun value last _ _ => bodyAndEnd_announces (same value) last
  · exact bodyAndEnd_announces (same none) start

end MethodRest

section Forms

variable (forms : EventLanguage.Forms languages)

include forms

theorem parameter_announces {isConstructor : Bool} (enough : 8 * before.size + 3 ≤ budget) :
    Announces (languages (.inMethod isConstructor)).Holds (parameter budget) before
      fun _ _ => True := by
  let language := languages (.inMethod isConstructor)
  apply Announces.bind (modifiers_announces language (by omega))
  intro modifiers start follows _
  have := follows.size_le
  apply Announces.bind (nextLine_announces language start)
  intro line one follows _
  have := follows.size_le
  apply Announces.bind (typeExpr_announces language (by omega))
  intro type two follows _
  have := follows.size_le
  apply Announces.bind (skipAnnotations_announces language (by omega))
  intro _ three follows _
  have := follows.size_le
  apply Announces.bind (acceptMark_announces language .ellipsis three)
  intro isVarargs four follows _
  have := follows.size_le
  apply Announces.bind (acceptReceiver_announces language four)
  intro receiver five follows _
  have := follows.size_le
  split
  · exact .pure trivial
  apply Announces.bind (expect_announces language (by simp) _ five)
  intro name six follows _
  have := follows.size_le
  apply Announces.bind (dimensions_announces language (by omega))
  intro more seven follows _
  apply Announces.bind (isMark_announces language .comma seven)
  intro another last _ _
  split
  · exact .fault (ParseError.not_isExhaustion_of_ne (varargsMessage_ne name.text))
  · refine .told (emitAnnotations_adds _ last) (emit_announces_of ?_ _)
    exact forms.parameter

theorem parameters_announces {isConstructor : Bool} (enough : 8 * before.size + 3 ≤ budget) :
    Announces (languages (.inMethod isConstructor)).Holds (parameters budget) before
      fun _ _ => True := by
  let language := languages (.inMethod isConstructor)
  apply Announces.bind (isMark_announces language .rightParen before)
  intro none start follows _
  have := follows.size_le
  split
  · exact .pure trivial
  · exact .bind (separatedBy_announces (fun _ _ => parameter_announces forms (by omega)) (by omega))
      fun _ _ _ _ => .pure trivial

theorem methodRest_announces (declared : MethodDecl) (enough : 8 * before.size + 3 ≤ budget) :
    Announces (MethodRest languages declared) (methodRest budget declared) before
      fun _ _ => True := by
  have possible := methodEnd_possible declared.isConstructor
  apply Announces.lead possible (expectMark_announces _ .leftParen _ before)
  intro _ one follows _
  have := follows.size_le
  apply Announces.lead possible (parameters_announces forms (by omega))
  intro _ two follows _
  have := follows.size_le
  apply Announces.lead possible (expectMark_announces _ .rightParen _ two)
  intro _ three follows _
  have := follows.size_le
  refine .lead possible (resultDimensions_announces _ declared (by omega))
    fun result four follows same => ?_
  have := follows.size_le
  apply Announces.lead possible (acceptKeyword_announces _ .throwsKw four)
  intro throwing five follows _
  have := follows.size_le
  split
  · apply Announces.lead possible (typeList_announces _ (by omega))
    intro exceptions last follows _
    have := follows.size_le
    exact defaultAndEnd_announces (fun _ _ => same) (by omega)
  · exact defaultAndEnd_announces (fun _ _ => same) (by omega)

/-! ### Fields, initializers and other members -/

theorem declarator_announces (modifiers : Modifiers) (type : TypeExpr) (line : Nat)
    (name : String) (enough : before.size < budget) :
    Announces (languages .inClass).Holds (declarator budget modifiers type line name) before
      fun _ _ => True := by
  let language := languages .inClass
  apply Announces.bind (dimensions_announces language enough)
  intro more start follows _
  have := follows.size_le
  have field (initializer : Option String) (last : Reading) :
      Announces language.Holds
        (do
          emitAnnotations modifiers.uses
          emit (.beginField
            { name, type := type.addDims more, modifiers := modifiers.words, initializer, line })
          emit .endField) last fun _ _ => True := by
    refine .told (emitAnnotations_adds _ last) (.told (emit_adds _ _) (emit_announces_of ?_ _))
    exact forms.field EventLanguage.comments.nothing
  apply Announces.bind (acceptMark_announces language .assign start)
  intro assigned mid follows _
  have := follows.size_le
  dsimp only
  split
  · exact .bind (.map (expressionText_announces language _ (by omega)).forget)
      fun initializer last _ _ => field initializer last
  · exact field none mid

theorem fieldRest_announces (modifiers : Modifiers) (type : TypeExpr) (line : Nat)
    (name : String) (enough : before.size < budget) :
    Announces (languages .inClass).Holds (fieldRest budget modifiers type line name) before
      fun _ _ => True := by
  let language := languages .inClass
  apply Announces.bind (declarator_announces forms modifiers type line name enough)
  intro _ start follows _
  have := follows.size_le
  refine .bind (many_announces (fun round bound => ?_) (by omega)) fun _ last _ _ =>
    .bind (expectMark_announces language .semicolon _ last) fun _ _ _ _ => .pure trivial
  apply Announces.bind (acceptMark_announces language .comma round)
  intro another mid follows taken
  have := follows.size_le
  split
  · next another =>
      have := taken another
      apply Announces.bind (identifier_announces language mid)
      intro next named follows _
      have := follows.size_le
      refine .bind (declarator_announces forms modifiers type line next (by omega))
        fun _ after follows _ => .pure fun _ => ?_
      have := follows.size_le
      omega
  · exact .pure (by simp)

theorem initializer_announces (isStatic : Bool) (before : Reading) :
    Announces (languages .inClass).Holds (initializer isStatic) before fun _ after =>
      after.size < before.size := by
  let language := languages .inClass
  apply Announces.bind (nextLine_announces language before)
  intro line start follows _
  have := follows.size_le
  apply Announces.bind (blockText_announces language start)
  intro body last _ _
  refine (emit_announces ?_ last).weaken fun _ after follows _ => ?_
  · exact forms.initializer _
  · have := follows.size_le
    omega

/-- A method or constructor with its annotations, whose header is read up to its name. -/
theorem method_announces (uses : List (AnnotationUse TypeExpr)) (declared : MethodDecl)
    (enough : 8 * before.size + 3 ≤ budget) :
    Announces (languages .inClass).Holds
      (do
        emitAnnotations uses
        emit (Event.beginOf declared.isConstructor)
        methodRest budget declared) before fun _ _ => True := by
  refine .told (emitAnnotations_adds uses before) (.told (emit_adds _ _)
    ((methodRest_announces forms declared (by simpa using enough)).widen ?_))
  rintro _ ⟨inner, _, nested, ⟨result, rfl⟩, rfl⟩
  exact forms.method nested

theorem memberRest_announces (modifiers : Modifiers) (enough : 8 * before.size + 3 ≤ budget) :
    Announces (languages .inClass).Holds (memberRest budget modifiers) before fun _ after =>
      after.size < before.size := by
  let language := languages .inClass
  apply Announces.bind (nextLine_announces language before)
  intro line one follows _
  have := follows.size_le
  refine .bind (optionalParameters_announces language (by omega))
    fun typeParameters two follows _ => ?_
  have := follows.size_le
  dsimp only
  refine .bind (.both (isNext_announces language .identifier two) fun mid =>
    (isAt_announces language 1 _ mid).forget) fun constructs three follows _ => ?_
  have := follows.size_le
  split
  · apply Announces.bind (identifier_announces language three)
    intro name named _ _
    apply Announces.weaken (method_announces forms modifiers.uses _ (by omega))
    intro _ after follows _
    have := follows.size_le
    omega
  apply Announces.bind (typeExpr_announces language (by omega))
  intro type typed _ _
  apply Announces.bind (identifier_announces language typed)
  intro name named _ _
  apply Announces.bind (isMark_announces language .leftParen named)
  intro methods last follows _
  have := follows.size_le
  split
  · apply Announces.weaken (method_announces forms modifiers.uses _ (by omega))
    intro _ after follows _
    have := follows.size_le
    omega
  split
  · refine (fieldRest_announces forms modifiers type line name (by omega)).weaken
      fun _ after follows _ => ?_
    have := follows.size_le
    omega
  · exact refuse_announces language _ last _

end Forms

/-! ### Classes -/

theorem classKind?_announces (language : EventLanguage) (before : Reading) :
    Announces language.Holds classKind? before fun _ _ => True := by
  apply Announces.bind (kindAt_announces language 0 before)
  intro kind start _ _
  split
  · exact .pure trivial
  · exact .pure trivial
  · exact .pure trivial
  · apply Announces.bind (isAt_announces language 1 _ start)
    intro typed mid _ _
    split
    · exact .bind (take_announces language mid) fun _ _ _ _ => .pure trivial
    · exact .pure trivial
  · exact .pure trivial

theorem isClassStart_announces (language : EventLanguage) (before : Reading) :
    Announces language.Holds isClassStart before fun _ _ => True := by
  apply Announces.bind (kindAt_announces language 0 before)
  intro kind start _ _
  split
  · exact .pure trivial
  · exact .pure trivial
  · exact .pure trivial
  · exact (isAt_announces language 1 _ start).forget
  · exact .pure trivial

theorem skipPermitted_announces (language : EventLanguage)
    (enough : 8 * before.size + 3 ≤ budget) :
    Announces language.Holds (skipPermitted budget) before fun _ _ => True := by
  apply Announces.bind (isWordAt_announces language 0 "permits" before)
  intro permits start follows _
  have := follows.size_le
  split
  · apply Announces.bind (take_announces language start)
    intro _ mid follows _
    have := follows.size_le
    exact .bind (typeList_announces language (by omega)) fun _ _ _ _ => .pure trivial
  · exact .pure trivial

/-- The end of the header of a class, from the interfaces on. -/
theorem interfacesAndPermitted_announces (language : EventLanguage)
    {result : List TypeExpr → ClassDecl} (known : ClassDecl → Prop)
    (holds : ∀ implementing, known (result implementing))
    (enough : 8 * before.size + 3 ≤ budget) :
    Announces language.Holds
      (do
        let implementing ← if ← acceptKeyword .implementsKw then typeList budget else pure []
        skipPermitted budget
        return result implementing) before fun declared _ => known declared := by
  refine .bind (acceptKeyword_announces language .implementsKw before)
    fun more start follows _ => ?_
  have := follows.size_le
  split
  · apply Announces.bind (typeList_announces language (by omega))
    intro implementing mid follows _
    have := follows.size_le
    exact .bind (skipPermitted_announces language (by omega)) fun _ _ _ _ => .pure (holds _)
  · exact .given (.bind (skipPermitted_announces language (by omega)) fun _ _ _ _ =>
      .pure (holds _))

/-- The header of a class declaration is never that of the body of a constant. -/
theorem classHeader_announces (language : EventLanguage) (words : List String)
    (enough : 8 * before.size + 3 ≤ budget) :
    Announces language.Holds (classHeader budget words) before fun declared after =>
      (declared.isConstantBody = false ∧ declared.ExtendsOnce) ∧ after.size < before.size := by
  refine .bind (classKind?_announces language before) fun kind start follows _ => ?_
  have := follows.size_le
  split
  · exact refuse_announces language _ start _
  next kind =>
  apply Announces.bind (take_announces language start)
  intro opening one follows _
  have := follows.size_le
  apply Announces.bind (identifier_announces language one)
  intro name two _ _
  refine .bind (optionalParameters_announces language (by omega))
    fun typeParameters three follows _ => ?_
  have := follows.size_le
  apply Announces.bind (acceptKeyword_announces language .extendsKw three)
  intro derived four follows _
  have := follows.size_le
  dsimp only
  have rest {extending : List TypeExpr} {last : Reading} (bound : last.size < before.size)
      (once : kind ≠ .interface → extending.length ≤ 1) :
      Announces language.Holds
        (do
          let implementing ← if ← acceptKeyword .implementsKw then typeList budget else pure []
          skipPermitted budget
          return ({ name, kind, modifiers := words, extending, implementing, typeParameters
                    line := opening.line } : ClassDecl)) last fun declared after =>
        (declared.isConstantBody = false ∧ declared.ExtendsOnce) ∧ after.size < before.size := by
    refine (interfacesAndPermitted_announces language
      (fun declared => declared.isConstantBody = false ∧ declared.ExtendsOnce)
      (fun _ => ⟨rfl, ?_⟩) (by omega)).weaken fun _ _ follows known => ?_
    · exact once
    · exact ⟨known, Nat.lt_of_le_of_lt follows.size_le bound⟩
  split
  · split
    · next interface =>
        apply Announces.bind (typeList_announces language (by omega))
        intro extending last follows _
        have := follows.size_le
        exact rest (by omega) fun other => absurd interface other
    · exact .bind (typeExpr_announces language (by omega)) fun _ _ _ _ =>
        .given (rest (by omega) fun _ => Nat.le_refl _)
  · exact .given (rest (by omega) fun _ => Nat.zero_le _)

theorem constantArguments_announces (language : EventLanguage) (enough : before.size < budget) :
    Announces language.Holds (constantArguments budget) before fun _ _ => True := by
  apply Announces.bind (acceptMark_announces language .leftParen before)
  intro opens start follows _
  have := follows.size_le
  split
  · refine .bind (listUntil_announces (fun _ _ => expressionText_announces language _ (by omega))
      (by omega)) fun args last _ _ => ?_
    exact .bind (expectMark_announces language .rightParen _ last) fun _ _ _ _ => .pure trivial
  · exact .pure trivial

/-- What the parts of classes need as budget, by how they nest. -/
structure ClassesAnnounce (languages : Surrounding → EventLanguage) (budget : Nat) : Prop where
  classDeclaration : ∀ (before : Reading) (modifiers : Modifiers) (surrounding : Surrounding),
    (∀ declared : ClassDecl, declared.isConstantBody = false → surrounding.Admits declared) →
      8 * before.size + 6 ≤ budget →
        Announces (languages surrounding).Holds (classDeclaration budget modifiers) before
          fun _ after => after.size < before.size
  classBody : ∀ (before : Reading) (declared : ClassDecl) (whole : List Event → Prop),
    (∀ inner, (languages .inClass).Holds inner →
      whole (.beginClass declared :: (inner ++ [.endClass]))) →
      8 * before.size + 5 ≤ budget →
        Announces whole (classBody budget declared) before fun _ _ => True
  member : ∀ before : Reading, 8 * before.size + 7 ≤ budget →
    Announces (languages .inClass).Holds (member budget) before
      fun _ after => after.size < before.size
  members : ∀ before : Reading, 8 * before.size + 8 ≤ budget →
    Announces (languages .inClass).Holds (members budget) before fun _ _ => True
  constant : ∀ (before : Reading) (owner : String), 8 * before.size + 6 ≤ budget →
    Announces (languages .inClass).Holds (constant budget owner) before fun _ _ => True
  constants : ∀ (before : Reading) (owner : String), 8 * before.size + 7 ≤ budget →
    Announces (languages .inClass).Holds (constants budget owner) before fun _ _ => True

def ConstantBody (languages : Surrounding → EventLanguage) (events : List Event) : Prop :=
  ∃ (body : ClassDecl) (inner : List Event), body.isConstantBody = true ∧ body.ExtendsOnce ∧
    (languages .inClass).Holds inner ∧ events = .beginClass body :: (inner ++ [.endClass])

/-- The end of a field, after the body of an enumeration constant. -/
def FieldEnd (languages : Surrounding → EventLanguage) (events : List Event) : Prop :=
  events = [.endField] ∨
    ∃ (body : ClassDecl) (inner : List Event), body.isConstantBody = true ∧ body.ExtendsOnce ∧
      (languages .inClass).Holds inner ∧
        events = .beginClass body :: (inner ++ [.endClass, .endField])

theorem FieldEnd.ofBody {front back : List Event} (body : ConstantBody languages front)
    (ended : back = [.endField]) : FieldEnd languages (front ++ back) := by
  obtain ⟨declared, inner, isBody, once, holds, rfl⟩ := body
  exact .inr ⟨declared, inner, isBody, once, holds, by simp [ended]⟩

theorem classDeclaration_succ_announces (forms : EventLanguage.Forms languages)
    (inner : ClassesAnnounce languages budget) (modifiers : Modifiers)
    {surrounding : Surrounding}
    (admits : ∀ declared : ClassDecl, declared.isConstantBody = false →
      surrounding.Admits declared)
    (enough : 8 * before.size + 6 ≤ budget + 1) :
    Announces (languages surrounding).Holds (classDeclaration (budget + 1) modifiers) before
      fun _ after => after.size < before.size := by
  let language := languages surrounding
  rw [classDeclaration]
  apply Announces.bind (classHeader_announces language _ (by omega))
  intro declared start follows header
  apply Announces.told (emitAnnotations_adds modifiers.uses start)
  refine (inner.classBody _ declared _ (fun body nested => ?_) ?_).weaken
    fun _ after follows _ => ?_
  · exact forms.aClass (admits declared header.1.1) header.1.1 header.1.2 nested
  · have := header.2
    simp only [size_announce]
    omega
  · exact Nat.lt_of_le_of_lt follows.size_le header.2

theorem classBody_succ_announces (inner : ClassesAnnounce languages budget) (declared : ClassDecl)
    {whole : List Event → Prop}
    (closed : ∀ inner, (languages .inClass).Holds inner →
      whole (.beginClass declared :: (inner ++ [.endClass])))
    (enough : 8 * before.size + 5 ≤ budget + 1) :
    Announces whole (classBody (budget + 1) declared) before fun _ _ => True := by
  rw [classBody]
  have body : Announces ((languages .inClass).EndingIn (· = [.endClass]))
      (do
        let _ ← expectMark .leftBrace "'\x7b' opening class body"
        if declared.kind = .enumeration then constants budget declared.name
        members budget
        emit .endClass) (before.announce [.beginClass declared]) fun _ _ => True := by
    have possible : ∃ back : List Event, back = [.endClass] := ⟨_, rfl⟩
    have ending (last : Reading) (bound : last.size < before.size) :
        Announces ((languages .inClass).EndingIn (· = [.endClass]))
          (members budget >>= fun _ => emit .endClass) last fun _ _ => True :=
      .lead possible (inner.members last (by omega)) fun _ final _ _ =>
        emit_finishes .endClass final
    apply Announces.lead possible (expectMark_announces _ .leftBrace _ _)
    intro _ start _ shorter
    simp only [size_announce] at shorter
    split
    · exact .lead possible (inner.constants start _ (by omega)) fun _ last follows _ =>
        ending last (Nat.lt_of_le_of_lt follows.size_le shorter)
    · exact ending start shorter
  refine .told (emit_adds _ before) (body.widen ?_)
  rintro _ ⟨events, _, nested, rfl, rfl⟩
  exact closed events nested

theorem member_succ_announces (forms : EventLanguage.Forms languages)
    (inner : ClassesAnnounce languages budget)
    (enough : 8 * before.size + 7 ≤ budget + 1) :
    Announces (languages .inClass).Holds (member (budget + 1)) before fun _ after =>
      after.size < before.size := by
  let language := languages .inClass
  rw [member]
  apply Announces.bind (isMark_announces language .leftBrace before)
  intro braced one follows _
  have := follows.size_le
  split
  · exact (initializer_announces forms false one).weaken fun _ _ _ _ => by omega
  refine .bind (.both (isNext_announces language _ one) fun mid =>
    (isAt_announces language 1 _ mid).forget) fun isStatic two follows _ => ?_
  have := follows.size_le
  split
  · apply Announces.bind (take_announces language two)
    intro _ three follows _
    have := follows.size_le
    exact (initializer_announces forms true three).weaken fun _ _ _ _ => by omega
  apply Announces.bind (modifiers_announces language (by omega))
  intro modifiers three follows _
  have := follows.size_le
  apply Announces.bind (isClassStart_announces language three)
  intro isClass four follows _
  have := follows.size_le
  split
  · exact (inner.classDeclaration four modifiers .inClass (fun _ plain => plain) (by omega)).weaken
      fun _ _ _ _ => by omega
  · exact (memberRest_announces forms modifiers (by omega)).weaken fun _ _ _ _ => by omega

theorem members_succ_announces (inner : ClassesAnnounce languages budget)
    (enough : 8 * before.size + 8 ≤ budget + 1) :
    Announces (languages .inClass).Holds (members (budget + 1)) before fun _ _ => True := by
  let language := languages .inClass
  rw [members]
  apply Announces.bind (acceptMark_announces language .rightBrace before)
  intro closes one follows _
  have := follows.size_le
  split
  · exact .pure trivial
  apply Announces.bind (acceptMark_announces language .semicolon one)
  intro stray two follows taken
  have := follows.size_le
  split
  · next stray =>
      have := taken stray
      exact inner.members two (by omega)
  apply Announces.bind (isNext_announces language .endOfInput two)
  intro ended three follows _
  have := follows.size_le
  split
  · exact refuse_announces language _ three _
  · exact .bind (inner.member three (by omega)) fun _ last _ shorter =>
      inner.members last (by omega)

theorem constant_succ_announces (forms : EventLanguage.Forms languages)
    (inner : ClassesAnnounce languages budget) (owner : String)
    (enough : 8 * before.size + 6 ≤ budget + 1) :
    Announces (languages .inClass).Holds (constant (budget + 1) owner) before fun _ _ => True := by
  let language := languages .inClass
  rw [constant]
  apply Announces.bind (modifiers_announces language (by omega))
  intro modifiers one follows _
  have := follows.size_le
  apply Announces.bind (expect_announces language (by simp) _ one)
  intro name two _ _
  apply Announces.bind (constantArguments_announces language (by omega))
  intro args three follows _
  have := follows.size_le
  dsimp only
  have possible : ∃ back : List Event, FieldEnd languages back := ⟨_, .inl rfl⟩
  have rest (start : Reading) (bound : start.size < before.size) :
      Announces (EventLanguage.comments.EndingIn (FieldEnd languages))
        (do
          if ← isMark .leftBrace then classBody budget (constantBody owner name.text name.line)
          emit .endField) start fun _ _ => True := by
    apply Announces.lead possible (isMark_announces _ .leftBrace start)
    intro braced mid follows _
    have := follows.size_le
    split
    · refine .finish (.chain (fun _ _ => FieldEnd.ofBody) ⟨_, rfl⟩
        (inner.classBody mid _ _ (fun body nested => ⟨_, body, rfl, ?_, nested, rfl⟩) (by omega))
        fun _ last _ _ => emit_announces_of ?_ last)
      · exact fun _ => Nat.le_refl _
      · rfl
    · exact .finish (emit_announces_of (.inl rfl) mid)
  refine .told (emitAnnotations_adds modifiers.uses three) (.told (emit_adds _ _)
    ((rest _ (by simp only [size_announce]; omega)).widen ?_))
  rintro _ ⟨gap, _, comments, rfl | ⟨body, events, isBody, once, nested, rfl⟩, rfl⟩
  · exact forms.field comments
  · exact forms.constant comments isBody once nested

theorem constants_succ_announces (inner : ClassesAnnounce languages budget) (owner : String)
    (enough : 8 * before.size + 7 ≤ budget + 1) :
    Announces (languages .inClass).Holds (constants (budget + 1) owner) before fun _ _ => True := by
  let language := languages .inClass
  rw [constants]
  have ends (start : Reading) : Announces language.Holds
      (acceptMark .semicolon <||> isMark .rightBrace) start fun _ _ => True :=
    .either (acceptMark_announces language .semicolon start) fun mid =>
      (isMark_announces language .rightBrace mid).forget
  apply Announces.bind (ends before)
  intro ended one follows _
  have := follows.size_le
  split
  · exact .pure trivial
  apply Announces.bind (inner.constant one owner (by omega))
  intro _ two follows _
  have := follows.size_le
  apply Announces.bind (acceptMark_announces language .comma two)
  intro another three follows taken
  split
  · next another =>
      have := taken another
      exact inner.constants three owner (by omega)
  apply Announces.bind (ends three)
  intro ended four _ _
  split
  · exact .pure trivial
  · exact refuse_announces language _ four _

theorem classesAnnounce (forms : EventLanguage.Forms languages) (budget : Nat) :
    ClassesAnnounce languages budget := by
  induction budget with
  | zero => constructor <;> intros <;> omega
  | succ budget ih =>
      exact
        { classDeclaration := fun _ modifiers _ =>
            classDeclaration_succ_announces forms ih modifiers
          classBody := fun _ declared _ => classBody_succ_announces ih declared
          member := fun _ => member_succ_announces forms ih
          members := fun _ => members_succ_announces ih
          constant := fun _ owner => constant_succ_announces forms ih owner
          constants := fun _ owner => constants_succ_announces ih owner }

theorem classDeclaration_announces (forms : EventLanguage.Forms languages)
    (modifiers : Modifiers) {surrounding : Surrounding}
    (admits : ∀ declared : ClassDecl, declared.isConstantBody = false →
      surrounding.Admits declared)
    (enough : 8 * before.size + 6 ≤ budget) :
    Announces (languages surrounding).Holds (classDeclaration budget modifiers) before
      fun _ after => after.size < before.size :=
  (classesAnnounce forms budget).classDeclaration before modifiers surrounding admits enough

end ReadM

end JavaDecl
