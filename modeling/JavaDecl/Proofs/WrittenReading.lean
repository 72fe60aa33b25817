import JavaDecl.Proofs.WrittenDeclarations

/-!
# Annotations are announced where they are written

What is announced of a unit that is read without a fault is what is written in it, each
declaration right behind the annotations among its own modifiers.
-/

namespace JavaDecl

namespace ReadM

variable {β : Type} {source text mid : List Char} {head : Head} {budget rounds : Nat}
  {last : β → List Char → List Event → Prop} {modifiers : Modifiers}

/-! ### Events -/

namespace Leads

theorem say {event : Event} {next : PUnit → ReadM β} (content : event.isComment = false)
    (rest : Leads False source (next ⟨⟩) text fun value rest more =>
      last value rest (event :: more)) :
    Leads False source (emit event >>= next) text last :=
  (emit_delivers content).bind fun _ _ _ ⟨_, left, told⟩ => by
    subst left told
    exact rest

theorem sayLast {event : Event} {post : PUnit → List Char → List Event → Prop}
    (content : event.isComment = false) (holds : post ⟨⟩ text [event]) :
    Leads False source (emit event) text post := by
  refine (emit_delivers content).mono ?_
  rintro _ _ _ ⟨-, rfl, rfl⟩
  exact holds

theorem annotate {uses : List (AnnotationUse TypeExpr)} {next : PUnit → ReadM β}
    (rest : Leads False source (next ⟨⟩) text fun value rest more =>
      last value rest (annotating uses ++ more)) :
    Leads False source (emitAnnotations uses >>= next) text last :=
  (emitAnnotations_delivers uses).bind fun _ _ _ ⟨_, left, told⟩ => by
    subst left told
    exact rest

end Leads

/-! ### Methods -/

theorem acceptReceiver_detects : Detects source acceptReceiver text fun answer rest =>
    if answer then ReceiverText text rest else rest = text := by
  refine .ifAccepted (fun word found isThis => .give (.plain found isThis)) fun first found _ => ?_
  rw [Leads.and_eq, bind_assoc]
  refine .ask _ fun name found => ?_
  rw [ite_bind]
  split
  · next isName =>
      rw [Leads.and_eq, isAt, bind_assoc, bind_assoc]
      refine .lookSecond found fun dot further => ?_
      rw [pure_bind, ite_bind]
      split
      · next isDot =>
          rw [isAt, bind_assoc]
          refine .lookBehind (.cons found (.single further)) fun word behind => ?_
          rw [pure_bind]
          split
          · next isThis =>
              refine (takeMany_leads (.cons found (.cons further (.single behind)))).meet
                fun _ _ => .give ?_
              exact .outer found (eq_of_beq isName) further (eq_of_beq isDot) behind
                (eq_of_beq isThis)
          · exact .give rfl
      · exact .give rfl
  · exact .give rfl

theorem parameter_leads : Leads False source (parameter budget) text fun _ rest told =>
    ∃ found, ParameterText source found text rest ∧
      told = saying (found.toList.map (·.map .parameter)) := by
  refine (modifiers_detects text).find fun modifiers start written => .line fun _ _ => ?_
  refine (typeExpr_skims false budget start).find fun type one header => ?_
  refine (skipAnnotations_skims false budget one).find fun _ two further => ?_
  refine (Skims.accept rfl two : Detects _ _ _ fun _ _ => HeaderText source false _ _).find
    fun isVarargs named last => ?_
  have typed := (header.append further).append last
  refine acceptReceiver_detects.find fun answer mid receiver => ?_
  cases answer with
  | true => exact .pure ⟨none, .receiver written typed receiver, rfl⟩
  | false =>
      obtain rfl : mid = named := receiver
      refine .expect fun name head found isName isHead => ?_
      refine dimensions_finds.find fun count rest pairs => ?_
      refine (isNext_stays _ _).bind fun another _ _ ⟨left, quiet⟩ => ?_
      subst left quiet
      split
      · exact .fault
      · let declared : VariableDecl :=
          { name := name.text, type := type.addDims count, modifiers := modifiers.words, isVarargs,
            line := firstLine source start }
        refine .annotate (.sayLast rfl ?_)
        refine ⟨some ⟨declared, modifiers.uses⟩, ?_, by simp [Annotated.map, declared]⟩
        exact .variable written typed found isName pairs isHead.text rfl

theorem parameterList_leads (rounds : Nat) (text : List Char) :
    Leads False source (separatedBy .comma (parameter budget) rounds) text fun _ rest told =>
      ∃ parameters, ParameterList source parameters text rest ∧
        told = saying (parameters.map (·.map .parameter)) := by
  induction rounds generalizing text with
  | zero => exact .exhausted
  | succ rounds ih =>
      refine parameter_leads.bind fun _ mid told ⟨found, stands, is⟩ => ?_
      subst is
      refine .ifAccepted (fun comma behind isComma => ?_) fun _ _ _ => ?_
      · refine (ih comma.rest).bind fun _ rest told ⟨others, more, is⟩ => ?_
        subst is
        exact .pure ⟨_, .more stands behind isComma more, by simp⟩
      · exact .pure ⟨_, .last stands, by simp⟩

/-- Parameters in their brackets, and what comes behind them. -/
theorem afterParameters {next : Token → ReadM β} {opened closed : String}
    (rest : ∀ parameters token mid, ParametersText source parameters text mid →
      Leads False source (next token) mid fun value rest more =>
        last value rest (saying (parameters.map (·.map .parameter)) ++ more)) :
    Leads False source (do
      let _ ← expectMark .leftParen opened
      parameters budget
      let token ← expectMark .rightParen closed
      next token) text last := by
  refine .expect fun _ opening found opens _ => ?_
  rw [parameters]
  simp only [bind_assoc, ite_bind, pure_bind]
  have closing {parameters : List (Annotated VariableDecl)} {mid : List Char}
      (stands : ∀ closing, Head.of? mid = some closing → closing.kind = .mark .rightParen →
        ParametersText source parameters text closing.rest) :
      Leads False source (expectMark .rightParen closed >>= next) mid fun value rest more =>
        last value rest (saying (parameters.map (·.map .parameter)) ++ more) :=
    .expect fun token head found closes _ => rest _ token head.rest (stands head found closes)
  refine .ifNext (fun _ _ _ => ?_) fun _ _ _ => ?_
  · exact closing fun _ => .none found opens
  · refine (parameterList_leads budget opening.rest).bind ?_
    rintro _ mid _ ⟨parameters, list, rfl⟩
    exact closing fun _ => .some found opens list

theorem resultDimensions_detects {declared : MethodDecl} :
    Detects source (resultDimensions budget declared) text fun result rest =>
      HeaderText source true text rest ∧ result.name = declared.name ∧
        result.modifiers = declared.modifiers ∧ result.isConstructor = declared.isConstructor := by
  refine (dimensions_skims true budget text).find fun more mid header => ?_
  split
  · exact .give ⟨header, rfl, rfl, rfl⟩
  · split
    · exact .give ⟨header, rfl, rfl, rfl⟩
    · exact .bind (peek_finds_heads 0 mid) fun _ _ _ _ => .fault

theorem blockText_detects : Detects source blockText text fun _ rest => BlockText text rest := by
  cases found : Head.of? text with
  | none => exact .failing (.failing (isNext_fails found))
  | some opening =>
      by_cases brace : opening.kind = .mark .leftBrace
      · exact (blockText_leads found brace False.elim).mono fun _ _ _ ⟨closed, quiet⟩ =>
          ⟨quiet, opening, found, brace, closed⟩
      · exact .failing (.no (isNext_reads found (by simpa using brace)) refuse_fails)

theorem expressionText_detects {terminators : List Mark} :
    Detects source (expressionText budget terminators) text fun _ rest =>
      ValueText terminators text rest :=
  (expressionText_leads False.elim).mono fun _ _ _
      ⟨quiet, first, slice, found, _, split, content, along⟩ =>
    ⟨quiet, first, slice, found, split, content, along⟩

/-! ### The end of a method -/

theorem endOf_leads {declared : MethodDecl} :
    Leads False source (emit (endOf declared)) text fun _ rest told =>
      rest = text ∧ told = [Event.endOf declared.isConstructor declared] := by
  have event : endOf declared = Event.endOf declared.isConstructor declared := rfl
  rw [event]
  refine (emit_delivers ?_).mono fun _ _ _ => And.right
  cases declared.isConstructor <;> rfl

theorem bodyAndEnd_leads {result : Option String → MethodDecl} :
    Leads False source (do
      let body ← if ← isMark .leftBrace then some <$> blockText else methodRest.noBody
      emit (endOf (result body))) text fun _ rest told => BodyText text rest ∧
        ∃ body, told = [Event.endOf (result body).isConstructor (result body)] := by
  have ending {rest : List Char} (stands : BodyText text rest) (body : Option String) :
      Leads False source (emit (endOf (result body))) rest fun _ rest told => BodyText text rest ∧
        ∃ body, told = [Event.endOf (result body).isConstructor (result body)] :=
    endOf_leads.mono fun _ _ _ ⟨left, told⟩ => ⟨left ▸ stands, body, told⟩
  refine .ifNext (fun _ _ _ => ?_) fun _ _ _ => ?_
  · rw [map_eq_pure_bind, bind_assoc]
    refine blockText_detects.find fun body mid block => ?_
    rw [pure_bind]
    exact ending (.block block) body
  · rw [methodRest.noBody, bind_assoc]
    refine .expect fun _ semicolon found ends _ => ?_
    rw [pure_bind]
    exact ending (.none found ends) none

theorem defaultAndEnd_leads {result : Option String → Option String → MethodDecl} :
    Leads False source (do
      let defaultValue ←
        if ← acceptKeyword .defaultKw then some <$> expressionText budget [.semicolon]
        else pure none
      let body ← if ← isMark .leftBrace then some <$> blockText else methodRest.noBody
      emit (endOf (result defaultValue body))) text fun _ rest told =>
        ∃ mid value body, DefaultText text mid ∧ BodyText mid rest ∧
          told = [Event.endOf (result value body).isConstructor (result value body)] := by
  have ending {mid : List Char} (stands : DefaultText text mid) (value : Option String) :
      Leads False source (do
        let body ← if ← isMark .leftBrace then some <$> blockText else methodRest.noBody
        emit (endOf (result value body))) mid fun _ rest told =>
          ∃ mid value body, DefaultText text mid ∧ BodyText mid rest ∧
            told = [Event.endOf (result value body).isConstructor (result value body)] :=
    bodyAndEnd_leads.mono fun _ _ _ ⟨behind, body, is⟩ => ⟨mid, value, body, stands, behind, is⟩
  refine .ifAccepted (fun word found isDefault => ?_) fun _ _ _ => ending .none none
  rw [map_eq_pure_bind, bind_assoc]
  refine expressionText_detects.find fun value mid written => ?_
  rw [pure_bind]
  exact ending (.value found isDefault written) value

/-- The rest of a method or constructor, of which modifiers, types and a name come first. -/
theorem methodRest_leads {start named : List Char} {name : Head} (declared : MethodDecl)
    (written : ModifiersText source modifiers text start)
    (header : HeaderText source false start named) (found : Head.of? named = some name)
    (isName : name.kind = .identifier) (same : declared.name = name.text)
    (words : declared.modifiers = modifiers.words) :
    Leads False source (methodRest budget declared) name.rest fun _ rest told =>
      ∃ method, MethodText source method text rest ∧
        annotating modifiers.uses ++ Event.beginOf declared.isConstructor :: told =
          saying method.parts := by
  refine afterParameters fun parameters _ behind inside => ?_
  refine resultDimensions_detects.find ?_
  rintro result one ⟨dims, named, worded, sort⟩
  have ending {exceptions : List TypeExpr} {value body : Option String} {last mid rest : List Char}
      {told : List Event} (throws : HeaderText source true one last)
      (default : DefaultText last mid) (block : BodyText mid rest)
      (is : told = [Event.endOf result.isConstructor
        { result with exceptions, defaultValue := value, body }]) :
      ∃ method, MethodText source method text rest ∧
        annotating modifiers.uses ++ Event.beginOf declared.isConstructor ::
          (saying (parameters.map (·.map .parameter)) ++ told) = saying method.parts := by
    let whole : MethodDecl := { result with exceptions, defaultValue := value, body }
    have stands : MethodText source { header := ⟨whole, modifiers.uses⟩, parameters } text rest :=
      .intro written header found isName inside (dims.append throws) default block
        (named.trans same) (worded.trans words)
    refine ⟨_, stands, ?_⟩
    simp [WrittenMethod.parts, Annotated.map, sort, is, whole]
  refine .ifAccepted (fun word found isThrows => ?_) fun _ _ _ => ?_
  · refine (typeList_skims budget word.rest).find fun exceptions mid throws => ?_
    exact defaultAndEnd_leads.mono fun _ _ _ ⟨mid, value, body, default, block, is⟩ =>
      ending (.token found (by rw [isThrows]; rfl) throws) default block is
  · exact defaultAndEnd_leads.mono fun _ _ _ ⟨mid, value, body, default, block, is⟩ =>
      ending .done default block is

/-! ### Members -/

/-- What is announced is what is written somewhere. -/
def IsWritten (source : List Char) (place : Place) (text : List Char) (_ : Unit)
    (rest : List Char) (told : List Event) : Prop :=
  ∃ writing, WritingText source place writing text rest ∧ told = saying writing.parts

namespace Leads

variable {inside outside : Place} {start whole : List Char} {part : ReadM Unit}

/-- Declarations are read, and then something else. -/
theorem written {next : Unit → ReadM β}
    (first : Leads False source part text (IsWritten source inside start))
    (second : ∀ value writing mid, WritingText source inside writing start mid →
      Leads False source (next value) mid fun value rest more =>
        last value rest (saying writing.parts ++ more)) :
    Leads False source (part >>= next) text last := by
  refine first.bind ?_
  rintro value mid _ ⟨writing, stands, rfl⟩
  exact second value writing mid stands

theorem asWritten (first : Leads False source part text (IsWritten source inside start))
    (around : ∀ writing rest, WritingText source inside writing start rest →
      WritingText source outside writing whole rest) :
    Leads False source part text (IsWritten source outside whole) := by
  refine first.mono ?_
  rintro _ rest _ ⟨writing, stands, rfl⟩
  exact ⟨writing, around writing rest stands, rfl⟩

/-- Declarations behind others. -/
theorem behind {front : Writing}
    (more : Leads False source part text (IsWritten source inside text))
    (around : ∀ others rest, WritingText source inside others text rest →
      WritingText source outside (front.append others) whole rest) :
    Leads False source part text fun value rest told =>
      IsWritten source outside whole value rest (saying front.parts ++ told) := by
  refine more.mono ?_
  rintro _ rest _ ⟨others, stands, rfl⟩
  exact ⟨_, around others rest stands, by simp⟩

end Leads

theorem saying_fieldParts (all : List Declarator) (type : TypeExpr) (line : Nat) :
    saying (fieldParts
        { declared := all.map (·.decl modifiers.words type line), uses := modifiers.uses }) =
      all.flatMap (·.events modifiers type line) := by
  simp [fieldParts, saying_flatMap, Declarator.events, List.flatMap_map]

theorem memberRest_leads {start : List Char} (written : ModifiersText source modifiers text start) :
    Leads False source (memberRest budget modifiers) start (IsWritten source .member text) := by
  refine .line fun _ _ => ?_
  refine (optionalParameters_skims false budget start).find fun typeParameters one parameters => ?_
  have method (declared : MethodDecl) {named : List Char} {name : Head}
      (header : HeaderText source false start named) (found : Head.of? named = some name)
      (isName : name.kind = .identifier) (same : declared.name = name.text)
      (words : declared.modifiers = modifiers.words) :
      Leads False source (methodRest budget declared) name.rest fun value rest more =>
        IsWritten source .member text value rest
          (annotating modifiers.uses ++ Event.beginOf declared.isConstructor :: more) := by
    refine (methodRest_leads declared written header found isName same words).mono ?_
    rintro _ rest told ⟨method, stands, is⟩
    exact ⟨_, .method stands, by simp [Writing.parts, is]⟩
  refine .ifBoth (fun _ _ _ _ _ _ => ?_) fun _ _ _ => ?_
  · exact .name fun name found isName => .annotate (.say rfl
      (method _ parameters found isName rfl rfl))
  refine (typeExpr_skims false budget one).find fun type named typed => ?_
  refine .within fun inside => .name fun name found isName => ?_
  have header := parameters.append typed
  refine .ifNext (fun _ _ _ => ?_) fun _ _ _ => ?_
  · exact .annotate (.say rfl (method _ header found isName rfl rfl))
  split
  · refine (fieldRest_reads_declarators inside found isName).mono ?_
    rintro _ rest told ⟨all, chain, is, -⟩
    let declared := all.map (·.decl modifiers.words type (firstLine source start))
    have group : FieldsText source { declared, uses := modifiers.uses } text rest :=
      .intro written header chain
    exact ⟨_, .fields group, by simp [Writing.parts, is, saying_fieldParts, declared]⟩
  · exact refuse_fails

theorem initializer_leads {isStatic : Bool} {start : List Char}
    (whole : ∀ (declared : InitializerDecl) rest, BlockText text rest →
      declared.isStatic = isStatic →
        WritingText source .member (.initializer declared .nothing) start rest) :
    Leads False source (initializer isStatic) text (IsWritten source .member start) :=
  .line fun _ _ => blockText_detects.find fun _ rest block =>
    .sayLast rfl ⟨_, whole _ rest block rfl, rfl⟩

/-! ### Classes -/

theorem classKind?_leads {next : Option ClassKind → ReadM β}
    (none : Leads False source (next none) text last)
    (some : ∀ kind mid opening, Head.of? mid = some opening →
      ClassWordText kind text opening.rest → Leads False source (next (.some kind)) mid last) :
    Leads False source (classKind? >>= next) text last := by
  rw [classKind?, bind_assoc]
  refine .look fun head found => ?_
  split
  · next is => exact some _ text head found (.word found (is ▸ .ordinary))
  · next is => exact some _ text head found (.word found (is ▸ .interface))
  · next is => exact some _ text head found (.word found (is ▸ .enumeration))
  · next is =>
      simp only [isAt, bind_assoc, pure_bind, ite_bind]
      refine .lookSecond found fun word further => ?_
      split
      · next isWord =>
          exact .takeHead found fun _ _ => some _ head.rest word further
            (.annotationType found is further (eq_of_beq isWord))
      · exact none
  · exact none

theorem isClassStart_stays (text : List Char) :
    Detects source isClassStart text fun _ rest => rest = text := by
  refine .look fun head found => ?_
  split
  · exact .give rfl
  · exact .give rfl
  · exact .give rfl
  · rw [isAt]
    exact (Skims.kindAt_stays 1 text).find fun _ _ left => .give left
  · exact .give rfl

theorem classHeader_detects {words : List String} :
    Detects source (classHeader budget words) text fun declared rest =>
      ClassHeaderText source declared text rest ∧ declared.modifiers = words := by
  refine classKind?_leads refuse_fails fun kind mid opening found word => ?_
  refine .takeHead found fun token _ => .name fun name named isName => ?_
  refine (optionalParameters_skims true budget name.rest).find fun typeParameters one params => ?_
  have permitted {extending implementing : List TypeExpr} {mid : List Char}
      (header : HeaderText source true name.rest mid) :
      Detects source (do
        skipPermitted budget
        return ({ name := name.text, kind, modifiers := words, extending, implementing,
                  typeParameters, line := token.line } : ClassDecl)) mid fun declared rest =>
          ClassHeaderText source declared text rest ∧ declared.modifiers = words :=
    (skipPermitted_skims budget mid).find fun _ rest permits =>
      .give ⟨.intro word named isName (header.append permits) rfl, rfl⟩
  have implemented {extending : List TypeExpr} {mid : List Char}
      (header : HeaderText source true name.rest mid) :
      Detects source (do
        let implementing ← if ← acceptKeyword .implementsKw then typeList budget else pure []
        skipPermitted budget
        return ({ name := name.text, kind, modifiers := words, extending, implementing,
                  typeParameters, line := token.line } : ClassDecl)) mid fun declared rest =>
          ClassHeaderText source declared text rest ∧ declared.modifiers = words := by
    refine .ifAccepted (fun word found is => ?_) fun _ _ _ => permitted header
    refine (typeList_skims budget word.rest).find fun _ _ types => permitted (header.append ?_)
    exact .token found (by rw [is]; rfl) types
  refine .ifAccepted (fun word found is => ?_) fun _ _ _ => implemented params
  have opened {rest : List Char} (types : HeaderText source true word.rest rest) :
      HeaderText source true name.rest rest :=
    params.append (.token found (by rw [is]; rfl) types)
  split
  · exact (typeList_skims budget word.rest).find fun _ _ types => implemented (opened types)
  · exact (typeExpr_skims true budget word.rest).find fun _ _ types => implemented (opened types)

theorem arguments_detects {α : Type} (rounds : Nat) (text : List Char) {closed : String}
    (change : List String → α) :
    Detects source (do
      let args ← listUntil .rightParen (expressionText budget [.comma]) rounds
      let _ ← expectMark .rightParen closed
      return change args) text fun _ rest => ArgumentList text rest := by
  induction rounds generalizing text change with
  | zero => exact .exhausted
  | succ rounds ih =>
      rw [listUntil]
      simp only [bind_assoc, ite_bind, pure_bind]
      refine .ifNext (fun _ _ _ => .expect fun _ closing found closes _ => ?_) fun _ _ _ => ?_
      · exact .give (.closed found closes)
      refine expressionText_detects.find fun value mid stands => ?_
      refine .ifAccepted (fun comma found isComma => ?_) fun _ _ _ => ?_
      · exact (ih comma.rest fun others => change (value :: others)).mono
          fun _ _ _ ⟨quiet, others⟩ => ⟨quiet, .more stands found isComma others⟩
      · exact .expect fun _ closing found closes _ => .give (.last stands found closes)

theorem constantArguments_detects :
    Detects source (constantArguments budget) text fun _ rest => ArgumentsText text rest :=
  .ifAccepted (fun _ found opens => (arguments_detects budget _ id).mono
    fun _ _ _ ⟨quiet, args⟩ => ⟨quiet, .some found opens args⟩) fun _ _ _ => .give .none

/-- The end of the constants is found, or they go on. -/
theorem constantsEnd_detects : Detects source (acceptMark .semicolon <||> isMark .rightBrace) text
    fun answer rest => if answer then ConstantsEndText text rest else rest = text := by
  have choice (one two : ReadM Bool) :
      (one <||> two) = one >>= fun answer => if answer then pure true else two :=
    bind_congr fun answer => by cases answer <;> rfl
  rw [choice]
  refine .ifAccepted (fun semicolon found ends => ?_) fun _ _ _ => ?_
  · exact .give (.semicolon found ends)
  · refine .look fun head found => .give ?_
    split
    · next closes => exact .brace found (eq_of_beq closes)
    · rfl

/-- What the parts of classes announce is what is written in them. -/
structure ClassesWritten (source : List Char) (budget : Nat) : Prop where
  aClass : ∀ {modifiers : Modifiers} {text start : List Char},
    ModifiersText source modifiers text start →
      Leads False source (classDeclaration budget modifiers) start (IsWritten source .aClass text)
  body : ∀ (declared : ClassDecl) (text : List Char),
    Leads False source (classBody budget declared) text fun _ rest told =>
      ∃ inner, WritingText source (.body declared.kind) inner text rest ∧
        told = .beginClass declared :: (saying inner.parts ++ [.endClass])
  member : ∀ text : List Char,
    Leads False source (member budget) text (IsWritten source .member text)
  members : ∀ text : List Char,
    Leads False source (members budget) text (IsWritten source .members text)
  constant : ∀ (owner : String) (text : List Char),
    Leads False source (constant budget owner) text (IsWritten source .constant text)
  constants : ∀ (owner : String) (text : List Char),
    Leads False source (constants budget owner) text (IsWritten source .constants text)

namespace ClassesWritten

variable (inner : ClassesWritten source budget)

include inner

theorem succ_aClass {start : List Char} (written : ModifiersText source modifiers text start) :
    Leads False source (classDeclaration (budget + 1) modifiers) start
      (IsWritten source .aClass text) := by
  rw [classDeclaration]
  refine classHeader_detects.find ?_
  rintro declared opened ⟨header, words⟩
  refine .annotate ((inner.body declared opened).mono ?_)
  rintro _ rest _ ⟨body, stands, rfl⟩
  exact ⟨_, .aClass written header words stands, by simp [Writing.parts, Annotated.map]⟩

theorem succ_body (declared : ClassDecl) (text : List Char) :
    Leads False source (classBody (budget + 1) declared) text fun _ rest told =>
      ∃ inner, WritingText source (.body declared.kind) inner text rest ∧
        told = .beginClass declared :: (saying inner.parts ++ [.endClass]) := by
  rw [classBody]
  refine .say rfl (.expect fun _ opening found opens _ => ?_)
  dsimp only
  split
  · next enumerates =>
      refine .written (inner.constants declared.name opening.rest) fun _ constants mid inside => ?_
      refine .written (inner.members mid) fun _ members rest behind => .sayLast rfl ?_
      rw [enumerates]
      exact ⟨_, .enumeration found opens inside behind, by simp⟩
  · next other =>
      refine .written (inner.members opening.rest) fun _ members rest inside => .sayLast rfl ?_
      exact ⟨_, .body found opens other inside, by simp⟩

theorem succ_member (text : List Char) :
    Leads False source (ReadM.member (budget + 1)) text (IsWritten source .member text) := by
  rw [ReadM.member]
  refine .ifNext (fun _ _ _ => ?_) fun _ _ _ => ?_
  · exact initializer_leads fun _ _ => .initializer
  refine .ifBoth (fun word _ found isStatic _ _ => ?_) fun _ _ _ => ?_
  · refine .takeHead found fun _ _ => ?_
    exact initializer_leads fun _ _ => .staticInitializer found isStatic
  refine (modifiers_detects text).find fun modifiers start written => ?_
  refine (isClassStart_stays start).find fun starts _ left => ?_
  subst left
  split
  · exact .asWritten (inner.aClass written) fun _ _ => .classMember
  · exact memberRest_leads written

theorem succ_members (text : List Char) :
    Leads False source (ReadM.members (budget + 1)) text (IsWritten source .members text) := by
  rw [ReadM.members]
  refine .ifAccepted (fun closing found closes => ?_) fun _ _ _ => ?_
  · exact .pure ⟨.nothing, .noMembers found closes, rfl⟩
  refine .ifAccepted (fun semicolon found stray => ?_) fun _ _ _ => ?_
  · exact .asWritten (inner.members semicolon.rest) fun _ _ => .strayInside found stray
  refine .ifNext (fun _ _ _ => refuse_fails) fun _ _ _ => ?_
  exact .written (inner.member text) fun _ first mid stands =>
    .behind (inner.members mid) fun _ _ => .members stands

theorem succ_constants (owner : String) (text : List Char) :
    Leads False source (ReadM.constants (budget + 1) owner) text
      (IsWritten source .constants text) := by
  rw [ReadM.constants]
  refine constantsEnd_detects.find fun ended mid ends => ?_
  split
  · next isEnd =>
      rw [if_pos isEnd] at ends
      exact .pure ⟨_, .noConstants ends, rfl⟩
  next goesOn =>
  rw [if_neg goesOn] at ends
  subst ends
  refine .written (inner.constant owner _) fun _ first mid stands => ?_
  refine .ifAccepted (fun comma found isComma => ?_) fun _ _ _ => ?_
  · exact .behind (inner.constants owner comma.rest) fun _ _ => .constants stands found isComma
  refine constantsEnd_detects.find fun ended mid ends => ?_
  split
  · next isEnd =>
      rw [if_pos isEnd] at ends
      exact .pure ⟨_, .lastConstant stands ends, by simp⟩
  · exact refuse_fails

theorem succ_constant (owner : String) (text : List Char) :
    Leads False source (ReadM.constant (budget + 1) owner) text
      (IsWritten source .constant text) := by
  rw [ReadM.constant]
  refine (modifiers_detects text).find fun modifiers start written => ?_
  refine .expect fun token name found isName isHead => ?_
  refine constantArguments_detects.find fun args mid inside => ?_
  refine .annotate (.say rfl ?_)
  let declared : VariableDecl :=
    { name := token.text, type := { name := owner }, isConstant := true, args, line := token.line }
  have header : ConstantText source { declared, uses := modifiers.uses } text mid :=
    .intro written found isName inside isHead.text rfl
  refine .ifNext (fun _ _ _ => ?_) fun next further other => ?_
  · refine (inner.body _ mid).bind ?_
    rintro _ rest _ ⟨body, stands, rfl⟩
    refine .sayLast rfl ⟨_, .constantWithBody header rfl stands, ?_⟩
    simp [Writing.parts, Annotated.map, declared]
  · refine .sayLast rfl ⟨_, .constant header further other, ?_⟩
    simp [Writing.parts, Annotated.map, declared]

end ClassesWritten

theorem classesWritten (source : List Char) (budget : Nat) : ClassesWritten source budget := by
  induction budget with
  | zero =>
      exact ⟨fun _ => .exhausted, fun _ _ => .exhausted, fun _ => .exhausted, fun _ => .exhausted,
        fun _ _ => .exhausted, fun _ _ => .exhausted⟩
  | succ budget ih =>
      exact ⟨ih.succ_aClass, ih.succ_body, ih.succ_member, ih.succ_members, ih.succ_constant,
        ih.succ_constants⟩

/-! ### Units -/

theorem eq_of_isEmpty {start : List Char} (written : ModifiersText source modifiers text start)
    (empty : modifiers.isEmpty = true) : start = text := by
  obtain ⟨pieces, rfl, leading, -⟩ := written
  cases leading with
  | none => rfl
  | use | word | sealed | nonSealed => simp [Modifiers.ofPieces, Modifiers.isEmpty] at empty

theorem classDeclarations_leads {leading : Modifiers} {start : List Char}
    (written : ModifiersText source leading text start) :
    Leads False source (classDeclarations budget leading) start (IsWritten source .unit text) := by
  induction budget generalizing leading text start with
  | zero => exact .exhausted
  | succ budget ih =>
      have onward (mid : List Char) : Leads False source
          (modifiers budget >>= fun leading => classDeclarations budget leading) mid
          (IsWritten source .unit mid) :=
        (modifiers_detects mid).find fun _ _ => ih
      have aClass : Leads False source (do
          classDeclaration budget leading
          let leading ← modifiers budget
          classDeclarations budget leading) start (IsWritten source .unit text) :=
        .written ((classesWritten source budget).aClass written) fun _ first mid stands =>
          .behind (onward mid) fun _ _ => .classes stands
      rw [classDeclarations]
      simp only [Leads.and_eq, pure_bind, ite_bind]
      cases empty : leading.isEmpty with
      | false => exact aClass
      | true =>
          obtain rfl := eq_of_isEmpty written empty
          refine .ifNext (fun last found isEnd => ?_) fun _ _ _ => ?_
          · exact .pure ⟨.nothing, .unitEnd found isEnd, rfl⟩
          refine .ifAccepted (fun semicolon found stray => ?_) fun _ _ _ => aClass
          exact .asWritten (onward semicolon.rest) fun _ _ => .strayOutside found stray

/-! ### Imports and packages -/

end ReadM

section Runs

variable {text mid rest : List Char} {head : Head} {names : List String}

theorem ImportRun.none : ImportRun text text :=
  ⟨[], .nil, nofun⟩

theorem ImportRun.single (found : Head.of? text = some head)
    (inside : isImportToken head.kind = true) : ImportRun text head.rest :=
  ⟨[head], .single found, by simpa using inside⟩

theorem ImportRun.append (first : ImportRun text mid) (second : ImportRun mid rest) :
    ImportRun text rest := by
  obtain ⟨front, one, fronts⟩ := first
  obtain ⟨back, two, backs⟩ := second
  exact ⟨front ++ back, one.append two, List.forall_mem_append.mpr ⟨fronts, backs⟩⟩

theorem NameText.importRun (named : NameText names text rest) : ImportRun text rest := by
  induction named with
  | last found isName => exact .single found (by rw [isName]; rfl)
  | more found isName further isDot _ ih =>
      exact (ImportRun.single found (by rw [isName]; rfl)).append
        ((ImportRun.single further (by rw [isDot]; rfl)).append ih)

end Runs

namespace ReadM

variable {source text mid : List Char} {budget : Nat}

theorem accept_importRun {kind : TokenKind} (inside : isImportToken kind = true) :
    Detects source (accept kind) text fun _ rest => ImportRun text rest := by
  refine (accept_finds kind).mono fun _ _ _ ⟨quiet, head, found, is⟩ => ⟨quiet, ?_⟩
  rcases is with ⟨-, same, rfl⟩ | ⟨-, -, rfl⟩
  · exact .single found (same ▸ inside)
  · exact .none

theorem importDeclaration_leads :
    Leads False source (importDeclaration budget) text fun _ rest told =>
      told.filter Event.isWritten = [] ∧
        ∀ last, ImportsText rest last → ImportsText text last := by
  refine .expect fun token word found isImport _ => ?_
  refine (accept_importRun rfl).find fun isStatic one before => ?_
  refine qualifiedName_detects.find ?_
  rintro _ two ⟨names, named, rfl⟩
  refine (accept_importRun rfl).find fun isWildcard three dotted => ?_
  have run := (before.append named.importRun).append dotted
  have ending {declared : ImportDecl} {mid : List Char} (inside : ImportRun word.rest mid) :
      Leads False source (do
        let _ ← expectMark .semicolon "';' after import"
        emit (.imported declared)) mid fun _ rest told => told.filter Event.isWritten = [] ∧
          ∀ last, ImportsText rest last → ImportsText text last := by
    refine .expect fun _ semicolon further ends _ => ?_
    exact .sayLast rfl ⟨rfl, fun last others => .more found isImport inside further ends others⟩
  split
  · exact .expect fun _ star further isStar _ =>
      ending (run.append (.single further (by rw [isStar]; rfl)))
  · exact ending run

theorem imports_lead (rounds : Nat) (text : List Char) :
    Leads False source (many (import? budget) rounds) text fun _ rest told =>
      told.filter Event.isWritten = [] ∧ ImportsText text rest := by
  induction rounds generalizing text with
  | zero => exact .exhausted
  | succ rounds ih =>
      have onward {front : List Event} {mid : List Char}
          (silent : front.filter Event.isWritten = [])
          (further : ∀ last, ImportsText mid last → ImportsText text last) :
          Leads False source (many (import? budget) rounds >>= fun others => pure (() :: others))
            mid fun _ rest more =>
              (front ++ more).filter Event.isWritten = [] ∧ ImportsText text rest := by
        refine (ih mid).bind ?_
        rintro _ rest told ⟨quiet, imports⟩
        exact .pure ⟨by simp [silent, quiet], further rest imports⟩
      rw [many, import?]
      simp only [bind_assoc, ite_bind, pure_bind]
      refine .ifNext (fun _ _ _ => ?_) fun _ _ _ => ?_
      · refine importDeclaration_leads.bind ?_
        rintro _ mid told ⟨silent, further⟩
        exact onward silent further
      refine .ifAccepted (fun semicolon found stray => ?_) fun _ _ _ => .pure ⟨rfl, .none⟩
      have silent : [].filter Event.isWritten = [] := rfl
      exact onward silent fun _ others => .stray found stray others

theorem packageDeclaration_leads :
    Leads False source (packageDeclaration budget) text fun _ rest told =>
      ∃ declared : PackageDecl, told = [.package declared] ∧ ∃ word names mid semicolon,
        Head.of? text = some word ∧ word.kind = .keyword .packageKw ∧
          NameText names word.rest mid ∧ Head.of? mid = some semicolon ∧
            semicolon.kind = .mark .semicolon ∧ declared.name = ".".intercalate names ∧
              rest = semicolon.rest := by
  refine .expect fun token word found isPackage _ => qualifiedName_detects.find ?_
  rintro _ mid ⟨names, named, rfl⟩
  refine .expect fun _ semicolon further ends _ => ?_
  exact .sayLast rfl
    ⟨_, rfl, word, names, mid, semicolon, found, isPackage, named, further, ends, rfl, rfl⟩

theorem preamble_leads : Leads False source (preamble budget) text fun leading rest told =>
    ∃ package mid, PreambleText source package text mid ∧ ModifiersText source leading mid rest ∧
      told.filter Event.isWritten = saying (package.toList.map (·.map .package)) := by
  have imported (mid : List Char) :
      Leads False source (many (import? budget) budget >>= fun _ => modifiers budget) mid
        fun leading rest told => ∃ after, ImportsText mid after ∧
          ModifiersText source leading after rest ∧ told.filter Event.isWritten = [] := by
    refine (imports_lead budget mid).bind fun _ after told ⟨silent, imports⟩ => ?_
    refine (modifiers_detects after).mono fun leading rest more ⟨quiet, written⟩ => ?_
    exact ⟨after, imports, written, by simp [quiet, silent]⟩
  refine (modifiers_detects text).find fun leading start written => ?_
  refine .ifNext (fun _ _ _ => ?_) fun _ _ _ => ?_
  · refine .annotate (packageDeclaration_leads.bind ?_)
    rintro _ _ _ ⟨declared, rfl, word, names, mid, semicolon, found, isPackage, named, further,
      ends, same, rfl⟩
    refine (imported semicolon.rest).mono fun _ _ _ ⟨after, imports, behind, silent⟩ => ?_
    have isWritten : (Event.package declared).isWritten = true := rfl
    exact ⟨_, after, .package written found isPackage named further ends imports same, behind,
      by simp [silent, Annotated.map, isWritten]⟩
  · rw [pure_bind]
    dsimp only
    split
    · next empty =>
        obtain rfl := eq_of_isEmpty written empty
        exact (imported start).mono fun _ _ _ ⟨after, imports, behind, silent⟩ =>
          ⟨none, after, .imports imports, behind, silent⟩
    · exact .pure ⟨none, text, .imports .none, written, rfl⟩

/-! ### Modules and units -/

theorem Leads.word {word : String} {next : Token → ReadM β}
    (rest : ∀ token head, Head.of? text = some head → head.IsWord word →
      Leads False source (next token) head.rest last) :
    Leads False source (expectWord word >>= next) text last := by
  rw [expectWord, bind_assoc]
  refine .askWord .nil word fun head found => ?_
  rw [ite_bind]
  split
  · next is =>
      obtain ⟨isName, same⟩ := Bool.and_eq_true_iff.mp is
      exact .takeHead found fun token _ =>
        rest token head found ⟨eq_of_beq isName, eq_of_beq same⟩
  · exact .failing refuse_fails

/-- Directives are no declarations. -/
theorem directives_silent (text : List Char) :
    Leads False source (many (directive? budget) budget) text fun _ _ told =>
      told.filter Event.isWritten = [] := by
  have telling (event : Event) (isDirective : event.isDirective) :
      AllFit (·.isWritten = false) source (emit event) := by
    have unwritten : event.isWritten = false := by
      cases event <;> first | rfl | cases isDirective
    have content : event.isComment = false := by
      cases event <;> first | rfl | cases isDirective
    intro text
    refine (emit_delivers content).mono fun _ _ _ ⟨_, _, told⟩ another member => ?_
    rw [told, List.mem_singleton] at member
    exact member ▸ unwritten
  have silent := (allFit_phrases (·.isWritten = false) source).directives budget telling
  exact (silent text).mono fun _ _ _ none => List.filter_eq_nil_iff.mpr fun event member => by
    simp [none event member]

theorem moduleDeclaration_leads :
    Leads False source (moduleDeclaration budget) text fun _ _ told =>
      ∃ declared mid, ModuleHeaderText declared text mid ∧
        told.filter Event.isWritten = [.moduleHeader declared] := by
  refine .line fun _ _ => ?_
  have named (isOpen : Bool) (line : Nat) {start : List Char}
      (opens : ∀ word names mid brace, Head.of? start = some word → word.IsWord "module" →
        NameText names word.rest mid → Head.of? mid = some brace → brace.kind = .mark .leftBrace →
          ModuleHeaderText { name := ".".intercalate names, isOpen, line } text brace.rest) :
      Leads False source (do
        let _ ← expectWord "module"
        let name ← qualifiedName budget
        let _ ← expectMark .leftBrace "'\x7b' opening module body"
        emit (.moduleHeader { name, isOpen, line })
        let _ ← many (directive? budget) budget) start fun _ _ told =>
          ∃ declared mid, ModuleHeaderText declared text mid ∧
            told.filter Event.isWritten = [.moduleHeader declared] := by
    refine .word fun _ word found isWord => qualifiedName_detects.find ?_
    rintro _ mid ⟨names, named, rfl⟩
    refine .expect fun _ brace further isBrace _ => .say rfl ?_
    refine (directives_silent brace.rest).bind fun _ _ told silent => .pure ?_
    refine ⟨_, _, opens word names mid brace found isWord named further isBrace, ?_⟩
    rw [List.append_nil, List.filter_cons_of_pos rfl, silent]
  refine .askWord .nil "open" fun first found => ?_
  cases is : first.kind == .identifier && first.text == "open" with
  | true =>
      obtain ⟨isName, same⟩ := Bool.and_eq_true_iff.mp is
      refine .takeHead found fun _ _ => named true _ fun word names mid brace behind isWord name
        further isBrace => ?_
      exact .opened found ⟨eq_of_beq isName, eq_of_beq same⟩ behind isWord name further isBrace rfl
        rfl
  | false =>
      exact named false _ fun word names mid brace found isWord name further isBrace =>
        .closed found isWord name further isBrace rfl rfl

theorem isWordAt_stays (skipped : Nat) (word : String) (text : List Char) :
    Detects source (isWordAt skipped word) text fun _ rest => rest = text :=
  (peek_finds_heads skipped text).bind fun _ _ _ ⟨left, quiet, _⟩ => .pure ⟨by simp [quiet], left⟩

theorem isModuleStart_stays : Detects source isModuleStart text fun _ rest => rest = text := by
  refine (isWordAt_stays 0 "module" text).find ?_
  rintro isModule _ rfl
  split
  · exact (Skims.kindAt_stays 1 _).find fun _ _ left => .give left
  · rw [Leads.and_eq]
    refine (isWordAt_stays 0 "open" _).find ?_
    rintro isOpen _ rfl
    split
    · exact isWordAt_stays 1 "module" _
    · exact .give rfl

theorem compilationUnit_leads (budget : Nat) :
    Leads False source (compilationUnit budget) text fun _ _ told =>
      ∃ writing mid, UnitText source writing text mid ∧
        told.filter Event.isWritten = saying writing.parts := by
  refine preamble_leads.bind fun leading start front ⟨package, mid, preamble, written, is⟩ => ?_
  have classes : Leads False source (classDeclarations budget leading) start fun _ _ more =>
      ∃ writing mid, UnitText source writing text mid ∧
        (front ++ more).filter Event.isWritten = saying writing.parts :=
    (classDeclarations_leads written).mono fun _ rest _ ⟨declarations, stands, same⟩ => by
      subst same
      refine ⟨_, rest, .classes preamble stands, ?_⟩
      rw [List.filter_append, is, filter_saying declarations.parts_proper]
      simp [UnitWriting.parts]
  rw [Leads.and_eq, pure_bind]
  cases noWords : leading.words.isEmpty with
  | false => exact classes
  | true =>
      rw [if_pos rfl]
      refine isModuleStart_stays.find ?_
      rintro isModule _ rfl
      split
      · refine .annotate (moduleDeclaration_leads.bind ?_)
        rintro _ last told ⟨declared, brace, header, same⟩
        refine .ifNext (fun _ _ _ => .pure ?_) fun _ _ _ => refuse_fails
        refine ⟨_, brace, .aModule preamble written (List.isEmpty_iff.mp noWords) header, ?_⟩
        simp [is, same, UnitWriting.parts, Writing.parts, Annotated.map]
      · exact classes

end ReadM

/-- What is announced of a text that is accepted is what is written in it, apart from comments,
imports and directives. -/
theorem unitText_of_accepted {source : List Char} (accepted : (readUnit source).2 = none) :
    ∃ writing rest, UnitText source writing (TokenStream.ofSource source).rest rest ∧
      (readUnit source).1.filter Event.isWritten = saying writing.parts := by
  have ran := ReadM.compilationUnit_leads (readingBudget source) _ _
    (Reading.stands_ofSource source)
  cases outcome : ReadM.compilationUnit (readingBudget source) (.ofSource source) with
  | error failure after => simp [readUnit, outcome] at accepted
  | ok value after =>
      rw [outcome] at ran
      obtain ⟨_, told, ⟨writing, rest, stands, is⟩, after⟩ := ran
      refine ⟨writing, rest, stands, ?_⟩
      rw [← is, ← List.nil_append told, ← after.said, List.filter_filter, readUnit_of_ok outcome]
      refine List.filter_congr fun event _ => ?_
      cases event <;> rfl

end JavaDecl
