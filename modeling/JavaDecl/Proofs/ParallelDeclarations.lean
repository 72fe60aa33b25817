import JavaDecl.Proofs.ParallelPhrases
import JavaDecl.Proofs.UnitReading

/-!
# Declarations and units side by side

Corresponding tokens make up the same declarations but for their verbatim texts, so two
sources whose tokens correspond are accepted together, with events that correspond.
-/

namespace JavaDecl

namespace ReadM

open Correspondence

variable {between : Correspondence} {budget larger : Nat}

section Members

variable (lawful : between.Lawful)

include lawful

/-! ### Methods -/

theorem acceptReceiver_parallel : Parallel between Eq acceptReceiver acceptReceiver := by
  refine (acceptKeyword_parallel lawful .thisKw).andThen fun alone =>
    .ite (fun _ => .pure rfl) fun _ => ?_
  refine (Parallel.both (isNext_parallel lawful .identifier) (.both (isAt_parallel lawful 1 _)
    (isAt_parallel lawful 2 _))).andThen fun qualified => .ite (fun _ => ?_) fun _ => .pure rfl
  exact (takeMany_parallel lawful 3).bind fun _ _ _ => .pure rfl

theorem parameter_parallel (le : budget ≤ larger) :
    Parallel between Eq (parameter budget) (parameter larger) := by
  refine (modifiers_parallel lawful le).bind fun modifiers modifiers' same =>
    (nextLine_parallel lawful).andThen fun line => (typeExpr_parallel lawful le).andThen fun type =>
      (skipAnnotations_parallel lawful le).andThen fun _ =>
        (acceptMark_parallel lawful .ellipsis).andThen fun isVarargs =>
          (acceptReceiver_parallel lawful).andThen fun receiver =>
            .ite (fun _ => .pure rfl) fun _ => ?_
  refine (expect_parallel lawful .identifier _).bind fun name name' tokens =>
    (dimensions_parallel lawful le).andThen fun more =>
      (isMark_parallel lawful .comma).andThen fun another =>
        .ite (fun _ => .fault tokens.place) fun _ => ?_
  rw [same, tokens.text]
  exact (emitAnnotations_parallel).andThen fun _ => emit_parallel rfl

theorem parameters_parallel (le : budget ≤ larger) :
    Parallel between Eq (parameters budget) (parameters larger) :=
  (isMark_parallel lawful .rightParen).andThen fun _ => .ite (fun _ => .pure rfl) fun _ =>
    (separatedBy_parallel_eq lawful (parameter_parallel lawful le) le).andThen fun _ => .pure rfl

theorem resultDimensions_parallel (declared : MethodDecl) (le : budget ≤ larger) :
    Parallel between Eq (resultDimensions budget declared) (resultDimensions larger declared) := by
  refine (dimensions_parallel lawful le).andThen fun more => .ite (fun _ => .pure rfl) fun _ => ?_
  split
  · exact .pure rfl
  · exact (peek_parallel lawful 0).bind fun _ _ tokens => .fault tokens.place

omit lawful in
theorem emit_endOf_parallel {declared declared' : MethodDecl}
    (same : declared = declared'.mapVerbatim between.restore) :
    Parallel between Eq (emit (ReadM.endOf declared)) (emit (ReadM.endOf declared')) := by
  refine emit_parallel ?_
  have kept : declared.isConstructor = declared'.isConstructor := by rw [same]; rfl
  unfold ReadM.endOf
  rw [kept, same]
  split <;> rfl

theorem noBody_parallel :
    Parallel between (fun body body' => body = body'.map between.restore) methodRest.noBody
      methodRest.noBody :=
  (expectMark_parallel lawful .semicolon _).bind fun _ _ _ => .pure rfl

omit lawful in
theorem someText_parallel {part other : ReadM String}
    (parallel : Parallel between (fun text text' => text = between.restore text') part other) :
    Parallel between (fun text text' => text = text'.map between.restore) (some <$> part)
      (some <$> other) :=
  parallel.map fun _ _ same => by rw [same]; rfl

/-- The end of a method after its body or the semicolon in place of one. -/
theorem bodyAndEnd_parallel {result result' : Option String → MethodDecl}
    (same : ∀ body, result (body.map between.restore) =
      (result' body).mapVerbatim between.restore) :
    Parallel between Eq
      (do
        let body ← if ← isMark .leftBrace then some <$> blockText else methodRest.noBody
        emit (ReadM.endOf (result body)))
      (do
        let body ← if ← isMark .leftBrace then some <$> blockText else methodRest.noBody
        emit (ReadM.endOf (result' body))) := by
  have ending (body body' : Option String) (alike : body = body'.map between.restore) :
      Parallel between Eq (emit (ReadM.endOf (result body))) (emit (ReadM.endOf (result' body'))) :=
    emit_endOf_parallel (alike ▸ same body')
  refine (isMark_parallel lawful .leftBrace).andThen fun braced => ?_
  dsimp only
  exact .ite (fun _ => (someText_parallel (blockText_parallel lawful)).bind ending)
    fun _ => (noBody_parallel lawful).bind ending

theorem methodRest_parallel (declared : MethodDecl) (le : budget ≤ larger) :
    Parallel between Eq (methodRest budget declared) (methodRest larger declared) := by
  refine (expectMark_parallel lawful .leftParen _).bind fun _ _ _ =>
    (parameters_parallel lawful le).andThen fun _ =>
      (expectMark_parallel lawful .rightParen _).bind fun _ _ _ =>
        (resultDimensions_parallel lawful declared le).andThen fun declared => ?_
  have defaulted (exceptions : List TypeExpr) : Parallel between Eq
      (do
        let defaultValue ←
          if ← acceptKeyword .defaultKw then some <$> expressionText budget [.semicolon]
          else pure none
        let body ← if ← isMark .leftBrace then some <$> blockText else methodRest.noBody
        emit (ReadM.endOf { declared with exceptions, defaultValue, body }))
      (do
        let defaultValue ←
          if ← acceptKeyword .defaultKw then some <$> expressionText larger [.semicolon]
          else pure none
        let body ← if ← isMark .leftBrace then some <$> blockText else methodRest.noBody
        emit (ReadM.endOf { declared with exceptions, defaultValue, body })) := by
    refine (acceptKeyword_parallel lawful .defaultKw).andThen fun given => ?_
    dsimp only
    refine .ite (fun _ => ?_) fun _ => bodyAndEnd_parallel lawful fun _ => rfl
    refine (someText_parallel (expressionText_parallel lawful _ le)).bind
      fun value value' alike => bodyAndEnd_parallel lawful fun body => ?_
    rw [alike]
    rfl
  refine (acceptKeyword_parallel lawful .throwsKw).andThen fun throwing => ?_
  dsimp only
  exact .ite (fun _ => (typeList_parallel lawful le).andThen defaulted) fun _ => defaulted []

/-! ### Fields, initializers and other members -/

theorem declarator_parallel (modifiers : Modifiers) (type : TypeExpr) (line : Nat)
    (name : String) (le : budget ≤ larger) :
    Parallel between Eq
      (declarator budget (modifiers.mapVerbatim between.restore) type line name)
      (declarator larger modifiers type line name) := by
  refine (dimensions_parallel lawful le).andThen fun more => ?_
  have field (initializer : Option String) : Parallel between Eq
      (do
        emitAnnotations (modifiers.mapVerbatim between.restore).uses
        emit (.beginField { name, type := type.addDims more, modifiers := modifiers.words,
                            initializer := initializer.map between.restore, line })
        emit .endField)
      (do
        emitAnnotations modifiers.uses
        emit (.beginField
          { name, type := type.addDims more, modifiers := modifiers.words, initializer, line })
        emit .endField) :=
    emitAnnotations_parallel.andThen fun _ => .andThen (emit_parallel rfl) fun _ =>
      emit_parallel rfl
  refine (acceptMark_parallel lawful .assign).andThen fun assigned => ?_
  dsimp only
  refine .ite (fun _ => ?_) fun _ => field none
  refine (someText_parallel (expressionText_parallel lawful _ le)).bind
    fun text text' alike => ?_
  rw [alike]
  exact field text'

theorem fieldRest_parallel (modifiers : Modifiers) (type : TypeExpr) (line : Nat) (name : String)
    (le : budget ≤ larger) :
    Parallel between Eq (fieldRest budget (modifiers.mapVerbatim between.restore) type line name)
      (fieldRest larger modifiers type line name) := by
  refine (declarator_parallel lawful modifiers type line name le).andThen fun _ =>
    (many_parallel_eq ?_ le).andThen fun _ =>
      (expectMark_parallel lawful .semicolon _).bind fun _ _ _ => .pure rfl
  refine (acceptMark_parallel lawful .comma).andThen fun another =>
    .ite (fun _ => ?_) fun _ => .pure rfl
  exact (identifier_parallel lawful).andThen fun next =>
    (declarator_parallel lawful modifiers type line next le).andThen fun _ => .pure rfl

theorem initializer_parallel (isStatic : Bool) :
    Parallel between Eq (initializer isStatic) (initializer isStatic) := by
  refine (nextLine_parallel lawful).andThen fun line =>
    (blockText_parallel lawful).bind fun body body' alike => ?_
  rw [alike]
  exact emit_parallel rfl

theorem memberRest_parallel (modifiers : Modifiers) (le : budget ≤ larger) :
    Parallel between Eq (memberRest budget (modifiers.mapVerbatim between.restore))
      (memberRest larger modifiers) := by
  refine (nextLine_parallel lawful).andThen fun line =>
    (optionalParameters_parallel lawful le).andThen fun typeParameters => ?_
  dsimp only
  refine (Parallel.both (isNext_parallel lawful .identifier) (isAt_parallel lawful 1 _)).andThen
    fun constructs => .ite (fun _ => ?_) fun _ => ?_
  · exact (identifier_parallel lawful).andThen fun name => emitAnnotations_parallel.andThen
      fun _ => .andThen (emit_parallel rfl) fun _ => methodRest_parallel lawful _ le
  refine (typeExpr_parallel lawful le).andThen fun type =>
    (identifier_parallel lawful).andThen fun name =>
      (isMark_parallel lawful .leftParen).andThen fun methods => .ite (fun _ => ?_) fun _ => ?_
  · exact emitAnnotations_parallel.andThen fun _ => .andThen (emit_parallel rfl) fun _ =>
      methodRest_parallel lawful _ le
  · exact .ite (fun _ => fieldRest_parallel lawful modifiers type line name le)
      fun _ => refuse_parallel lawful _

/-! ### Classes -/

theorem classKind?_parallel : Parallel between Eq classKind? classKind? := by
  refine (kindAt_parallel lawful 0).andThen fun kind => ?_
  split
  · exact .pure rfl
  · exact .pure rfl
  · exact .pure rfl
  · refine (isAt_parallel lawful 1 _).andThen fun typed => .ite (fun _ => ?_) fun _ => .pure rfl
    exact (take_parallel lawful).bind fun _ _ _ => .pure rfl
  · exact .pure rfl

theorem isClassStart_parallel : Parallel between Eq isClassStart isClassStart := by
  refine (kindAt_parallel lawful 0).andThen fun kind => ?_
  split
  · exact .pure rfl
  · exact .pure rfl
  · exact .pure rfl
  · exact isAt_parallel lawful 1 _
  · exact .pure rfl

theorem skipPermitted_parallel (le : budget ≤ larger) :
    Parallel between Eq (skipPermitted budget) (skipPermitted larger) :=
  (isWordAt_parallel lawful 0 _).andThen fun _ => .ite (fun _ =>
    (take_parallel lawful).bind fun _ _ _ => (typeList_parallel lawful le).andThen fun _ =>
      .pure rfl) fun _ => .pure rfl

/-- The end of the header of a class, from the interfaces on. -/
theorem interfacesAndPermitted_parallel (result : List TypeExpr → ClassDecl)
    (le : budget ≤ larger) :
    Parallel between Eq
      (do
        let implementing ← if ← acceptKeyword .implementsKw then typeList budget else pure []
        skipPermitted budget
        return result implementing)
      (do
        let implementing ← if ← acceptKeyword .implementsKw then typeList larger else pure []
        skipPermitted larger
        return result implementing) := by
  have rest (implementing : List TypeExpr) : Parallel between Eq
      (skipPermitted budget >>= fun _ => pure (result implementing))
      (skipPermitted larger >>= fun _ => pure (result implementing)) :=
    (skipPermitted_parallel lawful le).andThen fun _ => .pure rfl
  refine (acceptKeyword_parallel lawful .implementsKw).andThen fun implements => ?_
  dsimp only
  exact .ite (fun _ => (typeList_parallel lawful le).andThen rest) fun _ => rest []

theorem classHeader_parallel (words : List String) (le : budget ≤ larger) :
    Parallel between Eq (classHeader budget words) (classHeader larger words) := by
  refine (classKind?_parallel lawful).andThen fun kind => ?_
  cases kind with
  | none => exact refuse_parallel lawful _
  | some kind =>
      refine (take_parallel lawful).bind fun opening opening' tokens =>
        (identifier_parallel lawful).andThen fun name =>
          (optionalParameters_parallel lawful le).andThen fun typeParameters =>
            (acceptKeyword_parallel lawful .extendsKw).andThen fun derived => ?_
      have line : opening.line = opening'.line := lawful.line tokens.place
      have rest (extending : List TypeExpr) := interfacesAndPermitted_parallel lawful
        (fun implementing => { name, kind, modifiers := words, extending, implementing,
                               typeParameters, line := opening'.line }) le
      dsimp only
      rw [line]
      refine .ite (fun _ => .ite (fun _ => ?_) fun _ => ?_) fun _ => rest []
      · exact (typeList_parallel lawful le).andThen rest
      · exact (typeExpr_parallel lawful le).andThen fun type => rest [type]

theorem constantArguments_parallel (le : budget ≤ larger) :
    Parallel between (fun args args' => args = args'.map between.restore)
      (constantArguments budget) (constantArguments larger) := by
  refine (acceptMark_parallel lawful .leftParen).andThen fun opens =>
    .ite (fun _ => ?_) fun _ => .pure rfl
  exact (listUntil_parallel _ lawful (expressionText_parallel lawful _ le) le).bind
    fun args args' same => (expectMark_parallel lawful .rightParen _).bind fun _ _ _ => .pure same

end Members

/-- The parts of classes side by side, with a budget for the first reading. -/
structure ClassesParallel (between : Correspondence) (budget : Nat) : Prop where
  classDeclaration : ∀ modifiers larger, budget ≤ larger →
    Parallel between Eq (classDeclaration budget (modifiers.mapVerbatim between.restore))
      (classDeclaration larger modifiers)
  classBody : ∀ declared larger, budget ≤ larger →
    Parallel between Eq (classBody budget declared) (classBody larger declared)
  members : ∀ larger, budget ≤ larger → Parallel between Eq (members budget) (members larger)
  member : ∀ larger, budget ≤ larger → Parallel between Eq (member budget) (member larger)
  constants : ∀ owner larger, budget ≤ larger →
    Parallel between Eq (constants budget owner) (constants larger owner)
  constant : ∀ owner larger, budget ≤ larger →
    Parallel between Eq (constant budget owner) (constant larger owner)

section Classes

variable (lawful : between.Lawful)

include lawful

theorem classDeclaration_succ_parallel (inner : ClassesParallel between budget)
    (modifiers : Modifiers) (le : budget ≤ larger) :
    Parallel between Eq (classDeclaration (budget + 1) (modifiers.mapVerbatim between.restore))
      (classDeclaration (larger + 1) modifiers) := by
  rw [classDeclaration, classDeclaration]
  exact (classHeader_parallel lawful modifiers.words le).andThen fun declared =>
    emitAnnotations_parallel.andThen fun _ => inner.classBody declared larger le

theorem classBody_succ_parallel (inner : ClassesParallel between budget) (declared : ClassDecl)
    (le : budget ≤ larger) :
    Parallel between Eq (classBody (budget + 1) declared) (classBody (larger + 1) declared) := by
  have ending : Parallel between Eq (members budget >>= fun _ => emit .endClass)
      (members larger >>= fun _ => emit .endClass) :=
    (inner.members larger le).andThen fun _ => emit_parallel rfl
  rw [classBody, classBody]
  refine Parallel.andThen (emit_parallel rfl) fun _ =>
    (expectMark_parallel lawful .leftBrace _).bind fun _ _ _ => ?_
  exact .ite (fun _ => (inner.constants declared.name larger le).andThen fun _ => ending)
    fun _ => ending

theorem members_succ_parallel (inner : ClassesParallel between budget) (le : budget ≤ larger) :
    Parallel between Eq (members (budget + 1)) (members (larger + 1)) := by
  rw [members, members]
  refine (acceptMark_parallel lawful .rightBrace).andThen fun closes =>
    .ite (fun _ => .pure rfl) fun _ => (acceptMark_parallel lawful .semicolon).andThen fun stray =>
      .ite (fun _ => inner.members larger le) fun _ => ?_
  exact (isNext_parallel lawful .endOfInput).andThen fun ended =>
    .ite (fun _ => refuse_parallel lawful _) fun _ =>
      (inner.member larger le).andThen fun _ => inner.members larger le

theorem member_succ_parallel (inner : ClassesParallel between budget) (le : budget ≤ larger) :
    Parallel between Eq (member (budget + 1)) (member (larger + 1)) := by
  rw [member, member]
  refine (isMark_parallel lawful .leftBrace).andThen fun braced =>
    .ite (fun _ => initializer_parallel lawful false) fun _ => ?_
  refine (Parallel.both (isNext_parallel lawful _) (isAt_parallel lawful 1 _)).andThen
    fun isStatic => .ite (fun _ => ?_) fun _ => ?_
  · exact (take_parallel lawful).bind fun _ _ _ => initializer_parallel lawful true
  refine (modifiers_parallel lawful le).bind fun modifiers modifiers' same =>
    (isClassStart_parallel lawful).andThen fun isClass => ?_
  rw [same]
  exact .ite (fun _ => inner.classDeclaration modifiers' larger le)
    fun _ => memberRest_parallel lawful modifiers' le

theorem constants_succ_parallel (inner : ClassesParallel between budget) (owner : String)
    (le : budget ≤ larger) :
    Parallel between Eq (constants (budget + 1) owner) (constants (larger + 1) owner) := by
  have ends : Parallel between Eq (acceptMark .semicolon <||> isMark .rightBrace)
      (acceptMark .semicolon <||> isMark .rightBrace) :=
    .either (acceptMark_parallel lawful .semicolon) (isMark_parallel lawful .rightBrace)
  rw [constants, constants]
  refine ends.andThen fun ended => .ite (fun _ => .pure rfl) fun _ =>
    (inner.constant owner larger le).andThen fun _ =>
      (acceptMark_parallel lawful .comma).andThen fun another =>
        .ite (fun _ => inner.constants owner larger le) fun _ => ?_
  exact ends.andThen fun ended => .ite (fun _ => .pure rfl) fun _ => refuse_parallel lawful _

theorem constant_succ_parallel (inner : ClassesParallel between budget) (owner : String)
    (le : budget ≤ larger) :
    Parallel between Eq (constant (budget + 1) owner) (constant (larger + 1) owner) := by
  rw [constant, constant]
  refine (modifiers_parallel lawful le).bind fun modifiers modifiers' same =>
    (expect_parallel lawful .identifier _).bind fun name name' tokens =>
      (constantArguments_parallel lawful le).bind fun args args' restored => ?_
  have line : name.line = name'.line := lawful.line tokens.place
  rw [same, restored, tokens.text, line]
  refine emitAnnotations_parallel.andThen fun _ => .andThen (emit_parallel rfl) fun _ =>
    (isMark_parallel lawful .leftBrace).andThen fun braced => .ite (fun _ => ?_) fun _ =>
      emit_parallel rfl
  exact (inner.classBody _ larger le).andThen fun _ => emit_parallel rfl

theorem classesParallel (budget : Nat) : ClassesParallel between budget := by
  induction budget with
  | zero =>
      constructor <;> intros
      · rw [classDeclaration]; exact .exhausted
      · rw [classBody]; exact .exhausted
      · rw [members]; exact .exhausted
      · rw [member]; exact .exhausted
      · rw [constants]; exact .exhausted
      · rw [constant]; exact .exhausted
  | succ budget ih =>
      exact
        { classDeclaration := fun modifiers =>
            forall_larger fun _ => classDeclaration_succ_parallel lawful ih modifiers
          classBody := fun declared =>
            forall_larger fun _ => classBody_succ_parallel lawful ih declared
          members := forall_larger fun _ => members_succ_parallel lawful ih
          member := forall_larger fun _ => member_succ_parallel lawful ih
          constants := fun owner => forall_larger fun _ => constants_succ_parallel lawful ih owner
          constant := fun owner => forall_larger fun _ => constant_succ_parallel lawful ih owner }

/-! ### Modules -/

theorem isModuleStart_parallel : Parallel between Eq isModuleStart isModuleStart :=
  (isWordAt_parallel lawful 0 _).andThen fun _ => .ite (fun _ => isAt_parallel lawful 1 _)
    fun _ => .both (isWordAt_parallel lawful 0 _) (isWordAt_parallel lawful 1 _)

theorem targets_parallel (le : budget ≤ larger) :
    Parallel between Eq (targets budget) (targets larger) :=
  (isWordAt_parallel lawful 0 _).andThen fun _ => .ite (fun _ =>
    (take_parallel lawful).bind fun _ _ _ =>
      separatedBy_parallel_eq lawful (qualifiedName_parallel lawful le) le) fun _ => .pure rfl

theorem requiresModifier?_parallel :
    Parallel between Eq requiresModifier? requiresModifier? := by
  have taking : Parallel between Eq (take >>= fun token => pure (some token.text))
      (take >>= fun token => pure (some token.text)) :=
    (take_parallel lawful).bind fun _ _ tokens => .pure (by rw [tokens.text])
  have isName : Parallel between Eq (isAt 1 (.mark .semicolon) <||> isAt 1 (.mark .dot))
      (isAt 1 (.mark .semicolon) <||> isAt 1 (.mark .dot)) :=
    .either (isAt_parallel lawful 1 _) (isAt_parallel lawful 1 _)
  dsimp only [requiresModifier?]
  refine (isNext_parallel lawful _).andThen fun isStatic => .ite (fun _ => taking) fun _ => ?_
  exact (Parallel.both (isWordAt_parallel lawful 0 _)
    (isName.map fun _ _ same => congrArg _ same)).andThen fun isTransitive =>
      .ite (fun _ => taking) fun _ => .pure rfl

theorem packageDirective_parallel (line : Nat) (le : budget ≤ larger) :
    Parallel between Eq (packageDirective budget line) (packageDirective larger line) :=
  (qualifiedName_parallel lawful le).andThen fun _ => (targets_parallel lawful le).andThen fun _ =>
    .pure rfl

/-- Directives hold no verbatim texts. -/
theorem directive_parallel {opening opening' : Token} (tokens : between.Tokens opening opening')
    (le : budget ≤ larger) :
    Parallel between (fun event event' => event = event' ∧
      event'.mapVerbatim between.restore = event') (directive budget opening)
      (directive larger opening') := by
  have line : opening.line = opening'.line := lawful.line tokens.place
  unfold directive
  rw [tokens.text, line]
  dsimp only
  split
  · exact (many_parallel_eq (requiresModifier?_parallel lawful) le).andThen fun _ =>
      (qualifiedName_parallel lawful le).andThen fun _ => .pure ⟨rfl, rfl⟩
  · exact (packageDirective_parallel lawful _ le).andThen fun _ => .pure ⟨rfl, rfl⟩
  · exact (packageDirective_parallel lawful _ le).andThen fun _ => .pure ⟨rfl, rfl⟩
  · exact (typeExpr_parallel lawful le).andThen fun _ => .pure ⟨rfl, rfl⟩
  · exact (typeExpr_parallel lawful le).andThen fun _ => (expectWord_parallel lawful _).bind
      fun _ _ _ => (typeList_parallel lawful le).andThen fun _ => .pure ⟨rfl, rfl⟩
  · exact .fault tokens.place

theorem directive?_parallel (le : budget ≤ larger) :
    Parallel between Eq (directive? budget) (directive? larger) := by
  refine (acceptMark_parallel lawful .rightBrace).andThen fun closes =>
    .ite (fun _ => .pure rfl) fun _ => (expect_parallel lawful .identifier _).bind
      fun opening opening' tokens => (directive_parallel lawful tokens le).bind
        fun event event' same => (emit_parallel ?_).andThen fun _ =>
          (expectMark_parallel lawful .semicolon _).bind fun _ _ _ => .pure rfl
  rw [same.1, same.2]

theorem moduleDeclaration_parallel (le : budget ≤ larger) :
    Parallel between Eq (moduleDeclaration budget) (moduleDeclaration larger) := by
  refine (nextLine_parallel lawful).andThen fun line =>
    (isWordAt_parallel lawful 0 _).andThen fun isOpen => ?_
  have rest : Parallel between Eq
      (do
        let _ ← expectWord "module"
        let name ← qualifiedName budget
        let _ ← expectMark .leftBrace "'\x7b' opening module body"
        emit (.moduleHeader { name, isOpen, line })
        let _ ← many (directive? budget) budget)
      (do
        let _ ← expectWord "module"
        let name ← qualifiedName larger
        let _ ← expectMark .leftBrace "'\x7b' opening module body"
        emit (.moduleHeader { name, isOpen, line })
        let _ ← many (directive? larger) larger) :=
    (expectWord_parallel lawful _).bind fun _ _ _ => (qualifiedName_parallel lawful le).andThen
      fun _ => (expectMark_parallel lawful .leftBrace _).bind fun _ _ _ =>
        .andThen (emit_parallel rfl) fun _ =>
          (many_parallel_eq (directive?_parallel lawful le) le).andThen fun _ => .pure rfl
  exact .ite (fun _ => (take_parallel lawful).bind fun _ _ _ => rest) fun _ => rest

/-! ### Units -/

theorem packageDeclaration_parallel (le : budget ≤ larger) :
    Parallel between Eq (packageDeclaration budget) (packageDeclaration larger) := by
  refine (expect_parallel lawful _ _).bind fun opening opening' tokens =>
    (qualifiedName_parallel lawful le).andThen fun name =>
      (expectMark_parallel lawful .semicolon _).bind fun _ _ _ => emit_parallel ?_
  have line : opening.line = opening'.line := lawful.line tokens.place
  rw [line]
  rfl

theorem importDeclaration_parallel (le : budget ≤ larger) :
    Parallel between Eq (importDeclaration budget) (importDeclaration larger) := by
  refine (expect_parallel lawful _ _).bind fun opening opening' tokens =>
    (acceptKeyword_parallel lawful .staticKw).andThen fun isStatic =>
      (qualifiedName_parallel lawful le).andThen fun name =>
        (acceptMark_parallel lawful .dot).andThen fun isWildcard => ?_
  have line : opening.line = opening'.line := lawful.line tokens.place
  rw [line]
  have rest (declared : ImportDecl) : Parallel between Eq
      (expectMark .semicolon "';' after import" >>= fun _ => emit (.imported declared))
      (expectMark .semicolon "';' after import" >>= fun _ => emit (.imported declared)) :=
    (expectMark_parallel lawful .semicolon _).bind fun _ _ _ => emit_parallel rfl
  exact .ite (fun _ => (expectMark_parallel lawful .star _).bind fun _ _ _ => rest _)
    fun _ => rest _

theorem import?_parallel (le : budget ≤ larger) :
    Parallel between Eq (import? budget) (import? larger) :=
  (isNext_parallel lawful _).andThen fun _ => .ite
    (fun _ => (importDeclaration_parallel lawful le).andThen fun _ => .pure rfl)
    fun _ => (acceptMark_parallel lawful .semicolon).andThen fun _ =>
      .ite (fun _ => .pure rfl) fun _ => .pure rfl

theorem preamble_parallel (le : budget ≤ larger) :
    Parallel between (fun found found' => found = found'.mapVerbatim between.restore)
      (preamble budget) (preamble larger) := by
  have imports (leading : Modifiers) : Parallel between
      (fun found found' => found = found'.mapVerbatim between.restore)
      (if (leading.mapVerbatim between.restore).isEmpty then
        many (import? budget) budget >>= fun _ => modifiers budget
      else pure (leading.mapVerbatim between.restore))
      (if leading.isEmpty then many (import? larger) larger >>= fun _ => modifiers larger
      else pure leading) := by
    rw [Modifiers.isEmpty_mapVerbatim]
    refine .ite (fun _ => ?_) fun _ => .pure rfl
    exact (many_parallel_eq (import?_parallel lawful le) le).andThen fun _ =>
      modifiers_parallel lawful le
  refine (modifiers_parallel lawful le).bind fun leading leading' same =>
    (isNext_parallel lawful _).andThen fun packaged => ?_
  rw [same]
  refine .ite (fun _ => ?_) fun _ => imports leading'
  exact emitAnnotations_parallel.andThen fun _ => (packageDeclaration_parallel lawful le).andThen
    fun _ => imports {}

theorem classDeclarations_parallel (leading : Modifiers) (le : budget ≤ larger) :
    Parallel between Eq (classDeclarations budget (leading.mapVerbatim between.restore))
      (classDeclarations larger leading) := by
  induction budget generalizing larger leading with
  | zero =>
      rw [classDeclarations]
      exact .exhausted
  | succ budget ih =>
      have next {larger : Nat} (le : budget ≤ larger) : Parallel between Eq
          (modifiers budget >>= fun leading => classDeclarations budget leading)
          (modifiers larger >>= fun leading => classDeclarations larger leading) := by
        refine (modifiers_parallel lawful le).bind fun leading leading' same => ?_
        rw [same]
        exact ih leading' le
      cases larger with
      | zero => omega
      | succ larger =>
          have le : budget ≤ larger := Nat.le_of_succ_le_succ le
          rw [classDeclarations, classDeclarations, Modifiers.isEmpty_mapVerbatim]
          refine (Parallel.both (.pure rfl) (isNext_parallel lawful _)).andThen fun ended =>
            .ite (fun _ => .pure rfl) fun _ => ?_
          refine (Parallel.both (.pure rfl) (acceptMark_parallel lawful .semicolon)).andThen
            fun stray => .ite (fun _ => next le) fun _ => ?_
          exact ((classesParallel lawful budget).classDeclaration leading larger le).andThen
            fun _ => next le

theorem compilationUnit_parallel (le : budget ≤ larger) :
    Parallel between Eq (compilationUnit budget) (compilationUnit larger) := by
  refine (preamble_parallel lawful le).bind fun leading leading' same => ?_
  rw [same]
  refine (Parallel.both (.pure rfl) (isModuleStart_parallel lawful)).andThen fun isModule =>
    .ite (fun _ => ?_) fun _ => classDeclarations_parallel lawful leading' le
  exact emitAnnotations_parallel.andThen fun _ => (moduleDeclaration_parallel lawful le).andThen
    fun _ => (isNext_parallel lawful .endOfInput).andThen fun _ =>
      .ite (fun _ => .pure rfl) fun _ => refuse_parallel lawful _

end Classes

end ReadM

/-- Two sources whose tokens correspond are accepted together, with events that are the same
once verbatim texts are restored.  Their faults are at places that correspond. -/
theorem Correspondence.Lawful.readUnit {between : Correspondence} (lawful : between.Lawful)
    {source other : List Char} (shorter : source.length ≤ other.length)
    (streams : between.streams (.ofSource source) (.ofSource other)) :
    (readUnit source).1 = (readUnit other).1.map (Event.mapVerbatim between.restore) ∧
      Option.Rel (fun failure failure' => between.places failure.place failure'.place)
        (readUnit source).2 (readUnit other).2 := by
  have alike : between.Alike (.ofSource source) (.ofSource other) := ⟨streams, .nil, rfl⟩
  have budgets : readingBudget source ≤ readingBudget other := by
    unfold readingBudget
    omega
  have ran := ReadM.compilationUnit_parallel lawful budgets _ _ alike
  obtain ⟨-, -, -, known⟩ := readUnit_announces source
  unfold JavaDecl.readUnit at known ⊢
  revert known
  generalize ReadM.compilationUnit (readingBudget source) (.ofSource source) = one at ran ⊢
  generalize ReadM.compilationUnit (readingBudget other) (.ofSource other) = two at ran ⊢
  intro known
  cases ran with
  | done _ alike => exact ⟨alike.tell, .none⟩
  | failed place tell => exact ⟨tell, .some place⟩
  | exhausted spent => exact absurd spent (known _ rfl)

end JavaDecl
