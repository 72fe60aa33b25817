import JavaDecl.Proofs.GrammarRules
import JavaDecl.Proofs.Nesting

/-!
# Rules for declarations

A judgement that holds of all phrases and announcements holds of whole declarations, modules
and units.  Where classes begin and end it may depend on the classes that have begun: each is
one with a header, or the body of a constant of the enumeration right around it.
-/

namespace JavaDecl

namespace Event

/-- Variables are declared with initial values in field declarations only. -/
def isValued : Event → Bool
  | .beginField declared => declared.initializer.isSome
  | _ => false

def isClassEdge : Event → Bool
  | .beginClass _ | .endClass => true
  | _ => false

end Event

/-- A class that is declared with a header, in which its name stands. -/
structure ClassDecl.IsHeaded (isName : String → Prop) (declared : ClassDecl) : Prop where
  plain : declared.isConstantBody = false
  named : isName declared.name

/-- A class is the body of a constant of the innermost one that has begun, which is an
enumeration. -/
def ClassDecl.IsBodyIn (declared : ClassDecl) (opened : List ClassDecl) : Prop :=
  ∃ owner outer name line, opened = owner :: outer ∧ owner.kind = .enumeration ∧
    declared = ReadM.constantBody owner.name name line

namespace ReadM

/-! ### Directives -/

namespace PhraseRules

open TokenRules (ite)

variable {keeps : ∀ α : Type, ReadM α → Prop} (rules : PhraseRules keeps) {budget : Nat}

include rules

/-- A directive is read and something is done with its event. -/
theorem directive {β : Type} (opening : Token) {next : Event → ReadM β}
    (rest : ∀ event : Event, event.isDirective → keeps β (next event)) :
    keeps β (ReadM.directive budget opening >>= next) := by
  have targets : keeps (List String) (targets budget) :=
    rules.bind (rules.isWordAt 0 _) fun _ => ite (rules.bind rules.take fun _ =>
      rules.separatedBy _ (rules.qualifiedName budget) budget) (rules.pure _)
  have required : keeps (Option String) requiresModifier? :=
    rules.bind (rules.isNext _) fun _ => ite (rules.bind rules.take fun _ => rules.pure _)
      (rules.bind (rules.both (rules.isWordAt 0 _)
          (rules.map (rules.either (rules.isAt 1 _) (rules.isAt 1 _)))) fun _ =>
        ite (rules.bind rules.take fun _ => rules.pure _) (rules.pure _))
  unfold ReadM.directive packageDirective
  split
  · simp only [bind_assoc, pure_bind]
    exact rules.bind (rules.many required budget) fun _ =>
      rules.bind (rules.qualifiedName budget) fun _ => rest _ rfl
  · simp only [bind_assoc, pure_bind]
    exact rules.bind (rules.qualifiedName budget) fun _ => rules.bind targets fun _ => rest _ rfl
  · simp only [bind_assoc, pure_bind]
    exact rules.bind (rules.qualifiedName budget) fun _ => rules.bind targets fun _ => rest _ rfl
  · simp only [bind_assoc, pure_bind]
    exact rules.bind (rules.typeExpr budget) fun _ => rest _ rfl
  · simp only [bind_assoc, pure_bind]
    exact rules.bind (rules.typeExpr budget) fun _ => rules.bind (rules.expectWord _) fun _ =>
      rules.bind (rules.typeList budget) fun _ => rest _ rfl
  · exact rules.fault _

theorem directives (budget : Nat)
    (tell : ∀ event : Event, event.isDirective → keeps PUnit (emit event)) :
    keeps (List Unit) (many (directive? budget) budget) := by
  refine rules.many ?_ budget
  refine rules.bind (rules.accept _) fun _ => ite (rules.pure _) ?_
  refine rules.bind (rules.expect _ _) fun opening => ?_
  refine rules.directive opening fun event isDirective => ?_
  exact rules.bind (tell event isDirective) fun _ => rules.bind (rules.expect _ _) fun _ =>
    rules.pure _

end PhraseRules

/-! ### Parts without classes -/

/-- A judgement holds of phrases and of announcements, apart from comments, the beginnings and
ends of classes and initial values. -/
structure TellingRules (keeps : ∀ α : Type, ReadM α → Prop) : Prop extends
    PhraseRules keeps where
  emit : ∀ event : Event, event.isComment = false → event.isClassEdge = false →
    event.isValued = false → keeps PUnit (emit event)

namespace TellingRules

open TokenRules (ite given)

variable {keeps : ∀ α : Type, ReadM α → Prop} (rules : TellingRules keeps)

include rules

theorem emitAnnotations (uses : List (AnnotationUse TypeExpr)) :
    keeps PUnit (ReadM.emitAnnotations uses) := by
  induction uses with
  | nil => exact rules.pure _
  | cons use uses ih => exact rules.bind (rules.emit _ rfl rfl rfl) fun _ => ih

theorem acceptReceiver : keeps Bool ReadM.acceptReceiver :=
  rules.bind (rules.accept _) fun _ => ite (rules.pure _)
    (rules.bind (rules.both (rules.isNext _) (rules.both (rules.isAt 1 _) (rules.isAt 2 _)))
      fun _ => ite (rules.bind (rules.takeMany 3) fun _ => rules.pure _) (rules.pure _))

theorem parameter (budget : Nat) : keeps Unit (ReadM.parameter budget) :=
  rules.bind (rules.modifiers budget) fun modifiers => rules.bind rules.nextLine fun _ =>
    rules.bind (rules.typeExpr budget) fun _ => rules.bind (rules.skipAnnotations budget) fun _ =>
      rules.bind (rules.accept _) fun _ => rules.bind rules.acceptReceiver fun _ =>
        ite (rules.pure _) (rules.bind (rules.expect _ _) fun _ =>
          rules.bind (rules.dimensions budget) fun _ => rules.bind (rules.isNext _) fun _ =>
            ite (rules.fault _) (rules.bind (rules.emitAnnotations modifiers.uses) fun _ =>
              rules.emit _ rfl rfl rfl))

theorem methodRest (budget : Nat) (declared : MethodDecl) :
    keeps Unit (ReadM.methodRest budget declared) := by
  have ending (declared : MethodDecl) : keeps PUnit (ReadM.emit (endOf declared)) := by
    unfold endOf
    split
    · exact rules.emit _ rfl rfl rfl
    · exact rules.emit _ rfl rfl rfl
  have dimensioned : keeps MethodDecl (resultDimensions budget declared) := by
    refine rules.bind (rules.dimensions budget) fun more => ite (rules.pure _) ?_
    split
    · exact rules.pure _
    · exact rules.bind (rules.peek 0) fun _ => rules.fault _
  have parametrised : keeps Unit (parameters budget) :=
    rules.bind (rules.isNext _) fun _ => ite (rules.pure _)
      (rules.bind (rules.separatedBy _ (rules.parameter budget) budget) fun _ => rules.pure _)
  have bodied (declared : MethodDecl) : keeps Unit (do
      let body ← if ← isMark .leftBrace then some <$> blockText else methodRest.noBody
      ReadM.emit (endOf { declared with body })) :=
    rules.bind (rules.isNext _) fun _ =>
      ite (rules.bind (rules.map rules.blockText) fun _ => ending _)
        (rules.bind (rules.bind (rules.expect _ _) fun _ => rules.pure _) fun _ => ending _)
  have valued (declared : MethodDecl) : keeps Unit (do
      let defaultValue ←
        if ← acceptKeyword .defaultKw then some <$> expressionText budget [.semicolon]
        else pure none
      let body ← if ← isMark .leftBrace then some <$> blockText else methodRest.noBody
      ReadM.emit (endOf { declared with defaultValue, body })) :=
    rules.bind (rules.accept _) fun _ => ite
      (rules.bind (rules.map (rules.expressionText budget _)) fun value =>
        bodied { declared with defaultValue := value })
      (given (bodied { declared with defaultValue := none }))
  exact rules.bind (rules.expect _ _) fun _ => rules.bind parametrised fun _ =>
    rules.bind (rules.expect _ _) fun _ => rules.bind dimensioned fun declared =>
      rules.bind (rules.accept _) fun _ => ite
        (rules.bind (rules.typeList budget) fun exceptions => valued { declared with exceptions })
        (given (valued { declared with exceptions := [] }))

theorem initializer (isStatic : Bool) : keeps Unit (ReadM.initializer isStatic) :=
  rules.bind rules.nextLine fun _ => rules.bind rules.blockText fun _ => rules.emit _ rfl rfl rfl

/-- A method, constructor or field, if fields with initial values may be announced. -/
theorem memberRest
    (valued : ∀ declared : VariableDecl, keeps PUnit (ReadM.emit (.beginField declared)))
    (budget : Nat) (modifiers : Modifiers) : keeps Unit (ReadM.memberRest budget modifiers) := by
  have declarator (type : TypeExpr) (line : Nat) (name : String) :
      keeps Unit (declarator budget modifiers type line name) := by
    have ended (declared : VariableDecl) : keeps Unit (do
        ReadM.emitAnnotations modifiers.uses
        ReadM.emit (.beginField declared)
        ReadM.emit .endField) :=
      rules.bind (rules.emitAnnotations _) fun _ => rules.bind (valued _) fun _ =>
        rules.emit _ rfl rfl rfl
    exact rules.bind (rules.dimensions budget) fun _ => rules.bind (rules.accept _) fun _ =>
      ite (rules.bind (rules.map (rules.expressionText budget _)) fun _ => ended _)
        (given (ended _))
  have fieldRest (type : TypeExpr) (line : Nat) (name : String) :
      keeps Unit (fieldRest budget modifiers type line name) := by
    refine rules.bind (declarator type line name) fun _ => rules.bind (rules.many ?_ budget)
      fun _ => rules.bind (rules.expect _ _) fun _ => rules.pure _
    exact rules.bind (rules.accept _) fun _ => ite (rules.bind rules.identifier fun name =>
      rules.bind (declarator type line name) fun _ => rules.pure _) (rules.pure _)
  exact rules.bind rules.nextLine fun _ => rules.bind (rules.optionalParameters budget) fun _ =>
    rules.bind (rules.both (rules.isNext _) (rules.isAt 1 _)) fun _ => ite
      (rules.bind rules.identifier fun _ => rules.bind (rules.emitAnnotations _) fun _ =>
        rules.bind (rules.emit _ rfl rfl rfl) fun _ => rules.methodRest budget _)
      (rules.bind (rules.typeExpr budget) fun type => rules.bind rules.identifier fun name =>
        rules.bind (rules.isNext _) fun _ => ite
          (rules.bind (rules.emitAnnotations _) fun _ =>
            rules.bind (rules.emit _ rfl rfl rfl) fun _ => rules.methodRest budget _)
          (ite (fieldRest type _ name) (rules.refuse _)))

/-! ### Headers and constants -/

theorem isClassStart : keeps Bool ReadM.isClassStart := by
  refine rules.bind (rules.kindAt 0) fun kind => ?_
  split
  · exact rules.pure _
  · exact rules.pure _
  · exact rules.pure _
  · exact rules.isAt 1 _
  · exact rules.pure _

theorem classKind? : keeps (Option ClassKind) ReadM.classKind? := by
  refine rules.bind (rules.kindAt 0) fun kind => ?_
  split
  · exact rules.pure _
  · exact rules.pure _
  · exact rules.pure _
  · exact rules.bind (rules.isAt 1 _) fun _ =>
      ite (rules.bind rules.take fun _ => rules.pure _) (rules.pure _)
  · exact rules.pure _

theorem skipPermitted (budget : Nat) : keeps Unit (ReadM.skipPermitted budget) :=
  rules.bind (rules.isWordAt 0 _) fun _ => ite (rules.bind rules.take fun _ =>
    rules.bind (rules.typeList budget) fun _ => rules.pure _) (rules.pure _)

theorem constantArguments (budget : Nat) :
    keeps (List String) (ReadM.constantArguments budget) :=
  rules.bind (rules.accept _) fun _ => ite
    (rules.bind (rules.listUntil _ (rules.expressionText budget _) budget) fun _ =>
      rules.bind (rules.expect _ _) fun _ => rules.pure _) (rules.pure _)

/-! ### Modules, packages and imports -/

theorem isModuleStart : keeps Bool ReadM.isModuleStart :=
  rules.bind (rules.isWordAt 0 _) fun _ => ite (rules.isAt 1 _)
    (rules.both (rules.isWordAt 0 _) (rules.isWordAt 1 _))

theorem moduleDeclaration (budget : Nat) : keeps Unit (ReadM.moduleDeclaration budget) := by
  have directives := rules.directives budget fun event isDirective =>
    rules.emit event (by cases event <;> first | rfl | cases isDirective)
      (by cases event <;> first | rfl | cases isDirective)
      (by cases event <;> first | rfl | cases isDirective)
  have named (isOpen : Bool) (line : Nat) : keeps Unit (do
      let _ ← expectWord "module"
      let name ← qualifiedName budget
      let _ ← expectMark .leftBrace "'\x7b' opening module body"
      ReadM.emit (.moduleHeader { name, isOpen, line })
      let _ ← many (directive? budget) budget) :=
    rules.bind (rules.expectWord _) fun _ => rules.bind (rules.qualifiedName budget) fun _ =>
      rules.bind (rules.expect _ _) fun _ => rules.bind (rules.emit _ rfl rfl rfl) fun _ =>
        rules.bind directives fun _ => rules.pure _
  exact rules.bind rules.nextLine fun line => rules.bind (rules.isWordAt 0 _) fun isOpen =>
    ite (rules.bind rules.take fun _ => named isOpen line) (given (named isOpen line))

theorem packageDeclaration (budget : Nat) : keeps Unit (ReadM.packageDeclaration budget) :=
  rules.bind (rules.expect _ _) fun _ => rules.bind (rules.qualifiedName budget) fun _ =>
    rules.bind (rules.expect _ _) fun _ => rules.emit _ rfl rfl rfl

theorem imports (budget : Nat) : keeps (List Unit) (many (import? budget) budget) := by
  have ended (declared : ImportDecl) : keeps Unit
      (expectMark .semicolon "';' after import" >>= fun _ => ReadM.emit (.imported declared)) :=
    rules.bind (rules.expect _ _) fun _ => rules.emit _ rfl rfl rfl
  have once : keeps Unit (importDeclaration budget) :=
    rules.bind (rules.expect _ _) fun _ => rules.bind (rules.accept _) fun _ =>
      rules.bind (rules.qualifiedName budget) fun _ => rules.bind (rules.accept _) fun _ =>
        ite (rules.bind (rules.expect _ _) fun _ => ended _) (given (ended _))
  exact rules.many (rules.bind (rules.isNext _) fun _ =>
    ite (rules.bind once fun _ => rules.pure _)
      (rules.bind (rules.accept _) fun _ => ite (rules.pure _) (rules.pure _))) budget

theorem preamble (budget : Nat) : keeps Modifiers (ReadM.preamble budget) := by
  have imported (leading : Modifiers) : keeps Modifiers
      (if leading.isEmpty then do
        let _ ← many (import? budget) budget
        modifiers budget
      else return leading) :=
    ite (rules.bind (rules.imports budget) fun _ => rules.modifiers budget) (rules.pure _)
  exact rules.bind (rules.modifiers budget) fun leading => rules.bind (rules.isNext _) fun _ =>
    ite (rules.bind (rules.emitAnnotations _) fun _ =>
      rules.bind (rules.packageDeclaration budget) fun _ => given (imported _))
      (given (imported _))

end TellingRules

/-! ### Classes and units -/

/-- A judgement that depends on the classes that have begun, the innermost first, before and
after a part, and knows what names are. -/
structure ClassRules (isName : String → Prop)
    (keeps : List ClassDecl → List ClassDecl → ∀ α : Type, ReadM α → Prop) : Prop where
  within : ∀ opened : List ClassDecl, TellingRules (keeps opened opened)
  bind : ∀ {opened between closed : List ClassDecl} {α β : Type} {part : ReadM α}
    {next : α → ReadM β}, keeps opened between α part →
      (∀ value, keeps between closed β (next value)) → keeps opened closed β (part >>= next)
  fault : ∀ {opened closed : List ClassDecl} {α : Type} (failure : ParseError),
    keeps opened closed α (throw failure)
  named : ∀ {opened closed : List ClassDecl} {β : Type} {next : Token → ReadM β}
    (expected : String), (∀ token : Token, isName token.text → keeps opened closed β (next token)) →
      keeps opened closed β (expect .identifier expected >>= next)
  memberRest : ∀ (opened : List ClassDecl) (budget : Nat) (modifiers : Modifiers),
    keeps opened opened Unit (memberRest budget modifiers)
  begins : ∀ {opened : List ClassDecl} {declared : ClassDecl},
    declared.IsHeaded isName ∨ declared.IsBodyIn opened →
      keeps opened (declared :: opened) PUnit (emit (.beginClass declared))
  ends : ∀ (opened : List ClassDecl) (declared : ClassDecl),
    keeps (declared :: opened) opened PUnit (emit .endClass)

/-- Whatever may come after a part, its values are as described there. -/
def Ensures (keeps : List ClassDecl → List ClassDecl → ∀ α : Type, ReadM α → Prop)
    (opened : List ClassDecl) {α : Type} (part : ReadM α) (post : α → Prop) : Prop :=
  ∀ (closed : List ClassDecl) (β : Type) (next : α → ReadM β),
    (∀ value, post value → keeps opened closed β (next value)) →
      keeps opened closed β (part >>= next)

/-- Nothing comes after a refusal. -/
theorem refuse_bind {α β : Type} (expected : String) (next : α → ReadM β) :
    (refuse expected >>= next) = refuse expected := by
  have faulty (failure : ParseError) :
      ((throw failure : ReadM α) >>= next) = throw failure := rfl
  simp only [refuse, bind_assoc]
  congr 1
  funext token
  split <;> exact faulty _

namespace Ensures

variable {keeps : List ClassDecl → List ClassDecl → ∀ α : Type, ReadM α → Prop}
  {opened : List ClassDecl} {α β : Type} {part other : ReadM α} {next : α → ReadM β}
  {mid post : α → Prop} {last : β → Prop}

theorem pure {value : α} (holds : post value) :
    Ensures keeps opened (Pure.pure value) post := by
  intro closed β next rest
  rw [pure_bind]
  exact rest value holds

theorem bind (first : Ensures keeps opened part mid)
    (second : ∀ value, mid value → Ensures keeps opened (next value) last) :
    Ensures keeps opened (part >>= next) last := by
  intro closed β further rest
  rw [bind_assoc]
  exact first _ _ _ fun value known => second value known _ _ _ rest

theorem given {value : α} (rest : Ensures keeps opened (next value) last) :
    Ensures keeps opened (Pure.pure value >>= next) last := by
  rwa [pure_bind]

theorem ite {condition : Prop} [Decidable condition] (yes : Ensures keeps opened part post)
    (no : Ensures keeps opened other post) :
    Ensures keeps opened (if condition then part else other) post := by
  split
  · exact yes
  · exact no

end Ensures

namespace ClassRules

open TokenRules (ite given)

variable {isName : String → Prop}
  {keeps : List ClassDecl → List ClassDecl → ∀ α : Type, ReadM α → Prop}
  (rules : ClassRules isName keeps)

include rules

/-- Any part, and then one whose values are as described. -/
theorem after {opened : List ClassDecl} {α β : Type} {part : ReadM α} {next : α → ReadM β}
    {post : β → Prop} (first : keeps opened opened α part)
    (second : ∀ value, Ensures keeps opened (next value) post) :
    Ensures keeps opened (part >>= next) post := by
  have any : Ensures keeps opened part fun _ => True :=
    fun _ _ _ rest => rules.bind first fun value => rest value trivial
  exact any.bind fun value _ => second value

theorem classHeader (opened : List ClassDecl) (budget : Nat) (words : List String) :
    Ensures keeps opened (ReadM.classHeader budget words) (ClassDecl.IsHeaded isName) := by
  have telling := rules.within opened
  refine rules.after telling.classKind? fun kind => ?_
  cases kind with
  | none =>
      intro closed β next _
      rw [refuse_bind]
      exact rules.bind (telling.peek 0) fun _ => ite (rules.fault _) (rules.fault _)
  | some kind =>
      have naming : Ensures keeps opened identifier isName :=
        Ensures.bind (fun _ _ _ rest => rules.named _ rest) fun token known => .pure known
      refine rules.after telling.take fun opening => naming.bind fun name known =>
        rules.after (telling.optionalParameters budget) fun typeParameters =>
          rules.after (telling.accept _) fun _ => ?_
      have implementing (declared : ClassDecl) (headed : declared.IsHeaded isName) :
          Ensures keeps opened (do
            let implementing ← if ← acceptKeyword .implementsKw then typeList budget else pure []
            skipPermitted budget
            return { declared with implementing }) (ClassDecl.IsHeaded isName) :=
        rules.after (telling.accept _) fun _ => .ite
          (rules.after (telling.typeList budget) fun _ =>
            rules.after (telling.skipPermitted budget) fun _ => .pure ⟨headed.plain, headed.named⟩)
          (.given (rules.after (telling.skipPermitted budget) fun _ =>
            .pure ⟨headed.plain, headed.named⟩))
      have extended (extending : List TypeExpr) := implementing
        { name, kind, modifiers := words, extending, typeParameters, line := opening.line }
        ⟨rfl, known⟩
      exact .ite (.ite (rules.after (telling.typeList budget) extended)
        (rules.after (telling.typeExpr budget) fun _ => .given (extended _)))
        (.given (extended _))

/-- The parts of class declarations, which nest.  Constants stand in an enumeration. -/
theorem classes (budget : Nat) :
    (∀ opened modifiers, keeps opened opened Unit (classDeclaration budget modifiers)) ∧
      (∀ opened declared, declared.IsHeaded isName ∨ declared.IsBodyIn opened →
        keeps opened opened Unit (classBody budget declared)) ∧
      (∀ opened, keeps opened opened Unit (members budget)) ∧
      (∀ opened, keeps opened opened Unit (member budget)) ∧
      (∀ (owner : ClassDecl) outer, owner.kind = .enumeration →
        keeps (owner :: outer) (owner :: outer) Unit (constants budget owner.name)) ∧
      ∀ (owner : ClassDecl) outer, owner.kind = .enumeration →
        keeps (owner :: outer) (owner :: outer) Unit (constant budget owner.name) := by
  induction budget with
  | zero =>
      have spent (opened : List ClassDecl) : keeps opened opened Unit exhausted :=
        (rules.within opened).exhausted
      exact ⟨fun opened _ => spent opened, fun opened _ _ => spent opened, spent, spent,
        fun owner outer _ => spent (owner :: outer), fun owner outer _ => spent (owner :: outer)⟩
  | succ budget ih =>
      obtain ⟨declaration, body, members, member, constants, constant⟩ := ih
      refine ⟨fun opened modifiers => ?_, fun opened declared heads => ?_, fun opened => ?_,
        fun opened => ?_, fun owner outer enumerates => ?_, fun owner outer enumerates => ?_⟩
      · have telling := rules.within opened
        rw [ReadM.classDeclaration]
        exact rules.classHeader opened budget _ _ _ _ fun declared headed =>
          telling.bind (telling.emitAnnotations _) fun _ => body opened declared (.inl headed)
      · have inner := rules.within (declared :: opened)
        have ending : keeps (declared :: opened) opened Unit
            (ReadM.members budget >>= fun _ => emit .endClass) :=
          rules.bind (members _) fun _ => rules.ends opened declared
        rw [ReadM.classBody]
        refine rules.bind (rules.begins heads) fun _ => rules.bind (inner.expect _ _) fun _ => ?_
        dsimp only
        split
        · next enumerates => exact rules.bind (constants declared opened enumerates) fun _ => ending
        · exact given ending
      · have telling := rules.within opened
        rw [ReadM.members]
        exact telling.bind (telling.accept _) fun _ => ite (telling.pure _)
          (telling.bind (telling.accept _) fun _ => ite (members opened)
            (telling.bind (telling.isNext _) fun _ => ite (telling.refuse _)
              (telling.bind (member opened) fun _ => members opened)))
      · have telling := rules.within opened
        rw [ReadM.member]
        exact telling.bind (telling.isNext _) fun _ => ite (telling.initializer false)
          (telling.bind (telling.both (telling.isNext _) (telling.isAt 1 _)) fun _ =>
            ite (telling.bind telling.take fun _ => telling.initializer true)
              (telling.bind (telling.modifiers budget) fun modifiers =>
                telling.bind telling.isClassStart fun _ => ite (declaration opened modifiers)
                  (rules.memberRest opened budget modifiers)))
      · have telling := rules.within (owner :: outer)
        have closing : keeps (owner :: outer) (owner :: outer) Bool
            (acceptMark .semicolon <||> isMark .rightBrace) :=
          telling.either (telling.accept _) (telling.isNext _)
        rw [ReadM.constants]
        exact telling.bind closing fun _ => ite (telling.pure _)
          (telling.bind (constant owner outer enumerates) fun _ => telling.bind (telling.accept _)
            fun _ => ite (constants owner outer enumerates) (telling.bind closing fun _ =>
              ite (telling.pure _) (telling.refuse _)))
      · have telling := rules.within (owner :: outer)
        have ended : keeps (owner :: outer) (owner :: outer) PUnit (emit .endField) :=
          telling.emit _ rfl rfl rfl
        rw [ReadM.constant]
        exact telling.bind (telling.modifiers budget) fun modifiers =>
          telling.bind (telling.expect _ _) fun name =>
            telling.bind (telling.constantArguments budget) fun _ =>
              telling.bind (telling.emitAnnotations _) fun _ =>
                telling.bind (telling.emit _ rfl rfl rfl) fun _ =>
                  telling.bind (telling.isNext _) fun _ => ite
                    (telling.bind (body (owner :: outer) _
                      (.inr ⟨owner, outer, _, _, rfl, enumerates, rfl⟩)) fun _ => ended)
                    (given ended)

theorem classDeclarations (budget : Nat) (leading : Modifiers) :
    keeps [] [] Unit (ReadM.classDeclarations budget leading) := by
  have telling := rules.within []
  induction budget generalizing leading with
  | zero => exact telling.exhausted
  | succ budget ih =>
      rw [ReadM.classDeclarations]
      have more : keeps [] [] Unit
          (modifiers budget >>= fun leading => ReadM.classDeclarations budget leading) :=
        telling.bind (telling.modifiers budget) ih
      exact telling.bind (telling.both (telling.pure _) (telling.isNext _)) fun _ =>
        ite (telling.pure _) (telling.bind (telling.both (telling.pure _) (telling.accept _))
          fun _ => ite (given more)
            (telling.bind ((rules.classes budget).1 [] leading) fun _ => more))

theorem compilationUnit (budget : Nat) : keeps [] [] Unit (ReadM.compilationUnit budget) := by
  have telling := rules.within []
  exact telling.bind (telling.preamble budget) fun leading =>
    telling.bind (telling.both (telling.pure _) telling.isModuleStart) fun _ =>
      ite (telling.bind (telling.emitAnnotations _) fun _ =>
        telling.bind (telling.moduleDeclaration budget) fun _ =>
          telling.bind (telling.isNext _) fun _ => ite (telling.pure _) (telling.refuse _))
        (rules.classDeclarations budget leading)

end ClassRules

end ReadM

end JavaDecl
