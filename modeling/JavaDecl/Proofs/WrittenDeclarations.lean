import JavaDecl.Proofs.FoundTypes

/-!
# Declarations as they are written

What is written in a unit is each declaration with the annotations among its own modifiers.  It is
told by the text alone: modifiers, a header with types in it, and a body or initial values.
-/

namespace JavaDecl

/-- Something that is declared, with the annotations among its modifiers. -/
structure Annotated (α : Type) where
  declared : α
  uses : List (AnnotationUse TypeExpr) := []

def Annotated.map {α β : Type} (change : α → β) (written : Annotated α) : Annotated β :=
  { declared := change written.declared, uses := written.uses }

/-- A method or constructor with its parameters.  A receiver is no parameter. -/
structure WrittenMethod where
  header : Annotated MethodDecl
  parameters : List (Annotated VariableDecl) := []

/-- Declarations that are written one after the other in a class or unit.  The last argument
of each constructor has those after the first one. -/
inductive Writing where
  | nothing
  /-- A class with what is written in it. -/
  | aClass (header : Annotated ClassDecl) (inner rest : Writing)
  /-- The variables of one field declaration, behind the same modifiers. -/
  | fields (group : Annotated (List VariableDecl)) (rest : Writing)
  | constant (header : Annotated VariableDecl) (rest : Writing)
  /-- An enumeration constant with the class that its body declares. -/
  | constantWithBody (header : Annotated VariableDecl) (body : ClassDecl) (inner rest : Writing)
  | method (written : WrittenMethod) (rest : Writing)
  | initializer (declared : InitializerDecl) (rest : Writing)
deriving Inhabited

/-- What is written in a compilation unit, its imports and directives left out. -/
structure UnitWriting where
  package : Option (Annotated PackageDecl) := none
  moduleDecl : Option (Annotated ModuleDecl) := none
  declarations : Writing := .nothing

namespace Writing

def append : Writing → Writing → Writing
  | nothing, back => back
  | aClass header inner rest, back => aClass header inner (rest.append back)
  | fields group rest, back => fields group (rest.append back)
  | constant header rest, back => constant header (rest.append back)
  | constantWithBody header body inner rest, back =>
      constantWithBody header body inner (rest.append back)
  | method written rest, back => method written (rest.append back)
  | initializer declared rest, back => initializer declared (rest.append back)

end Writing

/-! ### Events of what is written -/

/-- An annotation, or an event that may have some in front of it or is an end.  Comments,
imports and directives are written between them. -/
def Event.isWritten : Event → Bool
  | docText _ | docTag _ | imported _ | requires _ | exported _ | opened _ | uses _
  | provides _ => false
  | _ => true

def Event.isAnnotation : Event → Bool
  | annotated _ => true
  | _ => false

/-- A declaration that takes the annotations that wait. -/
def Event.takesUses : Event → Bool
  | package _ | moduleHeader _ | beginClass _ | beginField _ | beginMethod | beginConstructor
  | parameter _ => true
  | _ => false

theorem Event.takesUses_beginOf (isConstructor : Bool) : (beginOf isConstructor).takesUses := by
  cases isConstructor <;> rfl

def Annotated.events (part : Annotated Event) : List Event :=
  annotating part.uses ++ [part.declared]

/-- Events with their annotations, one after the other. -/
def saying (parts : List (Annotated Event)) : List Event :=
  parts.flatMap Annotated.events

@[simp]
theorem saying_nil : saying [] = [] :=
  rfl

@[simp]
theorem saying_cons (part : Annotated Event) (parts : List (Annotated Event)) :
    saying (part :: parts) = annotating part.uses ++ part.declared :: saying parts := by
  simp [saying, Annotated.events]

@[simp]
theorem saying_append (front back : List (Annotated Event)) :
    saying (front ++ back) = saying front ++ saying back :=
  List.flatMap_append

theorem saying_flatMap {α : Type} (items : List α) (parts : α → List (Annotated Event)) :
    saying (items.flatMap parts) = items.flatMap fun item => saying (parts item) :=
  List.flatMap_assoc

@[simp]
theorem annotating_nil : annotating [] = [] :=
  rfl

@[simp]
theorem filter_annotating (uses : List (AnnotationUse TypeExpr)) :
    (annotating uses).filter Event.isWritten = annotating uses := by
  refine List.filter_eq_self.mpr fun event member => ?_
  obtain ⟨use, -, rfl⟩ := List.mem_map.mp member
  rfl

def WrittenMethod.parts (written : WrittenMethod) : List (Annotated Event) :=
  let isConstructor := written.header.declared.isConstructor
  written.header.map (fun _ => Event.beginOf isConstructor) ::
    (written.parameters.map (·.map .parameter) ++
      [⟨Event.endOf isConstructor written.header.declared, []⟩])

/-- Each variable of a field declaration, behind all its annotations. -/
def fieldParts (group : Annotated (List VariableDecl)) : List (Annotated Event) :=
  group.declared.flatMap fun declared =>
    [⟨.beginField declared, group.uses⟩, ⟨.endField, []⟩]

namespace Writing

/-- The beginnings and ends of the declarations, with the annotations in front of them. -/
def parts : Writing → List (Annotated Event)
  | nothing => []
  | aClass header inner rest =>
      header.map .beginClass :: (inner.parts ++ ⟨.endClass, []⟩ :: rest.parts)
  | fields group rest => fieldParts group ++ rest.parts
  | constant header rest => header.map .beginField :: ⟨.endField, []⟩ :: rest.parts
  | constantWithBody header body inner rest =>
      header.map .beginField :: ⟨.beginClass body, []⟩ ::
        (inner.parts ++ ⟨.endClass, []⟩ :: ⟨.endField, []⟩ :: rest.parts)
  | method written rest => written.parts ++ rest.parts
  | initializer declared rest => ⟨.initializer declared, []⟩ :: rest.parts

@[simp]
theorem parts_append (front back : Writing) :
    (front.append back).parts = front.parts ++ back.parts := by
  induction front with
  | nothing => rfl
  | aClass header inner rest _ ih => simp [append, parts, ih]
  | fields group rest ih => simp [append, parts, ih]
  | constant header rest ih => simp [append, parts, ih]
  | constantWithBody header body inner rest _ ih => simp [append, parts, ih]
  | method written rest ih => simp [append, parts, ih]
  | initializer declared rest ih => simp [append, parts, ih]

end Writing

def UnitWriting.parts (writing : UnitWriting) : List (Annotated Event) :=
  writing.package.toList.map (·.map .package) ++
    writing.moduleDecl.toList.map (·.map .moduleHeader) ++ writing.declarations.parts

/-- Annotations stand in front of what takes them. -/
structure Annotated.IsProper (part : Annotated Event) : Prop where
  isWritten : part.declared.isWritten = true
  plain : part.declared.isAnnotation = false
  takes : part.uses = [] ∨ part.declared.takesUses = true

theorem WrittenMethod.parts_proper (written : WrittenMethod) :
    ∀ part ∈ written.parts, part.IsProper := by
  obtain ⟨⟨declared, uses⟩, parameters⟩ := written
  have begins : (⟨Event.beginOf declared.isConstructor, uses⟩ : Annotated Event).IsProper := by
    cases declared.isConstructor <;> exact ⟨rfl, rfl, .inr rfl⟩
  have ends :
      (⟨Event.endOf declared.isConstructor declared, []⟩ : Annotated Event).IsProper := by
    cases declared.isConstructor <;> exact ⟨rfl, rfl, .inl rfl⟩
  intro part member
  rcases List.mem_cons.mp member with rfl | member
  · exact begins
  rcases List.mem_append.mp member with among | last
  · obtain ⟨parameter, -, rfl⟩ := List.mem_map.mp among
    exact ⟨rfl, rfl, .inr rfl⟩
  · rw [List.mem_singleton.mp last]
    exact ends

theorem fieldParts_proper (group : Annotated (List VariableDecl)) :
    ∀ part ∈ fieldParts group, part.IsProper := by
  intro part member
  obtain ⟨declared, -, among⟩ := List.mem_flatMap.mp member
  simp only [List.mem_cons, List.not_mem_nil, or_false] at among
  rcases among with rfl | rfl
  · exact ⟨rfl, rfl, .inr rfl⟩
  · exact ⟨rfl, rfl, .inl rfl⟩

theorem Writing.parts_proper (writing : Writing) : ∀ part ∈ writing.parts, part.IsProper := by
  induction writing with
  | nothing => simp [parts]
  | aClass header inner rest innerIh ih =>
      simp only [parts, List.forall_mem_cons, List.forall_mem_append]
      exact ⟨⟨rfl, rfl, .inr rfl⟩, innerIh, ⟨rfl, rfl, .inl rfl⟩, ih⟩
  | fields group rest ih =>
      exact List.forall_mem_append.mpr ⟨fieldParts_proper group, ih⟩
  | constant header rest ih =>
      simp only [parts, List.forall_mem_cons]
      exact ⟨⟨rfl, rfl, .inr rfl⟩, ⟨rfl, rfl, .inl rfl⟩, ih⟩
  | constantWithBody header body inner rest innerIh ih =>
      simp only [parts, List.forall_mem_cons, List.forall_mem_append]
      exact ⟨⟨rfl, rfl, .inr rfl⟩, ⟨rfl, rfl, .inl rfl⟩, innerIh, ⟨rfl, rfl, .inl rfl⟩,
        ⟨rfl, rfl, .inl rfl⟩, ih⟩
  | method written rest ih => exact List.forall_mem_append.mpr ⟨written.parts_proper, ih⟩
  | initializer declared rest ih =>
      exact List.forall_mem_cons.mpr ⟨⟨rfl, rfl, .inl rfl⟩, ih⟩

theorem UnitWriting.parts_proper (writing : UnitWriting) :
    ∀ part ∈ writing.parts, part.IsProper := by
  refine List.forall_mem_append.mpr ⟨List.forall_mem_append.mpr ⟨?_, ?_⟩,
    writing.declarations.parts_proper⟩
  · intro part member
    obtain ⟨declared, -, rfl⟩ := List.mem_map.mp member
    exact ⟨rfl, rfl, .inr rfl⟩
  · intro part member
    obtain ⟨declared, -, rfl⟩ := List.mem_map.mp member
    exact ⟨rfl, rfl, .inr rfl⟩

theorem filter_saying {parts : List (Annotated Event)} (proper : ∀ part ∈ parts, part.IsProper) :
    (saying parts).filter Event.isWritten = saying parts := by
  induction parts with
  | nil => rfl
  | cons part parts ih =>
      obtain ⟨first, rest⟩ := List.forall_mem_cons.mp proper
      rw [saying_cons, List.filter_append, filter_annotating,
        List.filter_cons_of_pos first.isWritten, ih rest]

/-! ### Parts of declarations -/

/-- An expression that ends before one of some marks. -/
def ValueText (terminators : List Mark) (text rest : List Char) : Prop :=
  ∃ first slice, Head.of? text = some first ∧ first.slice ++ first.rest = slice ++ rest ∧
    slice ≠ [] ∧ Extends terminators 0 (slice ++ rest) rest

/-- A block in braces. -/
def BlockText (text rest : List Char) : Prop :=
  ∃ opening, Head.of? text = some opening ∧ opening.kind = .mark .leftBrace ∧
    Block.blockEnd 0 opening.rest = .closed rest

/-- The receiver in place of a parameter's name. -/
inductive ReceiverText : List Char → List Char → Prop where
  | plain {text : List Char} {word : Head} : Head.of? text = some word →
      word.kind = .keyword .thisKw → ReceiverText text word.rest
  | outer {text : List Char} {name dot word : Head} : Head.of? text = some name →
      name.kind = .identifier → Head.of? name.rest = some dot → dot.kind = .mark .dot →
        Head.of? dot.rest = some word → word.kind = .keyword .thisKw →
          ReceiverText text word.rest

/-- A parameter with its annotations, or a receiver, which is no parameter. -/
inductive ParameterText (source : List Char) :
    Option (Annotated VariableDecl) → List Char → List Char → Prop where
  | variable {text typed named rest : List Char} {modifiers : ReadM.Modifiers} {name : Head}
      {pairs : Nat} {declared : VariableDecl} : ModifiersText source modifiers text typed →
        HeaderText source false typed named → Head.of? named = some name →
          name.kind = .identifier → BracketPairs pairs name.rest rest →
            declared.name = name.text → declared.modifiers = modifiers.words →
              ParameterText source (some { declared, uses := modifiers.uses }) text rest
  | receiver {text typed named rest : List Char} {modifiers : ReadM.Modifiers} :
      ModifiersText source modifiers text typed → HeaderText source false typed named →
        ReceiverText named rest → ParameterText source none text rest

/-- One or more parameters with commas between them. -/
inductive ParameterList (source : List Char) :
    List (Annotated VariableDecl) → List Char → List Char → Prop where
  | last {found : Option (Annotated VariableDecl)} {text rest : List Char} :
      ParameterText source found text rest → ParameterList source found.toList text rest
  | more {found : Option (Annotated VariableDecl)} {others : List (Annotated VariableDecl)}
      {text mid rest : List Char} {comma : Head} : ParameterText source found text mid →
        Head.of? mid = some comma → comma.kind = .mark .comma →
          ParameterList source others comma.rest rest →
            ParameterList source (found.toList ++ others) text rest

/-- The parameters of a method in their brackets. -/
inductive ParametersText (source : List Char) :
    List (Annotated VariableDecl) → List Char → List Char → Prop where
  | none {text : List Char} {opening closing : Head} : Head.of? text = some opening →
      opening.kind = .mark .leftParen → Head.of? opening.rest = some closing →
        closing.kind = .mark .rightParen → ParametersText source [] text closing.rest
  | some {text rest : List Char} {parameters : List (Annotated VariableDecl)}
      {opening closing : Head} : Head.of? text = .some opening → opening.kind = .mark .leftParen →
        ParameterList source parameters opening.rest rest → Head.of? rest = .some closing →
          closing.kind = .mark .rightParen → ParametersText source parameters text closing.rest

/-- The default value of a method, if it has one. -/
inductive DefaultText : List Char → List Char → Prop where
  | none {text : List Char} : DefaultText text text
  | value {text rest : List Char} {word : Head} : Head.of? text = some word →
      word.kind = .keyword .defaultKw → ValueText [.semicolon] word.rest rest →
        DefaultText text rest

/-- The body of a method, or a semicolon. -/
inductive BodyText : List Char → List Char → Prop where
  | block {text rest : List Char} : BlockText text rest → BodyText text rest
  | none {text : List Char} {semicolon : Head} : Head.of? text = some semicolon →
      semicolon.kind = .mark .semicolon → BodyText text semicolon.rest

inductive MethodText (source : List Char) : WrittenMethod → List Char → List Char → Prop where
  | intro {text typed named behind ending body rest : List Char} {modifiers : ReadM.Modifiers}
      {name : Head} {declared : MethodDecl} {parameters : List (Annotated VariableDecl)} :
      ModifiersText source modifiers text typed → HeaderText source false typed named →
        Head.of? named = some name → name.kind = .identifier →
          ParametersText source parameters name.rest behind →
            HeaderText source true behind ending → DefaultText ending body →
              BodyText body rest → declared.name = name.text →
                declared.modifiers = modifiers.words →
                  MethodText source
                    { header := { declared, uses := modifiers.uses }, parameters } text rest

inductive FieldsText (source : List Char) :
    Annotated (List VariableDecl) → List Char → List Char → Prop where
  | intro {text typed named rest : List Char} {modifiers : ReadM.Modifiers} {type : TypeExpr}
      {line : Nat} {all : List Declarator} : ModifiersText source modifiers text typed →
        HeaderText source false typed named → Declarators RunsAsExpression all named rest →
          FieldsText source
            { declared := all.map (·.decl modifiers.words type line), uses := modifiers.uses }
            text rest

/-- The words that open a class declaration. -/
inductive ClassWordText : ClassKind → List Char → List Char → Prop where
  | word {kind : ClassKind} {text : List Char} {word : Head} : Head.of? text = some word →
      kind.IsOpenedBy word.kind → ClassWordText kind text word.rest
  | annotationType {text : List Char} {sign word : Head} : Head.of? text = some sign →
      sign.kind = .mark .atSign → Head.of? sign.rest = some word →
        word.kind = .keyword .interfaceKw → ClassWordText .annotationType text word.rest

/-- The header of a class behind its modifiers. -/
inductive ClassHeaderText (source : List Char) : ClassDecl → List Char → List Char → Prop where
  | intro {text named rest : List Char} {name : Head} {declared : ClassDecl} :
      ClassWordText declared.kind text named → Head.of? named = some name →
        name.kind = .identifier → HeaderText source true name.rest rest →
          declared.name = name.text → ClassHeaderText source declared text rest

/-- The arguments of an enumeration constant up to the closing bracket.  A comma may stand after
the last one. -/
inductive ArgumentList : List Char → List Char → Prop where
  | closed {text : List Char} {closing : Head} : Head.of? text = some closing →
      closing.kind = .mark .rightParen → ArgumentList text closing.rest
  | last {text mid : List Char} {closing : Head} : ValueText [.comma] text mid →
      Head.of? mid = some closing → closing.kind = .mark .rightParen →
        ArgumentList text closing.rest
  | more {text mid rest : List Char} {comma : Head} : ValueText [.comma] text mid →
      Head.of? mid = some comma → comma.kind = .mark .comma → ArgumentList comma.rest rest →
        ArgumentList text rest

/-- The arguments of an enumeration constant, if it has brackets. -/
inductive ArgumentsText : List Char → List Char → Prop where
  | none {text : List Char} : ArgumentsText text text
  | some {text rest : List Char} {opening : Head} : Head.of? text = .some opening →
      opening.kind = .mark .leftParen → ArgumentList opening.rest rest → ArgumentsText text rest

/-- An enumeration constant in front of its body. -/
inductive ConstantText (source : List Char) :
    Annotated VariableDecl → List Char → List Char → Prop where
  | intro {text named rest : List Char} {modifiers : ReadM.Modifiers} {name : Head}
      {declared : VariableDecl} : ModifiersText source modifiers text named →
        Head.of? named = some name → name.kind = .identifier → ArgumentsText name.rest rest →
          declared.name = name.text → declared.isConstant = true →
            ConstantText source { declared, uses := modifiers.uses } text rest

/-- The end of the constants of an enumeration, in front of its members. -/
inductive ConstantsEndText : List Char → List Char → Prop where
  | semicolon {text : List Char} {head : Head} : Head.of? text = some head →
      head.kind = .mark .semicolon → ConstantsEndText text head.rest
  | brace {text : List Char} {head : Head} : Head.of? text = some head →
      head.kind = .mark .rightBrace → ConstantsEndText text text

/-! ### Classes -/

/-- Where declarations are written. -/
inductive Place where
  /-- A class with its modifiers. -/
  | aClass
  /-- The body of a class of some kind. -/
  | body (kind : ClassKind)
  | member
  | members
  | constant
  | constants
  /-- The classes of a unit. -/
  | unit

/-- What is written somewhere stands in front of some text. -/
inductive WritingText (source : List Char) : Place → Writing → List Char → List Char → Prop where
  | aClass {text start opened rest : List Char} {modifiers : ReadM.Modifiers}
      {declared : ClassDecl} {inner : Writing} : ModifiersText source modifiers text start →
        ClassHeaderText source declared start opened → declared.modifiers = modifiers.words →
          WritingText source (.body declared.kind) inner opened rest →
            WritingText source .aClass
              (.aClass { declared, uses := modifiers.uses } inner .nothing) text rest
  | body {text rest : List Char} {kind : ClassKind} {opening : Head} {members : Writing} :
      Head.of? text = some opening → opening.kind = .mark .leftBrace → kind ≠ .enumeration →
        WritingText source .members members opening.rest rest →
          WritingText source (.body kind) members text rest
  | enumeration {text mid rest : List Char} {opening : Head} {constants members : Writing} :
      Head.of? text = some opening → opening.kind = .mark .leftBrace →
        WritingText source .constants constants opening.rest mid →
          WritingText source .members members mid rest →
            WritingText source (.body .enumeration) (constants.append members) text rest
  | noMembers {text : List Char} {closing : Head} : Head.of? text = some closing →
      closing.kind = .mark .rightBrace → WritingText source .members .nothing text closing.rest
  | strayInside {text rest : List Char} {semicolon : Head} {members : Writing} :
      Head.of? text = some semicolon → semicolon.kind = .mark .semicolon →
        WritingText source .members members semicolon.rest rest →
          WritingText source .members members text rest
  | members {text mid rest : List Char} {first others : Writing} :
      WritingText source .member first text mid → WritingText source .members others mid rest →
        WritingText source .members (first.append others) text rest
  | initializer {text rest : List Char} {declared : InitializerDecl} : BlockText text rest →
      declared.isStatic = false →
        WritingText source .member (.initializer declared .nothing) text rest
  | staticInitializer {text rest : List Char} {word : Head} {declared : InitializerDecl} :
      Head.of? text = some word → word.kind = .keyword .staticKw → BlockText word.rest rest →
        declared.isStatic = true →
          WritingText source .member (.initializer declared .nothing) text rest
  | classMember {text rest : List Char} {writing : Writing} :
      WritingText source .aClass writing text rest → WritingText source .member writing text rest
  | method {text rest : List Char} {written : WrittenMethod} :
      MethodText source written text rest →
        WritingText source .member (.method written .nothing) text rest
  | fields {text rest : List Char} {group : Annotated (List VariableDecl)} :
      FieldsText source group text rest →
        WritingText source .member (.fields group .nothing) text rest
  | noConstants {text rest : List Char} : ConstantsEndText text rest →
      WritingText source .constants .nothing text rest
  | lastConstant {text mid rest : List Char} {first : Writing} :
      WritingText source .constant first text mid → ConstantsEndText mid rest →
        WritingText source .constants first text rest
  | constants {text mid rest : List Char} {comma : Head} {first others : Writing} :
      WritingText source .constant first text mid → Head.of? mid = some comma →
        comma.kind = .mark .comma → WritingText source .constants others comma.rest rest →
          WritingText source .constants (first.append others) text rest
  | constant {text rest : List Char} {header : Annotated VariableDecl} {next : Head} :
      ConstantText source header text rest → Head.of? rest = some next →
        next.kind ≠ .mark .leftBrace →
          WritingText source .constant (.constant header .nothing) text rest
  | constantWithBody {text mid rest : List Char} {header : Annotated VariableDecl}
      {body : ClassDecl} {inner : Writing} : ConstantText source header text mid →
        body.name = header.declared.name → WritingText source (.body body.kind) inner mid rest →
          WritingText source .constant (.constantWithBody header body inner .nothing) text rest
  | unitEnd {text : List Char} {last : Head} : Head.of? text = some last →
      last.kind = .endOfInput → WritingText source .unit .nothing text text
  | strayOutside {text rest : List Char} {semicolon : Head} {classes : Writing} :
      Head.of? text = some semicolon → semicolon.kind = .mark .semicolon →
        WritingText source .unit classes semicolon.rest rest →
          WritingText source .unit classes text rest
  | classes {text mid rest : List Char} {first others : Writing} :
      WritingText source .aClass first text mid → WritingText source .unit others mid rest →
        WritingText source .unit (first.append others) text rest

/-! ### Units -/

def isImportToken (kind : TokenKind) : Bool :=
  [TokenKind.keyword .staticKw, .identifier, .mark .dot, .mark .star].contains kind

/-- Tokens between the word of an import and its semicolon. -/
def ImportRun (text rest : List Char) : Prop :=
  ∃ heads, Heads text heads rest ∧ ∀ head ∈ heads, isImportToken head.kind = true

inductive ImportsText : List Char → List Char → Prop where
  | none {text : List Char} : ImportsText text text
  | stray {text rest : List Char} {semicolon : Head} : Head.of? text = some semicolon →
      semicolon.kind = .mark .semicolon → ImportsText semicolon.rest rest → ImportsText text rest
  | more {text mid rest : List Char} {word semicolon : Head} : Head.of? text = some word →
      word.kind = .keyword .importKw → ImportRun word.rest mid →
        Head.of? mid = some semicolon → semicolon.kind = .mark .semicolon →
          ImportsText semicolon.rest rest → ImportsText text rest

inductive PreambleText (source : List Char) :
    Option (Annotated PackageDecl) → List Char → List Char → Prop where
  | imports {text rest : List Char} : ImportsText text rest → PreambleText source none text rest
  | package {text start mid rest : List Char} {modifiers : ReadM.Modifiers} {word semicolon : Head}
      {names : List String} {declared : PackageDecl} : ModifiersText source modifiers text start →
        Head.of? start = some word → word.kind = .keyword .packageKw →
          NameText names word.rest mid → Head.of? mid = some semicolon →
            semicolon.kind = .mark .semicolon → ImportsText semicolon.rest rest →
              declared.name = ".".intercalate names →
                PreambleText source (some { declared, uses := modifiers.uses }) text rest

def Head.IsWord (head : Head) (word : String) : Prop :=
  head.kind = .identifier ∧ head.text = word

/-- The header of a module behind its annotations, up to the brace. -/
inductive ModuleHeaderText : ModuleDecl → List Char → List Char → Prop where
  | closed {text mid : List Char} {word brace : Head} {names : List String}
      {declared : ModuleDecl} : Head.of? text = some word → word.IsWord "module" →
        NameText names word.rest mid → Head.of? mid = some brace →
          brace.kind = .mark .leftBrace → declared.name = ".".intercalate names →
            declared.isOpen = false → ModuleHeaderText declared text brace.rest
  | opened {text mid : List Char} {first word brace : Head} {names : List String}
      {declared : ModuleDecl} : Head.of? text = some first → first.IsWord "open" →
        Head.of? first.rest = some word → word.IsWord "module" →
          NameText names word.rest mid → Head.of? mid = some brace →
            brace.kind = .mark .leftBrace → declared.name = ".".intercalate names →
              declared.isOpen = true → ModuleHeaderText declared text brace.rest

/-- A unit stands in front of some text: its classes, or its module up to the directives, which
declare nothing. -/
inductive UnitText (source : List Char) : UnitWriting → List Char → List Char → Prop where
  | classes {text mid rest : List Char} {package : Option (Annotated PackageDecl)}
      {declarations : Writing} : PreambleText source package text mid →
        WritingText source .unit declarations mid rest →
          UnitText source { package, declarations } text rest
  | aModule {text mid start rest : List Char} {package : Option (Annotated PackageDecl)}
      {modifiers : ReadM.Modifiers} {declared : ModuleDecl} :
      PreambleText source package text mid → ModifiersText source modifiers mid start →
        modifiers.words = [] → ModuleHeaderText declared start rest →
          UnitText source { package, moduleDecl := some { declared, uses := modifiers.uses } }
            text rest

end JavaDecl
