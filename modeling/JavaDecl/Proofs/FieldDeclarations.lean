import JavaDecl.Proofs.TypeTexts

/-!
# Field declarations

Annotations and modifier words, a type and declarators are announced as one field for each
declarator.  Every field has all of the annotations and modifier words, and the dimensions of the
type and of its own declarator.
-/

namespace JavaDecl

/-- Annotations and modifier words in front of a declaration, in any order. -/
inductive Leading (source : List Char) :
    List (AnnotationUse TypeExpr ⊕ String) → List Char → List Char → Prop where
  | none {text : List Char} : Leading source [] text text
  | use {text mid rest : List Char} {use : AnnotationUse TypeExpr}
      {others : List (AnnotationUse TypeExpr ⊕ String)} : UseText source (.use use) text mid →
        Leading source others mid rest → Leading source (.inl use :: others) text rest
  | word {text rest : List Char} {word : Head} {others : List (AnnotationUse TypeExpr ⊕ String)} :
      Head.of? text = some word → word.kind.isModifier = true ∨ word.kind = .keyword .defaultKw →
        Leading source others word.rest rest → Leading source (.inr word.text :: others) text rest
  | sealed {text rest : List Char} {word next : Head}
      {others : List (AnnotationUse TypeExpr ⊕ String)} : Head.of? text = some word →
        word.kind = .identifier → word.text = "sealed" → Head.of? word.rest = some next →
          ReadM.startsDeclaration next.kind = true → Leading source others word.rest rest →
            Leading source (.inr word.text :: others) text rest
  | nonSealed {text rest : List Char} {non minus word : Head}
      {others : List (AnnotationUse TypeExpr ⊕ String)} : Head.of? text = some non →
        non.kind = .identifier → non.text = "non" → Head.of? non.rest = some minus →
          minus.kind = .mark .minus → Head.of? minus.rest = some word →
            word.kind = .identifier → word.text = "sealed" → Leading source others word.rest rest →
              Leading source (.inr "non-sealed" :: others) text rest

namespace ReadM

variable {source text typed named mid rest : List Char} {head : Head} {budget count : Nat}
  {pieces : List (AnnotationUse TypeExpr ⊕ String)} {type : TypeExpr} {all : List Declarator}

/-! ### Modifiers -/

section Single

variable {next word minus : Head} {use : AnnotationUse TypeExpr}

theorem modifier?_reads_use (stands : UseText source (.use use) text mid) :
    Reads True source (modifier? budget) text (some (.inl use)) mid := by
  obtain ⟨sign, name, found, isSign, further, isName⟩ := stands.sign
  refine (kindAt_first found).andThen ?_
  rw [if_pos (by simp [isSign])]
  exact .no (isSecond_reads found further (by simp [isSign]) (by simp [isName]))
    ((stands.isRead budget).andThen (.pure ⟨rfl, rfl, rfl⟩))

theorem take_reads_word (found : Head.of? text = some word) :
    Reads True source (take >>= fun token =>
      pure (some (Sum.inr token.text : AnnotationUse TypeExpr ⊕ String))) text
      (some (.inr word.text)) word.rest :=
  (take_leads found).meet fun _ isHead => .pure ⟨by rw [isHead.text], rfl, rfl⟩

theorem modifier?_reads_word (found : Head.of? text = some word)
    (isWord : word.kind.isModifier = true ∨ word.kind = .keyword .defaultKw) :
    Reads True source (modifier? budget) text (some (.inr word.text)) word.rest := by
  have noSign : word.kind ≠ .mark .atSign := fun same => by
    simp [same, TokenKind.isModifier] at isWord
  refine (kindAt_first found).andThen ?_
  rw [if_neg (by simpa using noSign), if_pos (by simpa using isWord)]
  exact take_reads_word found

theorem modifier?_reads_sealed (found : Head.of? text = some word)
    (isName : word.kind = .identifier) (same : word.text = "sealed")
    (further : Head.of? word.rest = some next) (starts : startsDeclaration next.kind = true) :
    Reads True source (modifier? budget) text (some (.inr word.text)) word.rest := by
  have isSealed : Reads True source (isWordAt 0 "sealed") text true text :=
    isWordAt_reads [] (.single found) (by simp) (by simp [isName, same])
  refine (kindAt_first found).andThen ?_
  rw [if_neg (by simp [isName]), if_neg (by simp [isName, TokenKind.isModifier])]
  exact .yes (isSealed.both (.map (kindAt_second found further (by simp [isName])) starts))
    (take_reads_word found)

theorem modifier?_reads_nonSealed (found : Head.of? text = some word)
    (isName : word.kind = .identifier) (same : word.text = "non")
    (further : Head.of? word.rest = some minus) (isMinus : minus.kind = .mark .minus)
    (behind : Head.of? minus.rest = some next) (isName' : next.kind = .identifier)
    (same' : next.text = "sealed") :
    Reads True source (modifier? budget) text (some (.inr "non-sealed")) next.rest := by
  have spelled (spelling : String) : Reads True source (isWordAt 0 spelling) text
      ("non" == spelling) text :=
    isWordAt_reads [] (.single found) (by simp) (by simp [isName, same])
  have isMinus' : Reads True source (isAt 1 (.mark .minus)) text true text :=
    isSecond_reads found further (by simp [isName]) (by simp [isMinus])
  have isSealed : Reads True source (isWordAt 2 "sealed") text true text :=
    isWordAt_reads [word, minus] (.cons found (.cons further (.single behind)))
      (by simp [isName, isMinus]) (by simp [isName', same'])
  refine (kindAt_first found).andThen ?_
  rw [if_neg (by simp [isName]), if_neg (by simp [isName, TokenKind.isModifier])]
  refine .no (.notBoth (spelled "sealed")) (.yes ((spelled "non").both (isMinus'.both isSealed)) ?_)
  exact (takeMany_leads (.cons found (.cons further (.single behind)))).meet fun _ _ =>
    .pure ⟨rfl, rfl, rfl⟩

end Single

def Modifiers.ofPieces (pieces : List (AnnotationUse TypeExpr ⊕ String)) : Modifiers where
  words := pieces.filterMap Sum.getRight?
  uses := pieces.filterMap Sum.getLeft?

theorem modifiers_take (leading : Leading source pieces text rest) (ended : NoModifier rest) :
    Takes source modifiers text (.ofPieces pieces) rest := by
  intro budget
  suffices all : ∀ rounds, Reads True source (many (modifier? budget) rounds) text pieces rest from
    (all budget).andThen (.pure ⟨rfl, rfl, rfl⟩)
  induction leading with
  | none => exact fun rounds => many_ends (modifier?_leaves ended)
  | use stands _ ih => exact fun rounds => many_goesOn (modifier?_reads_use stands) (ih ended)
  | word found isWord _ ih =>
      exact fun rounds => many_goesOn (modifier?_reads_word found isWord) (ih ended)
  | sealed found isName same further starts _ ih =>
      exact fun rounds => many_goesOn
        (modifier?_reads_sealed found isName same further starts) (ih ended)
  | nonSealed found isName same further isMinus behind isName' same' _ ih =>
      exact fun rounds => many_goesOn
        (modifier?_reads_nonSealed found isName same further isMinus behind isName' same')
        (ih ended)

end ReadM

/-! ### What comes first -/

open ReadM

variable {source text typed named mid rest : List Char} {head : Head} {count : Nat}
  {pieces : List (AnnotationUse TypeExpr ⊕ String)} {type : TypeExpr} {all : List Declarator}

def followsName (kind : TokenKind) : Bool :=
  [TokenKind.identifier, .mark .dot, .mark .less, .mark .leftBracket].contains kind

theorem followsName_ne {kind other : TokenKind} (follows : followsName kind = true)
    (apart : followsName other = false) : kind ≠ other := by
  rintro rfl
  cases follows.symm.trans apart

theorem startsDeclaration_of_followsName {kind : TokenKind} (follows : followsName kind = true) :
    startsDeclaration kind = false := by
  simp only [followsName, List.contains_cons, List.contains_nil, Bool.or_false, Bool.or_eq_true,
    beq_iff_eq] at follows
  rcases follows with rfl | rfl | rfl | rfl <;> rfl

/-- A type opens with a primitive type, or with a name that some tokens may come behind. -/
inductive OpensType (text : List Char) : Prop where
  | primitive {head : Head} : Head.of? text = some head → head.kind.isPrimitiveType = true →
      OpensType text
  | name {head next : Head} : Head.of? text = some head → head.kind = .identifier →
      Head.of? head.rest = some next → followsName next.kind = true → OpensType text

namespace OpensType

theorem exists_head (opens : OpensType text) : ∃ head, Head.of? text = some head ∧
    (head.kind = .identifier ∨ head.kind.isPrimitiveType = true) := by
  cases opens with
  | primitive found isPrimitive => exact ⟨_, found, .inr isPrimitive⟩
  | name found isName => exact ⟨_, found, .inl isName⟩

theorem noModifier (opens : OpensType text) : NoModifier text := by
  cases opens with
  | @primitive head found isPrimitive =>
      have ne (other : TokenKind) (apart : other.isPrimitiveType = false) : head.kind ≠ other := by
        rintro rfl
        cases isPrimitive.symm.trans apart
      refine .other found (ne _ rfl) (ne _ rfl) ?_ (ne _ rfl)
      cases same : head.kind with
      | keyword word =>
          rw [same] at isPrimitive
          cases word <;> first | rfl | cases isPrimitive
      | _ => rfl
  | name found isName further follows =>
      exact .name found isName further (startsDeclaration_of_followsName follows)
        (followsName_ne follows rfl)

theorem isClassStart (opens : OpensType text) : Reads True source isClassStart text false text := by
  obtain ⟨head, found, isType⟩ := opens.exists_head
  refine (kindAt_first found).andThen ?_
  split
  · next same => simp [same, TokenKind.isPrimitiveType, Keyword.isPrimitiveType] at isType
  · next same => simp [same, TokenKind.isPrimitiveType, Keyword.isPrimitiveType] at isType
  · next same => simp [same, TokenKind.isPrimitiveType, Keyword.isPrimitiveType] at isType
  · next same => simp [same, TokenKind.isPrimitiveType] at isType
  · exact .pure ⟨rfl, rfl, rfl⟩

/-- No type is the name of a constructor. -/
theorem isNoConstructor (opens : OpensType text) :
    Reads True source (isNext .identifier <&&> isAt 1 (.mark .leftParen)) text false text := by
  cases opens with
  | primitive found isPrimitive =>
      refine .notBoth (isNext_reads found (beq_false_of_ne fun same => ?_))
      rw [same] at isPrimitive
      cases isPrimitive
  | name found isName further follows =>
      exact .neither (isNext_reads found rfl) (isSecond_reads found further (by simp [isName])
        (beq_false_of_ne (followsName_ne follows rfl)))

end OpensType

/-- What comes behind a name in a type: type arguments, a dot, or what comes behind the type. -/
theorem TypeText.next_or_eq {args : List (TypeArgument TypeExpr)} {outer : TypeExpr}
    (arguments : TypeText source (.arguments args) text mid)
    (parts : TypeText source (.parts outer type) mid rest) :
    (∃ next, Head.of? text = some next ∧ followsName next.kind = true) ∨ text = rest := by
  cases arguments with
  | noArguments =>
      cases parts with
      | ended => exact .inr rfl
      | part found isDot => exact .inl ⟨_, found, by simp [isDot, followsName]⟩
  | diamond found opens => exact .inl ⟨_, found, by simp [opens, followsName]⟩
  | arguments found opens => exact .inl ⟨_, found, by simp [opens, followsName]⟩

theorem BracketPairs.exists_head (pairs : BracketPairs count text rest)
    (found : Head.of? rest = some head) :
    ∃ next, Head.of? text = some next ∧ (next.kind = .mark .leftBracket ∨ next = head) := by
  cases pairs with
  | none => exact ⟨head, found, .inr rfl⟩
  | pair opening opens => exact ⟨_, opening, .inl opens⟩

theorem TypeText.opensType (base : TypeText source (.base type) typed named)
    (pairs : BracketPairs count named rest) (found : Head.of? rest = some head)
    (isName : head.kind = .identifier) : OpensType typed := by
  cases base with
  | primitive found isPrimitive => exact .primitive found isPrimitive
  | named first isName' arguments parts =>
      rcases arguments.next_or_eq parts with ⟨next, further, follows⟩ | rfl
      · exact .name first isName' further follows
      · obtain ⟨next, further, is⟩ := pairs.exists_head found
        refine .name first isName' further ?_
        rcases is with isBracket | rfl
        · simp [isBracket, followsName]
        · simp [isName, followsName]

theorem Declarator.At.exists_head {declared : Declarator}
    (stands : declared.At RunsAsExpression text rest) (found : Head.of? text = some head) :
    head.kind = .identifier ∧
      ∃ next, Head.of? head.rest = some next ∧ next.kind ≠ .mark .leftParen := by
  obtain @⟨@⟨name, count, initializer, _, mid, _, found', isName, pairs, initialized⟩, last, ended,
    ends⟩ := stands
  obtain rfl := Option.some.inj (found.symm.trans found')
  obtain ⟨behind, further, apart⟩ : ∃ behind, Head.of? mid = some behind ∧
      behind.kind ≠ .mark .leftParen := by
    cases initialized with
    | without =>
        refine ⟨last, ended, ?_⟩
        rcases ends with is | is <;> simp [is]
    | value found assign => exact ⟨_, found, by simp [assign]⟩
  obtain ⟨next, first, is⟩ := pairs.exists_head further
  refine ⟨isName, next, first, ?_⟩
  rcases is with isBracket | rfl
  · simp [isBracket]
  · exact apart

/-- The tokens that a member with a type starts with. -/
def opensMember (kind : TokenKind) : Bool :=
  kind == .mark .atSign || kind.isModifier || kind == .keyword .defaultKw || kind == .identifier ||
    kind.isPrimitiveType

theorem opensMember_ne {kind other : TokenKind} (opens : opensMember kind = true)
    (apart : opensMember other = false) : kind ≠ other := by
  rintro rfl
  cases opens.symm.trans apart

theorem OpensType.opensMember (opens : OpensType text) :
    ∃ head, Head.of? text = some head ∧ opensMember head.kind = true := by
  obtain ⟨head, found, isType⟩ := opens.exists_head
  refine ⟨head, found, ?_⟩
  rcases isType with isType | isType <;> simp [JavaDecl.opensMember, isType]

namespace Leading

theorem exists_head (leading : Leading source pieces text rest)
    (opens : ∃ head, Head.of? rest = some head ∧ opensMember head.kind = true) :
    ∃ head, Head.of? text = some head ∧ opensMember head.kind = true := by
  cases leading with
  | none => exact opens
  | use stands =>
      obtain ⟨_, _, found, isSign, -⟩ := stands.sign
      exact ⟨_, found, by simp [opensMember, isSign]⟩
  | word found isWord =>
      refine ⟨_, found, ?_⟩
      rcases isWord with isWord | isWord <;> simp [opensMember, isWord]
  | sealed found isName => exact ⟨_, found, by simp [opensMember, isName]⟩
  | nonSealed found isName => exact ⟨_, found, by simp [opensMember, isName]⟩

theorem isNoBlock (leading : Leading source pieces text rest) (opens : OpensType rest) :
    Reads True source (isNext (.keyword .staticKw) <&&> isAt 1 (.mark .leftBrace)) text false
      text := by
  have apart {head : Head} (found : Head.of? text = some head)
      (other : head.kind ≠ .keyword .staticKw) :
      Reads True source (isNext (.keyword .staticKw) <&&> isAt 1 (.mark .leftBrace)) text false
        text := .notBoth (isNext_reads found (by simpa using other))
  cases leading with
  | none =>
      cases opens with
      | primitive found isPrimitive =>
          refine apart found fun same => ?_
          rw [same] at isPrimitive
          cases isPrimitive
      | name found isName => exact apart found (by simp [isName])
  | use stands =>
      obtain ⟨_, _, found, isSign, -⟩ := stands.sign
      exact apart found (by simp [isSign])
  | word found isWord others =>
      obtain ⟨next, further, opensNext⟩ := others.exists_head opens.opensMember
      exact .neither (isNext_reads found rfl) (isSecond_reads found further
        (fun same => by simp [same, TokenKind.isModifier] at isWord)
        (beq_false_of_ne (opensMember_ne opensNext rfl)))
  | sealed found isName => exact apart found (by simp [isName])
  | nonSealed found isName => exact apart found (by simp [isName])

end Leading

/-! ### Members -/

theorem Declarators.exists_head (chain : Declarators RunsAsExpression all text rest) :
    ∃ head next, Head.of? text = some head ∧ head.kind = .identifier ∧
      Head.of? head.rest = some next ∧ next.kind ≠ .mark .leftParen := by
  have first {declared : Declarator} {rest : List Char}
      (stands : declared.At RunsAsExpression text rest) :
      ∃ head next, Head.of? text = some head ∧ head.kind = .identifier ∧
        Head.of? head.rest = some next ∧ next.kind ≠ .mark .leftParen := by
    obtain ⟨found, -⟩ := stands.spans
    obtain ⟨isName, next, further, apart⟩ := stands.exists_head found
    exact ⟨_, next, found, isName, further, apart⟩
  cases chain with
  | last stands => exact first stands
  | more stands => exact first stands

section Member

variable {declared : List Char} (base : TypeText source (.base type) typed named)
  (pairs : BracketPairs count named declared)
  (chain : Declarators RunsAsExpression all declared rest)

include base pairs chain

theorem memberRest_delivers (modifiers : Modifiers) (budget : Nat) :
    Delivers True source (memberRest budget modifiers) typed ⟨⟩ rest
      (all.flatMap (·.events modifiers (type.addDims count) (firstLine source typed))) := by
  obtain ⟨name, next, found, isName, further, apart⟩ := chain.exists_head
  have opens := base.opensType pairs found isName
  obtain ⟨first, here, isType⟩ := opens.exists_head
  have ne (other : TokenKind) (noName : other ≠ .identifier)
      (noPrimitive : other.isPrimitiveType = false) : first.kind ≠ other := by
    rintro rfl
    rcases isType with same | same
    · exact noName same
    · cases same.symm.trans noPrimitive
  have noParameters : Reads True source (optionalParameters budget) typed [] typed :=
    .no (accept_leaves_head here (ne (.mark .less) nofun rfl)) (.pure ⟨rfl, rfl, rfl⟩)
  refine (nextLine_reads_first here).andThen (noParameters.andThen (.no opens.isNoConstructor ?_))
  refine (typeExpr_takes (.none here (ne _ nofun rfl)) base.isRead pairs found
    (by simp [isName]) budget).andThen ((identifier_reads found isName).andThen ?_)
  exact .no (isNext_reads further (beq_false_of_ne apart)) (fieldRest_delivers chain found)

/-- A field declaration is a member that is announced declarator by declarator. -/
theorem member_delivers (leading : Leading source pieces text typed) (budget : Nat) :
    Delivers True source (member budget) text ⟨⟩ rest (all.flatMap
      (·.events (.ofPieces pieces) (type.addDims count) (firstLine source typed))) := by
  obtain ⟨name, next, found, isName, -⟩ := chain.exists_head
  have opens := base.opensType pairs found isName
  obtain ⟨first, here, isMember⟩ := leading.exists_head opens.opensMember
  cases budget with
  | zero => exact .exhausted
  | succ budget =>
      rw [member]
      refine .no (isNext_reads here (beq_false_of_ne (opensMember_ne isMember rfl))) ?_
      refine .no (leading.isNoBlock opens) ?_
      refine (modifiers_take leading opens.noModifier budget).andThen ?_
      exact .no opens.isClassStart (memberRest_delivers base pairs chain _ budget)

end Member

/-- A class whose only member is a field declaration is accepted, and its events are those of the
declarators. -/
theorem readUnit_of_fields {name : String} {body declared : List Char} {brace last : Head}
    (opens : OpensClass .ordinary name (TokenStream.ofSource source).rest body)
    (leading : Leading source pieces body typed)
    (base : TypeText source (.base type) typed named) (pairs : BracketPairs count named declared)
    (chain : Declarators RunsAsExpression all declared rest) (found : Head.of? rest = some brace)
    (closes : brace.kind = .mark .rightBrace) (ended : Head.of? brace.rest = some last)
    (isEnd : last.kind = .endOfInput) :
    (readUnit source).2 = none ∧ (readUnit source).1.filter (!·.isComment) =
      .beginClass
          { name, kind := .ordinary,
            line := firstLine source (TokenStream.ofSource source).rest } ::
        (all.flatMap (·.events (.ofPieces pieces) (type.addDims count) (firstLine source typed)) ++
          [.endClass]) := by
  refine readUnit_of_class opens (fun budget => ?_) ended isEnd
  rw [if_neg nofun]
  obtain ⟨first, _, here, isName, -⟩ := chain.exists_head
  obtain ⟨head, comes, isMember⟩ :=
    leading.exists_head (base.opensType pairs here isName).opensMember
  rw [← List.append_nil (all.flatMap _)]
  exact members_goOn comes (opensMember_ne isMember rfl) (opensMember_ne isMember rfl)
    (opensMember_ne isMember rfl) (member_delivers base pairs chain leading)
    fun _ => members_end found closes

end JavaDecl
