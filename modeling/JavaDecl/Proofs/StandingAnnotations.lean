import JavaDecl.Proofs.ClassUnits

/-!
# Annotations as they stand in texts

An annotation that stands in a text is read as it is written, in whatever layout: a dotted name,
and perhaps the values of its elements in brackets.  A value is an annotation, values in braces, a
class literal, a single literal or any other expression.
-/

namespace JavaDecl

/-- A dotted name, as far as it goes. -/
inductive NameText : List String → List Char → List Char → Prop where
  | last {text : List Char} {name next : Head} : Head.of? text = some name →
      name.kind = .identifier → Head.of? name.rest = some next →
        (next.kind = .mark .dot →
          ∃ behind, Head.of? next.rest = some behind ∧ behind.kind ≠ .identifier) →
            NameText [name.text] text name.rest
  | more {text rest : List Char} {name dot : Head} {names : List String} :
      Head.of? text = some name → name.kind = .identifier → Head.of? name.rest = some dot →
        dot.kind = .mark .dot → NameText names dot.rest rest →
          NameText (name.text :: names) text rest

theorem NameText.exists_head {names : List String} {text rest : List Char}
    (named : NameText names text rest) :
    ∃ name, Head.of? text = some name ∧ name.kind = .identifier := by
  cases named with
  | last found isName => exact ⟨_, found, isName⟩
  | more found isName => exact ⟨_, found, isName⟩

/-! ### Class literals -/

/-- Whether two tokens go on with the name of a class that opens with some token. -/
def goesOnWithName (first kind next : TokenKind) : Bool :=
  (kind == .mark .dot && next == .identifier && first == .identifier) ||
    (kind == .mark .leftBracket && next == .mark .rightBracket)

/-- The tokens that go on with the name of a class, as far as they go. -/
inductive NameGoesOn (first : TokenKind) : List Head → List Char → List Char → Prop where
  | ended {text : List Char} {head next : Head} : Head.of? text = some head →
      head.kind ≠ .mark .leftBrace → Head.of? head.rest = some next →
        goesOnWithName first head.kind next.kind = false → NameGoesOn first [] text text
  | pair {text rest : List Char} {head next : Head} {heads : List Head} :
      Head.of? text = some head → Head.of? head.rest = some next →
        goesOnWithName first head.kind next.kind = true → NameGoesOn first heads next.rest rest →
          NameGoesOn first (head :: next :: heads) text rest

def closesValue (kind : TokenKind) : Bool :=
  [TokenKind.mark .comma, .mark .rightParen, .mark .rightBrace].contains kind

def opensClassName (kind : TokenKind) : Bool :=
  kind == .identifier || kind.isPrimitiveType

theorem opensClassName_of_isLiteral {kind : TokenKind} (isLiteral : kind.isLiteral = true) :
    opensClassName kind = false := by
  cases kind with
  | keyword word => cases word <;> first | rfl | cases isLiteral
  | _ => first | rfl | cases isLiteral

/-- The type that the tokens of a class literal name. -/
def Head.typeOfAll (heads : List Head) : TypeExpr where
  name := String.join ((heads.filter fun head =>
    head.kind != .mark .leftBracket && head.kind != .mark .rightBracket).map Head.text)
  dims := heads.countP (·.kind == .mark .leftBracket)

/-- No class literal that is all of a value comes first. -/
inductive NoClassLiteral (text : List Char) : Prop where
  | otherwise {first : Head} : Head.of? text = some first → opensClassName first.kind = false →
      NoClassLiteral text
  | name {first : Head} {heads : List Head} {mid : List Char} {behind : Head} :
      Head.of? text = some first → opensClassName first.kind = true →
        NameGoesOn first.kind heads first.rest mid → Head.of? mid = some behind →
          (behind.kind = .mark .dot → ∃ word, Head.of? behind.rest = some word ∧
            (word.kind = .keyword .classKw → ∃ next, Head.of? word.rest = some next ∧
              closesValue next.kind = false)) → NoClassLiteral text

/-! ### Annotations -/

/-- The parts that annotations are made of. -/
inductive UsePiece where
  | use (use : AnnotationUse TypeExpr)
  /-- The values of an annotation's elements, in the brackets. -/
  | elements (values : List (String × ElementValue TypeExpr))
  | pairs (values : List (String × ElementValue TypeExpr))
  | value (value : ElementValue TypeExpr)
  /-- Values in braces. -/
  | items (values : List (ElementValue TypeExpr))

def useOf (names : List String) (values : List (String × ElementValue TypeExpr)) (line : Nat) :
    AnnotationUse TypeExpr where
  type := { name := ".".intercalate names }
  values := values
  line := line

/-- A part of an annotation stands in front of some text. -/
inductive UseText (source : List Char) : UsePiece → List Char → List Char → Prop where
  | marker {text rest : List Char} {sign next : Head} {names : List String} :
      Head.of? text = some sign → sign.kind = .mark .atSign → NameText names sign.rest rest →
        Head.of? rest = some next → next.kind ≠ .mark .leftParen →
          UseText source (.use (useOf names [] (firstLine source text))) text rest
  | withValues {text mid rest : List Char} {sign opening closing : Head} {names : List String}
      {values : List (String × ElementValue TypeExpr)} : Head.of? text = some sign →
        sign.kind = .mark .atSign → NameText names sign.rest mid → Head.of? mid = some opening →
          opening.kind = .mark .leftParen → UseText source (.elements values) opening.rest rest →
            Head.of? rest = some closing → closing.kind = .mark .rightParen →
              UseText source (.use (useOf names (elementsOfList values) (firstLine source text)))
                text closing.rest
  | noValues {text : List Char} {closing : Head} : Head.of? text = some closing →
      closing.kind = .mark .rightParen → UseText source (.elements []) text text
  | named {text rest : List Char} {name equals : Head}
      {values : List (String × ElementValue TypeExpr)} : Head.of? text = some name →
        name.kind = .identifier → Head.of? name.rest = some equals →
          equals.kind = .mark .assign → UseText source (.pairs values) text rest →
            UseText source (.elements values) text rest
  | single {text rest : List Char} {first : Head} {value : ElementValue TypeExpr} :
      Head.of? text = some first → first.kind ≠ .mark .rightParen →
        (first.kind = .identifier →
          ∃ next, Head.of? first.rest = some next ∧ next.kind ≠ .mark .assign) →
            UseText source (.value value) text rest →
              UseText source (.elements [("value", value)]) text rest
  | lastPair {text rest : List Char} {name equals next : Head} {value : ElementValue TypeExpr} :
      Head.of? text = some name → name.kind = .identifier → Head.of? name.rest = some equals →
        equals.kind = .mark .assign → UseText source (.value value) equals.rest rest →
          Head.of? rest = some next → next.kind ≠ .mark .comma →
            UseText source (.pairs [(name.text, value)]) text rest
  | morePairs {text mid rest : List Char} {name equals comma : Head}
      {value : ElementValue TypeExpr} {values : List (String × ElementValue TypeExpr)} :
        Head.of? text = some name → name.kind = .identifier → Head.of? name.rest = some equals →
          equals.kind = .mark .assign → UseText source (.value value) equals.rest mid →
            Head.of? mid = some comma → comma.kind = .mark .comma →
              UseText source (.pairs values) comma.rest rest →
                UseText source (.pairs ((name.text, value) :: values)) text rest
  | nested {text rest : List Char} {use : AnnotationUse TypeExpr} :
      UseText source (.use use) text rest → UseText source (.value (.nested use)) text rest
  | array {text rest : List Char} {opening closing : Head}
      {values : List (ElementValue TypeExpr)} : Head.of? text = some opening →
        opening.kind = .mark .leftBrace → UseText source (.items values) opening.rest rest →
          Head.of? rest = some closing → closing.kind = .mark .rightBrace →
            UseText source (.value (.array values)) text closing.rest
  | classLiteral {text mid : List Char} {first dot word next : Head} {heads : List Head} :
      Head.of? text = some first → opensClassName first.kind = true →
        NameGoesOn first.kind heads first.rest mid → Head.of? mid = some dot →
          dot.kind = .mark .dot → Head.of? dot.rest = some word →
            word.kind = .keyword .classKw → Head.of? word.rest = some next →
              closesValue next.kind = true →
                UseText source (.value (.classLiteral (Head.typeOfAll (first :: heads)))) text
                  word.rest
  | constant {text : List Char} {literal next : Head} : Head.of? text = some literal →
      literal.kind.isLiteral = true → Head.of? literal.rest = some next →
        closesValue next.kind = true →
          UseText source (.value (.constant literal.text)) text literal.rest
  | expression {text slice rest : List Char} {first : Head} : Head.of? text = some first →
      first.kind ≠ .mark .atSign → first.kind ≠ .mark .leftBrace → NoClassLiteral text →
        (first.kind.isLiteral = true →
          ∃ next, Head.of? first.rest = some next ∧ closesValue next.kind = false) →
            first.slice ++ first.rest = slice ++ rest → slice ≠ [] →
              Extends [.comma] 0 (slice ++ rest) rest →
                UseText source (.value (.expression (String.ofList slice))) text rest
  | noItems {text : List Char} {closing : Head} : Head.of? text = some closing →
      closing.kind = .mark .rightBrace → UseText source (.items []) text text
  | lastItem {text rest : List Char} {first next : Head} {value : ElementValue TypeExpr} :
      Head.of? text = some first → first.kind ≠ .mark .rightBrace →
        UseText source (.value value) text rest → Head.of? rest = some next →
          next.kind ≠ .mark .comma → UseText source (.items [value]) text rest
  | moreItems {text mid rest : List Char} {first comma : Head} {value : ElementValue TypeExpr}
      {values : List (ElementValue TypeExpr)} : Head.of? text = some first →
        first.kind ≠ .mark .rightBrace → UseText source (.value value) text mid →
          Head.of? mid = some comma → comma.kind = .mark .comma →
            UseText source (.items values) comma.rest rest →
              UseText source (.items (value :: values)) text rest

namespace ReadM

variable {strict : Prop} {source text mid rest : List Char} {head first : Head} {budget : Nat}
  {heads front : List Head} {names : List String}

/-- A part of the grammar takes the front of a text as a value, whatever budget it has. -/
def Takes {α : Type} (source : List Char) (part : Nat → ReadM α) (text : List Char) (value : α)
    (rest : List Char) : Prop :=
  ∀ budget, Reads True source (part budget) text value rest

/-- A part that ends without a budget. -/
theorem Takes.ofSucc {α : Type} {part : Nat → ReadM α} {value : α} (zero : part 0 = exhausted)
    (further : ∀ budget, Reads True source (part (budget + 1)) text value rest) :
    Takes source part text value rest
  | 0 => zero ▸ .exhausted
  | budget + 1 => further budget

/-! ### Names -/

theorem qualifiedName_takes (named : NameText names text rest) :
    Takes source qualifiedName text (".".intercalate names) rest := by
  suffices all : ∃ name others, Head.of? text = some name ∧ name.kind = .identifier ∧
      names = name.text :: others ∧
        ∀ rounds, Reads True source (many qualifiedName.part rounds) name.rest others rest by
    obtain ⟨name, others, found, isName, rfl, parts⟩ := all
    exact fun budget => (identifier_reads found isName).andThen
      ((parts budget).andThen (.pure ⟨rfl, rfl, rfl⟩))
  induction named with
  | @last _ name dot found isName further ends =>
      refine ⟨_, [], found, isName, rfl, fun rounds => many_ends (.no ?_ (.pure ⟨rfl, rfl, rfl⟩))⟩
      by_cases isDot : dot.kind = .mark .dot
      · obtain ⟨behind, next, noName⟩ := ends isDot
        exact .both (isNext_reads further (by simp [isDot])) (isSecond_reads further next
          (by simp [isDot]) (by simpa using noName))
      · exact .notBoth (isNext_reads further (by simpa using isDot))
  | @more text rest name dot _ found isName further isDot _ ih =>
      obtain ⟨next, others, found', isName', rfl, parts⟩ := ih
      have one : Reads True source qualifiedName.part name.rest (some next.text) next.rest :=
        .yes (.both (isNext_reads further (by simp [isDot])) (isSecond_reads further found'
          (by simp [isDot]) (by simp [isName']))) ((take_leads further).meet fun _ _ =>
            (identifier_reads found' isName').andThen (.pure ⟨rfl, rfl, rfl⟩))
      exact ⟨name, next.text :: others, found, isName, rfl, fun rounds => many_goesOn one parts⟩

/-! ### Class literals -/

theorem noBrace_of_goesOn {opening kind next : TokenKind}
    (goesOn : goesOnWithName opening kind next = true) :
    kind ≠ .mark .leftBrace ∧ next ≠ .mark .leftBrace := by
  constructor <;> rintro rfl <;> simp [goesOnWithName] at goesOn

theorem noBrace_of_opensClassName (opens : opensClassName head.kind = true) :
    head.kind ≠ .mark .leftBrace := by
  intro same
  rw [same] at opens
  cases opens

theorem chain_of_goesOn {kind : TokenKind} (goesOn : NameGoesOn kind heads text rest) :
    Heads text heads rest := by
  induction goesOn with
  | ended => exact .nil
  | pair found further _ _ ih => exact .cons found (.cons further ih)

theorem noBraces_of_goesOn {kind : TokenKind} (goesOn : NameGoesOn kind heads text rest) :
    ∀ head ∈ heads, head.kind ≠ .mark .leftBrace := by
  induction goesOn with
  | ended => simp
  | pair found further two _ ih =>
      obtain ⟨one, other⟩ := noBrace_of_goesOn two
      exact List.forall_mem_cons.mpr ⟨one, List.forall_mem_cons.mpr ⟨other, ih⟩⟩

section Literals

variable {kind : TokenKind} {place : List Char}

variable (source) in
theorem kindBehind_reads (chain : Heads text front place)
    (closed : ∀ head ∈ front, head.kind ≠ .mark .leftBrace) (found : Head.of? place = some head) :
    Reads True source (kindAt front.length) text head.kind text :=
  kindAt_reads front (chain.append (.single found)) fun _ => closed

variable (source) in
/-- A name goes on as long as two tokens that go on with it come behind it. -/
theorem classNameSteps_reads (goesOn : NameGoesOn kind heads place mid)
    (chain : Heads text front place) (closed : ∀ head ∈ front, head.kind ≠ .mark .leftBrace)
    (rounds : Nat) :
    Reads True source (iterate (classNameAhead.step kind) rounds front.length) text
      (front.length + heads.length) text := by
  have step {head next : Head} {place : List Char} {front : List Head}
      (chain : Heads text front place) (closed : ∀ head ∈ front, head.kind ≠ .mark .leftBrace)
      (found : Head.of? place = some head) (noBrace : head.kind ≠ .mark .leftBrace)
      (further : Head.of? head.rest = some next) :
      Reads True source (classNameAhead.step kind front.length) text
        (if goesOnWithName kind head.kind next.kind then .inl (front.length + 2)
          else .inr front.length) text := by
    have second : Reads True source (kindAt (front.length + 1)) text next.kind text := by
      have := kindBehind_reads source (chain.append (.single found))
        (by simpa [or_imp, forall_and] using ⟨closed, noBrace⟩) further
      rwa [List.length_append] at this
    exact (kindBehind_reads source chain closed found).andThen
      (second.andThen (.pure ⟨rfl, rfl, rfl⟩))
  induction goesOn generalizing front rounds with
  | ended found noBrace further ends =>
      cases rounds with
      | zero => exact .exhausted
      | succ rounds =>
          refine (step chain closed found noBrace further).andThen ?_
          rw [if_neg (by simp [ends])]
          exact .pure ⟨rfl, rfl, rfl⟩
  | @pair place _ head next heads found further two _ ih =>
      obtain ⟨one, other⟩ := noBrace_of_goesOn two
      cases rounds with
      | zero => exact .exhausted
      | succ rounds =>
          refine (step chain closed found one further).andThen ?_
          rw [if_pos two]
          have more := ih (chain.append (.cons found (.single further)))
            (by simpa [or_imp, forall_and] using ⟨closed, one, other⟩) rounds
          simpa [Nat.add_assoc, Nat.add_comm 2] using more

theorem classNameAhead_reads (found : Head.of? text = some first)
    (opens : opensClassName first.kind = true)
    (goesOn : NameGoesOn first.kind heads first.rest mid) :
    Reads True source (classNameAhead budget first.kind) text (first :: heads).length text := by
  have counted := classNameSteps_reads source goesOn (.single found)
    (by simpa using noBrace_of_opensClassName opens) budget
  rwa [List.length_singleton, Nat.add_comm] at counted

variable (source) in
theorem isBehind_reads (chain : Heads text front place)
    (closed : ∀ head ∈ front, head.kind ≠ .mark .leftBrace) (found : Head.of? place = some head)
    (kind : TokenKind) :
    Reads True source (isAt front.length kind) text (head.kind == kind) text :=
  (kindBehind_reads source chain closed found).andThen (.pure ⟨rfl, rfl, rfl⟩)

/-- The dot behind the name of a class, and what has to come behind it. -/
theorem dotBehind_reads {dot : Head} (chain : Heads text front place)
    (closed : ∀ head ∈ front, head.kind ≠ .mark .leftBrace) (found : Head.of? place = some dot)
    (isDot : dot.kind = .mark .dot) {further : ReadM Bool} {answer : Bool}
    (others : Heads text (front ++ [dot]) dot.rest →
      (∀ head ∈ front ++ [dot], head.kind ≠ .mark .leftBrace) →
        Reads True source further text answer text) :
    Reads True source (isAt front.length (.mark .dot) <&&> further) text answer text := by
  have asked := isBehind_reads source chain closed found (.mark .dot)
  rw [isDot, beq_self_eq_true] at asked
  refine asked.both (others (chain.append (.single found)) ?_)
  simpa [or_imp, forall_and, isDot] using closed

/-- What comes behind the name of a class makes no literal of it. -/
theorem asksLiteral_no {behind : Head} (chain : Heads text front place)
    (closed : ∀ head ∈ front, head.kind ≠ .mark .leftBrace) (found : Head.of? place = some behind)
    (noLiteral : behind.kind = .mark .dot → ∃ word, Head.of? behind.rest = some word ∧
      (word.kind = .keyword .classKw → ∃ next, Head.of? word.rest = some next ∧
        closesValue next.kind = false)) :
    Reads True source (isAt front.length (.mark .dot) <&&>
      isAt (front.length + 1) (.keyword .classKw) <&&> endsValue (front.length + 2)) text false
        text := by
  by_cases isDot : behind.kind = .mark .dot
  · obtain ⟨word, further, noEnd⟩ := noLiteral isDot
    refine dotBehind_reads chain closed found isDot fun chain closed => ?_
    have asked := isBehind_reads source chain closed further (.keyword .classKw)
    rw [List.length_append] at asked
    by_cases isWord : word.kind = .keyword .classKw
    · obtain ⟨next, last, open'⟩ := noEnd isWord
      rw [isWord, beq_self_eq_true] at asked
      have ended := kindBehind_reads source (chain.append (.single further))
        (by simpa [or_imp, forall_and, isWord] using closed) last
      rw [List.length_append, List.length_append] at ended
      exact asked.both (ended.andThen (.pure ⟨open', rfl, rfl⟩))
    · rw [beq_false_of_ne isWord] at asked
      exact asked.notBoth
  · have asked := isBehind_reads source chain closed found (.mark .dot)
    rw [beq_false_of_ne isDot] at asked
    exact asked.notBoth

variable (source) in
theorem asksLiteral_yes {dot word next : Head} (chain : Heads text front place)
    (closed : ∀ head ∈ front, head.kind ≠ .mark .leftBrace) (found : Head.of? place = some dot)
    (isDot : dot.kind = .mark .dot) (further : Head.of? dot.rest = some word)
    (isWord : word.kind = .keyword .classKw) (last : Head.of? word.rest = some next)
    (closes : closesValue next.kind = true) :
    Reads True source (isAt front.length (.mark .dot) <&&>
      isAt (front.length + 1) (.keyword .classKw) <&&> endsValue (front.length + 2)) text true
        text := by
  refine dotBehind_reads chain closed found isDot fun chain closed => ?_
  have asked := isBehind_reads source chain closed further (.keyword .classKw)
  have ended := kindBehind_reads source (chain.append (.single further))
    (by simpa [or_imp, forall_and, isWord] using closed) last
  rw [List.length_append, isWord, beq_self_eq_true] at asked
  rw [List.length_append, List.length_append] at ended
  exact asked.both (ended.andThen (.pure ⟨closes, rfl, rfl⟩))

theorem classLiteral?_none (none : NoClassLiteral text) :
    Reads True source (classLiteral? budget) text .none text := by
  cases none with
  | otherwise found other =>
      refine (kindAt_first found).andThen ?_
      have closed := Bool.or_eq_false_iff.mp other
      rw [if_neg (by simp [closed])]
      exact .pure ⟨rfl, rfl, rfl⟩
  | @name first heads mid behind found opens goesOn ended noLiteral =>
      refine (kindAt_first found).andThen ?_
      rw [← opensClassName, if_pos opens]
      refine (classNameAhead_reads found opens goesOn).andThen (Leads.no ?_ (.pure ⟨rfl, rfl, rfl⟩))
      exact asksLiteral_no (.cons found (chain_of_goesOn goesOn)) (List.forall_mem_cons.mpr
        ⟨noBrace_of_opensClassName opens, noBraces_of_goesOn goesOn⟩) ended noLiteral

theorem classLiteralType_of_heads {tokens : List Token}
    (are : List.Forall₂ (Token.IsHead source) heads tokens) :
    classLiteralType tokens = Head.typeOfAll heads := by
  have brackets : tokens.countP (·.kind == .mark .leftBracket) =
      heads.countP (·.kind == .mark .leftBracket) := by
    induction are with
    | nil => rfl
    | cons same _ ih => simp only [List.countP_cons, same.kind, ih]
  have names : (tokens.filter fun token => token.kind != .mark .leftBracket &&
        token.kind != .mark .rightBracket).map Token.text =
      (heads.filter fun head => head.kind != .mark .leftBracket &&
        head.kind != .mark .rightBracket).map Head.text := by
    clear brackets
    induction are with
    | nil => rfl
    | cons same _ ih =>
        simp only [List.filter_cons, same.kind]
        split
        · simp only [List.map_cons, same.text, ih]
        · exact ih
  rw [classLiteralType, Head.typeOfAll, ← names, ← brackets]

theorem classLiteral?_some {dot word next : Head} (found : Head.of? text = some first)
    (opens : opensClassName first.kind = true) (goesOn : NameGoesOn first.kind heads first.rest mid)
    (behind : Head.of? mid = some dot) (isDot : dot.kind = .mark .dot)
    (further : Head.of? dot.rest = some word) (isWord : word.kind = .keyword .classKw)
    (last : Head.of? word.rest = some next) (closes : closesValue next.kind = true) :
    Reads True source (classLiteral? budget) text (some (Head.typeOfAll (first :: heads)))
      word.rest := by
  have chain : Heads text (first :: heads) mid := .cons found (chain_of_goesOn goesOn)
  refine (kindAt_first found).andThen ?_
  rw [← opensClassName, if_pos opens]
  have asked := asksLiteral_yes source chain (List.forall_mem_cons.mpr
    ⟨noBrace_of_opensClassName opens, noBraces_of_goesOn goesOn⟩) behind isDot further isWord last
    closes
  refine (classNameAhead_reads found opens goesOn).andThen (Leads.yes asked ?_)
  exact (takeMany_leads chain).meet fun tokens are =>
    (takeMany_leads (.cons behind (.single further))).meet fun _ _ =>
      .pure ⟨by rw [classLiteralType_of_heads are], rfl, rfl⟩

end Literals

/-! ### Values -/

/-- What stands in the brackets of an annotation. -/
def elementsInside (budget : Nat) : ReadM (List (String × ElementValue TypeExpr)) := do
  let closes ← isMark .rightParen
  let named ← isNext .identifier <&&> isAt 1 (.mark .assign)
  if closes then pure []
  else if named then separatedBy .comma (elementPair budget) budget
  else pure [("value", ← elementValue budget)]

theorem elementValues_succ (budget : Nat) :
    elementValues (budget + 1) = elementsInside budget >>= fun values =>
      expectMark .rightParen "')' after annotation values" >>= fun _ => pure values := by
  rw [elementValues, elementsInside]
  simp only [bind_assoc]
  congr 1
  funext closes
  congr 1
  funext named
  split
  · rfl
  · split
    · rfl
    · simp only [bind_assoc]

section Elements

variable {name equals : Head} {values : List (String × ElementValue TypeExpr)}
  {value : ElementValue TypeExpr}

theorem elementsInside_none (found : Head.of? text = some head)
    (closes : head.kind = .mark .rightParen) : Takes source elementsInside text [] text := by
  have closing : Reads True source (isMark .rightParen) text true text :=
    isNext_reads found (by simp [closes])
  have noName : Reads True source (isNext .identifier) text false text :=
    isNext_reads found (by simp [closes])
  exact fun _ => closing.andThen (noName.notBoth.andThen (.pure ⟨rfl, rfl, rfl⟩))

theorem elementsInside_pairs (found : Head.of? text = some name) (isName : name.kind = .identifier)
    (further : Head.of? name.rest = some equals) (isEquals : equals.kind = .mark .assign)
    (pairs : ∀ rounds budget,
      Reads True source (separatedBy .comma (elementPair budget) rounds) text values rest) :
    Takes source elementsInside text values rest := by
  have noClosing : Reads True source (isMark .rightParen) text false text :=
    isNext_reads found (by simp [isName])
  have named : Reads True source (isNext .identifier <&&> isAt 1 (.mark .assign)) text true text :=
    .both (isNext_reads found (by simp [isName])) (isSecond_reads found further (by simp [isName])
      (by simp [isEquals]))
  exact fun budget => noClosing.andThen (named.andThen (pairs budget budget))

theorem elementsInside_single (found : Head.of? text = some head)
    (isOpen : head.kind ≠ .mark .rightParen)
    (noPair : head.kind = .identifier →
      ∃ next, Head.of? head.rest = some next ∧ next.kind ≠ .mark .assign)
    (takes : Takes source elementValue text value rest) :
    Takes source elementsInside text [("value", value)] rest := by
  have noClosing : Reads True source (isMark .rightParen) text false text :=
    isNext_reads found (by simpa using isOpen)
  have unnamed : Reads True source (isNext .identifier <&&> isAt 1 (.mark .assign)) text false
      text := by
    by_cases isName : head.kind = .identifier
    · obtain ⟨next, further, noEquals⟩ := noPair isName
      exact .both (isNext_reads found (by simp [isName])) (isSecond_reads found further
        (by simp [isName]) (beq_false_of_ne noEquals))
    · exact .notBoth (isNext_reads found (beq_false_of_ne isName))
  exact fun budget => noClosing.andThen (unnamed.andThen ((takes budget).andThen
    (.pure ⟨rfl, rfl, rfl⟩)))

theorem elementPair_takes (found : Head.of? text = some name) (isName : name.kind = .identifier)
    (further : Head.of? name.rest = some equals) (isEquals : equals.kind = .mark .assign)
    (takes : Takes source elementValue equals.rest value rest) :
    Takes source elementPair text (name.text, value) rest := by
  refine .ofSucc rfl fun budget => ?_
  rw [elementPair]
  exact (identifier_reads found isName).andThen ((expect_leads further isEquals).meet fun _ _ =>
    (takes budget).andThen (.pure ⟨rfl, rfl, rfl⟩))

/-- A value that is no annotation and does not stand in braces. -/
theorem elementValue_leads {post : ElementValue TypeExpr → List Char → List Event → Prop}
    (found : Head.of? text = some head) (noSign : head.kind ≠ .mark .atSign)
    (noBrace : head.kind ≠ .mark .leftBrace) {literal : Option TypeExpr} {mid : List Char}
    (asked : Reads True source (classLiteral? budget) text literal mid)
    (further : Leads True source (match literal with
      | some type => pure (.classLiteral type)
      | none => do
          if ← (TokenKind.isLiteral <$> kindAt 0) <&&> endsValue 1 then
            return .constant (← take).text
          else return .expression (← expressionText budget [.comma])) mid post) :
    Leads True source (elementValue (budget + 1)) text post := by
  rw [elementValue]
  refine .no (isNext_reads found (by simpa using noSign))
    (.no (accept_leaves_head found noBrace) ?_)
  exact asked.andThen further

end Elements

end ReadM

/-- How a part of an annotation is read. -/
def UsePiece.IsRead (source text rest : List Char) : UsePiece → Prop
  | .use written => ReadM.Takes source ReadM.annotationUse text written rest
  | .elements values => ReadM.Takes source ReadM.elementsInside text values rest
  | .pairs values => ∀ rounds budget, ReadM.Reads True source
      (ReadM.separatedBy .comma (ReadM.elementPair budget) rounds) text values rest
  | .value written => ReadM.Takes source ReadM.elementValue text written rest
  | .items values => ∀ rounds budget, ReadM.Reads True source
      (ReadM.listUntil .rightBrace (ReadM.elementValue budget) rounds) text values rest

/-- A sign and a name come first in an annotation. -/
theorem UseText.sign {source text rest : List Char} {use : AnnotationUse TypeExpr}
    (stands : UseText source (.use use) text rest) :
    ∃ sign name, Head.of? text = some sign ∧ sign.kind = .mark .atSign ∧
      Head.of? sign.rest = some name ∧ name.kind = .identifier := by
  cases stands with
  | marker found isSign names =>
      obtain ⟨name, further, isName⟩ := names.exists_head
      exact ⟨_, name, found, isSign, further, isName⟩
  | withValues found isSign names =>
      obtain ⟨name, further, isName⟩ := names.exists_head
      exact ⟨_, name, found, isSign, further, isName⟩

open ReadM in
/-- Every part of an annotation is read as it stands. -/
theorem UseText.isRead {source text rest : List Char} {piece : UsePiece}
    (stands : UseText source piece text rest) : piece.IsRead source text rest := by
  induction stands with
  | marker found isSign names further noValues =>
      refine .ofSucc rfl fun budget => ?_
      rw [annotationUse]
      refine (expect_leads found isSign).meet fun token isHead => ?_
      refine (qualifiedName_takes names budget).andThen ?_
      refine .no (accept_leaves_head further noValues) (.pure ⟨?_, rfl, rfl⟩)
      rw [isHead.line, firstLine_eq source found]
      rfl
  | withValues found isSign names behind opens _ closing closes values =>
      have inside : Takes source elementValues _ _ _ := .ofSucc rfl fun budget => by
        rw [elementValues_succ]
        exact (values budget).andThen ((expect_leads closing closes).meet fun _ _ =>
          .pure ⟨rfl, rfl, rfl⟩)
      refine .ofSucc rfl fun budget => ?_
      rw [annotationUse]
      refine (expect_leads found isSign).meet fun token isHead => ?_
      refine (qualifiedName_takes names budget).andThen ?_
      refine .yes (accept_takes_head behind opens) ((inside budget).andThen (.pure ⟨?_, rfl, rfl⟩))
      rw [isHead.line, firstLine_eq source found]
      rfl
  | noValues found closes => exact elementsInside_none found closes
  | named found isName further isEquals _ pairs =>
      exact elementsInside_pairs found isName further isEquals pairs
  | single found isOpen noPair _ value => exact elementsInside_single found isOpen noPair value
  | lastPair found isName further isEquals _ behind noComma value =>
      exact fun _ budget => separatedBy_last
        (elementPair_takes found isName further isEquals value budget) behind noComma
  | morePairs found isName further isEquals _ behind comma _ value pairs =>
      exact fun _ budget => separatedBy_more
        (elementPair_takes found isName further isEquals value budget) behind comma
        fun rounds => pairs rounds budget
  | nested stands use =>
      obtain ⟨sign, _, found, isSign, -⟩ := stands.sign
      refine .ofSucc rfl fun budget => ?_
      rw [elementValue]
      exact .yes (isNext_reads found (by simp [isSign]))
        ((use budget).andThen (.pure ⟨rfl, rfl, rfl⟩))
  | array found opens _ behind closes items =>
      refine .ofSucc rfl fun budget => ?_
      rw [elementValue]
      exact .no (isNext_reads found (by simp [opens])) (.yes (accept_takes_head found opens)
        ((items budget budget).andThen ((expect_leads behind closes).meet fun _ _ =>
          .pure ⟨rfl, rfl, rfl⟩)))
  | classLiteral found opens goesOn behind isDot further isWord last closes =>
      refine .ofSucc rfl fun budget => elementValue_leads found ?_ (noBrace_of_opensClassName opens)
        (classLiteral?_some found opens goesOn behind isDot further isWord last closes)
        (.pure ⟨rfl, rfl, rfl⟩)
      intro same
      rw [same] at opens
      cases opens
  | @constant text literal next found isLiteral further closes =>
      have other (kind : TokenKind) (apart : kind.isLiteral = false) : literal.kind ≠ kind := by
        rintro rfl
        cases isLiteral.symm.trans apart
      have ended : Reads True source (endsValue 1) text (closesValue next.kind) text :=
        (kindAt_second found further (other _ rfl)).andThen (.pure ⟨rfl, rfl, rfl⟩)
      refine .ofSucc rfl fun budget => elementValue_leads found (other _ rfl) (other _ rfl)
        (classLiteral?_none (.otherwise found (opensClassName_of_isLiteral isLiteral)))
        (.yes (.both (.map (kindAt_first found) isLiteral) (closes ▸ ended))
          ((take_leads found).meet fun _ isHead => .pure ⟨by rw [isHead.text], rfl, rfl⟩))
  | @expression text slice _ first found noSign noBrace noLiteral noConstant split content along =>
      have asked : Reads True source ((TokenKind.isLiteral <$> kindAt 0) <&&> endsValue 1) text
          false text := by
        have literal : Reads True source (TokenKind.isLiteral <$> kindAt 0) text
            first.kind.isLiteral text := .map (kindAt_first found) rfl
        cases isLiteral : first.kind.isLiteral with
        | false => exact (isLiteral ▸ literal).notBoth
        | true =>
            obtain ⟨next, further, isOpen⟩ := noConstant isLiteral
            exact (isLiteral ▸ literal).both
              ((kindAt_second found further noBrace).andThen (.pure ⟨isOpen, rfl, rfl⟩))
      exact .ofSucc rfl fun budget => elementValue_leads found noSign noBrace
        (classLiteral?_none noLiteral) (.no asked
          ((expressionText_reads found split content along).andThen (.pure ⟨rfl, rfl, rfl⟩)))
  | noItems found closes => exact fun _ _ => listUntil_none found closes
  | lastItem found isOpen _ behind noComma value =>
      exact fun _ budget => listUntil_last found isOpen (value budget) behind noComma
  | moreItems found isOpen _ behind comma _ value items =>
      exact fun _ budget => listUntil_more found isOpen (value budget) behind comma
        fun rounds => items rounds budget

end JavaDecl
