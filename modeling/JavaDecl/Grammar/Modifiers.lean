import JavaDecl.Grammar.Expression

/-!
# Annotations and modifiers

Annotations and modifier keywords stand in front of a declaration in any order.
They are read before it is known what is declared.
-/

namespace JavaDecl.ReadM

/-- A token that ends the value of an annotation element. -/
def endsValue (skipped : Nat) : ReadM Bool :=
  return [TokenKind.mark .comma, .mark .rightParen, .mark .rightBrace].contains (← kindAt skipped)

/-- The number of tokens of the dotted name with array brackets that the next tokens
may form; the parts after a dot count only if the first token is a name. -/
def classNameAhead (budget : Nat) (first : TokenKind) : ReadM Nat :=
  iterate step budget 1
where
  /-- Two more tokens, if they continue the name. -/
  step (seen : Nat) : ReadM (Nat ⊕ Nat) := do
    let kind ← kindAt seen
    let next ← kindAt (seen + 1)
    let continues :=
      (kind == .mark .dot && next == .identifier && first == .identifier) ||
        (kind == .mark .leftBracket && next == .mark .rightBracket)
    return if continues then .inl (seen + 2) else .inr seen

/-- The type named by the tokens of a class literal. -/
def classLiteralType (tokens : List Token) : TypeExpr :=
  let brackets := tokens.countP (·.kind == .mark .leftBracket)
  let named := tokens.filter fun token =>
    token.kind != .mark .leftBracket && token.kind != .mark .rightBracket
  { name := String.join (named.map Token.text), dims := brackets }

/-- A class literal that is the whole value of an annotation element. -/
def classLiteral? (budget : Nat) : ReadM (Option TypeExpr) := do
  let first ← kindAt 0
  if first == .identifier || first.isPrimitiveType then
    let count ← classNameAhead budget first
    let isLiteral ←
      isAt count (.mark .dot) <&&> isAt (count + 1) (.keyword .classKw) <&&> endsValue (count + 2)
    if isLiteral then
      let tokens ← takeMany count
      let _ ← takeMany 2
      return some (classLiteralType tokens)
    else return none
  else return none

mutual

/-- An annotation with the values of its elements. -/
def annotationUse : Nat → ReadM (AnnotationUse TypeExpr)
  | 0 => exhausted
  | budget + 1 => do
      let line := (← expectMark .atSign "'@'").line
      let name ← qualifiedName budget
      let values ← if ← acceptMark .leftParen then elementValues budget else pure []
      return { type := { name }, values := elementsOfList values, line }

/-- The element values of an annotation after the opening bracket, by name; a value
without a name belongs to the element `value`. -/
def elementValues : Nat → ReadM (List (String × ElementValue TypeExpr))
  | 0 => exhausted
  | budget + 1 => do
      let values ←
        if ← isMark .rightParen then pure []
        else if ← isNext .identifier <&&> isAt 1 (.mark .assign) then
          separatedBy .comma (elementPair budget) budget
        else pure [("value", ← elementValue budget)]
      let _ ← expectMark .rightParen "')' after annotation values"
      return values

def elementPair : Nat → ReadM (String × ElementValue TypeExpr)
  | 0 => exhausted
  | budget + 1 => do
      let element ← identifier
      let _ ← expectMark .assign "'='"
      return (element, ← elementValue budget)

def elementValue : Nat → ReadM (ElementValue TypeExpr)
  | 0 => exhausted
  | budget + 1 => do
      if ← isMark .atSign then return .nested (← annotationUse budget)
      else if ← acceptMark .leftBrace then
        let items ← listUntil .rightBrace (elementValue budget) budget
        let _ ← expectMark .rightBrace "'\x7d' closing annotation array"
        return .array items
      else
        match ← classLiteral? budget with
        | some type => return .classLiteral type
        | none =>
            if ← (TokenKind.isLiteral <$> kindAt 0) <&&> endsValue 1 then
              return .constant (← take).text
            else return .expression (← expressionText budget [.comma])

end

/-- The annotations and modifier words of a declaration. -/
structure Modifiers where
  /-- The modifier words in their order. -/
  words : List String := []
  uses : List (AnnotationUse TypeExpr) := []

/-- Nothing stands in front of the declaration. -/
def Modifiers.isEmpty (modifiers : Modifiers) : Bool :=
  modifiers.words.isEmpty && modifiers.uses.isEmpty

/-- Whether a token may follow the word `sealed` in front of a declaration. -/
def startsDeclaration (kind : TokenKind) : Bool :=
  kind.isModifier ||
    [TokenKind.keyword .classKw, .keyword .interfaceKw, .mark .atSign].contains kind

/-- The next annotation or modifier word, if there is one. -/
def modifier? (budget : Nat) : ReadM (Option (AnnotationUse TypeExpr ⊕ String)) := do
  let kind ← kindAt 0
  if kind == .mark .atSign then
    if ← isAt 1 (.keyword .interfaceKw) then return none
    else return some (.inl (← annotationUse budget))
  else if kind.isModifier || kind == .keyword .defaultKw then
    return some (.inr (← take).text)
  else if ← isWordAt 0 "sealed" <&&> (startsDeclaration <$> kindAt 1) then
    return some (.inr (← take).text)
  else if ← isWordAt 0 "non" <&&> isAt 1 (.mark .minus) <&&> isWordAt 2 "sealed" then
    let _ ← takeMany 3
    return some (.inr "non-sealed")
  else return none

/-- All annotations and modifier words in front of a declaration. -/
def modifiers (budget : Nat) : ReadM Modifiers := do
  let found ← many (modifier? budget) budget
  return { words := found.filterMap Sum.getRight?, uses := found.filterMap Sum.getLeft? }

end JavaDecl.ReadM
