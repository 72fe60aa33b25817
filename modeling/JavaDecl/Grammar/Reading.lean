import JavaDecl.Event
import JavaDecl.Token.Stream

/-!
# Reading tokens

`ReadM` is the reading of a source text: tokens are looked at in order and taken,
events are announced, and the first fault ends it.  What was announced before a
fault stays announced.

A doc comment is announced when the token after it is looked at, and it is no
token to the grammar.  Repetitions and nesting take a budget that falls with every
round, so that every reading ends; the budget of a source text is more than its
tokens can use up.
-/

namespace JavaDecl

/-- The state of the reading of a source text. -/
structure Reading where
  /-- The tokens that are not looked at yet. -/
  stream : TokenStream
  /-- The tokens that are looked at and not taken. -/
  lookahead : List Token := []
  events : Array Event := #[]

/-- A part of the reading of a source text. -/
abbrev ReadM := EStateM ParseError Reading

theorem TokenStream.length_rest_next_lt {stream after : TokenStream} {token : Token}
    (taken : stream.next = (.ok token, after)) (inside : token.kind ≠ .endOfInput) :
    after.rest.length < stream.rest.length := by
  unfold TokenStream.next at taken
  split at taken
  · simp only [Prod.mk.injEq, Except.ok.injEq] at taken
    exact absurd (by rw [← taken.1]) inside
  · next cut found =>
      have shorter := TokenStream.length_rest_lt_of_cut found
      dsimp only at taken
      split at taken
      · simp only [Prod.mk.injEq] at taken
        rw [← taken.2]
        simpa only [TokenStream.locate] using shorter
      · simp at taken

namespace Reading

def ofSource (source : List Char) : Reading :=
  { stream := .ofSource source }

def announce (reading : Reading) (events : List Event) : Reading :=
  { reading with events := reading.events ++ events }

/-- Takes the next token that is no doc comment from the stream, and announces the doc
comments before it. -/
def pull (reading : Reading) : EStateM.Result ParseError Reading Token :=
  match _taken : reading.stream.next with
  | (.error failure, stream) => .error failure { reading with stream }
  | (.ok token, stream) =>
      if _documents : token.kind = .docComment then
        let comment := DocComment.ofText token.text.toList token.line
        pull ({ reading with stream }.announce comment.events)
      else .ok token { reading with stream }
termination_by reading.stream.rest.length
decreasing_by
  exact TokenStream.length_rest_next_lt _taken (by rw [_documents]; decide)

end Reading

namespace ReadM

/-! ### Tokens -/

def fill : Nat → ReadM Unit
  | 0 => pure ()
  | count + 1 => do
      let token ← Reading.pull
      modify fun reading => { reading with lookahead := reading.lookahead ++ [token] }
      fill count

/-- The token after `skipped` others. -/
def peek (skipped : Nat) : ReadM Token := do
  match (← get).lookahead[skipped]? with
  | some token => return token
  | none =>
      let known := (← get).lookahead.length
      fill (skipped + 1 - known)
      return (← get).lookahead.getD skipped default

def kindAt (skipped : Nat) : ReadM TokenKind :=
  return (← peek skipped).kind

def isAt (skipped : Nat) (kind : TokenKind) : ReadM Bool :=
  return (← kindAt skipped) == kind

def isNext (kind : TokenKind) : ReadM Bool :=
  isAt 0 kind

/-- Whether the token after `skipped` others is a name spelled like `word`. -/
def isWordAt (skipped : Nat) (word : String) : ReadM Bool := do
  let token ← peek skipped
  return token.kind == .identifier && token.text == word

def take : ReadM Token := do
  let token ← peek 0
  modify fun reading => { reading with lookahead := reading.lookahead.tail }
  return token

def takeMany : Nat → ReadM (List Token)
  | 0 => return []
  | count + 1 => do
      let token ← take
      return token :: (← takeMany count)

/-- Takes the next token if it is of a kind. -/
def accept (kind : TokenKind) : ReadM Bool := do
  if ← isNext kind then
    let _ ← take
    return true
  else return false

/-- Refuses the next token, where something else has to stand. -/
def refuse {α : Type} (expected : String) : ReadM α := do
  let token ← peek 0
  if token.kind = .endOfInput then throw (.unexpectedEnd expected token.place)
  else throw (.unexpectedToken expected ("'" ++ token.text ++ "'") token.place)

/-- Takes the next token, which has to be of a kind. -/
def expect (kind : TokenKind) (expected : String) : ReadM Token := do
  if ← isNext kind then take else refuse expected

/-- Takes the next token, which has to be a name spelled like `word`. -/
def expectWord (word : String) : ReadM Token := do
  if ← isWordAt 0 word then take else refuse ("'" ++ word ++ "'")

def acceptKeyword (word : Keyword) : ReadM Bool :=
  accept (.keyword word)

def acceptMark (symbol : Mark) : ReadM Bool :=
  accept (.mark symbol)

def expectMark (symbol : Mark) (expected : String) : ReadM Token :=
  expect (.mark symbol) expected

def isMark (symbol : Mark) : ReadM Bool :=
  isNext (.mark symbol)

def nextLine : ReadM Nat :=
  return (← peek 0).line

def emit (event : Event) : ReadM Unit :=
  modify fun reading => { reading with events := reading.events.push event }

/-- Announces the annotations of the next declaration. -/
def emitAnnotations (uses : List (AnnotationUse TypeExpr)) : ReadM Unit :=
  uses.forM fun use => emit (.annotated use)

/-! ### Repetition -/

/-- The end of a reading whose budget is used up. -/
def exhausted {α : Type} : ReadM α := do
  throw (.invalidSyntax "nesting too deep" (← get).stream.place)

/-- Repeats a part as long as it finds something. -/
def many {α : Type} (part : ReadM (Option α)) : Nat → ReadM (List α)
  | 0 => exhausted
  | budget + 1 => do
      match ← part with
      | none => return []
      | some value => return value :: (← many part budget)

/-- Repeats a part with a value that changes until there is a result. -/
def iterate {σ α : Type} (part : σ → ReadM (σ ⊕ α)) : Nat → σ → ReadM α
  | 0, _ => exhausted
  | budget + 1, value => do
      match ← part value with
      | .inl next => iterate part budget next
      | .inr result => return result

/-- One or more parts with a mark between them. -/
def separatedBy {α : Type} (symbol : Mark) (part : ReadM α) : Nat → ReadM (List α)
  | 0 => exhausted
  | budget + 1 => do
      let value ← part
      if ← acceptMark symbol then return value :: (← separatedBy symbol part budget)
      else return [value]

/-- Parts with commas between them up to a closing mark, which stays.  A comma may
stand after the last one. -/
def listUntil {α : Type} (closing : Mark) (part : ReadM α) : Nat → ReadM (List α)
  | 0 => exhausted
  | budget + 1 => do
      if ← isMark closing then return []
      else
        let value ← part
        if ← acceptMark .comma then return value :: (← listUntil closing part budget)
        else return [value]

/-! ### Names and blocks -/

def identifier : ReadM String :=
  return (← expect .identifier "identifier").text

def qualifiedName (budget : Nat) : ReadM String := do
  let first ← identifier
  let more ← many part budget
  return ".".intercalate (first :: more)
where
  /-- A dot and the part of the name after it. -/
  part : ReadM (Option String) := do
    if ← isMark .dot <&&> isAt 1 .identifier then
      let _ ← take
      return some (← identifier)
    else return none

/-- The text of a block in braces.  Nothing after its opening brace may have been looked
at. -/
def blockText : ReadM String := do
  let opening ← expectMark .leftBrace "'\x7b'"
  let reading ← get
  if reading.lookahead.isEmpty then
    let (result, stream) := reading.stream.takeBlock
    set { reading with stream }
    match result with
    | .ok block => return block.text
    | .error failure => throw failure
  else throw (.invalidSyntax "block opened after lookahead was buffered" opening.place)

end ReadM

end JavaDecl
