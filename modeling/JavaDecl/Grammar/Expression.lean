import JavaDecl.Grammar.Reading

/-!
# Expressions

Expressions are not analysed.  `expressionText` finds where one ends and gives its
source text.  Brackets nest, blocks in braces are skipped whole, and a comma
between type arguments does not end an expression, so an opening angle bracket is
looked at closely.
-/

namespace JavaDecl.ReadM

/-- A token that may stand between the angle brackets of type arguments. -/
def mayBeTypeArgument : TokenKind → Bool
  | .identifier => true
  | .keyword .extendsKw | .keyword .superKw => true
  | .keyword word => word.isPrimitiveType
  | .mark symbol =>
      [Mark.dot, .comma, .question, .leftBracket, .rightBracket, .ampersand, .atSign].contains
        symbol
  | _ => false

/-- A look at the tokens from an angle bracket on that may open type arguments. -/
structure AngleLook where
  /-- The number of tokens that are seen. -/
  seen : Nat := 0
  /-- The number of angle brackets that are open. -/
  depth : Nat := 0
deriving DecidableEq, Repr

namespace AngleLook

/-- One token further.  The look ends with the number of tokens if all brackets are
closed, and with nothing at a token that cannot stand between them. -/
def after (look : AngleLook) : TokenKind → AngleLook ⊕ Option Nat
  | .mark .less => .inl { seen := look.seen + 1, depth := look.depth + 1 }
  | .mark .greater =>
      if look.depth = 1 then .inr (some (look.seen + 1))
      else .inl { seen := look.seen + 1, depth := look.depth - 1 }
  | kind =>
      if mayBeTypeArgument kind then .inl { look with seen := look.seen + 1 } else .inr none

/-- All of some tokens further, if the look does not end before. -/
def afterAll (look : AngleLook) : List Token → AngleLook ⊕ Option Nat
  | [] => .inl look
  | token :: tokens =>
      match look.after token.kind with
      | .inl next => next.afterAll tokens
      | .inr found => .inr found

end AngleLook

/-- One token further than all that are looked at, with those that this look has added. -/
def lookFurther : AngleLook × Array Token →
    ReadM ((AngleLook × Array Token) ⊕ (Option Nat × Array Token))
  | (look, added) => do
      let token ← Reading.pull
      let added := added.push token
      match look.after token.kind with
      | .inl next => return .inl (next, added)
      | .inr found => return .inr (found, added)

/-- The number of tokens of the type arguments that may open at the next angle
bracket, nested ones included. -/
def typeArgumentsAhead? (budget : Nat) : ReadM (Option Nat) := do
  match ({} : AngleLook).afterAll (← get).lookahead with
  | .inr found => return found
  | .inl look =>
      let (found, added) ← iterate lookFurther budget (look, #[])
      modify fun reading => { reading with lookahead := reading.lookahead ++ added.toList }
      return found

/-- How far an expression is read. -/
structure Extent where
  depth : Nat
  /-- The offset after its last token. -/
  stop : Nat
deriving DecidableEq, Repr

namespace Extent

def after (extent : Extent) (token : Token) : Extent :=
  { extent with stop := token.span.stop }

def opened (extent : Extent) : Extent :=
  { extent with depth := extent.depth + 1 }

def closed (extent : Extent) : Extent :=
  { extent with depth := extent.depth - 1 }

end Extent

/-- Takes the next token into an expression. -/
def extend (extent : Extent) : ReadM (Extent ⊕ Nat) :=
  return .inl (extent.after (← take))

/-- Takes a block in braces into an expression. -/
def extendOverBlock (extent : Extent) : ReadM (Extent ⊕ Nat) := do
  let _ ← blockText
  return .inl { extent with stop := (← get).stream.offset }

/-- Takes an opening angle bracket into an expression, with all of the type arguments
if it opens some. -/
def extendOverAngle (budget : Nat) (extent : Extent) : ReadM (Extent ⊕ Nat) := do
  match ← typeArgumentsAhead? budget with
  | none => extend extent
  | some count =>
      let tokens ← takeMany count
      return .inl (tokens.foldl Extent.after extent)

/-- One step through an expression that ends before one of `terminators`. -/
def expressionStep (budget : Nat) (terminators : List Mark) (extent : Extent) :
    ReadM (Extent ⊕ Nat) := do
  match ← kindAt 0 with
  | .endOfInput => refuse "end of expression"
  | .mark symbol =>
      let closes := [Mark.rightParen, .rightBracket, .rightBrace].contains symbol
      if extent.depth == 0 && (terminators.contains symbol || closes) then
        return .inr extent.stop
      else
        match symbol with
        | .leftParen | .leftBracket => extend extent.opened
        | .rightParen | .rightBracket => extend extent.closed
        | .leftBrace => extendOverBlock extent
        -- The commas between type arguments would otherwise end the expression.
        | .less => extendOverAngle budget extent
        | _ => extend extent
  | _ => extend extent

/-- The source text of an expression that ends before one of `terminators`, or before
a closing bracket that it does not open. -/
def expressionText (budget : Nat) (terminators : List Mark) : ReadM String := do
  let start := (← peek 0).span.first
  let stop ← iterate (expressionStep budget terminators) budget { depth := 0, stop := start }
  if stop = start then refuse "expression"
  else
    let source := (← get).stream.source
    return String.ofList ((Text.slice? source start stop).getD [])

end JavaDecl.ReadM
