import JavaDecl.Text.UnicodeEscape
import JavaDecl.Token.Kind

/-!
# Lexemes

`scan` tells which lexeme a text opens with and how many of its characters
belong to it.  The longest match decides between classes.  Every lexeme holds at
least one character, so cutting a text into lexemes ends.
-/

namespace JavaDecl.Lexeme

/-- What a stretch of source text is. -/
inductive Shape where
  /-- Spaces, tabs, form feeds and ends of lines. -/
  | space
  /-- A comment that is not documentation. -/
  | comment
  | docComment
  | word
  | number
  | string
  | character
  | mark (symbol : Mark)
  | invalid
  | unclosedComment
deriving DecidableEq, Repr

/-- A shape and the number of characters after the first that have it. -/
structure Reach where
  shape : Shape
  /-- How many characters after the first belong to it. -/
  following : Nat
deriving DecidableEq, Repr

/-- The length of the longest run of characters with a property at the start of a text. -/
def runLength (holds : Char → Bool) (text : List Char) : Nat :=
  (text.takeWhile holds).length

/-- The blanks that separate tokens. -/
def isSpace (c : Char) : Bool :=
  c == ' ' || c == '\t' || c == '\r' || c == '\n' || c == '\x0c'

/-- A character that ends a line. -/
def endsLine (c : Char) : Bool :=
  c == '\n' || c == '\r'

/-! ### Comments -/

/-- The number of characters up to and including the next star and slash. -/
def commentTail? : List Char → Option Nat
  | '*' :: '/' :: _ => some 2
  | _ :: rest => (commentTail? rest).map (· + 1)
  | [] => none

/-- A comment whose first `opened` characters after the slash and the first star are read. -/
def blockComment (shape : Shape) (opened : Nat) (text : List Char) : Reach :=
  match commentTail? text with
  | some tail => { shape, following := 1 + opened + tail }
  | none => { shape := .unclosedComment, following := 1 + opened + text.length }

/-! ### Words -/

/-- A character that may open a word: an ASCII letter, an underscore, a dollar sign,
or any character beyond ASCII. -/
def opensWord (c : Char) : Bool :=
  c.isAlpha || c == '_' || c == '$' || 0x80 ≤ c.toNat

/-- A character that may follow in a word. -/
def continuesWord (c : Char) : Bool :=
  opensWord c || c.isDigit

/-- The length of the escape that follows a backslash, or of its `u`s alone if four
hexadecimal digits do not follow them.  An escape has at least one `u`. -/
def escapeTail (text : List Char) : Nat × Bool :=
  let marks := runLength (· == 'u') text
  let digits := (text.drop marks).take 4
  if 0 < marks && digits.length = 4 && digits.all Text.isHexDigit then (marks + 4, true)
  else (marks, false)

/-- The length of the rest of a word, and whether it is well formed.  A backslash
with a `u` but without its digits spoils the whole word, the `u`s included. -/
def wordTail : List Char → Nat × Bool
  | [] => (0, true)
  | c :: rest =>
      if c = '\\' then
        match escapeTail rest with
        | (0, _) => (0, true)
        | (length, true) =>
            let (more, sound) := wordTail (rest.drop length)
            (1 + length + more, sound)
        | (length, false) => (1 + length, false)
      else if continuesWord c then
        let (more, sound) := wordTail rest
        (1 + more, sound)
      else (0, true)
termination_by text => text.length
decreasing_by
  · simp only [List.length_drop, List.length_cons]
    omega
  · simp

/-- A word whose first character is read. -/
def word (text : List Char) : Reach :=
  let (following, sound) := wordTail text
  { shape := if sound then .word else .invalid, following }

/-- A word that opens with an escape, its backslash read. -/
def escapedWord (text : List Char) : Reach :=
  match escapeTail text with
  | (0, _) => { shape := .invalid, following := 0 }
  | (length, false) => { shape := .invalid, following := length }
  | (length, true) =>
      let (more, sound) := wordTail (text.drop length)
      { shape := if sound then .word else .invalid, following := length + more }

/-! ### Numbers -/

def isDigitPart (c : Char) : Bool :=
  c.isDigit || c == '_'

def startsWithAny (choices : List Char) : List Char → Bool
  | [] => false
  | c :: _ => choices.contains c

/-- The length of an exponent with its sign, which needs a digit. -/
def exponentLength : List Char → Nat
  | [] => 0
  | c :: rest =>
      if c = 'e' ∨ c = 'E' then
        let sign := if startsWithAny ['+', '-'] rest then 1 else 0
        let digits := runLength isDigitPart (rest.drop sign)
        if digits = 0 then 0 else 1 + sign + digits
      else 0

/-- The length of an exponent and a type suffix. -/
def scaleLength (suffixes : List Char) (text : List Char) : Nat :=
  let exponent := exponentLength text
  exponent + if startsWithAny suffixes (text.drop exponent) then 1 else 0

def fractionLength : List Char → Nat
  | '.' :: rest => 1 + runLength isDigitPart rest
  | _ => 0

/-- The length of the rest of a decimal number that opens with a digit. -/
def decimalTail (text : List Char) : Nat :=
  let whole := runLength isDigitPart text
  let fraction := fractionLength (text.drop whole)
  whole + fraction + scaleLength ['l', 'L', 'f', 'F', 'd', 'D'] (text.drop (whole + fraction))

/-- The length of the rest of a number in another base after its leading zero: a
letter for the base, digits, and a suffix. -/
def basedTail? (letters : List Char) (isDigit : Char → Bool) : List Char → Option Nat
  | [] => none
  | c :: rest =>
      let digits := runLength (fun d => isDigit d || d == '_') rest
      if letters.contains c && digits != 0 then
        some (1 + digits + if startsWithAny ['l', 'L'] (rest.drop digits) then 1 else 0)
      else none

/-- The length of the rest of a number that opens with the digit `first`. -/
def numberTail (first : Char) (text : List Char) : Nat :=
  if first = '0' then
    match basedTail? ['x', 'X'] Text.isHexDigit text with
    | some tail => tail
    | none => (basedTail? ['b', 'B'] (fun d => d == '0' || d == '1') text).getD (decimalTail text)
  else decimalTail text

/-- The length of the rest of a number that opens with a point. -/
def pointTail (text : List Char) : Nat :=
  let digits := runLength isDigitPart text
  digits + scaleLength ['f', 'F', 'd', 'D'] (text.drop digits)

/-! ### Literals in quotes -/

/-- The length of the rest of a literal up to and including its closing quote, or of
its whole units if it is not closed.  A unit is a character or an escaped one. -/
def quotedTail (quote : Char) : List Char → Nat × Bool
  | [] => (0, false)
  | '\\' :: c :: rest =>
      if c = '\n' then (0, false)
      else
        let (more, closed) := quotedTail quote rest
        (2 + more, closed)
  | c :: rest =>
      if c = quote then (1, true)
      else if c = '\\' || endsLine c then (0, false)
      else
        let (more, closed) := quotedTail quote rest
        (1 + more, closed)

/-- A literal whose opening quote is read. -/
def quotedLiteral (shape : Shape) (quote : Char) (text : List Char) : Reach :=
  let (following, closed) := quotedTail quote text
  { shape := if closed then shape else .invalid, following }

/-! ### All classes -/

/-- A separator or operator that opens with `first`. -/
def markAt (first : Char) (rest : List Char) : Reach :=
  match Mark.longest? (first :: rest) with
  | some symbol => { shape := .mark symbol, following := symbol.spelling.length - 1 }
  | none => { shape := .invalid, following := 0 }

/-- The lexeme that a text with a first character opens with. -/
def scan (first : Char) (rest : List Char) : Reach :=
  if isSpace first then { shape := .space, following := runLength isSpace rest }
  else if opensWord first then word rest
  else if first = '\\' then escapedWord rest
  else if first.isDigit then { shape := .number, following := numberTail first rest }
  else if first = '"' then quotedLiteral .string '"' rest
  else if first = '\'' then quotedLiteral .character '\'' rest
  else if first = '.' && (rest.head?.any Char.isDigit) then
    { shape := .number, following := pointTail rest }
  else
    match first, rest with
    | '/', '/' :: more =>
        { shape := .comment, following := 1 + runLength (fun c => !endsLine c) more }
    | '/', '*' :: '*' :: '/' :: _ => { shape := .comment, following := 3 }
    | '/', '*' :: '*' :: more => blockComment .docComment 1 more
    | '/', '*' :: more => blockComment .comment 0 more
    | _, _ => markAt first rest

end JavaDecl.Lexeme
