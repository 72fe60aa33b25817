import JavaDecl.Text.Bytes

/-!
# Places in a source text

Lines and columns are counted from one and columns in characters; only a
newline ends a line.  Offsets are in bytes.
-/

namespace JavaDecl

/-- A place between two characters of a source text. -/
structure Location where
  /-- The number of the line, the first being one. -/
  line : Nat
  /-- The number of the character within the line, the first being one. -/
  column : Nat
  /-- The number of bytes before the place. -/
  offset : Nat
deriving DecidableEq, Repr, Inhabited

namespace Location

def start : Location := { line := 1, column := 1, offset := 0 }

def advance (place : Location) (c : Char) : Location :=
  if c = '\n' then
    { line := place.line + 1, column := 1, offset := place.offset + c.utf8Size }
  else
    { place with column := place.column + 1, offset := place.offset + c.utf8Size }

def advanceOver (place : Location) (text : List Char) : Location :=
  text.foldl advance place

/-- The place at byte `offset` of a source whose text from `place` on is `ahead`,
and the text from there on.  A place never moves backwards. -/
def seek (place : Location) (ahead : List Char) (offset : Nat) : Location × List Char :=
  match ahead with
  | [] => (place, [])
  | c :: rest =>
      if place.offset < offset then (place.advance c).seek rest offset else (place, ahead)

instance : ToString Location where
  toString place := toString place.line ++ ":" ++ toString place.column

@[simp] theorem offset_advance (place : Location) (c : Char) :
    (place.advance c).offset = place.offset + c.utf8Size := by
  unfold advance
  split <;> rfl

@[simp] theorem advanceOver_nil (place : Location) : place.advanceOver [] = place := rfl

@[simp] theorem advanceOver_cons (place : Location) (c : Char) (text : List Char) :
    place.advanceOver (c :: text) = (place.advance c).advanceOver text := rfl

theorem advanceOver_append (place : Location) (front back : List Char) :
    place.advanceOver (front ++ back) = (place.advanceOver front).advanceOver back := by
  simp [advanceOver]

@[simp] theorem offset_advanceOver (place : Location) (text : List Char) :
    (place.advanceOver text).offset = place.offset + Text.byteSize text := by
  induction text generalizing place with
  | nil => simp
  | cons c text ih => simp [ih, Nat.add_assoc]

end Location

/-- A range of bytes of a source text, with the place where it starts. -/
structure Span where
  start : Location
  first : Nat
  stop : Nat
deriving DecidableEq, Repr, Inhabited

/-- The part of a source that a span covers, empty if the span does not fit it. -/
def Span.text (span : Span) (source : List Char) : List Char :=
  (Text.slice? source span.first span.stop).getD []

end JavaDecl
