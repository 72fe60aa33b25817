/-!
# Unicode escapes

A backslash, one or more `u` and four hexadecimal digits stand for one UTF-16
unit anywhere in a source text.  `pieces` cuts a text into such units and plain
characters; `joinPieces` puts the characters back together, two adjacent
surrogates making one character.
-/

namespace JavaDecl.Text

def hexValue? (c : Char) : Option Nat :=
  if '0' ≤ c ∧ c ≤ '9' then some (c.toNat - '0'.toNat)
  else if 'a' ≤ c ∧ c ≤ 'f' then some (c.toNat - 'a'.toNat + 10)
  else if 'A' ≤ c ∧ c ≤ 'F' then some (c.toNat - 'A'.toNat + 10)
  else none

def isHexDigit (c : Char) : Bool :=
  (hexValue? c).isSome

/-- The value of a digit sequence in base sixteen, read after the digits whose
value is `total`. -/
def hexNumber? (total : Nat) : List Char → Option Nat
  | [] => some total
  | c :: rest => (hexValue? c).bind fun value => hexNumber? (16 * total + value) rest

/-- The unit written by the four characters after the `u`s: four hexadecimal
digits, or a plus sign and three of them. -/
def unitValue? (a b c d : Char) : Option Nat :=
  if a = '+' then hexNumber? 0 [b, c, d] else hexNumber? 0 [a, b, c, d]

/-- The escape that a text opens with, its backslash already read: the unit and
the text after it. -/
def escapedUnit? (text : List Char) : Option (Nat × List Char) :=
  match text with
  | 'u' :: more =>
      match more.dropWhile (· == 'u') with
      | a :: b :: c :: d :: rest => (unitValue? a b c d).map (·, rest)
      | _ => none
  | _ => none

theorem length_lt_of_escapedUnit? {text rest : List Char} {value : Nat}
    (found : escapedUnit? text = some (value, rest)) : rest.length < text.length := by
  unfold escapedUnit? at found
  split at found
  · next more =>
      split at found
      · next a b c d tail shape =>
          simp only [Option.map_eq_some_iff, Prod.mk.injEq] at found
          obtain ⟨_, _, _, rfl⟩ := found
          have shorter := (List.dropWhile_suffix (· == 'u') (l := more)).length_le
          rw [shape] at shorter
          simp only [List.length_cons] at shorter ⊢
          omega
      · simp at found
  · simp at found

/-- One step of a text with escapes. -/
inductive Piece where
  /-- A UTF-16 unit written as an escape. -/
  | unit (value : Nat)
  /-- A character that stands for itself. -/
  | plain (c : Char)
deriving DecidableEq, Repr

/-- Cuts a text into escapes and plain characters, from left to right. -/
def pieces : List Char → List Piece
  | [] => []
  | c :: rest =>
      if c = '\\' then
        match _found : escapedUnit? rest with
        | some (value, after) => .unit value :: pieces after
        | none => .plain c :: pieces rest
      else .plain c :: pieces rest
termination_by text => text.length
decreasing_by
  all_goals simp_wf
  · have := length_lt_of_escapedUnit? _found
    omega

/-- A unit that opens a surrogate pair. -/
def isHighSurrogate (value : Nat) : Bool :=
  0xD800 ≤ value && value < 0xDC00

/-- A unit that closes a surrogate pair. -/
def isLowSurrogate (value : Nat) : Bool :=
  0xDC00 ≤ value && value < 0xE000

def surrogatePair (high low : Nat) : Char :=
  Char.ofNat (0x10000 + (high - 0xD800) * 0x400 + (low - 0xDC00))

/-- The character that takes the place of a surrogate without a partner. -/
def replacement : Char := '\uFFFD'

/-- The text of a sequence of pieces.  Adjacent escapes that form a surrogate pair
are one character. -/
def joinPieces : List Piece → List Char
  | [] => []
  | .plain c :: rest => c :: joinPieces rest
  | .unit high :: .unit low :: rest =>
      if isHighSurrogate high && isLowSurrogate low then
        surrogatePair high low :: joinPieces rest
      else if isHighSurrogate high || isLowSurrogate high then
        replacement :: joinPieces (.unit low :: rest)
      else Char.ofNat high :: joinPieces (.unit low :: rest)
  | .unit value :: rest =>
      if isHighSurrogate value || isLowSurrogate value then replacement :: joinPieces rest
      else Char.ofNat value :: joinPieces rest

def decodeEscapes (text : List Char) : List Char :=
  joinPieces (pieces text)

end JavaDecl.Text
