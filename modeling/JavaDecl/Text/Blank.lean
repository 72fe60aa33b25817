/-!
# Blank characters, words and lines

`isBlank` is the Unicode property `White_Space`.  Doc comments, tag values and
class path entries are trimmed and split by it; the token scanner has a
narrower notion of its own.
-/

namespace JavaDecl.Text

/-- A character with the Unicode property `White_Space`. -/
def isBlank (c : Char) : Bool :=
  let code := c.toNat
  (0x9 ≤ code && code ≤ 0xD) || code == 0x20 || code == 0x85 || code == 0xA0 ||
    code == 0x1680 || (0x2000 ≤ code && code ≤ 0x200A) || code == 0x2028 ||
    code == 0x2029 || code == 0x202F || code == 0x205F || code == 0x3000

def trimStart (text : List Char) : List Char :=
  text.dropWhile isBlank

def trimEnd (text : List Char) : List Char :=
  (text.reverse.dropWhile isBlank).reverse

/-- The text without the blanks at either end. -/
def trim (text : List Char) : List Char :=
  trimEnd (trimStart text)

/-- The maximal pieces of the text that hold no blank. -/
def words : List Char → List (List Char)
  | [] => []
  | c :: rest =>
      if isBlank c then words rest
      else
        match rest with
        | [] => [[c]]
        | next :: _ =>
            if isBlank next then [c] :: words rest
            else
              match words rest with
              | [] => [[c]]
              | word :: more => (c :: word) :: more

/-- The lines of the text: a newline, or a carriage return with a newline, ends
a line, and nothing after the last newline is no line. -/
def lines : List Char → List (List Char)
  | [] => []
  | '\n' :: rest => [] :: lines rest
  | '\r' :: '\n' :: rest => [] :: lines rest
  | c :: rest =>
      match lines rest with
      | [] => [[c]]
      | line :: more => (c :: line) :: more

/-- The pieces between the lines' newlines, as one text. -/
def unlines (pieces : List (List Char)) : List Char :=
  List.intercalate ['\n'] pieces

/-- The pieces of the text between occurrences of a separator. -/
def splitAt (separator : Char) : List Char → List (List Char)
  | [] => [[]]
  | c :: rest =>
      if c = separator then [] :: splitAt separator rest
      else
        match splitAt separator rest with
        | [] => [[c]]
        | piece :: more => (c :: piece) :: more

end JavaDecl.Text
