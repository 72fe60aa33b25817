import JavaDecl.Text.Blank

/-!
# Doc comments

A doc comment is a text followed by block tags.  Each line is first freed of the
blanks and stars at its left edge.  A line that then opens with an at sign and a
name starts a tag, which reaches to the next such line.
-/

namespace JavaDecl

structure DocTag where
  name : String
  /-- The text up to the next tag. -/
  value : String
  line : Nat
deriving DecidableEq, Repr, Inhabited

/-- A doc comment split at its block tags. -/
structure DocComment where
  /-- The text before the first tag. -/
  text : String
  tags : List DocTag
deriving DecidableEq, Repr, Inhabited

namespace DocComment

/-- The text after a word that it may open with. -/
def dropOpening (opening text : List Char) : List Char :=
  if opening.isPrefixOf text then text.drop opening.length else text

/-- The text before a word that it may close with. -/
def dropClosing (closing text : List Char) : List Char :=
  if closing.isSuffixOf text then text.take (text.length - closing.length) else text

def inside (comment : List Char) : List Char :=
  dropClosing ['*', '/'] (dropOpening ['/', '*', '*'] comment)

/-- A line without the blanks at its left edge and, if stars follow them, without the
stars and one space after them. -/
def stripGutter (line : List Char) : List Char :=
  match Text.trimStart line with
  | '*' :: rest => dropOpening [' '] (rest.dropWhile (· == '*'))
  | trimmed => trimmed

/-- The name of the tag that a line opens, and the rest of the line. -/
def openedTag? : List Char → Option (List Char × List Char)
  | '@' :: rest =>
      let name := rest.takeWhile (fun c => !Text.isBlank c)
      if name.isEmpty then none else some (name, Text.trim (rest.drop name.length))
  | _ => none

/-- Splits the lines of a comment from line number `line` on into those before the
first tag and the tags. -/
def splitTags (line : Nat) : List (List Char) → List (List Char) × List DocTag
  | [] => ([], [])
  | content :: rest =>
      let (body, tags) := splitTags (line + 1) rest
      match openedTag? content with
      | none => (Text.trimEnd content :: body, tags)
      | some (name, first) =>
          let value := Text.trim (Text.unlines (first :: body))
          ([], { name := String.ofList name, value := String.ofList value, line } :: tags)

/-- Splits a doc comment that starts on a given line. -/
def ofText (comment : List Char) (line : Nat) : DocComment :=
  let (body, tags) := splitTags line ((Text.lines (inside comment)).map stripGutter)
  { text := String.ofList (Text.trim (Text.unlines body)), tags }

end DocComment

end JavaDecl
