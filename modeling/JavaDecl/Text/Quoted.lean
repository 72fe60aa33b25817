import JavaDecl.Text.Unprintable

/-!
# Source text quoted in a message

A message shows a piece of source between quotes.  Quotes, backslashes and the
usual control characters get their short escapes and everything without a
visible form its code point in hexadecimal, so the message stays on one line.
-/

namespace JavaDecl.Text

/-- The escape that names a character by its code point. -/
def codePointEscape (c : Char) : List Char :=
  '\\' :: 'u' :: '\x7b' :: Nat.toDigits 16 c.toNat ++ ['\x7d']

/-- The form of a character inside quotes.  A character that attaches to the one
before it is escaped where there is none, which is what `leads` says. -/
def quotedChar (leads : Bool) (c : Char) : List Char :=
  match c with
  | '\x00' => ['\\', '0']
  | '\t' => ['\\', 't']
  | '\r' => ['\\', 'r']
  | '\n' => ['\\', 'n']
  | '\'' => ['\\', '\'']
  | '"' => ['\\', '"']
  | '\\' => ['\\', '\\']
  | _ =>
      if (leads && isExtending c) || isUnprintable c then codePointEscape c else [c]

/-- The form of a text inside quotes. -/
def quoted : List Char → List Char
  | [] => []
  | c :: rest => quotedChar true c ++ rest.flatMap (quotedChar false)

/-- The text between double quotes.  Single quotes need no escape there, and every
character that attaches to the one before it gets one. -/
def inDoubleQuotes (text : List Char) : List Char :=
  '"' :: text.flatMap (fun c => if c = '\'' then [c] else quotedChar true c) ++ ['"']

end JavaDecl.Text
