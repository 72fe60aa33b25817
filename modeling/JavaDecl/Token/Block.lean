/-!
# Blocks in braces

The extent of a block whose opening brace is read.  Braces inside literals, text
blocks and comments do not count.  `blockEnd` runs over the text once, skipping
each literal and comment whole.
-/

namespace JavaDecl.Block

/-- The text after a literal whose opening quote is read.  A backslash takes the next
character with it, and a literal that is not closed ends with its line. -/
def afterLiteral (quote : Char) : List Char → List Char
  | [] => []
  | '\\' :: _ :: rest => afterLiteral quote rest
  | c :: rest => if c = '\n' || c = quote then rest else afterLiteral quote rest

/-- The text after a text block whose opening quotes are read. -/
def afterTextBlock : List Char → List Char
  | '"' :: '"' :: '"' :: rest => rest
  | _ :: rest => afterTextBlock rest
  | [] => []

def afterLine : List Char → List Char
  | [] => []
  | c :: rest => if c = '\n' then rest else afterLine rest

/-- The text after a comment whose opening is read, if it is closed. -/
def afterComment? : List Char → Option (List Char)
  | '*' :: '/' :: rest => some rest
  | _ :: rest => afterComment? rest
  | [] => none

theorem length_afterLiteral (quote : Char) (text : List Char) :
    (afterLiteral quote text).length ≤ text.length := by
  fun_induction afterLiteral quote text with
  | case1 => simp
  | case2 _ rest ih => simp only [List.length_cons]; omega
  | case3 c rest _ _ => simp
  | case4 c rest _ _ ih => simp only [List.length_cons]; omega

theorem length_afterTextBlock (text : List Char) :
    (afterTextBlock text).length ≤ text.length := by
  fun_induction afterTextBlock text with
  | case1 rest => simp only [List.length_cons]; omega
  | case2 c rest _ ih => simp only [List.length_cons]; omega
  | case3 => simp

theorem length_afterLine (text : List Char) : (afterLine text).length ≤ text.length := by
  fun_induction afterLine text with
  | case1 => simp
  | case2 rest => simp
  | case3 c rest _ ih => simp only [List.length_cons]; omega

theorem length_afterComment? {text rest : List Char}
    (closed : afterComment? text = some rest) : rest.length ≤ text.length := by
  fun_induction afterComment? text with
  | case1 tail =>
      cases closed
      simp only [List.length_cons]
      omega
  | case2 c tail _ ih =>
      have := ih closed
      simp only [List.length_cons]
      omega
  | case3 => cases closed

inductive End where
  /-- The block is closed, and this text comes after the closing brace. -/
  | closed (rest : List Char)
  /-- A comment that starts with this text is not closed. -/
  | unclosedComment (text : List Char)
  /-- The text ends inside the block. -/
  | unclosed
deriving DecidableEq, Repr

/-- The end of a block inside which `depth` more blocks are open. -/
def blockEnd (depth : Nat) (text : List Char) : End :=
  match text with
  | [] => .unclosed
  | '"' :: '"' :: '"' :: rest => blockEnd depth (afterTextBlock rest)
  | '/' :: '/' :: rest => blockEnd depth (afterLine rest)
  | '/' :: '*' :: rest =>
      match _closed : afterComment? rest with
      | some after => blockEnd depth after
      | none => .unclosedComment text
  | c :: rest =>
      if c = '{' then blockEnd (depth + 1) rest
      else if c = '}' then
        match depth with
        | 0 => .closed rest
        | outer + 1 => blockEnd outer rest
      else if c = '"' || c = '\'' then blockEnd depth (afterLiteral c rest)
      else blockEnd depth rest
termination_by text.length
decreasing_by
  · have := length_afterTextBlock rest
    simp only [List.length_cons]
    omega
  · have := length_afterLine rest
    simp only [List.length_cons]
    omega
  · have := length_afterComment? _closed
    simp only [List.length_cons]
    omega
  · simp
  · simp
  · have := length_afterLiteral c rest
    simp only [List.length_cons]
    omega
  · simp

end JavaDecl.Block
