import JavaDecl.Proofs.BlockBodies
import Mathlib.Data.List.Infix

/-!
# Contents of blocks

What stands in a block: characters that open nothing, literals, text blocks, comments and
blocks of their own.  The scan for the end of a block passes over all of these, so the block
is taken up to its own closing brace.  A text block ends for the scan at the first three quotes
in a row, also at those of which the first is escaped.
-/

namespace JavaDecl

namespace Block

variable {inner rest text tail : List Char}

/-! ### What blocks consist of -/

/-- What may stand between the quotes of a literal.  A backslash takes the next character with
it. -/
inductive InLiteral (quote : Char) : List Char → Prop where
  | nothing : InLiteral quote []
  | escape (escaped : Char) {rest : List Char} :
      InLiteral quote rest → InLiteral quote ('\\' :: escaped :: rest)
  | char {c : Char} {rest : List Char} : c ∉ [quote, '\\', '\n'] →
      InLiteral quote rest → InLiteral quote (c :: rest)

/-- What may stand between the quotes of a text block if a backslash takes the next character
with it, so that escaped quotes do not close the text block. -/
inductive InTextBlock : List Char → Prop where
  | nothing : InTextBlock []
  | escape (escaped : Char) {rest : List Char} :
      InTextBlock rest → InTextBlock ('\\' :: escaped :: rest)
  | char {c : Char} {rest : List Char} : c ≠ '\\' →
      ¬ textBlockQuotes <+: c :: (rest ++ textBlockQuotes) →
        InTextBlock rest → InTextBlock (c :: rest)

/-- Behind such a text the closing quotes of a text block are the first three quotes in a row. -/
def BeforeQuotes (inner : List Char) : Prop :=
  ¬ textBlockQuotes <:+: inner ++ ['"', '"']

instance (inner : List Char) : Decidable (BeforeQuotes inner) :=
  inferInstanceAs (Decidable (¬ _))

/-- What stands in a block, with such texts in its text blocks.  An empty string and a quote
behind it would open a text block. -/
inductive Content (inTextBlock : List Char → Prop) : List Char → Prop where
  | nothing : Content inTextBlock []
  | plain {c : Char} {rest : List Char} : IsPlain c →
      Content inTextBlock rest → Content inTextBlock (c :: rest)
  | literal {quote : Char} {inner rest : List Char} : quote ∈ ['"', '\''] →
      InLiteral quote inner → Content inTextBlock rest →
        (quote = '"' → inner = [] → rest.head? ≠ some '"') →
          Content inTextBlock (quote :: (inner ++ quote :: rest))
  | textBlock {inner rest : List Char} : inTextBlock inner → Content inTextBlock rest →
      Content inTextBlock (textBlockQuotes ++ (inner ++ (textBlockQuotes ++ rest)))
  | lineComment {inner rest : List Char} : '\n' ∉ inner → Content inTextBlock rest →
      Content inTextBlock ('/' :: '/' :: (inner ++ '\n' :: rest))
  | comment {inner rest : List Char} : ¬ ['*', '/'] <:+: inner → Content inTextBlock rest →
      Content inTextBlock ('/' :: '*' :: (inner ++ '*' :: '/' :: rest))
  | block {inner rest : List Char} : Content inTextBlock inner → Content inTextBlock rest →
      Content inTextBlock ('\x7b' :: (inner ++ '\x7d' :: rest))

/-! ### What is passed over -/

theorem InLiteral.after {quote : Char} (inside : InLiteral quote inner)
    (isQuote : quote ∈ ['"', '\'']) : afterLiteral quote (inner ++ quote :: tail) = tail := by
  have unescaped : quote ≠ '\\' := by
    rintro rfl
    simp at isQuote
  induction inside with
  | nothing => rw [List.nil_append, afterLiteral_cons quote (.inl unescaped), if_pos (by simp)]
  | escape escaped _ ih => exact ih
  | char other _ ih =>
      simp only [List.mem_cons, List.not_mem_nil, or_false, not_or] at other
      obtain ⟨notQuote, notEscape, notNewline⟩ := other
      rw [List.cons_append, afterLiteral_cons quote (.inl notEscape),
        if_neg (by simp [notNewline, notQuote])]
      exact ih

theorem BeforeQuotes.after (before : BeforeQuotes inner) :
    afterTextBlock (inner ++ (textBlockQuotes ++ tail)) = tail := by
  induction inner with
  | nil => rfl
  | cons c inner ih =>
      have goesOn : ¬ textBlockQuotes <+: c :: (inner ++ (textBlockQuotes ++ tail)) := by
        intro starts
        have more : c :: inner ++ ['"', '"'] <+: c :: (inner ++ (textBlockQuotes ++ tail)) :=
          ⟨'"' :: tail, by simp [textBlockQuotes]⟩
        have early := List.prefix_of_prefix_length_le starts more (by simp [textBlockQuotes])
        exact before early.isInfix
      rw [List.cons_append, afterTextBlock_cons goesOn]
      exact ih fun within => before (List.infix_cons within)

theorem afterLine_of_notMem (inLine : '\n' ∉ inner) :
    afterLine (inner ++ '\n' :: tail) = tail := by
  induction inner with
  | nil => rfl
  | cons c inner ih =>
      rw [List.mem_cons, not_or] at inLine
      rw [List.cons_append, afterLine, if_neg (Ne.symm inLine.1)]
      exact ih inLine.2

theorem afterComment?_of_notInfix (unclosed : ¬ ['*', '/'] <:+: inner) :
    afterComment? (inner ++ '*' :: '/' :: tail) = some tail := by
  have left : (inner ++ '*' :: '/' :: tail).drop (inner.length + 2) = tail := by
    rw [← List.drop_drop, List.drop_left]
    rfl
  rw [Lexeme.afterComment?_eq, Lexeme.commentTail?_append unclosed, Option.map_some, left]

theorem InLiteral.single {quote : Char} (inside : InLiteral quote inner)
    (apart : quote = '"' → inner = [] → tail.head? ≠ some '"') :
    ¬ textBlockQuotes <+: quote :: (inner ++ quote :: tail) := by
  rintro ⟨further, starts⟩
  obtain ⟨rfl, starts⟩ := List.cons.inj starts
  cases inside with
  | nothing =>
      obtain ⟨-, starts⟩ := List.cons.inj starts
      exact apart rfl rfl (by simp [← starts])
  | escape escaped _ => simp at starts
  | char other _ =>
      obtain ⟨rfl, -⟩ := List.cons.inj starts
      simp at other

/-- The scan for the end of a block passes over a literal. -/
theorem InLiteral.blockEnd {quote : Char} (inside : InLiteral quote inner)
    (isQuote : quote ∈ ['"', '\''])
    (apart : quote = '"' → inner = [] → tail.head? ≠ some '"') (depth : Nat) :
    blockEnd depth (quote :: (inner ++ quote :: tail)) = blockEnd depth tail := by
  have after : afterLiteral quote (inner ++ quote :: tail) = tail := inside.after isQuote
  have single := inside.single apart
  simp only [List.mem_cons, List.not_mem_nil, or_false] at isQuote
  rcases isQuote with rfl | rfl
  all_goals
    rw [blockEnd_cons depth single (by simp [OpensComment]), after]
    rfl

/-- The scan for the end of a block passes over what stands in the block. -/
theorem Content.blockEnd_append (content : Content BeforeQuotes text) (depth : Nat)
    (tail : List Char) :
    blockEnd depth (text ++ '\x7d' :: tail) = blockEnd depth ('\x7d' :: tail) := by
  induction content generalizing depth tail with
  | nothing => rfl
  | plain plain _ ih =>
      rw [List.cons_append, blockEnd_plain depth plain]
      exact ih depth tail
  | @literal quote inner rest isQuote inside _ apart ih =>
      have behind (isDouble : quote = '"') (empty : inner = []) :
          (rest ++ '\x7d' :: tail).head? ≠ some '"' := by
        have other := apart isDouble empty
        cases rest with
        | nil => simp
        | cons c rest => exact other
      rw [List.cons_append, List.append_assoc, List.cons_append, inside.blockEnd isQuote behind]
      exact ih depth tail
  | @textBlock inner rest before _ ih =>
      rw [List.append_assoc, blockEnd_textBlock, List.append_assoc, List.append_assoc,
        before.after]
      exact ih depth tail
  | @lineComment inner rest inLine _ ih =>
      rw [List.cons_append, List.cons_append, blockEnd_lineComment, List.append_assoc,
        List.cons_append, afterLine_of_notMem inLine]
      exact ih depth tail
  | @comment inner rest unclosed _ ih =>
      have closed : afterComment? (inner ++ '*' :: '/' :: (rest ++ '\x7d' :: tail)) =
          some (rest ++ '\x7d' :: tail) := afterComment?_of_notInfix unclosed
      rw [List.cons_append, List.cons_append, List.append_assoc, List.cons_append,
        List.cons_append, blockEnd_blockComment depth closed]
      exact ih depth tail
  | @block inner rest _ _ ihInner ihRest =>
      have opens (later : List Char) :
          blockEnd depth ('\x7b' :: later) = blockEnd (depth + 1) later :=
        blockEnd_cons depth (by simp [textBlockQuotes]) (by simp [OpensComment])
      have closes (later : List Char) :
          blockEnd (depth + 1) ('\x7d' :: later) = blockEnd depth later :=
        blockEnd_cons (depth + 1) (by simp [textBlockQuotes]) (by simp [OpensComment])
      rw [List.cons_append, opens, List.append_assoc, List.cons_append, ihInner, closes]
      exact ihRest depth tail

end Block

/-- Blocks are taken with their contents.  What stands in a block is a text of characters that
open nothing, literals, text blocks, comments and blocks of their own, where a text block ends
at the first three quotes in a row.  Behind the opening brace, whatever comes behind the
closing brace, the block is taken: its token has exactly that text, and the stream goes on
behind the closing brace. -/
theorem blocks_are_taken_with_their_contents {text further : List Char} {stream : TokenStream}
    (content : Block.Content Block.BeforeQuotes text)
    (split : stream.rest = text ++ '\x7d' :: further) :
    ∃ block after, stream.takeBlock = (.ok block, after) ∧ block.kind = .block ∧
      block.text = String.ofList text ∧ after.rest = further ∧
        after.offset = stream.offset + Text.byteSize text + 1 := by
  have closed : Block.blockEnd 0 stream.rest = .closed further := by
    rw [split, content.blockEnd_append, TokenStream.blockEnd_brace]
  exact TokenStream.takeBlock_of_closed split closed

/-- Braces in literals, in comments and in a text block do not end a block, and a block in it
does not. -/
theorem block_with_every_content_is_taken :
    let text := "\x7b'\x7d'+\"\\\"\x7d\";\x7d//\x7d\n/*\x7d**/\"\"\"\n\"\x7d\"\"\"".toList
    let stream : TokenStream := { (default : TokenStream) with rest := text ++ ['\x7d', '"'] }
    Block.Content Block.BeforeQuotes text ∧
      ∃ block after, stream.takeBlock = (.ok block, after) ∧
        block.text = String.ofList text ∧ after.rest = ['"'] := by
  intro text stream
  have textBlock : Block.Content Block.BeforeQuotes "\"\"\"\n\"\x7d\"\"\"".toList :=
    .textBlock (show Block.BeforeQuotes "\n\"\x7d".toList by decide) .nothing
  have comment : Block.Content Block.BeforeQuotes
      "/*\x7d**/\"\"\"\n\"\x7d\"\"\"".toList :=
    .comment (show ¬ ['*', '/'] <:+: ['\x7d', '*'] by decide) textBlock
  have line : Block.Content Block.BeforeQuotes
      "//\x7d\n/*\x7d**/\"\"\"\n\"\x7d\"\"\"".toList :=
    .lineComment (show '\n' ∉ ['\x7d'] by decide) comment
  have escaped : Block.InLiteral '"' ['\\', '"', '\x7d'] :=
    .escape '"' (.char (by decide) .nothing)
  have string : Block.Content Block.BeforeQuotes "+\"\\\"\x7d\";".toList :=
    .plain (by decide) (.literal (by decide) escaped (.plain (by decide) .nothing) (by simp))
  have brace : Block.InLiteral '\'' ['\x7d'] := .char (by decide) .nothing
  have inner : Block.Content Block.BeforeQuotes "'\x7d'+\"\\\"\x7d\";".toList :=
    .literal (by decide) brace string (by simp)
  have content : Block.Content Block.BeforeQuotes text := .block inner line
  have split : stream.rest = text ++ '\x7d' :: ['"'] := rfl
  obtain ⟨block, after, taken, -, same, rest, -⟩ :=
    blocks_are_taken_with_their_contents content split
  exact ⟨content, block, after, taken, same, rest⟩

/-- A text block in which a backslash comes before three quotes is not left at its closing
quotes, so a brace in front of those closes the block. -/
theorem escaped_quotes_close_text_block :
    let text := "\"\"\"\n\\\"\"\"\x7d\"\"\"".toList
    let source := '\x7b' :: (text ++ ['\x7d'])
    let stream := (TokenStream.ofSource source).next.2
    Block.Content Block.InTextBlock text ∧ stream.rest = text ++ ['\x7d'] ∧
      stream.takeBlock.1.toOption.map (·.text) = some "\"\"\"\n\\\"\"\"" ∧
        stream.takeBlock.2.rest ≠ [] := by
  intro text source stream
  have inner : Block.InTextBlock "\n\\\"\"\"\x7d".toList :=
    .char (by decide) (by decide) (.escape '"' (.char (by decide) (by decide)
      (.char (by decide) (by decide) (.char (by decide) (by decide) .nothing))))
  exact ⟨.textBlock inner .nothing, by decide +kernel, by decide +kernel, by decide +kernel⟩

end JavaDecl
