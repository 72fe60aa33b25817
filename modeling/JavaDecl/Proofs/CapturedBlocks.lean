import JavaDecl.Proofs.TakenText
import Mathlib.Data.List.Infix

/-!
# Captured blocks

Taking a block as a whole and taking its tokens one by one lead to the same place, past the
brace that closes the block, and the token of the block has the text between the braces.
-/

namespace JavaDecl

namespace Lexeme

open Block

/-- The places in a text where its lexemes start. -/
inductive StartsAt (text : List Char) : List Char → Prop where
  | here : StartsAt text text
  | after {first : Char} {rest : List Char} :
      StartsAt text (first :: rest) → StartsAt text (rest.drop (scan first rest).following)

variable {text middle rest : List Char} {offset : Nat} {cut : Cut}

theorem StartsAt.suffix (starts : StartsAt text middle) : middle <:+ text := by
  induction starts with
  | here => exact List.suffix_refl _
  | after _ ih =>
      exact (List.drop_suffix _ _).trans ((List.suffix_cons _ _).trans ih)

theorem StartsAt.trans {further : List Char} (one : StartsAt text middle)
    (other : StartsAt middle further) : StartsAt text further := by
  induction other with
  | here => exact one
  | after _ ih => exact ih.after

/-- No line comment in front of a rest of a text ends in a carriage return alone. -/
def CommentsEnded (text rest : List Char) : Prop :=
  ∀ part, StartsAt text part → rest.length < part.length → returnEndsComment part = false

/-- In front of a rest of a text no text block opens, and line comments end in newlines. -/
structure Regular (text rest : List Char) : Prop where
  single : ∀ part, part <:+ text → rest.length < part.length → ¬ textBlockQuotes <+: part
  ended : CommentsEnded text rest

theorem Regular.later (regular : Regular text rest) (starts : StartsAt text middle) :
    Regular middle rest where
  single part within := regular.single part (within.trans starts.suffix)
  ended part within := regular.ended part (starts.trans within)

theorem Regular.before (regular : Regular text rest) (shorter : rest.length ≤ middle.length) :
    Regular text middle where
  single part within longer := regular.single part within (Nat.lt_of_le_of_lt shorter longer)
  ended part within longer := regular.ended part within (Nat.lt_of_le_of_lt shorter longer)

theorem startsAt_of_next? (found : next? offset text = some cut) :
    StartsAt text cut.rest := by
  fun_induction next? offset text with
  | case1 => cases found
  | case2 offset first rest reach taken layout ih =>
      exact StartsAt.here.after.trans (ih found)
  | case3 offset first rest reach taken content =>
      cases found
      exact StartsAt.here.after

/-- The end of a block depends on the first lexeme that is no layout. -/
theorem blockEnd_next? (depth : Nat) (found : next? offset text = some cut)
    (valid : cut.shape ≠ .invalid) (closed : cut.shape ≠ .unclosedComment)
    (regular : Regular text cut.rest) :
    blockEnd depth text = cut.shape.endAfter depth cut.rest := by
  have shorter := TokenStream.length_rest_lt_of_cut found
  fun_induction next? offset text with
  | case1 => cases found
  | case2 offset first rest reach taken layout ih =>
      have further := TokenStream.length_rest_lt_of_cut found
      have notOther {shape : Shape} (other : shape.isLayout = false) : reach.shape ≠ shape := by
        rintro rfl
        exact absurd layout (by simp [other])
      rw [blockEnd_scan depth (notOther rfl) (notOther rfl)
        (fun isString => absurd isString (notOther rfl)) (regular.ended _ .here shorter),
        Shape.endAfter_of_unmarked fun symbol => notOther rfl]
      exact ih found (regular.later StartsAt.here.after) further
  | case3 offset first rest reach taken content =>
      cases found
      exact blockEnd_scan depth valid closed
        (fun _ => regular.single _ (List.suffix_refl _) shorter) (regular.ended _ .here shorter)

end Lexeme

namespace TokenStream

open Lexeme Block

variable {stream after : TokenStream} {token : Token}

/-! ### Tokens one by one -/

/-- The next tokens, up to the one that closes a block inside which `depth` more blocks are
open.  Only braces that are tokens count. -/
inductive Closes (closing : Token) (last : TokenStream) : Nat → TokenStream → Prop where
  | closes {stream : TokenStream} :
      stream.next = (.ok closing, last) → closing.kind = .mark .rightBrace →
        Closes closing last 0 stream
  | leaves {stream after : TokenStream} {token : Token} {outer : Nat} :
      stream.next = (.ok token, after) → token.kind = .mark .rightBrace →
        Closes closing last outer after → Closes closing last (outer + 1) stream
  | enters {stream after : TokenStream} {token : Token} {depth : Nat} :
      stream.next = (.ok token, after) → token.kind = .mark .leftBrace →
        Closes closing last (depth + 1) after → Closes closing last depth stream
  | passes {stream after : TokenStream} {token : Token} {depth : Nat} :
      stream.next = (.ok token, after) → token.kind ≠ .mark .leftBrace →
        token.kind ≠ .mark .rightBrace → Closes closing last depth after →
          Closes closing last depth stream

theorem startsAt_next (taken : stream.next = (.ok token, after)) (more : after.rest ≠ []) :
    StartsAt stream.rest after.rest := by
  rcases next_ok taken with ⟨ended, -⟩ | ⟨cut, found, -, -, -, rest, -⟩
  · exact absurd ended more
  · rw [rest]
    exact startsAt_of_next? found

/-- The end of a block depends on the next token only if it is a brace. -/
theorem blockEnd_next (taken : stream.next = (.ok token, after))
    (more : ¬ (after.rest = [] ∧ token.kind = .endOfInput))
    (regular : Regular stream.rest after.rest) :
    ∃ shape : Shape, (∀ symbol, token.kind = .mark symbol ↔ shape = .mark symbol) ∧
      ∀ depth, blockEnd depth stream.rest = shape.endAfter depth after.rest := by
  rcases next_ok taken with ended | ⟨cut, found, whole, -, -, rest, -⟩
  · exact absurd ended more
  · obtain ⟨valid, closed, marks⟩ := Cut.token?_ok whole
    rw [rest] at regular ⊢
    exact ⟨cut.shape, marks, fun depth => blockEnd_next? depth found valid closed regular⟩

/-- What is left goes on with a body up to a closing brace, and behind that with what is left
at last. -/
def HasBody (closing : Token) (last stream : TokenStream) (body : List Char) : Prop :=
  stream.rest = body ++ '\x7d' :: last.rest ∧
    closing.span.first = stream.offset + Text.byteSize body ∧
      last.offset = closing.span.first + 1

namespace Closes

variable {closing : Token} {last : TokenStream} {depth : Nat}

theorem exists_body (closes : Closes closing last depth stream) :
    ∃ body, HasBody closing last stream body := by
  have further {stream after : TokenStream} {token : Token}
      (taken : stream.next = (.ok token, after))
      (found : ∃ body, HasBody closing last after body) :
      ∃ body, HasBody closing last stream body := by
    obtain ⟨front, split, moved⟩ := stream.next_takes
    obtain ⟨body, rest, place, stop⟩ := found
    rw [taken] at split moved
    refine ⟨front ++ body, ?_, ?_, stop⟩
    · rw [split, rest, List.append_assoc]
    · rw [place, moved, Text.byteSize_append, Nat.add_assoc]
  induction closes with
  | closes taken brace => exact next_mark taken brace (by decide)
  | leaves taken _ _ ih => exact further taken ih
  | enters taken _ _ ih => exact further taken ih
  | passes taken _ _ _ ih => exact further taken ih

theorem length_rest_lt (closes : Closes closing last depth stream) :
    last.rest.length < stream.rest.length := by
  obtain ⟨body, split, -⟩ := closes.exists_body
  rw [split, List.length_append, List.length_cons]
  omega

/-- The block ends behind the closing brace. -/
theorem blockEnd_eq (closes : Closes closing last depth stream)
    (regular : Regular stream.rest last.rest) :
    blockEnd depth stream.rest = .closed last.rest := by
  have further {stream after : TokenStream} {token : Token} {depth : Nat}
      (taken : stream.next = (.ok token, after)) (inner : Closes closing last depth after)
      (regular : Regular stream.rest last.rest) :
      Regular after.rest last.rest ∧
        ∃ shape : Shape, (∀ symbol, token.kind = .mark symbol ↔ shape = .mark symbol) ∧
          ∀ depth, blockEnd depth stream.rest = shape.endAfter depth after.rest := by
    have longer := inner.length_rest_lt
    have more : after.rest ≠ [] := List.ne_nil_of_length_pos (Nat.zero_lt_of_lt longer)
    refine ⟨regular.later (startsAt_next taken more), ?_⟩
    exact blockEnd_next taken (fun ended => more ended.1) (regular.before (Nat.le_of_lt longer))
  induction closes with
  | closes taken brace =>
      obtain ⟨shape, marks, ends⟩ := blockEnd_next taken (by simp [brace]) regular
      rw [ends, (marks _).mp brace]
      rfl
  | leaves taken brace inner ih =>
      obtain ⟨later, shape, marks, ends⟩ := further taken inner regular
      rw [ends, (marks _).mp brace]
      exact ih later
  | enters taken brace inner ih =>
      obtain ⟨later, shape, marks, ends⟩ := further taken inner regular
      rw [ends, (marks _).mp brace]
      exact ih later
  | passes taken notOpen notClose inner ih =>
      obtain ⟨later, shape, marks, ends⟩ := further taken inner regular
      rw [ends, Shape.endAfter_of_ne (mt (marks _).mpr notOpen) (mt (marks _).mpr notClose)]
      exact ih later

end Closes

end TokenStream

/-! ### Blocks without text blocks -/

/-- A text up to its first brace has the quotes that the text starts with. -/
theorem Block.quotes_prefix {body rest : List Char}
    (quotes : textBlockQuotes <+: body ++ '\x7d' :: rest) : textBlockQuotes <+: body := by
  match body with
  | [] => simp [textBlockQuotes] at quotes
  | [_] => simp [textBlockQuotes] at quotes
  | [_, _] => simp [textBlockQuotes] at quotes
  | first :: second :: third :: body => simpa [textBlockQuotes] using quotes

theorem Lexeme.Regular.ofBody {body rest : List Char}
    (single : ¬ Block.textBlockQuotes <:+: body)
    (ended : CommentsEnded (body ++ '\x7d' :: rest) rest) :
    Regular (body ++ '\x7d' :: rest) rest := by
  refine ⟨fun part within longer quotes => ?_, ended⟩
  obtain ⟨front, split⟩ := within
  rcases List.append_eq_append_iff.mp split with ⟨inner, whole, rfl⟩ | ⟨inner, -, beyond⟩
  · obtain ⟨tail, opened⟩ := Block.quotes_prefix quotes
    exact single ⟨front, tail, by rw [List.append_assoc, opened, whole]⟩
  · cases inner with
    | nil =>
        rw [List.nil_append] at beyond
        simp [← beyond, Block.textBlockQuotes] at quotes
    | cons brace tail =>
        have shorter : rest = tail ++ part := (List.cons.inj beyond).2
        rw [shorter, List.length_append] at longer
        omega

/-- Blocks are taken as their tokens are.  From every place in a source that taking tokens and
blocks leads to, if the next tokens go on to the brace that closes the block, and neither a
text block nor a line comment with a carriage return at its end is in between, then the block
is taken.  Its token has the text up to the brace, and what is left is what is left after
the tokens. -/
theorem blocks_are_taken_with_their_tokens {source : List Char} {stream last : TokenStream}
    {closing : Token} (reached : TokenStream.Reached source stream)
    (closes : TokenStream.Closes closing last 0 stream) :
    ∃ body, Text.slice? source stream.offset closing.span.first = some body ∧
      (¬ Block.textBlockQuotes <:+: body → Lexeme.CommentsEnded stream.rest last.rest →
        ∃ block after, stream.takeBlock = (.ok block, after) ∧ block.kind = .block ∧
          block.text = String.ofList body ∧ after.offset = last.offset ∧
            after.rest = last.rest) := by
  obtain ⟨taken, whole, place⟩ := reached.stands
  obtain ⟨body, split, first, stop⟩ := closes.exists_body
  refine ⟨body, ?_, fun single ended => ?_⟩
  · rw [whole, split, first, place]
    exact Text.slice?_middle taken body _
  · have regular : Lexeme.Regular stream.rest last.rest := by
      rw [split] at ended ⊢
      exact .ofBody single ended
    obtain ⟨block, after, took, kind, text, rest, offset⟩ :=
      TokenStream.takeBlock_of_closed split (closes.blockEnd_eq regular)
    exact ⟨block, after, took, kind, text, by rw [offset, stop, first], rest⟩

/-- Braces in a literal and in a comment do not end a block, and a block in it does not. -/
theorem block_with_hidden_braces_is_taken :
    let source := "\x7b'\x7d'//\x7d\r\n\x7b\x7d\x7d".toList
    let stream := (TokenStream.ofSource source).next.2
    ∃ closing last, TokenStream.Closes closing last 0 stream ∧
      ∃ block after, stream.takeBlock = (.ok block, after) ∧
        block.text = "'\x7d'//\x7d\r\n\x7b\x7d" ∧ after.offset = last.offset := by
  intro source stream
  have reached : TokenStream.Reached source stream := .next .start
  have literal := TokenStream.next_eq (by decide +kernel :
    stream.next.1.toOption = some ⟨.charLiteral, "'\x7d'", ⟨⟨1, 2, 1⟩, 1, 4⟩⟩)
  have opening := TokenStream.next_eq (by decide +kernel :
    stream.next.2.next.1.toOption = some ⟨.mark .leftBrace, "\x7b", ⟨⟨2, 1, 9⟩, 9, 10⟩⟩)
  have inner := TokenStream.next_eq (by decide +kernel :
    stream.next.2.next.2.next.1.toOption =
      some ⟨.mark .rightBrace, "\x7d", ⟨⟨2, 2, 10⟩, 10, 11⟩⟩)
  have closing := TokenStream.next_eq (by decide +kernel :
    stream.next.2.next.2.next.2.next.1.toOption =
      some ⟨.mark .rightBrace, "\x7d", ⟨⟨2, 3, 11⟩, 11, 12⟩⟩)
  have closes := TokenStream.Closes.passes literal (by simp) (by simp)
    (.enters opening rfl (.leaves inner rfl (.closes closing rfl)))
  obtain ⟨body, between, taken⟩ := blocks_are_taken_with_their_tokens reached closes
  obtain rfl : "'\x7d'//\x7d\r\n\x7b\x7d".toList = body :=
    Option.some.inj (Eq.trans (by decide +kernel) between)
  have single : ¬ Block.textBlockQuotes <:+: "'\x7d'//\x7d\r\n\x7b\x7d".toList := by decide +kernel
  have ended : ∀ part ∈ stream.rest.tails, Lexeme.returnEndsComment part = false := by
    decide +kernel
  obtain ⟨block, after, took, -, text, offset, -⟩ := taken single fun part starts _ =>
    ended part ((List.mem_tails _ _).mpr starts.suffix)
  exact ⟨_, _, closes, block, after, took, by rw [text, String.ofList_toList], offset⟩

/-- A block in which a line comment ends in a carriage return alone is not closed where its
tokens close it. -/
theorem carriage_return_leaves_block_open :
    let source := "\x7b//\r\x7d".toList
    let stream := (TokenStream.ofSource source).next.2
    TokenStream.Reached source stream ∧
      ∃ closing last, TokenStream.Closes closing last 0 stream ∧
        Text.slice? source stream.offset closing.span.first = some "//\r".toList ∧
          ¬ Block.textBlockQuotes <:+: "//\r".toList ∧
            stream.takeBlock.1.toOption = none := by
  intro source stream
  have closing := TokenStream.next_eq (by decide +kernel :
    stream.next.1.toOption = some ⟨.mark .rightBrace, "\x7d", ⟨⟨1, 5, 4⟩, 4, 5⟩⟩)
  exact ⟨.next .start, _, _, .closes closing rfl, by decide +kernel, by decide +kernel,
    by decide +kernel⟩

end JavaDecl
