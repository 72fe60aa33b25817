import JavaDecl.Proofs.TakenText
import Mathlib.Data.List.Infix

/-!
# Tokens tile their source

Every token that is taken from a source covers a slice of it, at the place that is found by
walking from the start.  Between two slices there are only blanks and plain comments.
-/

namespace JavaDecl

namespace Lexeme

/-! ### Layout -/

/-- A text of blanks and plain comments, which some text follows.  A line comment reaches to
the end of its line, and a comment in stars ends where it can first and is no doc comment. -/
inductive Layout (after : List Char) : List Char → Prop where
  | nil : Layout after []
  | blank {c : Char} {rest : List Char} : isSpace c = true → Layout after rest →
      Layout after (c :: rest)
  | lineComment {body rest : List Char} : (∀ c ∈ body, endsLine c = false) →
      (∀ c ∈ (rest ++ after).head?, endsLine c = true) → Layout after rest →
        Layout after ('/' :: '/' :: body ++ rest)
  | comment {body rest : List Char} : body.head? ≠ some '*' →
      ¬ ['*', '/'] <:+: body ++ ['*'] → Layout after rest →
        Layout after ('/' :: '*' :: (body ++ ['*', '/']) ++ rest)

theorem Layout.blanks {after rest blanks : List Char} (blank : ∀ c ∈ blanks, isSpace c = true)
    (layout : Layout after rest) : Layout after (blanks ++ rest) := by
  induction blanks with
  | nil => exact layout
  | cons c blanks ih =>
      obtain ⟨first, others⟩ := List.forall_mem_cons.mp blank
      exact .blank first (ih others)

/-- A comment is closed by the first star that a slash follows. -/
theorem commentTail?_eq_some {text : List Char} {count : Nat}
    (found : commentTail? text = some count) :
    ∃ body, text.take count = body ++ ['*', '/'] ∧ ¬ ['*', '/'] <:+: body ++ ['*'] := by
  fun_induction commentTail? text generalizing count with
  | case1 rest =>
      obtain rfl := Option.some.inj found
      exact ⟨[], rfl, by decide⟩
  | case2 c rest goesOn ih =>
      obtain ⟨inner, further, rfl⟩ := Option.map_eq_some_iff.mp found
      obtain ⟨body, taken, first⟩ := ih further
      refine ⟨c :: body, by simp [taken], fun closes => ?_⟩
      rcases List.infix_cons_iff.mp closes with here | later
      · cases body with
        | nil => simp at here
        | cons d body =>
            obtain ⟨rfl, rfl⟩ : '*' = c ∧ '/' = d := by simpa using here
            cases rest with
            | nil => simp at taken
            | cons e rest =>
                cases inner with
                | zero => simp at taken
                | succ inner =>
                    obtain rfl : e = '/' := by simpa using (List.cons.inj taken).1
                    exact goesOn rest rfl rfl
      · exact first later
  | case3 => cases found

theorem isLayout_word (text : List Char) : (word text).shape.isLayout = false := by
  rcases shape_word text with is | is <;> rw [is] <;> rfl

theorem isLayout_escapedWord (text : List Char) :
    (escapedWord text).shape.isLayout = false := by
  rcases shape_escapedWord text with is | is <;> rw [is] <;> rfl

theorem isLayout_quotedLiteral {shape : Shape} {quote : Char} {text : List Char}
    (content : shape.isLayout = false) :
    (quotedLiteral shape quote text).shape.isLayout = false := by
  rcases shape_quotedLiteral shape quote text with is | is
  · rw [is, content]
  · rw [is]
    rfl

theorem isLayout_markAt (first : Char) (rest : List Char) :
    (markAt first rest).shape.isLayout = false := by
  rcases shape_markAt first rest with ⟨symbol, is⟩ | is <;> rw [is] <;> rfl

theorem layout_scan {first : Char} {rest front after : List Char}
    (isLayout : (scan first rest).shape.isLayout = true)
    (split : rest.drop (scan first rest).following = front ++ after)
    (layout : Layout after front) :
    Layout after (first :: rest.take (scan first rest).following ++ front) := by
  have other {reach : Reach} (content : reach.shape.isLayout = false) :
      ¬ reach.shape.isLayout = true := by
    simp [content]
  revert isLayout split
  fun_cases scan first rest with
  | case1 first rest blank =>
      intro _ _
      refine Layout.blanks (List.forall_mem_cons.mpr ⟨blank, ?_⟩) layout
      rw [take_runLength]
      exact List.all_eq_true.mp List.all_takeWhile
  | case2 first rest => exact fun isLayout => absurd isLayout (other (isLayout_word rest))
  | case3 rest => exact fun isLayout => absurd isLayout (other (isLayout_escapedWord rest))
  | case5 rest => exact fun isLayout => absurd isLayout (other (isLayout_quotedLiteral rfl))
  | case6 rest => exact fun isLayout => absurd isLayout (other (isLayout_quotedLiteral rfl))
  | case8 more =>
      intro _ split
      rw [Nat.add_comm, List.drop_succ_cons, drop_runLength] at split
      rw [Nat.add_comm, List.take_succ_cons, take_runLength]
      refine .lineComment (fun c member => ?_) (fun c member => ?_) layout
      · simpa using List.all_eq_true.mp List.all_takeWhile c member
      · rw [← split, Option.mem_def] at member
        have head := List.head?_dropWhile_not (fun c => !endsLine c) more
        rw [member] at head
        simpa using head
  | case9 tail =>
      intro _ _
      have empty : ([] : List Char).head? ≠ some '*' := by simp
      exact .comment empty (by decide) layout
  | case10 more notClosed =>
      refine fun isLayout => absurd isLayout (other ?_)
      rcases shape_blockComment .docComment 1 more with is | is <;> rw [is] <;> rfl
  | case11 more _ notDoc =>
      unfold blockComment
      split
      · next count closed =>
          intro _ _
          obtain ⟨body, taken, first⟩ := commentTail?_eq_some closed
          rw [Nat.add_zero, Nat.add_comm, List.take_succ_cons, taken]
          refine .comment (fun star => ?_) first layout
          obtain ⟨tail, rfl⟩ := List.head?_eq_some_iff.mp star
          obtain ⟨further, whole⟩ := List.take_prefix count more
          rw [taken] at whole
          exact notDoc _ whole.symm
      · exact fun isLayout => absurd isLayout (other rfl)
  | case12 first rest => exact fun isLayout => absurd isLayout (other (isLayout_markAt first rest))
  | case4 | case7 => exact fun isLayout => absurd isLayout (other rfl)

variable {offset : Nat} {text : List Char} {cut : Cut}

/-- In front of the first lexeme that is no layout there is layout. -/
theorem layout_of_next? (found : next? offset text = some cut) :
    ∃ front, text = front ++ (cut.text ++ cut.rest) ∧ Layout (cut.text ++ cut.rest) front ∧
      cut.first = offset + Text.byteSize front := by
  fun_induction next? offset text with
  | case1 => cases found
  | case2 offset first rest reach taken layout ih =>
      obtain ⟨front, split, inner, place⟩ := ih found
      refine ⟨taken ++ front, ?_, layout_scan layout split inner, ?_⟩
      · rw [List.append_assoc, ← split, List.cons_append, List.take_append_drop]
      · rw [place, Text.byteSize_append, Nat.add_assoc]
  | case3 offset first rest reach taken content =>
      cases found
      exact ⟨[], by simp [taken, reach], .nil, rfl⟩

theorem layout_of_next?_none (none : next? offset text = none) : Layout [] text := by
  fun_induction next? offset text with
  | case1 => exact .nil
  | case2 offset first rest reach taken layout ih =>
      have whole := layout_scan layout (List.append_nil _).symm (ih none)
      rwa [List.cons_append, List.take_append_drop] at whole
  | case3 => cases none

end Lexeme

/-! ### Places -/

/-- The mark that a source may open with, which takes no column. -/
def TokenStream.lead (source : List Char) : List Char :=
  if source.head? = some byteOrderMark then [byteOrderMark] else []

theorem TokenStream.count_lead (source : List Char) : (lead source).count '\n' = 0 := by
  unfold lead
  split <;> rfl

/-- The place after some text of a source, which stands behind the mark in front if there is
one.  It is found by walking from the first line and column. -/
def Location.after (source passed : List Char) : Location :=
  { Location.start with offset := Text.byteSize (TokenStream.lead source) }.advanceOver passed

/-- A place between two characters of a source. -/
def Location.IsIn (source : List Char) (place : Location) : Prop :=
  ∃ passed rest, source = TokenStream.lead source ++ (passed ++ rest) ∧
    place = Location.after source passed

namespace Location

theorem offset_after (source passed : List Char) :
    (Location.after source passed).offset =
      Text.byteSize (TokenStream.lead source ++ passed) := by
  simp [Location.after]

theorem after_append (source passed further : List Char) :
    Location.after source (passed ++ further) =
      (Location.after source passed).advanceOver further :=
  advanceOver_append _ passed further

theorem line_advanceOver (place : Location) (text : List Char) :
    (place.advanceOver text).line = place.line + text.count '\n' := by
  induction text generalizing place with
  | nil => rfl
  | cons c text ih =>
      rw [advanceOver_cons, ih]
      by_cases newline : c = '\n'
      · subst newline
        simp only [advance, if_pos, List.count_cons_self]
        omega
      · simp [advance, newline]

/-- A place is on the line that the number of newlines before it says. -/
theorem line_after (source passed : List Char) :
    (after source passed).line = 1 + passed.count '\n' :=
  line_advanceOver _ passed

/-- A place is moved forward over the text in between. -/
theorem seek_eq (place : Location) (between rest : List Char) :
    place.seek (between ++ rest) (place.offset + Text.byteSize between) =
      (place.advanceOver between, rest) := by
  induction between generalizing place with
  | nil => cases rest <;> simp [seek]
  | cons c between ih =>
      have further : place.offset < place.offset + Text.byteSize (c :: between) := by
        have size := c.utf8Size_pos
        simp only [Text.byteSize_cons]
        omega
      rw [List.cons_append, seek, if_pos further, Text.byteSize_cons, ← Nat.add_assoc,
        ← offset_advance, ih, advanceOver_cons]

end Location

/-! ### Tokens -/

/-- The text of a token is that of its slice: words have their escapes decoded, and blocks
come without the closing brace. -/
def Token.Writes (token : Token) (slice : List Char) : Prop :=
  match token.kind with
  | .identifier | .keyword _ => token.text = String.ofList (Text.decodeEscapes slice)
  | .block => slice = token.text.toList ++ ['\x7d']
  | _ => token.text = String.ofList slice

/-- A token covers a slice of its source, behind some text. -/
structure Token.Covers (source before slice : List Char) (token : Token) : Prop where
  first : token.span.first = Text.byteSize (TokenStream.lead source ++ before)
  stop : token.span.stop = token.span.first + Text.byteSize slice
  place : token.place = Location.after source before
  text : token.Writes slice

/-- The slice is the text between the ends of the token. -/
theorem Token.Covers.slice? {source before slice rest : List Char} {token : Token}
    (covers : token.Covers source before slice)
    (split : source = TokenStream.lead source ++ (before ++ slice ++ rest)) :
    Text.slice? source token.span.first token.span.stop = some slice := by
  have middle := Text.slice?_middle (TokenStream.lead source ++ before) slice rest
  rw [← covers.first, ← covers.stop] at middle
  rw [← middle]
  congr 1
  simpa only [List.append_assoc] using split

/-- The tokens of a source from some text on.  Each covers a slice, only layout is between two
slices, and the last text is what all tokens and the layout in front of them make up. -/
inductive Tiles (source : List Char) : List Char → List Token → List Char → Prop where
  | nothing {before : List Char} : Tiles source before [] before
  | token {before gap slice rest last : List Char} {token : Token} {tokens : List Token} :
      source = TokenStream.lead source ++ (before ++ gap ++ slice ++ rest) →
      Lexeme.Layout (slice ++ rest) gap → token.Covers source (before ++ gap) slice →
      Tiles source (before ++ gap ++ slice) tokens last → Tiles source before (token :: tokens) last

namespace TokenStream

open Lexeme

/-- A stream stands in its source behind the mark in front and some text.  Its own place is no
further. -/
structure Located (source taken : List Char) (stream : TokenStream) : Prop where
  whole : stream.source = source
  rest : source = lead source ++ (taken ++ stream.rest)
  offset : stream.offset = Text.byteSize (lead source ++ taken)
  seen : ∃ passed between, taken = passed ++ between ∧
    stream.place = Location.after source passed ∧ stream.ahead = between ++ stream.rest

/-- What asking a stream for a token or a block comes to. -/
inductive Answers (source taken : List Char) (stream : TokenStream) :
    Except ParseError Token × TokenStream → Prop where
  | token {gap slice : List Char} {token : Token} {after : TokenStream} :
      stream.rest = gap ++ (slice ++ after.rest) → Layout (slice ++ after.rest) gap →
      token.Covers source (taken ++ gap) slice → after.Located source (taken ++ gap ++ slice) →
        Answers source taken stream (.ok token, after)
  | failure {failure : ParseError} {after : TokenStream} :
      failure.place.IsIn source → Answers source taken stream (.error failure, after)

variable {source taken : List Char} {stream : TokenStream}

theorem Located.ofSource (source : List Char) : (ofSource source).Located source [] := by
  unfold TokenStream.ofSource
  split
  · exact ⟨rfl, rfl, rfl, [], [], rfl, rfl, rfl⟩
  · next c rest =>
      split
      · next mark =>
          have opens : lead (c :: rest) = [c] := by simp [lead, mark]
          exact ⟨rfl, by rw [opens]; rfl, by rw [opens]; rfl, [], [], rfl,
            by rw [Location.after, opens]; rfl, rfl⟩
      · next other =>
          have opens : lead (c :: rest) = [] := by simp [lead, other]
          exact ⟨rfl, by rw [opens]; rfl, by rw [opens]; rfl, [], [], rfl,
            by rw [Location.after, opens]; rfl, rfl⟩

/-- The place of a stream is moved to any place ahead. -/
theorem Located.seek (located : stream.Located source taken) {front back : List Char}
    (split : stream.rest = front ++ back) :
    stream.place.seek stream.ahead (stream.offset + Text.byteSize front) =
      (Location.after source (taken ++ front), back) := by
  obtain ⟨passed, between, rfl, place, ahead⟩ := located.seen
  have offset : stream.offset + Text.byteSize front =
      stream.place.offset + Text.byteSize (between ++ front) := by
    rw [located.offset, place, Location.offset_after]
    simp only [Text.byteSize_append]
    omega
  rw [offset, ahead, split, ← List.append_assoc, Location.seek_eq, place, List.append_assoc,
    Location.after_append]

theorem Located.isIn (located : stream.Located source taken) {front back : List Char}
    (split : stream.rest = front ++ back) :
    (Location.after source (taken ++ front)).IsIn source := by
  refine ⟨taken ++ front, back, ?_, rfl⟩
  rw [List.append_assoc, ← split]
  exact located.rest

/-- What is left of a stream once some text has been taken, of which the slice at its end is
still ahead of the place. -/
theorem Located.later (located : stream.Located source taken) {front gap slice rest : List Char}
    {after : TokenStream} (split : stream.rest = front ++ rest) (parts : front = gap ++ slice)
    (same : after.source = stream.source) (left : after.rest = rest)
    (moved : after.offset = stream.offset + Text.byteSize front)
    (place : after.place = Location.after source (taken ++ gap))
    (ahead : after.ahead = slice ++ rest) :
    after.Located source (taken ++ front) where
  whole := same.trans located.whole
  rest := by
    rw [left, List.append_assoc, ← split]
    exact located.rest
  offset := by
    rw [moved, located.offset, ← List.append_assoc, Text.byteSize_append _ front]
  seen := ⟨taken ++ gap, slice, by rw [parts, List.append_assoc], place, by rw [ahead, left]⟩

theorem writes_of_token? {cut : Cut} {token : Token} {kind : TokenKind} {text : String}
    (read : cut.token? = .ok (kind, text)) (sameKind : token.kind = kind)
    (sameText : token.text = text) : token.Writes cut.text := by
  unfold Token.Writes
  rw [sameKind, sameText]
  unfold Cut.token? at read
  cases shape : cut.shape with
  | word =>
      rw [shape] at read
      obtain ⟨rfl, rfl⟩ := by simpa using read
      cases Keyword.ofSpelling? (String.ofList (Text.decodeEscapes cut.text)) <;> rfl
  | space | comment | invalid | unclosedComment =>
      rw [shape] at read
      cases read
  | number | string | character | docComment | mark =>
      rw [shape] at read
      obtain ⟨rfl, rfl⟩ := by simpa using read
      rfl

/-- At the end of its source a stream gives the end of input. -/
theorem Located.next_of_none (located : stream.Located source taken)
    (none : Lexeme.next? stream.offset stream.rest = none) :
    ∃ token after, stream.next = (.ok token, after) ∧ token.kind = .endOfInput ∧
      token.text = "" ∧ token.Covers source (taken ++ stream.rest) [] ∧ after.rest = [] ∧
        after.Located source (taken ++ stream.rest) := by
  have moved := located.seek (List.append_nil stream.rest).symm
  have stop : stream.offset + Text.byteSize stream.rest =
      Text.byteSize (lead source ++ (taken ++ stream.rest)) := by
    rw [located.offset, ← List.append_assoc, Text.byteSize_append _ stream.rest]
  unfold TokenStream.next
  rw [none]
  simp only [locate, endOffset, moved]
  have split : stream.rest = stream.rest ++ [] := (List.append_nil _).symm
  exact ⟨_, _, rfl, rfl, rfl, ⟨stop, rfl, rfl, rfl⟩, rfl,
    located.later split split rfl rfl rfl rfl rfl⟩

/-- A stream takes the next lexeme with the layout in front of it. -/
theorem Located.next_of_some (located : stream.Located source taken) {cut : Cut}
    (found : Lexeme.next? stream.offset stream.rest = some cut) :
    ∃ gap after, stream.rest = gap ++ (cut.text ++ cut.rest) ∧
      Layout (cut.text ++ cut.rest) gap ∧ after.rest = cut.rest ∧
      after.Located source (taken ++ gap ++ cut.text) ∧
      match cut.token? with
      | .ok (kind, text) => ∃ token, stream.next = (.ok token, after) ∧ token.kind = kind ∧
          token.text = text ∧ token.Covers source (taken ++ gap) cut.text
      | .error detail =>
          stream.next =
            (.error (.lexical detail (Location.after source (taken ++ gap))), after) := by
  obtain ⟨gap, split, layout, first⟩ := layout_of_next? found
  have moved := located.seek split
  rw [← first] at moved
  have place : cut.first = Text.byteSize (lead source ++ (taken ++ gap)) := by
    rw [first, located.offset, ← List.append_assoc, Text.byteSize_append _ gap]
  have stop : cut.stop = stream.offset + Text.byteSize (gap ++ cut.text) := by
    rw [Cut.stop, first, Text.byteSize_append, Nat.add_assoc]
  have whole : stream.rest = gap ++ cut.text ++ cut.rest := by rw [split, List.append_assoc]
  unfold TokenStream.next
  rw [found]
  simp only [locate, moved]
  cases read : cut.token? with
  | ok value =>
      refine ⟨gap, _, split, layout, ?_, ?_, _, rfl, rfl, rfl,
        ⟨place, rfl, rfl, writes_of_token? read rfl rfl⟩⟩
      · rfl
      · rw [List.append_assoc]
        exact located.later whole rfl rfl rfl stop rfl rfl
  | error detail =>
      refine ⟨gap, _, split, layout, ?_, ?_, rfl⟩
      · rfl
      · rw [List.append_assoc]
        exact located.later whole rfl rfl rfl stop rfl rfl

/-- The next token covers the slice behind the layout in front of it. -/
theorem Located.next (located : stream.Located source taken) :
    Answers source taken stream stream.next := by
  cases found : Lexeme.next? stream.offset stream.rest with
  | none =>
      obtain ⟨token, after, answer, -, -, covers, ended, later⟩ := located.next_of_none found
      rw [answer]
      refine .token (by simp [ended]) ?_ covers ?_
      · rw [ended]
        exact layout_of_next?_none found
      · rwa [List.append_nil]
  | some cut =>
      obtain ⟨gap, after, split, layout, rest, later, answer⟩ := located.next_of_some found
      cases read : cut.token? with
      | ok value =>
          rw [read] at answer
          obtain ⟨token, answer, -, -, covers⟩ := answer
          rw [answer]
          rw [← rest] at split layout
          exact .token split layout covers later
      | error detail =>
          rw [read] at answer
          rw [answer]
          exact .failure (located.isIn split)

end TokenStream

/-- A comment that leaves a block open is at the end of the text. -/
theorem Block.suffix_of_unclosedComment {depth : Nat} {text comment : List Char}
    (ends : blockEnd depth text = .unclosedComment comment) : comment <:+ text := by
  have further (front : List Char) {later whole : List Char} (passed : later <:+ whole)
      (found : comment <:+ later) : comment <:+ front ++ whole :=
    (found.trans passed).trans (List.suffix_append front whole)
  fun_induction blockEnd depth text with
  | case1 => cases ends
  | case2 depth tail ih => exact further textBlockQuotes (suffix_afterTextBlock tail) (ih ends)
  | case3 depth tail ih => exact further ['/', '/'] (suffix_afterLine tail) (ih ends)
  | case4 depth tail after closed ih =>
      exact further ['/', '*'] (suffix_afterComment? closed) (ih ends)
  | case5 =>
      cases ends
      exact List.suffix_refl _
  | case6 depth tail _ _ _ ih => exact further ['\x7b'] (List.suffix_refl tail) (ih ends)
  | case7 => cases ends
  | case8 tail outer _ _ _ _ ih => exact further ['\x7d'] (List.suffix_refl tail) (ih ends)
  | case9 depth c tail _ _ _ _ _ _ ih => exact further [c] (suffix_afterLiteral c tail) (ih ends)
  | case10 depth c tail _ _ _ _ _ _ ih => exact further [c] (List.suffix_refl tail) (ih ends)

namespace TokenStream

open Lexeme

variable {source taken : List Char} {stream : TokenStream}

/-- A block that is closed is taken with its closing brace. -/
theorem Located.takeBlock_of_closed (located : stream.Located source taken)
    {body rest : List Char} (split : stream.rest = body ++ '\x7d' :: rest)
    (closed : Block.blockEnd 0 stream.rest = .closed rest) :
    ∃ block after, stream.takeBlock = (.ok block, after) ∧
      block.text = String.ofList body ∧ block.Covers source taken (body ++ ['\x7d']) ∧
        after.rest = rest ∧ after.Located source (taken ++ (body ++ ['\x7d'])) := by
  have inside := take_of_split split
  have moved : stream.place.seek stream.ahead stream.offset =
      (Location.after source (taken ++ []), stream.rest) :=
    located.seek (List.nil_append _).symm
  rw [List.append_nil] at moved
  have brace : Text.byteSize (body ++ ['\x7d']) = Text.byteSize body + 1 := by
    rw [Text.byteSize_append]
    rfl
  have whole : stream.rest = (body ++ ['\x7d']) ++ rest := by simp [split]
  have place : Location.after source taken = Location.after source (taken ++ []) := by
    rw [List.append_nil]
  unfold TokenStream.takeBlock
  rw [closed]
  simp only [locate, moved, inside]
  refine ⟨_, _, rfl, rfl, ⟨located.offset, ?_, rfl, ?_⟩, rfl, ?_⟩
  · rw [brace, Nat.add_assoc]
  · simp [Token.Writes]
  · refine located.later whole (List.nil_append _).symm rfl rfl ?_ place whole
    rw [brace, Nat.add_assoc]

theorem Located.takeBlock_of_unclosedComment (located : stream.Located source taken)
    {front text : List Char} (split : stream.rest = front ++ text)
    (ends : Block.blockEnd 0 stream.rest = .unclosedComment text) :
    ∃ failure after, stream.takeBlock = (.error failure, after) ∧
      failure.place = Location.after source (taken ++ front) := by
  have moved := located.seek split
  have back : stream.endOffset - Text.byteSize text = stream.offset + Text.byteSize front := by
    rw [endOffset, split, Text.byteSize_append]
    omega
  unfold TokenStream.takeBlock
  rw [ends]
  simp only [locate, back, moved]
  exact ⟨_, _, rfl, rfl⟩

/-- An open block is a fault at the end of the source. -/
theorem Located.takeBlock_of_unclosed (located : stream.Located source taken)
    (ends : Block.blockEnd 0 stream.rest = .unclosed) :
    ∃ failure after, stream.takeBlock = (.error failure, after) ∧
      failure.place = Location.after source (taken ++ stream.rest) := by
  have moved := located.seek (List.append_nil stream.rest).symm
  unfold TokenStream.takeBlock
  rw [ends]
  simp only [locate, endOffset, moved]
  exact ⟨_, _, rfl, rfl⟩

/-- A block covers the slice up to its closing brace. -/
theorem Located.takeBlock (located : stream.Located source taken) :
    Answers source taken stream stream.takeBlock := by
  cases ends : Block.blockEnd 0 stream.rest with
  | closed rest =>
      obtain ⟨body, split⟩ := Block.exists_body_of_closed ends
      obtain ⟨block, after, answer, -, covers, left, later⟩ :=
        located.takeBlock_of_closed split ends
      rw [answer]
      have whole : stream.rest = [] ++ ((body ++ ['\x7d']) ++ after.rest) := by simp [split, left]
      refine .token whole .nil ?_ ?_
      · rwa [List.append_nil]
      · rwa [List.append_nil]
  | unclosedComment text =>
      obtain ⟨front, split⟩ := Block.suffix_of_unclosedComment ends
      obtain ⟨failure, after, answer, place⟩ :=
        located.takeBlock_of_unclosedComment split.symm ends
      rw [answer]
      refine .failure ?_
      rw [place]
      exact located.isIn split.symm
  | unclosed =>
      obtain ⟨failure, after, answer, place⟩ := located.takeBlock_of_unclosed ends
      rw [answer]
      refine .failure ?_
      rw [place]
      exact located.isIn (List.append_nil _).symm

/-! ### Tokens one after the other -/

/-- What a stream can be asked for. -/
inductive Request where
  | next
  /-- The rest of a block whose opening brace is taken. -/
  | block

def answer (stream : TokenStream) : Request → Except ParseError Token × TokenStream
  | .next => stream.next
  | .block => stream.takeBlock

def answers (stream : TokenStream) : List Request → List Token
  | [] => []
  | request :: requests =>
      match stream.answer request with
      | (.ok token, after) => token :: after.answers requests
      | (.error _, _) => []

theorem Located.answer (located : stream.Located source taken) (request : Request) :
    Answers source taken stream (stream.answer request) := by
  cases request with
  | next => exact located.next
  | block => exact located.takeBlock

/-- The tokens that a stream gives tile its source from where it stands. -/
theorem Located.tiles (located : stream.Located source taken) (requests : List Request) :
    ∃ last, Tiles source taken (stream.answers requests) last := by
  induction requests generalizing stream taken with
  | nil => exact ⟨taken, .nothing⟩
  | cons request requests ih =>
      have answered := located.answer request
      unfold answers
      cases outcome : stream.answer request with
      | mk result after =>
          rw [outcome] at answered
          cases answered with
          | failure _ => exact ⟨taken, .nothing⟩
          | @token gap slice token after split layout covers later =>
              obtain ⟨last, tiles⟩ := ih later
              refine ⟨last, .token ?_ layout covers tiles⟩
              exact later.rest

end TokenStream

namespace Tiles

variable {source before last : List Char} {tokens : List Token}

theorem pairwise (tiles : Tiles source before tokens last) :
    (∀ token ∈ tokens, Text.byteSize (TokenStream.lead source ++ before) ≤ token.span.first) ∧
      tokens.Pairwise fun one other => one.span.stop ≤ other.span.first := by
  induction tiles with
  | nothing => exact ⟨by simp, .nil⟩
  | @token before gap slice rest last token tokens split layout covers tiles ih =>
      obtain ⟨behind, sorted⟩ := ih
      have start : token.span.first =
          Text.byteSize (TokenStream.lead source ++ before) + Text.byteSize gap := by
        rw [covers.first, ← List.append_assoc, Text.byteSize_append _ gap]
      have stop : Text.byteSize (TokenStream.lead source ++ (before ++ gap ++ slice)) =
          token.span.stop := by
        rw [covers.stop, covers.first, ← List.append_assoc, Text.byteSize_append _ slice]
      rw [stop] at behind
      refine ⟨List.forall_mem_cons.mpr ⟨by omega, fun other member => ?_⟩,
        List.pairwise_cons.mpr ⟨behind, sorted⟩⟩
      have := behind other member
      have := covers.stop
      omega

/-- A tile is a slice of the source, between two of its characters. -/
theorem slice (tiles : Tiles source before tokens last) :
    ∀ token ∈ tokens, ∃ slice,
      Text.slice? source token.span.first token.span.stop = some slice ∧ token.Writes slice := by
  induction tiles with
  | nothing => simp
  | @token before gap slice rest last token tokens split layout covers tiles ih =>
      exact List.forall_mem_cons.mpr ⟨⟨slice, covers.slice? split, covers.text⟩, ih⟩

/-- A tile stands where the walk over the source comes to its first byte. -/
theorem isIn (tiles : Tiles source before tokens last) :
    ∀ token ∈ tokens, token.place.IsIn source ∧ token.place.offset = token.span.first := by
  induction tiles with
  | nothing => simp
  | @token before gap slice rest last token tokens split layout covers tiles ih =>
      refine List.forall_mem_cons.mpr ⟨⟨⟨before ++ gap, slice ++ rest, ?_, covers.place⟩, ?_⟩, ih⟩
      · rw [List.append_assoc] at split
        exact split
      · rw [covers.place, covers.first, Location.offset_after]

end Tiles

end JavaDecl
