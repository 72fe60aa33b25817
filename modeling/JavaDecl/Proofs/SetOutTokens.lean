import JavaDecl.Proofs.CutLexemes

/-!
# Tokens that are set out

The tokens of a source do not depend on its layout.  Its slices are the same tokens again when
they are written one behind the other with blanks and plain comments between them, whatever
stood between them before.
-/

namespace JavaDecl

namespace Lexeme

variable {text rest tail gap after more : List Char} {first c : Char} {cut : Cut}

/-! ### Layout in front of a text -/

theorem next?_of_scan {shape : Shape}
    (reach : scan first (more ++ rest) = { shape, following := more.length })
    (isLayout : shape.isLayout = true) (offset : Nat) :
    next? offset (first :: (more ++ rest)) =
      next? (offset + Text.byteSize (first :: more)) rest := by
  rw [next?_cons, opening_of_scan reach, if_pos isLayout]
  rfl

theorem next?_blank (space : isSpace c = true) (offset : Nat) (text : List Char) :
    next? offset (c :: text) = next? (offset + c.utf8Size) text := by
  have passed {c : Char} (space : isSpace c = true) (offset : Nat) (text : List Char) :
      next? offset (c :: text) =
        next? (offset + Text.byteSize (c :: text.takeWhile isSpace)) (text.dropWhile isSpace) := by
    have cut : opening c text offset =
        { shape := .space, text := c :: text.takeWhile isSpace, first := offset,
          rest := text.dropWhile isSpace } := by
      rw [opening, scan_of_isSpace space, take_runLength, drop_runLength]
    rw [next?_cons, cut]
    rfl
  rw [passed space]
  cases text with
  | nil => rfl
  | cons d text =>
      by_cases further : isSpace d = true
      · rw [passed further, List.takeWhile_cons_of_pos further, List.dropWhile_cons_of_pos further,
          Text.byteSize_cons, Nat.add_assoc]
      · rw [List.takeWhile_cons_of_neg further, List.dropWhile_cons_of_neg further]
        rfl

/-- A line comment takes what is in front of the end of the line. -/
theorem scan_lineComment (inLine : ∀ c ∈ text, endsLine c = false)
    (ends : ∀ c ∈ rest.head?, endsLine c = true) :
    scan '/' (('/' :: text) ++ rest) =
      { shape := .comment, following := ('/' :: text).length } := by
  have none : rest.takeWhile (fun c => !endsLine c) = [] :=
    takeWhile_eq_nil (by simpa using ends)
  have length : runLength (fun c => !endsLine c) (text ++ rest) = text.length := by
    rw [runLength, List.takeWhile_append_of_pos (by simpa using inLine), none, List.append_nil]
  rw [scan_slash, if_pos ⟨text ++ rest, rfl⟩, List.cons_append, List.tail_cons, length,
    List.length_cons, Nat.add_comm]

/-- A comment in stars takes what is in front of its first star and slash, and these. -/
theorem scan_comment (noDoc : text.head? ≠ some '*') (unclosed : ¬ ['*', '/'] <:+: text)
    (rest : List Char) :
    scan '/' (('*' :: (text ++ ['*', '/'])) ++ rest) =
      { shape := .comment, following := ('*' :: (text ++ ['*', '/'])).length } := by
  cases text with
  | nil =>
      rw [scan_slash, if_neg (by simp), if_pos ⟨rest, rfl⟩]
      rfl
  | cons c text =>
      have plain : ¬ ['*', '*'] <+: ('*' :: (c :: text ++ ['*', '/'])) ++ rest := by
        simpa [eq_comm] using noDoc
      have empty : ¬ ['*', '*', '/'] <+: ('*' :: (c :: text ++ ['*', '/'])) ++ rest :=
        fun starts => plain ((List.prefix_append ['*', '*'] ['/']).trans starts)
      have tail : (('*' :: (c :: text ++ ['*', '/'])) ++ rest).tail =
          c :: text ++ '*' :: '/' :: rest := by simp
      have length : ('*' :: (c :: text ++ ['*', '/'])).length =
          1 + 0 + ((c :: text).length + 2) := by
        rw [List.length_cons, List.length_append, Nat.add_comm]
        rfl
      rw [scan_slash, if_neg (by simp), if_neg empty, if_neg plain, if_pos ⟨_, rfl⟩, tail,
        blockComment, commentTail?_append unclosed, length]

theorem Layout.next? (layout : Layout after gap) (offset : Nat) :
    Lexeme.next? offset (gap ++ after) = Lexeme.next? (offset + Text.byteSize gap) after := by
  have comment {more rest : List Char}
      (reach : scan '/' (more ++ (rest ++ after)) = { shape := .comment, following := more.length })
      (ih : ∀ offset, Lexeme.next? offset (rest ++ after) =
        Lexeme.next? (offset + Text.byteSize rest) after) (offset : Nat) :
      Lexeme.next? offset ('/' :: more ++ rest ++ after) =
        Lexeme.next? (offset + Text.byteSize ('/' :: more ++ rest)) after :=
    calc
      Lexeme.next? offset ('/' :: more ++ rest ++ after)
      _ = Lexeme.next? offset ('/' :: (more ++ (rest ++ after))) := by simp
      _ = Lexeme.next? (offset + Text.byteSize ('/' :: more) + Text.byteSize rest) after := by
        rw [next?_of_scan reach rfl, ih]
      _ = Lexeme.next? (offset + Text.byteSize ('/' :: more ++ rest)) after := by
        rw [Text.byteSize_append, Nat.add_assoc]
  induction layout generalizing offset with
  | nil => rfl
  | @blank c rest space _ ih =>
      rw [List.cons_append, next?_blank space, ih, Text.byteSize_cons, Nat.add_assoc]
  | lineComment inLine ends _ ih => exact comment (scan_lineComment inLine ends) ih offset
  | @comment body _ noDoc first _ ih =>
      have unclosed : ¬ ['*', '/'] <:+: body :=
        mt (·.trans (List.prefix_append body ['*']).isInfix) first
      exact comment (scan_comment noDoc unclosed _) ih offset

theorem next?_blanks {gap : List Char} (blank : ∀ c ∈ gap, isSpace c = true) (offset : Nat)
    (text : List Char) :
    Lexeme.next? offset (gap ++ text) = Lexeme.next? (offset + Text.byteSize gap) text := by
  have layout : Layout text gap := by
    simpa using Layout.blanks blank (.nil : Layout text [])
  exact layout.next? offset

/-! ### Separators -/

/-- Blanks, comments up to the end of a line, and comments in stars that are empty or no doc
comments. -/
inductive Filling : List Char → Prop where
  | nothing : Filling []
  | blank {c : Char} {rest : List Char} : isSpace c = true → Filling rest → Filling (c :: rest)
  | lineComment {body rest : List Char} {last : Char} : (∀ c ∈ body, endsLine c = false) →
      endsLine last = true → Filling rest → Filling ('/' :: '/' :: body ++ last :: rest)
  | comment {body rest : List Char} : body.head? ≠ some '*' → ¬ ['*', '/'] <:+: body →
      Filling rest → Filling ('/' :: '*' :: (body ++ ['*', '/']) ++ rest)

/-- A text that opens with a blank and has only layout behind it. -/
def Separates (gap : List Char) : Prop :=
  ∃ c rest, gap = c :: rest ∧ isSpace c = true ∧ Filling rest

theorem Filling.layout (filling : Filling gap) (after : List Char) : Layout after gap := by
  induction filling with
  | nothing => exact .nil
  | blank space _ ih => exact .blank space ih
  | @lineComment body rest last inLine ends _ ih =>
      have ended : ∀ c ∈ ((last :: rest) ++ after).head?, endsLine c = true := by simpa using ends
      have space : isSpace last = true := by
        simp only [endsLine, Bool.or_eq_true, beq_iff_eq] at ends
        rcases ends with rfl | rfl <;> decide
      exact .lineComment inLine ended (.blank space ih)
  | @comment body rest noDoc unclosed _ ih =>
      have first : ¬ ['*', '/'] <:+: body ++ ['*'] := by
        rw [List.infix_concat_iff, not_or]
        refine ⟨?_, unclosed⟩
        rintro ⟨front, whole⟩
        simpa using congrArg List.getLast? whole
      exact .comment noDoc first ih

theorem Separates.layout (separates : Separates gap) (after : List Char) : Layout after gap := by
  obtain ⟨c, rest, rfl, space, filling⟩ := separates
  exact .blank space (filling.layout after)

theorem Separates.opensBlank (separates : Separates gap) (text : List Char) :
    OpensBlank (gap ++ text) := by
  obtain ⟨c, rest, rfl, space, -⟩ := separates
  intro d found
  obtain rfl := Option.some.inj found
  exact space

/-- Pieces of text that are written one behind the other, with a separator before each and
behind the last. -/
inductive SetOut : List (List Char) → List Char → Prop where
  | last {gap : List Char} : Separates gap → SetOut [] gap
  | piece {gap piece text : List Char} {pieces : List (List Char)} :
      Separates gap → SetOut pieces text → SetOut (piece :: pieces) (gap ++ (piece ++ text))

theorem SetOut.opensBlank {pieces : List (List Char)} (set : SetOut pieces text) :
    OpensBlank text := by
  cases set with
  | last separates =>
      have opens := separates.opensBlank []
      rwa [List.append_nil] at opens
  | piece separates _ => exact separates.opensBlank _

/-! ### Tokens -/

theorem SetOut.next?_of_nil (set : SetOut [] text) (offset : Nat) : next? offset text = none := by
  cases set with
  | last separates =>
      rw [← List.append_nil text, (separates.layout []).next?, next?]

/-- A token that is cut out is the next one where it is followed by a blank. -/
theorem next?_of_isToken (isToken : cut.shape.isToken = true) (opens : cut.Opens first rest)
    (blank : OpensBlank tail) (offset : Nat) :
    next? offset (cut.text ++ tail) = some { cut with first := offset, rest := tail } := by
  rw [opens.shape] at isToken
  obtain ⟨within, same⟩ := scan_isCutOut isToken blank.opensBreak
  have reach : scan first (rest.take (scan first rest).following ++ tail) =
      { shape := cut.shape, following := (rest.take (scan first rest).following).length } := by
    rw [same (Nat.le_refl _), opens.shape, List.length_take, Nat.min_eq_left within]
  rw [opens.text, List.cons_append, next?_cons, opening_of_scan reach, opens.shape,
    isLayout_of_isToken isToken]
  rfl

theorem SetOut.next?_of_cons {pieces : List (List Char)} (set : SetOut (cut.text :: pieces) text)
    (isToken : cut.shape.isToken = true) (opens : cut.Opens first rest) (offset : Nat) :
    ∃ start further, next? offset text = some { cut with first := start, rest := further } ∧
      SetOut pieces further := by
  cases set with
  | @piece gap _ further _ separates set =>
      refine ⟨offset + Text.byteSize gap, further, ?_, set⟩
      rw [(separates.layout (cut.text ++ further)).next?,
        next?_of_isToken isToken opens set.opensBlank]

end Lexeme

namespace TokenStream

open Lexeme

variable {source taken text : List Char} {stream after other : TokenStream} {token : Token}
  {cut : Cut}

theorem tokensFrom_of_none (none : Lexeme.next? stream.offset stream.rest = none)
    (next : stream.next = (.ok token, after)) : stream.tokensFrom = ([token], .none) := by
  rw [tokensFrom]
  split
  · rw [next]
  · next found => simp [none] at found

theorem tokensFrom_of_some (found : Lexeme.next? stream.offset stream.rest = some cut)
    (next : stream.next = (.ok token, after)) :
    stream.tokensFrom = (token :: after.tokensFrom.1, after.tokensFrom.2) := by
  rw [tokensFrom]
  split
  · next none => simp [found] at none
  · rw [next]

theorem tokensFrom_of_error {failure : ParseError}
    (found : Lexeme.next? stream.offset stream.rest = some cut)
    (next : stream.next = (.error failure, after)) : stream.tokensFrom = ([], some failure) := by
  rw [tokensFrom]
  split
  · next none => simp [found] at none
  · rw [next]

/-- The first piece that is set out is the token that it was where it comes from, and the
others are set out behind it. -/
theorem Located.next_of_setOut (located : stream.Located source taken)
    {pieces : List (List Char)} (set : SetOut (cut.text :: pieces) stream.rest) {offset : Nat}
    (found : Lexeme.next? offset text = some cut) {value : TokenKind × String}
    (read : cut.token? = .ok value) :
    ∃ (token : Token) (after : TokenStream) (passed : List Char),
      stream.tokensFrom = (token :: after.tokensFrom.1, after.tokensFrom.2) ∧
        token.kind = value.1 ∧ token.text = value.2 ∧ after.Located source passed ∧
          SetOut pieces after.rest := by
  obtain ⟨front, first, tail, -, -, opens⟩ := exists_front_of_next? found
  obtain ⟨start, further, again, set⟩ :=
    set.next?_of_cons (isToken_of_token? read) opens stream.offset
  obtain ⟨_, after, -, -, rest, later, answer⟩ := located.next_of_some again
  have same : ({ cut with first := start, rest := further } : Cut).token? = .ok value := read
  rw [same] at answer
  obtain ⟨token, next, kind, written, -⟩ := answer
  exact ⟨token, after, _, tokensFrom_of_some again next, kind, written, later, by rwa [rest]⟩

/-- The tokens of a stream are the same again where their slices are set out. -/
theorem Located.tokens_of_setOut (located : stream.Located source taken)
    (whole : stream.tokensFrom.2 = none) :
    ∃ tokens ended slices, stream.tokensFrom.1 = tokens ++ [ended] ∧ ended.kind = .endOfInput ∧
      tokens.map (fun token => Text.slice? source token.span.first token.span.stop) =
        slices.map some ∧
      ∀ {text passed : List Char} {other : TokenStream}, other.Located text passed →
        SetOut slices other.rest → other.tokensFrom.2 = none ∧
          other.tokensFrom.1.map (fun token => (token.kind, token.text)) =
            stream.tokensFrom.1.map fun token => (token.kind, token.text) := by
  induction length : stream.rest.length using Nat.strongRecOn generalizing stream taken with
  | ind _ ih =>
      cases found : Lexeme.next? stream.offset stream.rest with
      | none =>
          obtain ⟨ended, after, next, kind, text, -⟩ := located.next_of_none found
          have all := tokensFrom_of_none found next
          refine ⟨[], ended, [], by rw [all]; rfl, kind, rfl, fun {_ _ other} located set => ?_⟩
          have nothing : Lexeme.next? other.offset other.rest = none :=
            set.next?_of_nil other.offset
          obtain ⟨ended', after', next', kind', text', -⟩ := located.next_of_none nothing
          rw [all, tokensFrom_of_none nothing next']
          exact ⟨rfl, by simp [kind, kind', text, text']⟩
      | some cut =>
          obtain ⟨gap, after, split, layout, rest, later, answer⟩ := located.next_of_some found
          cases read : cut.token? with
          | error detail =>
              rw [read] at answer
              rw [tokensFrom_of_error found answer] at whole
              cases whole
          | ok value =>
              rw [read] at answer
              obtain ⟨token, next, kind, text, covers⟩ := answer
              have all := tokensFrom_of_some found next
              have shorter : after.rest.length < stream.rest.length := by
                rw [rest]
                exact length_rest_lt_of_cut found
              rw [all] at whole
              obtain ⟨tokens, ended, slices, parts, last, written, again⟩ :=
                ih _ (length ▸ shorter) later whole rfl
              refine ⟨token :: tokens, ended, cut.text :: slices, by rw [all, parts]; rfl, last, ?_,
                fun {_ _ other} located set => ?_⟩
              · rw [List.map_cons, List.map_cons, covers.slice? later.rest, written]
              · obtain ⟨token', after', _, all', kind', text', later', set⟩ :=
                  located.next_of_setOut set found read
                obtain ⟨whole', same⟩ := again later' set
                rw [all, all']
                refine ⟨whole', ?_⟩
                rw [List.map_cons, List.map_cons, same, kind, kind', text, text']

end TokenStream

open Lexeme

/-- Tokens do not depend on layout.  The slices of a source without faults are tokens of the
same kinds and texts again when they are written one behind the other, in front of each, and
behind the last, a blank and any further blanks and plain comments. -/
theorem tokens_do_not_depend_on_layout {source : List Char}
    (whole : (scanTokens source).2 = none) :
    ∃ tokens ended slices, (scanTokens source).1 = tokens ++ [ended] ∧ ended.kind = .endOfInput ∧
      tokens.map (fun token => Text.slice? source token.span.first token.span.stop) =
        slices.map some ∧
      ∀ text, SetOut slices text → (scanTokens text).2 = none ∧
        (scanTokens text).1.map (fun token => (token.kind, token.text)) =
          (scanTokens source).1.map fun token => (token.kind, token.text) := by
  obtain ⟨tokens, ended, slices, parts, last, written, again⟩ :=
    (TokenStream.Located.ofSource source).tokens_of_setOut whole
  refine ⟨tokens, ended, slices, parts, last, written, fun text set => ?_⟩
  have unmarked : (TokenStream.ofSource text).rest = text := by
    cases text with
    | nil => rfl
    | cons c text =>
        have other : c ≠ TokenStream.byteOrderMark := by
          rintro rfl
          exact absurd (set.opensBlank _ rfl) (by decide)
        rw [TokenStream.ofSource, if_neg other]
  exact again (TokenStream.Located.ofSource text) (by rwa [unmarked])

/-- A doc comment, an escape, numbers and a slash with every kind of layout between them. -/
theorem slices_between_blanks_and_comments :
    let source := "/** d */v\\u0041=0x1fL+1.e3/.5".toList
    let text := " ".toList ++ ("/** d */".toList ++ ("\n/**/".toList ++ ("v\\u0041".toList ++
      ("\t// x\r\n".toList ++ ("=".toList ++ (" ".toList ++ ("0x1fL".toList ++
      ("\x0c/* ** */".toList ++ ("+".toList ++ (" ".toList ++ ("1.e3".toList ++
      (" ".toList ++ ("/".toList ++ ("\r/*/*/".toList ++ (".5".toList ++ "\n".toList)))))))))))))))
    (scanTokens source).2 = none ∧ (scanTokens text).2 = none ∧
      (scanTokens text).1.map (fun token => (token.kind, token.text)) =
        (scanTokens source).1.map fun token => (token.kind, token.text) := by
  intro source text
  have whole : (scanTokens source).2 = none := by decide +kernel
  obtain ⟨tokens, ended, slices, parts, -, written, again⟩ := tokens_do_not_depend_on_layout whole
  have blank {c : Char} (space : isSpace c = true) : Separates [c] :=
    ⟨c, [], rfl, space, .nothing⟩
  have comment {c : Char} {body : List Char} (space : isSpace c = true)
      (noDoc : body.head? ≠ some '*') (unclosed : ¬ ['*', '/'] <:+: body) :
      Separates (c :: '/' :: '*' :: (body ++ ['*', '/'])) :=
    ⟨c, _, rfl, space, by simpa using Filling.comment noDoc unclosed .nothing⟩
  have empty : Separates "\n/**/".toList := @comment '\n' [] rfl (by decide) (by decide)
  have line : Separates "\t// x\r\n".toList :=
    ⟨'\t', _, rfl, rfl, @Filling.lineComment [' ', 'x'] ['\n'] '\r' (by simp [endsLine])
      rfl (.blank rfl .nothing)⟩
  have stars : Separates "\x0c/* ** */".toList :=
    @comment '\x0c' " ** ".toList rfl (by decide) (by decide)
  have slash : Separates "\r/*/*/".toList := @comment '\r' ['/'] rfl (by decide) (by decide)
  have set : SetOut (["/** d */", "v\\u0041", "=", "0x1fL", "+", "1.e3", "/", ".5"].map
      String.toList) text :=
    .piece (blank rfl) <| .piece empty <| .piece line <| .piece (blank rfl) <| .piece stars <|
      .piece (blank rfl) <| .piece (blank rfl) <| .piece slash <| .last (blank rfl)
  have tokens_eq : tokens = (scanTokens source).1.dropLast := by rw [parts, List.dropLast_concat]
  have written' : tokens.map (fun token => Text.slice? source token.span.first token.span.stop) =
      (["/** d */", "v\\u0041", "=", "0x1fL", "+", "1.e3", "/", ".5"].map String.toList).map
        some := by
    rw [tokens_eq]
    decide +kernel
  obtain rfl := (List.map_inj_right fun _ _ => Option.some.inj).mp (written.symm.trans written')
  exact ⟨whole, again text set⟩

end JavaDecl
