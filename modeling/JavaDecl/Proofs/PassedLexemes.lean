import JavaDecl.Token.Stream

/-!
# Blocks run over lexemes

The scan for the end of a block has rules of its own for literals and comments.  They end
where lexemes end: it runs over a lexeme as a whole, and only a brace that is a lexeme counts.
This fails for a text block, which is several literals, and for a line comment that ends in
a carriage return alone.
-/

namespace JavaDecl

namespace Lexeme

theorem take_runLength (holds : Char → Bool) (text : List Char) :
    text.take (runLength holds text) = text.takeWhile holds :=
  (List.prefix_iff_eq_take.mp (List.takeWhile_prefix holds)).symm

theorem drop_runLength (holds : Char → Bool) (text : List Char) :
    text.drop (runLength holds text) = text.dropWhile holds :=
  calc
    text.drop (runLength holds text) =
        (text.takeWhile holds ++ text.dropWhile holds).drop (text.takeWhile holds).length := by
      rw [List.takeWhile_append_dropWhile]
      rfl
    _ = text.dropWhile holds := List.drop_left

end Lexeme

namespace Block

def textBlockQuotes : List Char :=
  ['"', '"', '"']

/-- The text starts with a comment. -/
def OpensComment (text : List Char) : Prop :=
  ['/', '/'] <+: text ∨ ['/', '*'] <+: text

variable {count more : Nat} {text rest : List Char} {c : Char}

/-- What the end of a block becomes by a character that opens neither a text block nor a
comment. -/
theorem blockEnd_cons (depth : Nat) (noBlock : ¬ textBlockQuotes <+: c :: rest)
    (noComment : ¬ OpensComment (c :: rest)) :
    blockEnd depth (c :: rest) =
      if c = '\x7b' then blockEnd (depth + 1) rest
      else if c = '\x7d' then
        match depth with
        | 0 => .closed rest
        | outer + 1 => blockEnd outer rest
      else if c = '"' || c = '\'' then blockEnd depth (afterLiteral c rest)
      else blockEnd depth rest := by
  have quotes : ∀ tail, c = '"' → rest = '"' :: '"' :: tail → False := by
    rintro tail rfl rfl
    exact noBlock ⟨tail, rfl⟩
  have line : ∀ tail, c = '/' → rest = '/' :: tail → False := by
    rintro tail rfl rfl
    exact noComment (.inl ⟨tail, rfl⟩)
  have block : ∀ tail, c = '/' → rest = '*' :: tail → False := by
    rintro tail rfl rfl
    exact noComment (.inr ⟨tail, rfl⟩)
  cases depth with
  | zero => rw [blockEnd] <;> assumption
  | succ outer => rw [blockEnd] <;> assumption

theorem blockEnd_blockComment (depth : Nat) {after : List Char}
    (closed : afterComment? rest = some after) :
    blockEnd depth ('/' :: '*' :: rest) = blockEnd depth after := by
  rw [blockEnd]
  split
  · next other found =>
      rw [closed] at found
      rw [Option.some.inj found]
  · next missing =>
      rw [closed] at missing
      cases missing

/-! ### What is skipped as a whole -/

theorem afterLiteral_cons (quote : Char) (unescaped : c ≠ '\\' ∨ rest = []) :
    afterLiteral quote (c :: rest) =
      if c = '\n' || c = quote then rest else afterLiteral quote rest := by
  rw [afterLiteral]
  rintro d tail rfl rfl
  simp at unescaped

theorem afterTextBlock_cons (goesOn : ¬ textBlockQuotes <+: c :: rest) :
    afterTextBlock (c :: rest) = afterTextBlock rest := by
  rw [afterTextBlock]
  rintro tail rfl rfl
  exact goesOn ⟨tail, rfl⟩

theorem afterComment?_cons (goesOn : ¬ ['*', '/'] <+: c :: rest) :
    afterComment? (c :: rest) = afterComment? rest := by
  rw [afterComment?]
  rintro tail rfl rfl
  exact goesOn ⟨tail, rfl⟩

/-! ### Characters that do not matter -/

/-- The characters that the end of a block may depend on. -/
def signs : List Char :=
  ['\x7b', '\x7d', '"', '\'', '/']

/-- A character that the end of a block does not depend on. -/
def IsPlain (c : Char) : Prop :=
  c ∉ signs

instance (c : Char) : Decidable (IsPlain c) :=
  inferInstanceAs (Decidable (c ∉ _))

/-- The first characters of a text are plain. -/
def PlainUpTo (count : Nat) (text : List Char) : Prop :=
  ∀ c ∈ text.take count, IsPlain c

theorem IsPlain.of_holds {holds : Char → Bool}
    (excludes : signs.all (!holds ·)) (held : holds c) : IsPlain c := by
  intro member
  have fails := List.all_eq_true.mp excludes c member
  simp [held] at fails

theorem PlainUpTo.zero (text : List Char) : PlainUpTo 0 text := by
  simp [PlainUpTo]

theorem PlainUpTo.cons (plain : IsPlain c) (further : PlainUpTo count rest) :
    PlainUpTo (1 + count) (c :: rest) := by
  rw [Nat.add_comm]
  simpa [PlainUpTo] using ⟨plain, further⟩

theorem PlainUpTo.add (first : PlainUpTo count text) (second : PlainUpTo more (text.drop count)) :
    PlainUpTo (count + more) text := by
  intro c member
  rw [List.take_add, List.mem_append] at member
  rcases member with early | late
  · exact first c early
  · exact second c late

theorem PlainUpTo.runLength {holds : Char → Bool}
    (excludes : signs.all (!holds ·)) (text : List Char) :
    PlainUpTo (Lexeme.runLength holds text) text := by
  intro c member
  rw [Lexeme.take_runLength] at member
  exact .of_holds excludes (List.all_eq_true.mp List.all_takeWhile c member)

/-- A slash does not matter either, unless it opens a comment. -/
theorem blockEnd_slash (depth : Nat) (noComment : ¬ OpensComment ('/' :: rest)) :
    blockEnd depth ('/' :: rest) = blockEnd depth rest := by
  rw [blockEnd_cons depth (by simp [textBlockQuotes]) noComment]
  rfl

theorem blockEnd_plain (depth : Nat) (plain : IsPlain c) :
    blockEnd depth (c :: rest) = blockEnd depth rest := by
  simp only [IsPlain, signs, List.mem_cons, List.not_mem_nil, or_false, not_or] at plain
  obtain ⟨notOpen, notClose, notDouble, notSingle, notSlash⟩ := plain
  rw [blockEnd_cons depth (by simp [textBlockQuotes, Ne.symm notDouble])
    (by simp [OpensComment, Ne.symm notSlash])]
  simp [notOpen, notClose, notDouble, notSingle]

/-- The end of a block does not depend on plain characters at the start of the text. -/
theorem blockEnd_drop (depth : Nat) (plain : PlainUpTo count text) :
    blockEnd depth text = blockEnd depth (text.drop count) := by
  induction text generalizing count with
  | nil => simp
  | cons c rest ih =>
      cases count with
      | zero => rfl
      | succ count =>
          have first : IsPlain c := plain c (by simp)
          have further : PlainUpTo count rest := fun d member => plain d (by simp [member])
          rw [blockEnd_plain depth first, List.drop_succ_cons, ih further]

end Block

namespace Lexeme

open Block

/-! ### Words -/

theorem plainUpTo_escapeTail (text : List Char) : PlainUpTo (escapeTail text).1 text := by
  have marks : PlainUpTo (runLength (· == 'u') text) text := .runLength (by decide) text
  unfold escapeTail
  dsimp only
  split
  · next complete =>
      simp only [Bool.and_eq_true] at complete
      refine marks.add fun c member => ?_
      exact .of_holds (by decide) (List.all_eq_true.mp complete.2 c member)
  · exact marks

theorem plainUpTo_wordTail (text : List Char) : PlainUpTo (wordTail text).1 text := by
  fun_induction wordTail text with
  | case1 => exact .zero _
  | case2 => exact .zero _
  | case3 rest length _ escape more sound further ih =>
      have first := plainUpTo_escapeTail rest
      rw [escape] at first
      rw [further] at ih
      rw [Nat.add_assoc]
      exact .cons (by decide) (first.add ih)
  | case4 rest length _ escape =>
      have first := plainUpTo_escapeTail rest
      rw [escape] at first
      exact .cons (by decide) first
  | case5 c rest _ continues more sound further ih =>
      rw [further] at ih
      exact .cons (.of_holds (by decide) continues) ih
  | case6 => exact .zero _

theorem plainUpTo_word (text : List Char) : PlainUpTo (word text).following text :=
  plainUpTo_wordTail text

theorem plainUpTo_escapedWord (text : List Char) :
    PlainUpTo (escapedWord text).following text := by
  have escape := plainUpTo_escapeTail text
  unfold escapedWord
  split
  · exact .zero _
  · next length _ found => rwa [found] at escape
  · next length _ found =>
      rw [found] at escape
      exact escape.add (plainUpTo_wordTail _)

/-! ### Numbers -/

theorem plainUpTo_one {choices : List Char} (plain : choices.all (IsPlain ·))
    (text : List Char) : PlainUpTo (if startsWithAny choices text then 1 else 0) text := by
  split
  · next starts =>
      cases text with
      | nil => cases starts
      | cons c rest =>
          have chosen : c ∈ choices := by simpa [startsWithAny] using starts
          exact .cons (by simpa using List.all_eq_true.mp plain c chosen) (.zero rest)
  · exact .zero text

theorem plainUpTo_exponentLength (text : List Char) : PlainUpTo (exponentLength text) text := by
  fun_cases exponentLength text with
  | case1 => exact .zero _
  | case2 => exact .zero _
  | case3 c rest isExponent sign digits =>
      have letter : IsPlain c := by rcases isExponent with rfl | rfl <;> decide
      rw [Nat.add_assoc]
      exact .cons letter ((plainUpTo_one (by decide) rest).add (.runLength (by decide) _))
  | case4 => exact .zero _

theorem plainUpTo_scaleLength {suffixes : List Char} (plain : suffixes.all (IsPlain ·))
    (text : List Char) : PlainUpTo (scaleLength suffixes text) text :=
  (plainUpTo_exponentLength text).add (plainUpTo_one plain _)

theorem plainUpTo_fractionLength (text : List Char) : PlainUpTo (fractionLength text) text := by
  unfold fractionLength
  split
  · exact .cons (by decide) (.runLength (by decide) _)
  · exact .zero _

theorem plainUpTo_decimalTail (text : List Char) : PlainUpTo (decimalTail text) text := by
  have whole : PlainUpTo (runLength isDigitPart text) text := .runLength (by decide) text
  exact (whole.add (plainUpTo_fractionLength _)).add (plainUpTo_scaleLength (by decide) _)

theorem plainUpTo_basedTail? {letters : List Char} {isDigit : Char → Bool}
    (plain : letters.all (IsPlain ·))
    (excludes : signs.all fun c => !(isDigit c || c == '_'))
    {text : List Char} {tail : Nat} (based : basedTail? letters isDigit text = some tail) :
    PlainUpTo tail text := by
  cases text with
  | nil => cases based
  | cons c rest =>
      unfold basedTail? at based
      dsimp only at based
      split at based
      · next opens =>
          obtain rfl := Option.some.inj based
          simp only [Bool.and_eq_true, List.contains_iff_mem] at opens
          rw [Nat.add_assoc]
          have letter : IsPlain c := by simpa using List.all_eq_true.mp plain c opens.1
          exact .cons letter ((PlainUpTo.runLength excludes rest).add
            (plainUpTo_one (by decide) _))
      · cases based

theorem plainUpTo_numberTail (first : Char) (text : List Char) :
    PlainUpTo (numberTail first text) text := by
  unfold numberTail
  split
  · split
    · next tail hexadecimal => exact plainUpTo_basedTail? (by decide) (by decide) hexadecimal
    · cases binary : basedTail? ['b', 'B'] (fun d => d == '0' || d == '1') text with
      | some tail => exact plainUpTo_basedTail? (by decide) (by decide) binary
      | none => exact plainUpTo_decimalTail text
  · exact plainUpTo_decimalTail text

theorem plainUpTo_pointTail (text : List Char) : PlainUpTo (pointTail text) text := by
  have digits : PlainUpTo (runLength isDigitPart text) text := .runLength (by decide) text
  exact digits.add (plainUpTo_scaleLength (by decide) _)

/-! ### The shapes of lexemes -/

theorem shape_word (text : List Char) :
    (word text).shape = .word ∨ (word text).shape = .invalid := by
  unfold word
  dsimp only
  split
  · exact .inl rfl
  · exact .inr rfl

theorem shape_escapedWord (text : List Char) :
    (escapedWord text).shape = .word ∨ (escapedWord text).shape = .invalid := by
  unfold escapedWord
  split
  · exact .inr rfl
  · exact .inr rfl
  · dsimp only
    split
    · exact .inl rfl
    · exact .inr rfl

theorem shape_quotedLiteral (shape : Shape) (quote : Char) (text : List Char) :
    (quotedLiteral shape quote text).shape = shape ∨
      (quotedLiteral shape quote text).shape = .invalid := by
  unfold quotedLiteral
  dsimp only
  split
  · exact .inl rfl
  · exact .inr rfl

theorem shape_blockComment (shape : Shape) (opened : Nat) (text : List Char) :
    (blockComment shape opened text).shape = shape ∨
      (blockComment shape opened text).shape = .unclosedComment := by
  unfold blockComment
  split
  · exact .inl rfl
  · exact .inr rfl

theorem shape_markAt (first : Char) (rest : List Char) :
    (∃ symbol, (markAt first rest).shape = .mark symbol) ∨
      (markAt first rest).shape = .invalid := by
  unfold markAt
  split
  · exact .inl ⟨_, rfl⟩
  · exact .inr rfl

/-! ### Lexemes that are no marks -/

theorem word_unmarked (text : List Char) (symbol : Mark) : (word text).shape ≠ .mark symbol := by
  rcases shape_word text with is | is <;> simp [is]

theorem escapedWord_unmarked (text : List Char) (symbol : Mark) :
    (escapedWord text).shape ≠ .mark symbol := by
  rcases shape_escapedWord text with is | is <;> simp [is]

theorem quotedLiteral_unmarked {shape : Shape} {quote : Char} {text : List Char}
    (unmarked : ∀ symbol, shape ≠ .mark symbol) (symbol : Mark) :
    (quotedLiteral shape quote text).shape ≠ .mark symbol := by
  rcases shape_quotedLiteral shape quote text with is | is <;> simp [is, unmarked symbol]

theorem blockComment_unmarked {shape : Shape} {opened : Nat} {text : List Char}
    (unmarked : ∀ symbol, shape ≠ .mark symbol) (symbol : Mark) :
    (blockComment shape opened text).shape ≠ .mark symbol := by
  rcases shape_blockComment shape opened text with is | is <;> simp [is, unmarked symbol]

/-! ### Literals and comments -/

/-- A closed literal ends at the same place for the scan of blocks. -/
theorem afterLiteral_eq_drop {quote : Char} {text : List Char}
    (closed : (quotedTail quote text).2 = true) :
    afterLiteral quote text = text.drop (quotedTail quote text).1 := by
  fun_induction quotedTail quote text with
  | case1 => cases closed
  | case2 => cases closed
  | case3 c rest _ more isClosed further ih =>
      rw [further] at ih
      rw [afterLiteral, ih closed, Nat.add_comm]
      rfl
  | case4 rest unescaped =>
      rw [afterLiteral]
      · simp
      · exact unescaped
  | case5 => cases closed
  | case6 c rest unescaped isOther isInside more isClosed further ih =>
      have within : (decide (c = '\n') || decide (c = quote)) = false := by
        simp only [endsLine, Bool.or_eq_true, not_or] at isInside
        simpa [isOther] using isInside.2.1
      rw [further] at ih
      rw [afterLiteral, if_neg (by simp [within]), ih closed, Nat.add_comm]
      · rfl
      · exact unescaped

theorem commentTail?_cons {c : Char} (goesOn : ¬ ['*', '/'] <+: c :: rest) :
    commentTail? (c :: rest) = (commentTail? rest).map (· + 1) := by
  rw [commentTail?]
  rintro tail rfl rfl
  exact goesOn ⟨tail, rfl⟩

/-- A comment is closed by its first star and slash, whatever comes behind it. -/
theorem commentTail?_append {body : List Char} (unclosed : ¬ ['*', '/'] <:+: body)
    (tail : List Char) : commentTail? (body ++ '*' :: '/' :: tail) = some (body.length + 2) := by
  induction body with
  | nil => rfl
  | cons c body ih =>
      have goesOn : ¬ ['*', '/'] <+: c :: (body ++ '*' :: '/' :: tail) := by
        intro starts
        obtain ⟨rfl, further⟩ := List.cons_prefix_cons.mp starts
        cases body with
        | nil => simp at further
        | cons d body =>
            obtain ⟨rfl, -⟩ := List.cons_prefix_cons.mp further
            exact unclosed ⟨[], body, rfl⟩
      have later : ¬ ['*', '/'] <:+: body := fun within => unclosed (List.infix_cons within)
      rw [List.cons_append, commentTail?_cons goesOn, ih later, Option.map_some, List.length_cons,
        Nat.add_right_comm]

theorem afterComment?_eq (text : List Char) :
    afterComment? text = (commentTail? text).map text.drop := by
  fun_induction commentTail? text with
  | case1 => rfl
  | case2 c rest goesOn ih =>
      rw [afterComment?, ih, Option.map_map]
      · rfl
      · exact goesOn
  | case3 => rfl

/-- A star that no slash follows does not close a comment. -/
theorem afterComment?_star {text : List Char} (noSlash : text.head? ≠ some '/') :
    afterComment? ('*' :: text) = afterComment? text := by
  rw [afterComment?]
  rintro rest - rfl
  exact noSlash rfl

/-- The text starts with a line comment which ends in a carriage return that no newline
follows. -/
def returnEndsComment : List Char → Bool
  | '/' :: '/' :: comment =>
      match comment.dropWhile fun c => !endsLine c with
      | '\r' :: tail => tail.head? != some '\n'
      | _ => false
  | _ => false

/-- The end of a block does not depend on a comment that is ended by a newline, or by the end
of the text. -/
theorem blockEnd_afterLine (depth : Nat) {text : List Char}
    (ended : ∀ tail, text.dropWhile (fun c => !endsLine c) = '\r' :: tail →
      tail.head? = some '\n') :
    blockEnd depth (afterLine text) =
      blockEnd depth (text.dropWhile fun c => !endsLine c) := by
  induction text with
  | nil => rfl
  | cons c rest ih =>
      by_cases newline : c = '\n'
      · subst newline
        exact (blockEnd_plain depth (by decide)).symm
      · by_cases returns : c = '\r'
        · subst returns
          obtain ⟨tail, rfl⟩ := List.head?_eq_some_iff.mp (ended rest rfl)
          exact ((blockEnd_plain depth (by decide)).trans (blockEnd_plain depth (by decide))).symm
        · have inside : (!endsLine c) = true := by simp [endsLine, newline, returns]
          have further : (c :: rest).dropWhile (fun c => !endsLine c) =
              rest.dropWhile (fun c => !endsLine c) := List.dropWhile_cons_of_pos inside
          rw [further] at ended ⊢
          rw [afterLine, if_neg newline]
          exact ih ended

theorem afterComment?_of_blockComment {shape : Shape} {opened : Nat} {text : List Char}
    (closed : (blockComment shape opened text).shape ≠ .unclosedComment) :
    (blockComment shape opened text).shape = shape ∧
      ∃ tail, (blockComment shape opened text).following = 1 + opened + tail ∧
        afterComment? text = some (text.drop tail) := by
  unfold blockComment at closed ⊢
  rw [afterComment?_eq]
  cases found : commentTail? text with
  | none => simp [found] at closed
  | some tail => exact ⟨rfl, tail, rfl, rfl⟩

/-! ### Marks -/

/-- What the end of a block becomes by a lexeme of a shape that is followed by a text. -/
def Shape.endAfter (depth : Nat) (shape : Shape) (tail : List Char) : Block.End :=
  match shape with
  | .mark .leftBrace => blockEnd (depth + 1) tail
  | .mark .rightBrace =>
      match depth with
      | 0 => .closed tail
      | outer + 1 => blockEnd outer tail
  | _ => blockEnd depth tail

theorem Shape.endAfter_of_ne {shape : Shape} (notOpen : shape ≠ .mark .leftBrace)
    (notClose : shape ≠ .mark .rightBrace) (depth : Nat) (tail : List Char) :
    shape.endAfter depth tail = blockEnd depth tail := by
  unfold endAfter
  split
  · exact absurd rfl notOpen
  · exact absurd rfl notClose
  · rfl

theorem Shape.endAfter_of_unmarked {shape : Shape} (unmarked : ∀ symbol, shape ≠ .mark symbol)
    (depth : Nat) (tail : List Char) : shape.endAfter depth tail = blockEnd depth tail :=
  endAfter_of_ne (unmarked _) (unmarked _) depth tail

/-- A mark that is no brace is plain, or a slash and then plain. -/
theorem plain_spelling {symbol : Mark} (notOpen : symbol ≠ .leftBrace)
    (notClose : symbol ≠ .rightBrace) {first : Char} {following : List Char}
    (spelled : symbol.spelling.toList = first :: following) :
    (IsPlain first ∨ first = '/') ∧ ∀ c ∈ following, IsPlain c := by
  have checked : Mark.all.all fun symbol =>
      symbol = .leftBrace ∨ symbol = .rightBrace ∨
        (symbol.spelling.toList.take 1).all (fun c => IsPlain c ∨ c = '/') ∧
          (symbol.spelling.toList.drop 1).all (IsPlain ·) := by
    decide
  have checked := List.all_eq_true.mp checked symbol symbol.mem_all
  simpa [notOpen, notClose, spelled] using checked

theorem exists_spelling_of_markAt {first : Char} {rest : List Char}
    (valid : (markAt first rest).shape ≠ .invalid) :
    ∃ symbol, (markAt first rest).shape = .mark symbol ∧
      first :: rest = symbol.spelling.toList ++ rest.drop (markAt first rest).following := by
  unfold markAt at valid ⊢
  cases found : Mark.longest? (first :: rest) with
  | none => simp [found] at valid
  | some symbol =>
      have starts : symbol.spelling.toList <+: first :: rest := by
        unfold Mark.longest? at found
        exact List.isPrefixOf_iff_prefix.mp (List.find?_some found :)
      obtain ⟨tail, starts⟩ := starts
      have whole : (first :: rest).drop symbol.spelling.length = tail := by
        rw [← starts, ← String.length_toList, List.drop_left]
      have positive : 0 < symbol.spelling.length := by cases symbol <;> decide
      obtain ⟨following, length⟩ : ∃ following, symbol.spelling.length = following + 1 :=
        ⟨symbol.spelling.length - 1, by omega⟩
      rw [length, List.drop_succ_cons] at whole
      refine ⟨symbol, rfl, ?_⟩
      dsimp only
      rw [length, Nat.add_sub_cancel, whole, starts]

/-- The end of a block depends on a mark only if it is a brace. -/
theorem blockEnd_markAt (depth : Nat) {first : Char} {rest : List Char}
    (valid : (markAt first rest).shape ≠ .invalid)
    (noComment : ¬ OpensComment (first :: rest)) :
    blockEnd depth (first :: rest) =
      (markAt first rest).shape.endAfter depth (rest.drop (markAt first rest).following) := by
  obtain ⟨symbol, isMark, starts⟩ := exists_spelling_of_markAt valid
  rw [isMark]
  generalize rest.drop (markAt first rest).following = tail at starts
  by_cases opens : symbol = .leftBrace
  · have brace : symbol.spelling.toList = ['\x7b'] := by rw [opens]; decide
    rw [brace] at starts
    obtain ⟨rfl, rfl⟩ := List.cons.inj starts
    rw [blockEnd_cons depth (by simp [textBlockQuotes]) noComment, opens]
    rfl
  by_cases closes : symbol = .rightBrace
  · have brace : symbol.spelling.toList = ['\x7d'] := by rw [closes]; decide
    rw [brace] at starts
    obtain ⟨rfl, rfl⟩ := List.cons.inj starts
    rw [blockEnd_cons depth (by simp [textBlockQuotes]) noComment, closes]
    rfl
  cases spelled : symbol.spelling.toList with
  | nil => exact absurd spelled (by cases symbol <;> decide)
  | cons c following =>
      rw [spelled, List.cons_append] at starts
      obtain ⟨rfl, rfl⟩ := List.cons.inj starts
      obtain ⟨head, plain⟩ := plain_spelling opens closes spelled
      have within : PlainUpTo following.length (following ++ tail) := by
        simpa [PlainUpTo] using plain
      rw [Shape.endAfter_of_ne (by simpa using opens) (by simpa using closes)]
      rcases head with isPlain | rfl
      · rw [blockEnd_plain depth isPlain, blockEnd_drop depth within, List.drop_left]
      · rw [blockEnd_slash depth noComment, blockEnd_drop depth within, List.drop_left]

/-! ### Lexemes -/

theorem closed_of_quotedLiteral {shape : Shape} {quote : Char} {text : List Char}
    (valid : (quotedLiteral shape quote text).shape ≠ .invalid) :
    (quotedTail quote text).2 = true ∧ (quotedLiteral shape quote text).shape = shape := by
  have closed : (quotedTail quote text).2 = true :=
    Decidable.byContradiction fun unclosed => valid (if_neg unclosed)
  exact ⟨closed, if_pos closed⟩

theorem blockEnd_quotedLiteral (depth : Nat) {shape : Shape} {quote : Char} {text : List Char}
    (isQuote : quote = '"' ∨ quote = '\'') (unmarked : ∀ symbol, shape ≠ .mark symbol)
    (valid : (quotedLiteral shape quote text).shape ≠ .invalid)
    (single : ¬ textBlockQuotes <+: quote :: text) :
    blockEnd depth (quote :: text) =
      (quotedLiteral shape quote text).shape.endAfter depth
        (text.drop (quotedLiteral shape quote text).following) := by
  obtain ⟨closed, literal⟩ := closed_of_quotedLiteral valid
  have noComment : ¬ OpensComment (quote :: text) := by
    rcases isQuote with rfl | rfl <;> simp [OpensComment]
  rw [literal, Shape.endAfter_of_unmarked unmarked, blockEnd_cons depth single noComment]
  have skipped := afterLiteral_eq_drop closed
  rcases isQuote with rfl | rfl
  · exact congrArg (blockEnd depth) skipped
  · exact congrArg (blockEnd depth) skipped

/-- The end of a block depends on a lexeme only if it is a brace. -/
theorem blockEnd_scan (depth : Nat) {first : Char} {rest : List Char}
    (valid : (scan first rest).shape ≠ .invalid)
    (closed : (scan first rest).shape ≠ .unclosedComment)
    (single : (scan first rest).shape = .string → ¬ textBlockQuotes <+: first :: rest)
    (ended : returnEndsComment (first :: rest) = false) :
    blockEnd depth (first :: rest) =
      (scan first rest).shape.endAfter depth (rest.drop (scan first rest).following) := by
  have plainly {reach : Reach} (unmarked : ∀ symbol, reach.shape ≠ .mark symbol)
      (plain : IsPlain first) (further : PlainUpTo reach.following rest) :
      blockEnd depth (first :: rest) =
        reach.shape.endAfter depth (rest.drop reach.following) := by
    rw [Shape.endAfter_of_unmarked unmarked, blockEnd_plain depth plain,
      blockEnd_drop depth further]
  revert valid closed single
  fun_cases scan first rest with
  | case1 first rest space =>
      exact fun _ _ _ => plainly (by simp) (.of_holds (by decide) space)
        (.runLength (by decide) rest)
  | case2 first rest _ opens =>
      exact fun _ _ _ => plainly (word_unmarked rest) (.of_holds (by decide) opens)
        (plainUpTo_word rest)
  | case3 rest =>
      exact fun _ _ _ => plainly (escapedWord_unmarked rest) (by decide)
        (plainUpTo_escapedWord rest)
  | case4 first rest _ _ _ digit =>
      exact fun _ _ _ => plainly (by simp) (.of_holds (by decide) digit)
        (plainUpTo_numberTail first rest)
  | case5 rest =>
      intro valid _ single
      exact blockEnd_quotedLiteral depth (.inl rfl) (by simp) valid
        (single (closed_of_quotedLiteral valid).2)
  | case6 rest =>
      intro valid _ _
      exact blockEnd_quotedLiteral depth (.inr rfl) (by simp) valid (by simp [textBlockQuotes])
  | case7 first rest _ _ _ _ _ _ point =>
      simp only [Bool.and_eq_true, decide_eq_true_eq] at point
      exact fun _ _ _ => plainly (by simp) (by rw [point.1]; decide) (plainUpTo_pointTail rest)
  | case8 more =>
      intro _ _ _
      have further : (('/' :: more).drop (1 + runLength (fun c => !endsLine c) more)) =
          more.dropWhile fun c => !endsLine c := by
        rw [Nat.add_comm, List.drop_succ_cons, drop_runLength]
      rw [Shape.endAfter_of_unmarked (by simp), further, blockEnd]
      refine blockEnd_afterLine depth fun tail found => ?_
      simpa [returnEndsComment, found] using ended
  | case9 tail =>
      intro _ _ _
      rw [Shape.endAfter_of_unmarked (by simp), blockEnd_blockComment depth rfl]
      rfl
  | case10 more notClosed =>
      intro _ closed _
      obtain ⟨shape, tail, length, found⟩ := afterComment?_of_blockComment closed
      -- The second star of the opening could otherwise be the first of the closing.
      have noSlash : more.head? ≠ some '/' := by
        intro slash
        obtain ⟨tail, rfl⟩ := List.head?_eq_some_iff.mp slash
        exact notClosed tail rfl
      rw [shape, length, Shape.endAfter_of_unmarked (by simp),
        blockEnd_blockComment depth ((afterComment?_star noSlash).trans found), Nat.add_comm]
      rfl
  | case11 more _ _ =>
      intro _ closed _
      obtain ⟨shape, tail, length, found⟩ := afterComment?_of_blockComment closed
      rw [shape, length, Shape.endAfter_of_unmarked (by simp),
        blockEnd_blockComment depth found, Nat.add_comm]
      rfl
  | case12 first rest _ _ _ _ _ _ _ noLine _ _ noBlock =>
      intro valid _ _
      refine blockEnd_markAt depth valid ?_
      rintro (⟨tail, starts⟩ | ⟨tail, starts⟩)
      · obtain ⟨rfl, rfl⟩ := List.cons.inj starts
        exact noLine tail rfl rfl
      · obtain ⟨rfl, rfl⟩ := List.cons.inj starts
        exact noBlock tail rfl rfl

/-- A lexeme that is a mark is written as the mark is spelled. -/
theorem spelling_of_scan {first : Char} {rest : List Char} {symbol : Mark}
    (isMark : (scan first rest).shape = .mark symbol) :
    first :: rest = symbol.spelling.toList ++ rest.drop (scan first rest).following := by
  revert isMark
  fun_cases scan first rest with
  | case2 _ rest => exact fun isMark => absurd isMark (word_unmarked rest symbol)
  | case3 rest => exact fun isMark => absurd isMark (escapedWord_unmarked rest symbol)
  | case5 rest => exact fun isMark => absurd isMark (quotedLiteral_unmarked (by simp) symbol)
  | case6 rest => exact fun isMark => absurd isMark (quotedLiteral_unmarked (by simp) symbol)
  | case10 more => exact fun isMark => absurd isMark (blockComment_unmarked (by simp) symbol)
  | case11 more => exact fun isMark => absurd isMark (blockComment_unmarked (by simp) symbol)
  | case12 first rest =>
      intro isMark
      have valid : (markAt first rest).shape ≠ .invalid := by simp [isMark]
      obtain ⟨other, isOther, spelled⟩ := exists_spelling_of_markAt valid
      obtain rfl := Shape.mark.inj (isMark.symm.trans isOther)
      exact spelled
  | _ => simp

end Lexeme

end JavaDecl
