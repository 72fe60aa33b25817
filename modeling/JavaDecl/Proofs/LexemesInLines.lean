import JavaDecl.Proofs.CarriageReturns

/-!
# Lexemes in texts with carriage returns

A text is cut into the same lexemes when its newlines get carriage returns in front of them.
Words, numbers, literals and marks are found as before and stay within a line; blanks and
comments reach as far as before.
-/

namespace JavaDecl.Lexeme

open Text

variable {text rest : List Char}

/-- A length that is found again in the text with carriage returns, and that ends within the
line. -/
structure StaysInLine (length : List Char → Nat) (text : List Char) : Prop where
  same : length (withReturns text) = length text
  inLine : '\n' ∉ text.take (length text)

/-- A part that stays within a line still does so with one more character in front. -/
theorem notMem_take_cons {c : Char} {count : Nat} (other : c ≠ '\n')
    (inLine : '\n' ∉ rest.take count) : '\n' ∉ (c :: rest).take (1 + count) := by
  rw [Nat.add_comm, List.take_succ_cons, List.mem_cons, not_or]
  exact ⟨other.symm, inLine⟩

theorem notMem_take_add {count more : Nat} (first : '\n' ∉ text.take count)
    (second : '\n' ∉ (text.drop count).take more) : '\n' ∉ text.take (count + more) := by
  rw [List.take_add, List.mem_append, not_or]
  exact ⟨first, second⟩

namespace StaysInLine

theorem left {length : List Char → Nat} (stays : StaysInLine length text) :
    (withReturns text).drop (length text) = withReturns (text.drop (length text)) :=
  (SameCut.ofInLine stays.inLine).left

theorem add {one other : List Char → Nat} (first : StaysInLine one text)
    (second : StaysInLine other (text.drop (one text))) :
    StaysInLine (fun text => one text + other (text.drop (one text))) text := by
  refine ⟨?_, ?_⟩
  · simp only [first.same, first.left, second.same]
  · exact notMem_take_add first.inLine second.inLine

theorem runLength {holds : Char → Bool} (excludes : holds '\n' = false ∧ holds '\r' = false)
    (text : List Char) : StaysInLine (runLength holds) text := by
  unfold Lexeme.runLength
  induction text with
  | nil => exact ⟨rfl, by simp⟩
  | cons c rest ih =>
      by_cases newline : c = '\n'
      · subst newline
        exact ⟨by simp [excludes], by simp [excludes]⟩
      · obtain ⟨same, inLine⟩ := ih
        cases held : holds c with
        | false => exact ⟨by simp [withReturns_cons newline, held], by simp [held]⟩
        | true =>
            exact ⟨by simp [withReturns_cons newline, held, same],
              by simp [held, Ne.symm newline, inLine]⟩

theorem ofChoice {choices : List Char} (inLine : IsInLine choices) (text : List Char) :
    StaysInLine (fun text => if startsWithAny choices text then 1 else 0) text := by
  cases text with
  | nil => exact ⟨rfl, by simp⟩
  | cons c rest =>
      by_cases newline : c = '\n'
      · subst newline
        exact ⟨by simp [startsWithAny, inLine.1, inLine.2], by simp [startsWithAny, inLine.1]⟩
      · refine ⟨by simp [withReturns_cons newline, startsWithAny], ?_⟩
        split <;> simp [Ne.symm newline]

end StaysInLine

/-! ### Words -/

/-- Where a newline is, a carriage return comes in front of it. -/
theorem mem_take_withReturns {count : Nat} (newline : '\n' ∈ text.take count) :
    '\r' ∈ (withReturns text).take count := by
  induction text generalizing count with
  | nil => simp at newline
  | cons c rest ih =>
      cases count with
      | zero => simp at newline
      | succ count =>
          by_cases isNewline : c = '\n'
          · subst isNewline
            simp
          · have further : '\n' ∈ rest.take count := by
              simpa [Ne.symm isNewline] using newline
            simp [withReturns_cons isNewline, ih further]

theorem escapeTail_stays (text : List Char) :
    escapeTail (withReturns text) = escapeTail text ∧ '\n' ∉ text.take (escapeTail text).1 := by
  have marks : StaysInLine (runLength (· == 'u')) text := .runLength (by decide) text
  have digits_eq (digits : List Char) (other : ¬ digits.all isHexDigit = true) (mark : Bool) :
      (mark && decide (digits.length = 4) && digits.all isHexDigit) = false := by
    simp [Bool.eq_false_iff.mpr other]
  unfold escapeTail
  simp only [marks.same, marks.left]
  by_cases newline : '\n' ∈ (text.drop (runLength (· == 'u') text)).take 4
  · have bad : ¬ ((text.drop (runLength (· == 'u') text)).take 4).all isHexDigit = true :=
      fun all => absurd (List.all_eq_true.mp all _ newline) (by decide)
    have bad' : ¬ ((withReturns (text.drop (runLength (· == 'u') text))).take 4).all
        isHexDigit = true :=
      fun all => absurd (List.all_eq_true.mp all _ (mem_take_withReturns newline)) (by decide)
    simp only [digits_eq _ bad, digits_eq _ bad', Bool.false_eq_true, if_false]
    exact ⟨trivial, marks.inLine⟩
  · rw [SameCut.eq_take newline]
    refine ⟨rfl, ?_⟩
    split
    · exact notMem_take_add marks.inLine newline
    · exact marks.inLine

theorem wordTail_stays (text : List Char) :
    wordTail (withReturns text) = wordTail text ∧ '\n' ∉ text.take (wordTail text).1 := by
  fun_induction wordTail text with
  | case1 => exact ⟨by simp [wordTail], by simp⟩
  | case2 rest _ none =>
      obtain ⟨same, -⟩ := escapeTail_stays rest
      rw [withReturns_cons (by decide), wordTail]
      simp [same, none]
  | case3 rest length _ escape more sound further ih =>
      obtain ⟨same, inLine⟩ := escapeTail_stays rest
      rw [escape] at same inLine
      rw [further] at ih
      have left := (SameCut.ofInLine inLine).left
      refine ⟨?_, ?_⟩
      · rw [withReturns_cons (by decide), wordTail]
        simp [same, left, ih.1]
      · rw [Nat.add_assoc]
        refine notMem_take_cons (by decide) ?_
        exact notMem_take_add inLine ih.2
  | case4 rest length _ escape =>
      obtain ⟨same, inLine⟩ := escapeTail_stays rest
      rw [escape] at same inLine
      refine ⟨?_, notMem_take_cons (by decide) inLine⟩
      rw [withReturns_cons (by decide), wordTail]
      simp [same]
  | case5 c rest plain continues more sound further ih =>
      rw [further] at ih
      have inLine : c ≠ '\n' := by
        rintro rfl
        revert continues
        decide
      refine ⟨?_, notMem_take_cons inLine ih.2⟩
      rw [withReturns_cons inLine, wordTail, if_neg plain, if_pos continues, ih.1]
  | case6 c rest plain ends =>
      refine ⟨?_, by simp⟩
      by_cases newline : c = '\n'
      · subst newline
        rw [withReturns_newline, wordTail]
        rfl
      · rw [withReturns_cons newline, wordTail, if_neg plain, if_neg ends]

theorem escapedWord_stays (text : List Char) :
    escapedWord (withReturns text) = escapedWord text ∧
      '\n' ∉ text.take (escapedWord text).following := by
  obtain ⟨same, inLine⟩ := escapeTail_stays text
  unfold escapedWord
  rw [same]
  split
  · exact ⟨rfl, by simp⟩
  · next length _ escape =>
      rw [escape] at inLine
      exact ⟨rfl, inLine⟩
  · next length _ escape =>
      rw [escape] at inLine
      obtain ⟨tail, further⟩ := wordTail_stays (text.drop length)
      rw [(SameCut.ofInLine inLine).left, tail]
      exact ⟨rfl, notMem_take_add inLine further⟩

/-! ### Numbers -/

/-- The length of the sign of an exponent. -/
def signLength (text : List Char) : Nat :=
  if startsWithAny ['+', '-'] text then 1 else 0

def exponentDigits (text : List Char) : Nat :=
  runLength isDigitPart (text.drop (signLength text))

theorem exponentLength_cons (c : Char) (rest : List Char) :
    exponentLength (c :: rest) =
      if (c = 'e' ∨ c = 'E') ∧ exponentDigits rest ≠ 0 then
        1 + (signLength rest + exponentDigits rest)
      else 0 := by
  have given : exponentLength (c :: rest) =
      if c = 'e' ∨ c = 'E' then
        if exponentDigits rest = 0 then 0 else 1 + signLength rest + exponentDigits rest
      else 0 := rfl
  rw [given]
  by_cases letter : c = 'e' ∨ c = 'E'
  · by_cases digitless : exponentDigits rest = 0
    · rw [if_pos letter, if_pos digitless, if_neg fun some => some.2 digitless]
    · rw [if_pos letter, if_neg digitless, if_pos ⟨letter, digitless⟩, Nat.add_assoc]
  · rw [if_neg letter, if_neg fun some => letter some.1]

theorem exponentLength_stays (text : List Char) : StaysInLine exponentLength text := by
  cases text with
  | nil => exact ⟨rfl, by simp⟩
  | cons c rest =>
      have sign : StaysInLine signLength rest := .ofChoice (by decide) rest
      have signed : StaysInLine (fun text => signLength text + exponentDigits text) rest :=
        sign.add (.runLength (by decide) _)
      have digits : exponentDigits (withReturns rest) = exponentDigits rest := by
        have same := signed.same
        rw [sign.same] at same
        exact Nat.add_left_cancel same
      by_cases some : (c = 'e' ∨ c = 'E') ∧ exponentDigits rest ≠ 0
      · have inLine : c ≠ '\n' := by rcases some.1 with rfl | rfl <;> decide
        refine ⟨?_, ?_⟩
        · rw [withReturns_cons inLine, exponentLength_cons, exponentLength_cons, digits, sign.same]
        · rw [exponentLength_cons, if_pos some]
          exact notMem_take_cons inLine signed.inLine
      · have none : exponentLength (c :: rest) = 0 := by rw [exponentLength_cons, if_neg some]
        refine ⟨?_, by simp [none]⟩
        by_cases newline : c = '\n'
        · subst newline
          rw [none, withReturns_newline, exponentLength_cons, if_neg (by simp)]
        · rw [none, withReturns_cons newline, exponentLength_cons, digits, if_neg some]

theorem scaleLength_stays {suffixes : List Char} (inLine : IsInLine suffixes)
    (text : List Char) : StaysInLine (scaleLength suffixes) text :=
  (exponentLength_stays text).add (.ofChoice inLine _)

theorem fractionLength_stays (text : List Char) : StaysInLine fractionLength text := by
  cases text with
  | nil => exact ⟨rfl, by simp⟩
  | cons c rest =>
      by_cases point : c = '.'
      · subst point
        have digits := StaysInLine.runLength (by decide : isDigitPart '\n' = false ∧ _) rest
        refine ⟨?_, notMem_take_cons (by decide) digits.inLine⟩
        rw [withReturns_cons (by decide), fractionLength, fractionLength, digits.same]
      · have none (rest : List Char) : fractionLength (c :: rest) = 0 := by
          unfold fractionLength
          split
          · next same => exact absurd (List.cons.inj same).1 point
          · rfl
        refine ⟨?_, by simp [none]⟩
        by_cases newline : c = '\n'
        · subst newline
          rfl
        · rw [withReturns_cons newline, none, none]

theorem decimalTail_stays (text : List Char) : StaysInLine decimalTail text := by
  have whole := StaysInLine.runLength (by decide : isDigitPart '\n' = false ∧ _) text
  exact (whole.add (fractionLength_stays _)).add (scaleLength_stays (by decide) _)

theorem pointTail_stays (text : List Char) : StaysInLine pointTail text := by
  have digits := StaysInLine.runLength (by decide : isDigitPart '\n' = false ∧ _) text
  exact digits.add (scaleLength_stays (by decide) _)

def basedDigits (isDigit : Char → Bool) (text : List Char) : Nat :=
  runLength (fun d => isDigit d || d == '_') text

/-- The length of these digits and of a suffix. -/
def basedLength (isDigit : Char → Bool) (text : List Char) : Nat :=
  basedDigits isDigit text +
    if startsWithAny ['l', 'L'] (text.drop (basedDigits isDigit text)) then 1 else 0

theorem basedTail?_cons (letters : List Char) (isDigit : Char → Bool) (c : Char)
    (rest : List Char) :
    basedTail? letters isDigit (c :: rest) =
      if letters.contains c = true ∧ basedDigits isDigit rest ≠ 0 then
        some (1 + basedLength isDigit rest)
      else none := by
  have given : basedTail? letters isDigit (c :: rest) =
      if letters.contains c && basedDigits isDigit rest != 0 then
        some (1 + basedDigits isDigit rest +
          if startsWithAny ['l', 'L'] (rest.drop (basedDigits isDigit rest)) then 1 else 0)
      else none := rfl
  rw [given, basedLength, Nat.add_assoc]
  simp only [Bool.and_eq_true, bne_iff_ne]

theorem basedTail?_stays (letters : List Char) (isDigit : Char → Bool)
    (inLine : IsInLine letters) (excludes : isDigit '\n' = false ∧ isDigit '\r' = false)
    (text : List Char) :
    basedTail? letters isDigit (withReturns text) = basedTail? letters isDigit text ∧
      ∀ tail ∈ basedTail? letters isDigit text, '\n' ∉ text.take tail := by
  cases text with
  | nil => exact ⟨rfl, by simp [basedTail?]⟩
  | cons c rest =>
      by_cases newline : c = '\n'
      · subst newline
        simp [basedTail?, inLine.1, inLine.2]
      · have digits : StaysInLine (basedDigits isDigit) rest := .runLength (by simp [excludes]) rest
        have whole : StaysInLine (basedLength isDigit) rest :=
          digits.add (.ofChoice (by decide) _)
        refine ⟨?_, fun tail found => ?_⟩
        · rw [withReturns_cons newline, basedTail?_cons, basedTail?_cons, digits.same, whole.same]
        · rw [basedTail?_cons] at found
          split at found
          · obtain rfl := Option.some.inj found
            exact notMem_take_cons newline whole.inLine
          · cases found

theorem numberTail_stays (first : Char) (text : List Char) :
    StaysInLine (numberTail first) text := by
  have hexadecimal := basedTail?_stays ['x', 'X'] Text.isHexDigit (by decide) (by decide) text
  have binary := basedTail?_stays ['b', 'B'] (fun d => d == '0' || d == '1') (by decide)
    (by decide) text
  have decimal := decimalTail_stays text
  refine ⟨?_, ?_⟩
  · unfold numberTail
    rw [hexadecimal.1, binary.1, decimal.same]
  · unfold numberTail
    split
    · cases based : basedTail? ['x', 'X'] Text.isHexDigit text with
      | some tail => exact hexadecimal.2 tail based
      | none =>
          cases based : basedTail? ['b', 'B'] (fun d => d == '0' || d == '1') text with
          | some tail => exact binary.2 tail based
          | none => exact decimal.inLine
    · exact decimal.inLine

/-! ### Literals and comments -/

theorem quotedTail_cons {quote c : Char} (unescaped : c ≠ '\\' ∨ rest = []) :
    quotedTail quote (c :: rest) =
      if c = quote then (1, true)
      else if c = '\\' || endsLine c then (0, false)
      else (1 + (quotedTail quote rest).1, (quotedTail quote rest).2) := by
  rw [quotedTail]
  rintro d tail rfl rfl
  simp at unescaped

theorem notMem_take_quotedTail {quote : Char} (inLine : quote ≠ '\n') (text : List Char) :
    '\n' ∉ text.take (quotedTail quote text).1 := by
  fun_induction quotedTail quote text with
  | case1 => simp
  | case2 rest => simp
  | case3 c rest newline more closed further ih =>
      rw [further] at ih
      rw [show 2 + more = 1 + (1 + more) by omega]
      exact notMem_take_cons (by decide) (notMem_take_cons newline ih)
  | case4 rest unescaped => simp [inLine.symm]
  | case5 c rest unescaped other stops => simp
  | case6 c rest unescaped other goesOn more closed further ih =>
      rw [further] at ih
      have newline : c ≠ '\n' := by
        rintro rfl
        revert goesOn
        decide
      exact notMem_take_cons newline ih

theorem quotedTail_withReturns {quote : Char} (inLine : IsInLine [quote]) (ends : EndsLines text) :
    quotedTail quote (withReturns text) = quotedTail quote text := by
  have others : quote ≠ '\n' ∧ quote ≠ '\r' := by
    simpa [IsInLine, eq_comm] using inLine
  fun_induction quotedTail quote text with
  | case1 => rfl
  | case2 rest => exact absurd rfl ends.ne_of_backslash
  | case3 c rest newline more closed further ih =>
      rw [withReturns_cons (by decide), withReturns_cons newline, quotedTail, if_neg newline,
        ih ends.tail.tail, further]
  | case4 rest unescaped =>
      rw [withReturns_cons others.1, quotedTail_cons (unescaped_withReturns unescaped), if_pos rfl]
  | case5 c rest unescaped other stops =>
      by_cases newline : c = '\n'
      · subst newline
        rw [withReturns_newline, quotedTail_cons (.inl (by decide)), if_neg others.2.symm,
          if_pos (by decide)]
      · rw [withReturns_cons newline, quotedTail_cons (unescaped_withReturns unescaped),
          if_neg other, if_pos stops]
  | case6 c rest unescaped other goesOn more closed further ih =>
      have newline : c ≠ '\n' := by
        rintro rfl
        revert goesOn
        decide
      rw [withReturns_cons newline, quotedTail_cons (unescaped_withReturns unescaped),
        if_neg other, if_neg goesOn, ih ends.tail, further]

theorem quotedLiteral_stays {shape : Shape} {quote : Char} (inLine : IsInLine [quote])
    (ends : EndsLines text) :
    quotedLiteral shape quote (withReturns text) = quotedLiteral shape quote text ∧
      '\n' ∉ text.take (quotedLiteral shape quote text).following := by
  have newline : quote ≠ '\n' := by
    rintro rfl
    exact inLine.1 (by simp)
  unfold quotedLiteral
  rw [quotedTail_withReturns inLine ends]
  exact ⟨rfl, notMem_take_quotedTail newline text⟩

theorem commentTail?_withReturns (text : List Char) :
    Option.Rel (SameCut text) (commentTail? text) (commentTail? (withReturns text)) := by
  fun_induction commentTail? text with
  | case1 rest => exact .some (.ofInLine (by simp))
  | case2 c rest goesOn ih =>
      have further (more more' : Nat)
          (cut : ∀ {count count'}, SameCut rest count count' →
            SameCut (c :: rest) (count + more) (count' + more')) :
          Option.Rel (SameCut (c :: rest)) ((commentTail? rest).map (· + more))
            ((commentTail? (withReturns rest)).map (· + more')) := by
        generalize commentTail? rest = one at ih ⊢
        generalize commentTail? (withReturns rest) = other at ih ⊢
        cases ih with
        | none => exact .none
        | some same => exact .some (cut same)
      by_cases newline : c = '\n'
      · subst newline
        rw [withReturns_newline, commentTail?_cons (by simp), commentTail?_cons (by simp),
          Option.map_map]
        refine further 1 2 fun {count count'} cut => ?_
        rw [Nat.add_comm count, Nat.add_comm count']
        exact cut.newline
      · have still : ¬ ['*', '/'] <+: c :: withReturns rest := by
          rw [← withReturns_cons newline, prefix_withReturns_iff (by decide)]
          exact notPrefix_cons goesOn
        rw [withReturns_cons newline, commentTail?_cons still]
        refine further 1 1 fun {count count'} cut => ?_
        rw [Nat.add_comm count, Nat.add_comm count']
        exact cut.cons newline
  | case3 => exact .none

/-! ### Lexemes -/

/-- The shapes that may reach over several lines. -/
def Shape.spreads : Shape → Bool
  | space | comment | docComment | unclosedComment => true
  | _ => false

/-- The same shape, over the same part of a text without and with carriage returns. -/
structure SameReach (rest : List Char) (reach reach' : Reach) : Prop where
  shape : reach'.shape = reach.shape
  cut : SameCut rest reach.following reach'.following
  inLine : reach.shape.spreads = false → '\n' ∉ rest.take reach.following

theorem SameReach.ofInLine {reach reach' : Reach} (same : reach' = reach)
    (inLine : '\n' ∉ rest.take reach.following) : SameReach rest reach reach' := by
  subst same
  exact ⟨rfl, .ofInLine inLine, fun _ => inLine⟩

theorem sameCut_spaces (text : List Char) :
    SameCut text (runLength isSpace text) (runLength isSpace (withReturns text)) := by
  induction text with
  | nil => exact ⟨by simp, by simp⟩
  | cons c rest ih =>
      unfold runLength at ih ⊢
      by_cases newline : c = '\n'
      · subst newline
        have spaces : isSpace '\n' = true ∧ isSpace '\r' = true := by decide
        have length : (List.takeWhile isSpace ('\r' :: '\n' :: withReturns rest)).length =
            2 + (List.takeWhile isSpace (withReturns rest)).length := by
          simp only [List.takeWhile_cons, spaces, if_true, List.length_cons]
          omega
        rw [withReturns_newline, length]
        simpa [spaces, Nat.add_comm] using ih.newline
      · cases space : isSpace c with
        | false => simpa [withReturns_cons newline, space] using SameCut.ofInLine (by simp)
        | true => simpa [withReturns_cons newline, space, Nat.add_comm] using ih.cons newline

/-- A comment whose first characters after the slash are passed. -/
theorem blockComment_withReturns {shape : Shape} (spreads : shape.spreads = true) {opened : Nat}
    {front : List Char} (inLine : '\n' ∉ front) (length : front.length = 1 + opened)
    (text : List Char) :
    SameReach (front ++ text) (blockComment shape opened text)
      (blockComment shape opened (withReturns text)) := by
  have closed := commentTail?_withReturns text
  unfold blockComment
  rw [← length]
  generalize commentTail? text = one at closed ⊢
  generalize commentTail? (withReturns text) = other at closed ⊢
  cases closed with
  | none => exact ⟨rfl, (SameCut.whole text).behind inLine, by simp [Shape.spreads]⟩
  | some cut => exact ⟨rfl, cut.behind inLine, by simp [spreads]⟩

theorem longest?_withReturns (text : List Char) :
    Mark.longest? (withReturns text) = Mark.longest? text := by
  unfold Mark.longest?
  congr 1
  funext symbol
  have inLine : IsInLine symbol.spelling.toList := by cases symbol <;> decide
  rw [Bool.eq_iff_iff, List.isPrefixOf_iff_prefix, List.isPrefixOf_iff_prefix,
    prefix_withReturns_iff inLine]

theorem markAt_stays {first : Char} (inLine : first ≠ '\n') (rest : List Char) :
    markAt first (withReturns rest) = markAt first rest ∧
      '\n' ∉ rest.take (markAt first rest).following := by
  have same := longest?_withReturns (first :: rest)
  rw [withReturns_cons inLine] at same
  unfold markAt
  rw [same]
  refine ⟨rfl, ?_⟩
  by_cases valid : (markAt first rest).shape = .invalid
  · unfold markAt at valid
    split at valid
    · cases valid
    · simp
  · obtain ⟨symbol, -, spelled⟩ := exists_spelling_of_markAt valid
    have whole : first :: rest.take (markAt first rest).following = symbol.spelling.toList := by
      refine List.append_cancel_right (Eq.trans ?_ spelled)
      rw [List.cons_append, List.take_append_drop]
    have within : '\n' ∉ symbol.spelling.toList := by cases symbol <;> decide
    rw [← whole] at within
    exact mt (List.mem_cons_of_mem first) within

/-- What a slash opens: a line comment, a comment in stars, or a mark. -/
theorem scan_slash (rest : List Char) :
    scan '/' rest =
      if ['/'] <+: rest then
        { shape := .comment, following := 1 + runLength (fun c => !endsLine c) rest.tail }
      else if ['*', '*', '/'] <+: rest then { shape := .comment, following := 3 }
      else if ['*', '*'] <+: rest then blockComment .docComment 1 (rest.drop 2)
      else if ['*'] <+: rest then blockComment .comment 0 rest.tail
      else markAt '/' rest := by
  unfold scan
  rw [if_neg (by decide), if_neg (by decide), if_neg (by decide), if_neg (by decide),
    if_neg (by decide), if_neg (by decide), if_neg (by simp)]
  split
  · simp
  · simp
  · next more notClosed _ =>
      have remains : ¬ ['/'] <+: more := fun ⟨tail, same⟩ => notClosed tail same.symm
      simp [remains]
  · next more notDoc notStars _ =>
      have remains : ¬ ['*'] <+: more := fun ⟨tail, same⟩ => notStars tail same.symm
      have longer : ¬ ['*', '/'] <+: more := fun ⟨tail, same⟩ => notDoc tail same.symm
      simp [remains, longer]
  · next text _ _ noLine _ _ noStars =>
      have line : ¬ ['/'] <+: text := fun ⟨tail, same⟩ => noLine tail rfl same.symm
      have stars : ¬ ['*'] <+: text := fun ⟨tail, same⟩ => noStars tail rfl same.symm
      have more (front : List Char) : ¬ '*' :: front <+: text := fun ⟨tail, same⟩ =>
        stars ⟨front ++ tail, same⟩
      rw [if_neg line, if_neg (more _), if_neg (more _), if_neg stars]

theorem scan_slash_withReturns (rest : List Char) :
    SameReach rest (scan '/' rest) (scan '/' (withReturns rest)) := by
  simp only [scan_slash, prefix_withReturns_iff (by decide : IsInLine ['/']),
    prefix_withReturns_iff (by decide : IsInLine ['*', '*', '/']),
    prefix_withReturns_iff (by decide : IsInLine ['*', '*']),
    prefix_withReturns_iff (by decide : IsInLine ['*'])]
  split
  · next line =>
      obtain ⟨more, rfl⟩ := line
      have within : StaysInLine (runLength fun c => !endsLine c) more := .runLength (by decide) more
      refine ⟨rfl, ?_, by simp [Shape.spreads]⟩
      rw [withReturns_append, withReturns_of_notMem (by decide : '\n' ∉ ['/'])]
      simpa [within.same] using (SameCut.ofInLine within.inLine).cons (by decide : '/' ≠ '\n')
  split
  · next closed =>
      obtain ⟨more, rfl⟩ := closed
      exact .ofInLine rfl (by simp)
  split
  · next doc =>
      obtain ⟨more, rfl⟩ := doc
      have inLine : '\n' ∉ ['*', '*'] := by decide
      have same := blockComment_withReturns (rfl : Shape.docComment.spreads = true) inLine rfl more
      rwa [withReturns_append, withReturns_of_notMem inLine]
  split
  · next stars =>
      obtain ⟨more, rfl⟩ := stars
      have inLine : '\n' ∉ ['*'] := by decide
      have same := blockComment_withReturns (rfl : Shape.comment.spreads = true) inLine
        (rfl : _ = 1 + 0) more
      rwa [withReturns_append, withReturns_of_notMem inLine]
  · obtain ⟨same, within⟩ := markAt_stays (by decide : '/' ≠ '\n') rest
    exact .ofInLine same within

/-- The first character of a text within a line opens the same lexeme. -/
theorem scan_withReturns {first : Char} (inLine : first ≠ '\n') (ends : EndsLines (first :: rest)) :
    SameReach rest (scan first rest) (scan first (withReturns rest)) := by
  have head : (withReturns rest).head?.any Char.isDigit = rest.head?.any Char.isDigit := by
    cases rest with
    | nil => rfl
    | cons c rest =>
        by_cases newline : c = '\n'
        · subst newline
          rfl
        · rw [withReturns_cons newline]
          rfl
  by_cases slash : first = '/'
  · subst slash
    exact scan_slash_withReturns rest
  unfold scan
  rw [head]
  by_cases space : isSpace first
  · simp only [if_pos space]
    exact ⟨rfl, sameCut_spaces rest, by simp [Shape.spreads]⟩
  by_cases opens : opensWord first
  · simp only [if_neg space, if_pos opens]
    obtain ⟨same, within⟩ := wordTail_stays rest
    exact .ofInLine (by unfold word; rw [same]) within
  by_cases escaped : first = '\\'
  · simp only [if_neg space, if_neg opens, if_pos escaped]
    obtain ⟨same, within⟩ := escapedWord_stays rest
    exact .ofInLine same within
  by_cases digit : first.isDigit
  · simp only [if_neg space, if_neg opens, if_neg escaped, if_pos digit]
    obtain ⟨same, within⟩ := numberTail_stays first rest
    exact .ofInLine (by rw [same]) within
  by_cases string : first = '"'
  · simp only [if_neg space, if_neg opens, if_neg escaped, if_neg digit, if_pos string]
    obtain ⟨same, within⟩ := quotedLiteral_stays (by decide : IsInLine ['"']) ends.tail
    exact .ofInLine same within
  by_cases character : first = '\''
  · simp only [if_neg space, if_neg opens, if_neg escaped, if_neg digit, if_neg string,
      if_pos character]
    obtain ⟨same, within⟩ := quotedLiteral_stays (by decide : IsInLine ['\'']) ends.tail
    exact .ofInLine same within
  simp only [if_neg space, if_neg opens, if_neg escaped, if_neg digit, if_neg string,
    if_neg character]
  split
  · obtain ⟨same, within⟩ := pointTail_stays rest
    exact .ofInLine (by rw [same]) within
  obtain ⟨same, within⟩ := markAt_stays inLine rest
  split
  case h_5 =>
      split
      case h_5 => exact .ofInLine same within
      all_goals exact absurd rfl slash
  all_goals exact absurd rfl slash

/-- A lexeme of a text without and with carriage returns. -/
structure SameLexeme (cut cut' : Cut) : Prop where
  shape : cut'.shape = cut.shape
  text : cut'.text = withReturns cut.text
  rest : cut'.rest = withReturns cut.rest
  inLine : cut.shape.spreads = false → '\n' ∉ cut.text

/-- With the first newline there may be one more character in the first lexeme. -/
theorem opening_withReturns {first : Char} (ends : EndsLines (first :: rest))
    (offset offset' : Nat) :
    ∃ first' rest', withReturns (first :: rest) = first' :: rest' ∧
      SameLexeme (opening first rest offset) (opening first' rest' offset') := by
  by_cases newline : first = '\n'
  · subst newline
    have cut := sameCut_spaces rest
    have longer (text : List Char) :
        runLength isSpace ('\n' :: text) = runLength isSpace text + 1 := rfl
    have here (text : List Char) := scan_of_isSpace (by decide : isSpace '\n' = true) text
    have there (text : List Char) := scan_of_isSpace (by decide : isSpace '\r' = true) text
    refine ⟨'\r', '\n' :: withReturns rest, withReturns_newline rest, ?_, ?_, ?_, ?_⟩
    · simp only [opening, here, there]
    · simp only [opening, here, there, longer, List.take_succ_cons, cut.taken,
        withReturns_newline]
    · simp only [opening, here, there, longer, List.drop_succ_cons, cut.left]
    · simp [opening, here, Shape.spreads]
  · obtain ⟨shape, cut, inLine⟩ := scan_withReturns newline ends
    refine ⟨first, withReturns rest, withReturns_cons newline rest, shape, ?_, cut.left,
      fun stays => ?_⟩
    · simp only [opening, cut.taken, withReturns_cons newline]
    · simpa [opening, Ne.symm newline] using inLine stays

/-- The first lexeme that is no blank and no plain comment is the same. -/
theorem next?_withReturns (ends : EndsLines text) (offset offset' : Nat) :
    Option.Rel SameLexeme (next? offset text) (next? offset' (withReturns text)) := by
  induction length : text.length using Nat.strongRecOn generalizing text offset offset' with
  | ind _ ih =>
      cases text with
      | nil =>
          rw [withReturns_nil, next?, next?]
          exact .none
      | cons first rest =>
          obtain ⟨first', rest', opens, same⟩ := opening_withReturns ends offset offset'
          rw [opens, next?_cons, next?_cons, same.shape]
          split
          · rw [same.rest]
            refine ih _ ?_ (ends.tail.suffix (List.drop_suffix _ rest)) _ _ rfl
            simp only [← length, List.length_cons, List.length_drop]
            omega
          · exact .some same

end JavaDecl.Lexeme
