import JavaDecl.Proofs.BlockBodies
import JavaDecl.Proofs.LexemesInLines
import JavaDecl.Proofs.OpeningTokens
import JavaDecl.Proofs.TiledSources

/-!
# Lexemes that are cut out

A lexeme is scanned again as the same if its text is cut behind it, or later, and a blank comes
there.  No rule of the scan depends on more than what it takes and on what it finds behind it,
and a blank goes on with none of them.  Neither does a comma, a semicolon or a closing bracket.
-/

namespace JavaDecl.Lexeme

variable {text rest tail : List Char} {c : Char}

/-! ### What may come behind a text -/

/-- What no token goes on with. -/
def breaks : List Char :=
  [' ', '\t', '\r', '\n', '\x0c', ',', ')', '\x7d', ';']

/-- A text that is empty or opens with a break. -/
def OpensBreak (tail : List Char) : Prop :=
  ∀ c ∈ tail.head?, c ∈ breaks

theorem OpensBreak.excludes (opens : OpensBreak tail) {holds : Char → Bool}
    (excludes : breaks.all (!holds ·)) : ∀ c ∈ tail.head?, holds c = false := by
  intro c found
  simpa using List.all_eq_true.mp excludes c (opens c found)

def blanks : List Char :=
  [' ', '\t', '\r', '\n', '\x0c']

theorem mem_blanks (space : isSpace c = true) : c ∈ blanks := by
  simpa [isSpace, blanks, or_assoc] using space

/-- A text that is empty or opens with a blank. -/
def OpensBlank (tail : List Char) : Prop :=
  ∀ c ∈ tail.head?, isSpace c = true

theorem OpensBlank.opensBreak (opens : OpensBlank tail) : OpensBreak tail := fun c found =>
  List.subset_append_left blanks [',', ')', '\x7d', ';'] (mem_blanks (opens c found))

/-- A length that a text has again once it is cut there or later, and a break comes behind. -/
structure EndsAtBreak (length : List Char → Nat) (text : List Char) : Prop where
  within : length text ≤ text.length
  same : ∀ {count : Nat} {tail : List Char}, length text ≤ count → OpensBreak tail →
    length (text.take count ++ tail) = length text

theorem takeWhile_eq_nil {holds : Char → Bool} (stops : ∀ c ∈ text.head?, holds c = false) :
    text.takeWhile holds = [] := by
  cases text with
  | nil => rfl
  | cons c text => exact List.takeWhile_cons_of_neg (by simp [stops c rfl])

theorem drop_take_append {count more : Nat} (enough : count ≤ more)
    (within : count ≤ text.length) :
    (text.take more ++ tail).drop count = (text.drop count).take (more - count) ++ tail := by
  rw [List.drop_append_of_le_length (by rw [List.length_take]; omega), List.drop_take]

namespace EndsAtBreak

theorem add {one other : List Char → Nat} (first : EndsAtBreak one text)
    (second : EndsAtBreak other (text.drop (one text))) :
    EndsAtBreak (fun text => one text + other (text.drop (one text))) text where
  within := by
    have := first.within
    have := second.within
    rw [List.length_drop] at this
    omega
  same := by
    intro count tail enough opens
    change one text + other (text.drop (one text)) ≤ count at enough
    rw [first.same (by omega) opens, drop_take_append (by omega) first.within,
      second.same (by omega) opens]

theorem runLength {holds : Char → Bool} (excludes : breaks.all (!holds ·)) (text : List Char) :
    EndsAtBreak (runLength holds) text where
  within := (List.takeWhile_prefix holds).length_le
  same := by
    intro count tail enough opens
    have stops : tail.takeWhile holds = [] := takeWhile_eq_nil (opens.excludes excludes)
    have taken : (text.take count).takeWhile holds = text.takeWhile holds := by
      rw [← List.take_takeWhile, List.take_of_length_le enough]
    unfold Lexeme.runLength
    rw [List.takeWhile_append, stops, List.append_nil]
    split
    · next whole =>
        rw [← (List.takeWhile_prefix holds).eq_of_length whole, taken]
    · rw [taken]

/-- A single character of some choice, if there is one. -/
theorem ofChoice {choices : List Char} (excludes : breaks.all (!choices.contains ·))
    (text : List Char) :
    EndsAtBreak (fun text => if startsWithAny choices text then 1 else 0) text where
  within := by
    cases text with
    | nil => simp [startsWithAny]
    | cons c rest =>
        simp only [List.length_cons]
        split <;> omega
  same := by
    intro count tail enough opens
    have none : startsWithAny choices tail = false := by
      cases tail with
      | nil => rfl
      | cons c tail => exact opens.excludes excludes c rfl
    cases count with
    | zero =>
        have missed : ¬ startsWithAny choices text = true := by
          intro starts
          simp [starts] at enough
        simp [none, missed]
    | succ count =>
        cases text with
        | nil =>
            rw [List.take_nil, List.nil_append, none]
            rfl
        | cons c rest => rfl

/-- A length of nothing, which no text has that opens with a break. -/
theorem ofNothing {length : List Char → Nat}
    (none : ∀ {tail}, OpensBreak tail → length tail = 0) (nothing : length text = 0)
    (still : ∀ {c rest} {count : Nat} {tail}, text = c :: rest → OpensBreak tail →
      length (c :: (rest.take count ++ tail)) = 0) : EndsAtBreak length text where
  within := nothing ▸ Nat.zero_le _
  same := by
    intro count tail _ opens
    rw [nothing]
    cases text with
    | nil => rw [List.take_nil, List.nil_append, none opens]
    | cons c rest =>
        cases count with
        | zero => rw [List.take_zero, List.nil_append, none opens]
        | succ count => exact still rfl opens

end EndsAtBreak

/-- The same of a length that a text may have. -/
structure MayEndAtBreak (length? : List Char → Option Nat) (text : List Char) : Prop where
  within : ∀ length ∈ length? text, length ≤ text.length
  same : ∀ {count : Nat} {tail : List Char}, (∀ length ∈ length? text, length ≤ count) →
    OpensBreak tail → length? (text.take count ++ tail) = length? text

theorem MayEndAtBreak.getD {length? : List Char → Option Nat} {other : List Char → Nat}
    (first : MayEndAtBreak length? text) (second : EndsAtBreak other text) :
    EndsAtBreak (fun text => (length? text).getD (other text)) text := by
  obtain ⟨within, same⟩ := first
  cases found : length? text with
  | some length =>
      rw [found] at within same
      refine ⟨by simpa [found] using within, fun {count tail} enough opens => ?_⟩
      simp only [found, Option.getD_some] at enough ⊢
      rw [same (by simpa using enough) opens, Option.getD_some]
  | none =>
      rw [found] at same
      refine ⟨by simpa [found] using second.within, fun {count tail} enough opens => ?_⟩
      simp only [found, Option.getD_none] at enough ⊢
      rw [same (by simp) opens, Option.getD_none, second.same enough opens]

/-! ### Numbers -/

theorem excludes_digits : breaks.all (!isDigitPart ·) := by decide

theorem signLength_ends (text : List Char) : EndsAtBreak signLength text :=
  .ofChoice (by decide) text

theorem signed_ends (text : List Char) :
    EndsAtBreak (fun text => signLength text + exponentDigits text) text :=
  (signLength_ends text).add (.runLength (by decide) _)

/-- Where an exponent has no digits, it gets none by a break. -/
theorem exponentDigits_eq_zero (none : exponentDigits text = 0) (opens : OpensBreak tail)
    (count : Nat) : exponentDigits (text.take count ++ tail) = 0 := by
  by_cases enough : signLength text ≤ count
  · have sign := (signLength_ends text).same enough opens
    have whole := (signed_ends text).same (by simpa [none] using enough) opens
    simp only [sign, none] at whole
    omega
  · have few : signLength text ≤ 1 := by
      unfold signLength
      split <;> omega
    obtain rfl : count = 0 := by omega
    have blank := (signed_ends []).same (Nat.le_refl _) opens
    have nothing : signLength [] + exponentDigits [] = 0 := rfl
    simp only [nothing, List.take_nil, List.nil_append] at blank
    rw [List.take_zero, List.nil_append]
    omega

theorem exponentLength_ends (text : List Char) : EndsAtBreak exponentLength text := by
  have none {tail : List Char} (opens : OpensBreak tail) : exponentLength tail = 0 := by
    cases tail with
    | nil => rfl
    | cons c tail =>
        have letter : ¬ (c = 'e' ∨ c = 'E') := by
          simpa using opens.excludes (by decide : breaks.all fun c => !(c == 'e' || c == 'E')) c rfl
        rw [exponentLength_cons, if_neg (by simp [letter])]
  cases text with
  | nil => exact .ofNothing none rfl nofun
  | cons c rest =>
      have signed := signed_ends rest
      by_cases some : (c = 'e' ∨ c = 'E') ∧ exponentDigits rest ≠ 0
      · have length : exponentLength (c :: rest) = 1 + (signLength rest + exponentDigits rest) := by
          rw [exponentLength_cons, if_pos some]
        refine ⟨?_, fun {count tail} enough opens => ?_⟩
        · have := signed.within
          rw [length, List.length_cons]
          omega
        · rw [length] at enough ⊢
          obtain ⟨count, rfl⟩ : ∃ less, count = less + 1 := ⟨count - 1, by omega⟩
          have sign : signLength (rest.take count ++ tail) = signLength rest :=
            (signLength_ends rest).same (by omega) opens
          have whole : signLength (rest.take count ++ tail) +
              exponentDigits (rest.take count ++ tail) = signLength rest + exponentDigits rest :=
            signed.same (by omega) opens
          rw [List.take_succ_cons, List.cons_append, exponentLength_cons,
            if_pos ⟨some.1, by omega⟩, whole]
      · have nothing : exponentLength (c :: rest) = 0 := by rw [exponentLength_cons, if_neg some]
        refine .ofNothing none nothing fun {_ _ count _} split opens => ?_
        obtain ⟨rfl, rfl⟩ := List.cons.inj split
        rw [exponentLength_cons, if_neg]
        rintro ⟨letter, digits⟩
        have digitless : exponentDigits rest = 0 :=
          Decidable.not_not.mp fun digits => some ⟨letter, digits⟩
        exact digits (exponentDigits_eq_zero digitless opens count)

theorem scaleLength_ends {suffixes : List Char} (excludes : breaks.all (!suffixes.contains ·))
    (text : List Char) : EndsAtBreak (scaleLength suffixes) text :=
  (exponentLength_ends text).add (.ofChoice excludes _)

theorem fractionLength_ends (text : List Char) : EndsAtBreak fractionLength text := by
  have other {text : List Char} (noPoint : text.head? ≠ some '.') : fractionLength text = 0 := by
    unfold fractionLength
    split
    · simp at noPoint
    · rfl
  have none {tail : List Char} (opens : OpensBreak tail) : fractionLength tail = 0 := by
    refine other fun point => ?_
    have excluded := opens.excludes (by decide : breaks.all fun c => !(c == '.')) '.' point
    simp at excluded
  cases text with
  | nil => exact .ofNothing none rfl nofun
  | cons c rest =>
      by_cases point : c = '.'
      · subst point
        have digits := EndsAtBreak.runLength excludes_digits rest
        have length (rest : List Char) :
            fractionLength ('.' :: rest) = 1 + runLength isDigitPart rest := rfl
        refine ⟨?_, fun {count tail} enough opens => ?_⟩
        · have := digits.within
          rw [length, List.length_cons]
          omega
        · rw [length] at enough ⊢
          obtain ⟨count, rfl⟩ : ∃ less, count = less + 1 := ⟨count - 1, by omega⟩
          rw [List.take_succ_cons, List.cons_append, length, digits.same (by omega) opens]
      · have nothing (text : List Char) : fractionLength (c :: text) = 0 := other (by simp [point])
        refine .ofNothing none (nothing rest) fun split _ => ?_
        obtain ⟨rfl, rfl⟩ := List.cons.inj split
        exact nothing _

theorem decimalTail_ends (text : List Char) : EndsAtBreak decimalTail text := by
  have whole := EndsAtBreak.runLength excludes_digits text
  exact (whole.add (fractionLength_ends _)).add (scaleLength_ends (by decide) _)

theorem pointTail_ends (text : List Char) : EndsAtBreak pointTail text := by
  have digits := EndsAtBreak.runLength excludes_digits text
  exact digits.add (scaleLength_ends (by decide) _)

section Based

variable {letters : List Char} {isDigit : Char → Bool}
  (noLetter : breaks.all (!letters.contains ·))
  (noDigit : breaks.all fun c => !(isDigit c || c == '_'))

include noLetter noDigit

/-- A number in another base, or that there is none. -/
theorem basedTail?_ends (text : List Char) :
    MayEndAtBreak (basedTail? letters isDigit) text := by
  have nothing {tail : List Char} (opens : OpensBreak tail) :
      basedTail? letters isDigit tail = none := by
    cases tail with
    | nil => rfl
    | cons c tail =>
        rw [basedTail?_cons, opens.excludes noLetter c rfl, if_neg (by simp)]
  cases text with
  | nil =>
      refine ⟨by simp [basedTail?], fun _ opens => ?_⟩
      rw [List.take_nil, List.nil_append, nothing opens]
      rfl
  | cons c rest =>
      have digits : EndsAtBreak (basedDigits isDigit) rest := .runLength noDigit rest
      have both : EndsAtBreak (basedLength isDigit) rest := digits.add (.ofChoice (by decide) _)
      by_cases based : letters.contains c = true ∧ basedDigits isDigit rest ≠ 0
      · have length : basedTail? letters isDigit (c :: rest) =
            some (1 + basedLength isDigit rest) := by rw [basedTail?_cons, if_pos based]
        refine ⟨fun _ found => ?_, fun {count tail} enough opens => ?_⟩
        · rw [length] at found
          obtain rfl := Option.some.inj found
          have := both.within
          rw [List.length_cons]
          omega
        · have enough := enough _ length
          have fewer : basedDigits isDigit rest ≤ basedLength isDigit rest := Nat.le_add_right _ _
          obtain ⟨count, rfl⟩ : ∃ less, count = less + 1 := ⟨count - 1, by omega⟩
          rw [List.take_succ_cons, List.cons_append, basedTail?_cons, digits.same (by omega) opens,
            both.same (by omega) opens, if_pos based, length]
      · have none : basedTail? letters isDigit (c :: rest) = none := by
          rw [basedTail?_cons, if_neg based]
        refine ⟨by simp [none], fun {count tail} _ opens => ?_⟩
        cases count with
        | zero => rw [List.take_zero, List.nil_append, nothing opens, none]
        | succ count =>
            rw [List.take_succ_cons, List.cons_append, none, basedTail?_cons, if_neg]
            rintro ⟨letter, some⟩
            have digitless : basedDigits isDigit rest = 0 :=
              Decidable.not_not.mp fun some => based ⟨letter, some⟩
            rw [digits.same (by omega) opens] at some
            exact some digitless

end Based

theorem numberTail_ends (first : Char) (text : List Char) :
    EndsAtBreak (numberTail first) text := by
  have decimal := decimalTail_ends text
  by_cases zero : first = '0'
  · have hexadecimal := basedTail?_ends (by decide : breaks.all fun c => ! ['x', 'X'].contains c)
      (by decide : breaks.all fun c => !(Text.isHexDigit c || c == '_')) text
    have binary := basedTail?_ends (by decide : breaks.all fun c => ! ['b', 'B'].contains c)
      (by decide : breaks.all fun c => !((c == '0' || c == '1') || c == '_')) text
    have given : numberTail first = fun text =>
        (basedTail? ['x', 'X'] Text.isHexDigit text).getD
          ((basedTail? ['b', 'B'] (fun d => d == '0' || d == '1') text).getD
            (decimalTail text)) := by
      funext text
      unfold numberTail
      rw [if_pos zero]
      cases basedTail? ['x', 'X'] Text.isHexDigit text <;> rfl
    rw [given]
    exact hexadecimal.getD (binary.getD decimal)
  · have given : numberTail first = decimalTail := by
      funext text
      exact if_neg zero
    rw [given]
    exact decimal

/-! ### Words -/

/-- A complete escape is found again if the text is cut behind it. -/
theorem escapeTail_ends {length count : Nat} (complete : escapeTail text = (length, true))
    (enough : length ≤ count) (opens : OpensBreak tail) :
    length ≤ text.length ∧ escapeTail (text.take count ++ tail) = (length, true) := by
  have marks : EndsAtBreak (runLength (· == 'u')) text := .runLength (by decide) text
  unfold escapeTail at complete
  dsimp only at complete
  split at complete
  · next written =>
      obtain ⟨rfl, -⟩ := Prod.mk.inj complete
      have all := written
      simp only [Bool.and_eq_true, decide_eq_true_eq] at all
      have four := all.1.2
      rw [List.length_take, List.length_drop] at four
      refine ⟨by omega, ?_⟩
      have digits : ((text.take count ++ tail).drop (runLength (· == 'u') text)).take 4 =
          (text.drop (runLength (· == 'u') text)).take 4 := by
        rw [drop_take_append (by omega) marks.within, List.take_append_of_le_length,
          List.take_take, Nat.min_eq_left (by omega)]
        rw [List.length_take, List.length_drop]
        omega
      unfold escapeTail
      dsimp only
      rw [marks.same (by omega) opens, digits, if_pos written]
  · cases complete

/-- Where a backslash has no mark behind it, it gets none by a break. -/
theorem escapeTail_of_unmarked {complete : Bool} (none : escapeTail text = (0, complete))
    (opens : OpensBreak tail) (count : Nat) :
    escapeTail (text.take count ++ tail) = (0, false) := by
  have unmarked : runLength (· == 'u') text = 0 := by
    unfold escapeTail at none
    dsimp only at none
    split at none
    · simp at none
    · exact congrArg Prod.fst none
  have still : runLength (· == 'u') (text.take count ++ tail) = 0 := by
    rw [(EndsAtBreak.runLength (by decide) text).same (by rw [unmarked]; exact Nat.zero_le _)
      opens, unmarked]
  unfold escapeTail
  dsimp only
  rw [still]
  rfl

theorem wordTail_of_opensBreak (opens : OpensBreak tail) : wordTail tail = (0, true) := by
  have ends : EndsWord tail := by
    intro c found
    have escape := opens.excludes (by decide : breaks.all fun c => !(c == '\\')) c found
    exact ⟨by simpa using escape, opens.excludes (by decide) c found⟩
  have none : ∀ c ∈ ([] : List Char), continuesWord c = true := by simp
  exact wordTail_append none ends

/-- A complete escape and some more of a text stay where they are if the text is cut behind
them. -/
theorem escapeTail_then {length more count : Nat} (complete : escapeTail text = (length, true))
    (within : more ≤ (text.drop length).length) (enough : length + more ≤ count)
    (opens : OpensBreak tail) :
    length + more ≤ text.length ∧ escapeTail (text.take count ++ tail) = (length, true) ∧
      (text.take count ++ tail).drop length = (text.drop length).take (count - length) ++ tail := by
  obtain ⟨inside, found⟩ := escapeTail_ends complete (by omega : length ≤ count) opens
  rw [List.length_drop] at within
  exact ⟨by omega, found, drop_take_append (by omega) inside⟩

theorem wordTail_ends {following : Nat} (sound : wordTail text = (following, true))
    (opens : OpensBreak tail) :
    following ≤ text.length ∧ ∀ {count : Nat}, following ≤ count →
      wordTail (text.take count ++ tail) = (following, true) := by
  have stops := wordTail_of_opensBreak opens
  fun_induction wordTail text generalizing following with
  | case1 =>
      cases sound
      refine ⟨Nat.le_refl _, fun {count} _ => ?_⟩
      rwa [List.take_nil, List.nil_append]
  | case2 rest marked unmarked =>
      cases sound
      refine ⟨Nat.zero_le _, fun {count} _ => ?_⟩
      cases count with
      | zero => exact stops
      | succ count =>
          rw [List.take_succ_cons, List.cons_append, wordTail]
          simp only [if_true, escapeTail_of_unmarked unmarked opens]
  | case3 rest length marked escape more _ further ih =>
      cases sound
      obtain ⟨within, same⟩ := ih further
      refine ⟨?_, fun {count} enough => ?_⟩
      · have inside := (escapeTail_then escape within (Nat.le_refl _) opens).1
        rw [List.length_cons]
        omega
      · obtain ⟨count, rfl⟩ : ∃ less, count = less + 1 := ⟨count - 1, by omega⟩
        obtain ⟨-, found, left⟩ :=
          escapeTail_then escape within (by omega : length + more ≤ count) opens
        rw [List.take_succ_cons, List.cons_append, wordTail]
        simp only [if_true, found, left, same (by omega : more ≤ count - length)]
  | case4 rest length _ escape => cases sound
  | case5 c rest plain continues more _ further ih =>
      cases sound
      obtain ⟨within, same⟩ := ih further
      refine ⟨by rw [List.length_cons]; omega, fun {count} enough => ?_⟩
      obtain ⟨count, rfl⟩ : ∃ less, count = less + 1 := ⟨count - 1, by omega⟩
      rw [List.take_succ_cons, List.cons_append, wordTail, if_neg plain, if_pos continues,
        same (by omega)]
  | case6 c rest plain ends =>
      cases sound
      refine ⟨Nat.zero_le _, fun {count} _ => ?_⟩
      cases count with
      | zero => exact stops
      | succ count =>
          rw [List.take_succ_cons, List.cons_append, wordTail, if_neg plain, if_neg ends]

/-! ### Literals and comments -/

/-- A closed literal is found again whatever comes behind it. -/
theorem quotedTail_append {quote : Char} (other : quote ≠ '\\') {length : Nat}
    (closed : quotedTail quote text = (length, true)) (tail : List Char) :
    length ≤ text.length ∧ ∀ {count : Nat}, length ≤ count →
      quotedTail quote (text.take count ++ tail) = (length, true) := by
  fun_induction quotedTail quote text generalizing length with
  | case1 => cases closed
  | case2 => cases closed
  | case3 c rest newline more _ further ih =>
      cases closed
      obtain ⟨within, same⟩ := ih further
      refine ⟨by simp only [List.length_cons]; omega, fun {count} enough => ?_⟩
      obtain ⟨count, rfl⟩ : ∃ less, count = 2 + less := ⟨count - 2, by omega⟩
      rw [Nat.add_comm 2, List.take_succ_cons, List.take_succ_cons, List.cons_append,
        List.cons_append, quotedTail, if_neg newline, same (by omega)]
  | case4 rest =>
      cases closed
      refine ⟨by simp, fun {count} enough => ?_⟩
      obtain ⟨count, rfl⟩ : ∃ less, count = less + 1 := ⟨count - 1, by omega⟩
      rw [List.take_succ_cons, List.cons_append, quotedTail_cons (.inl other), if_pos rfl]
  | case5 => cases closed
  | case6 c rest _ continues goesOn more _ further ih =>
      cases closed
      obtain ⟨within, same⟩ := ih further
      have plain : c ≠ '\\' := by
        rintro rfl
        simp at goesOn
      refine ⟨by rw [List.length_cons]; omega, fun {count} enough => ?_⟩
      obtain ⟨count, rfl⟩ : ∃ less, count = less + 1 := ⟨count - 1, by omega⟩
      rw [List.take_succ_cons, List.cons_append, quotedTail_cons (.inl plain),
        if_neg continues, if_neg goesOn, same (by omega)]

theorem commentTail?_ends {length : Nat} (closed : commentTail? text = some length)
    (tail : List Char) :
    0 < length ∧ length ≤ text.length ∧ ∀ {count : Nat}, length ≤ count →
      commentTail? (text.take count ++ tail) = some length := by
  obtain ⟨body, taken, unclosed⟩ := commentTail?_eq_some closed
  have first : ¬ ['*', '/'] <:+: body :=
    mt (·.trans (List.prefix_append body ['*']).isInfix) unclosed
  have whole : body ++ '*' :: '/' :: text.drop length = text := by
    calc
      body ++ '*' :: '/' :: text.drop length = body ++ ['*', '/'] ++ text.drop length := by simp
      _ = text := by rw [← taken, List.take_append_drop]
  have size : length = body.length + 2 := by
    rw [← whole, commentTail?_append first] at closed
    exact (Option.some.inj closed).symm
  have within : body.length + 2 ≤ text.length := by
    rw [← whole, List.length_append, List.length_cons, List.length_cons]
    omega
  refine ⟨by omega, by omega, fun {count} enough => ?_⟩
  have cut : text.take count ++ tail =
      body ++ '*' :: '/' :: ((text.drop length).take (count - length) ++ tail) := by
    obtain ⟨more, rfl⟩ : ∃ more, count = length + more := ⟨count - length, by omega⟩
    rw [List.take_add, taken, Nat.add_sub_cancel_left]
    simp
  rw [cut, commentTail?_append first, size]

/-! ### Lexemes -/

def Shape.isToken : Shape → Bool
  | space | comment | invalid | unclosedComment => false
  | _ => true

theorem isToken_of_token? {cut : Cut} {value : TokenKind × String}
    (read : cut.token? = .ok value) : cut.shape.isToken = true := by
  unfold Cut.token? at read
  cases shape : cut.shape <;> rw [shape] at read <;> first | rfl | cases read

theorem isLayout_of_isToken {shape : Shape} (isToken : shape.isToken = true) :
    shape.isLayout = false := by
  cases shape <;> first | rfl | cases isToken

/-- A lexeme that is scanned again as the same if its text is cut behind it, or later, and
another one comes there. -/
structure IsCutOut (scanned : List Char → Reach) (text tail : List Char) : Prop where
  within : (scanned text).following ≤ text.length
  same : ∀ {count : Nat}, (scanned text).following ≤ count →
    scanned (text.take count ++ tail) = scanned text

theorem IsCutOut.ofLength {length : List Char → Nat} (shape : Shape)
    (ends : EndsAtBreak length text) (opens : OpensBreak tail) :
    IsCutOut (fun text => { shape, following := length text }) text tail :=
  ⟨ends.within, fun enough => by rw [ends.same enough opens]⟩

theorem word_isCutOut (isToken : (word text).shape.isToken = true) (opens : OpensBreak tail) :
    IsCutOut word text tail := by
  cases scanned : wordTail text with
  | mk following sound =>
      have given : word text =
          { shape := if sound = true then .word else .invalid, following } := by
        rw [word, scanned]
      cases sound with
      | false =>
          rw [given] at isToken
          cases isToken
      | true =>
          obtain ⟨within, same⟩ := wordTail_ends scanned opens
          refine ⟨by rw [given]; exact within, fun {count} enough => ?_⟩
          rw [given] at enough ⊢
          rw [word, same enough]

theorem escapedWord_isCutOut (isToken : (escapedWord text).shape.isToken = true)
    (opens : OpensBreak tail) : IsCutOut escapedWord text tail := by
  cases escape : escapeTail text with
  | mk length complete =>
      cases length with
      | zero =>
          rw [escapedWord, escape] at isToken
          cases isToken
      | succ length =>
          cases complete with
          | false =>
              rw [escapedWord, escape] at isToken
              cases isToken
          | true =>
              cases scanned : wordTail (text.drop (length + 1)) with
              | mk more sound =>
                  have given : escapedWord text =
                      { shape := if sound = true then .word else .invalid,
                        following := length + 1 + more } := by
                    simp only [escapedWord, escape, scanned]
                  cases sound with
                  | false =>
                      rw [given] at isToken
                      cases isToken
                  | true =>
                      obtain ⟨within, same⟩ := wordTail_ends scanned opens
                      obtain ⟨inside, -⟩ := escapeTail_then escape within (Nat.le_refl _) opens
                      refine ⟨by rw [given]; exact inside, fun {count} enough => ?_⟩
                      rw [given] at enough ⊢
                      obtain ⟨-, found, left⟩ := escapeTail_then escape within enough opens
                      have behind : more ≤ count - (length + 1) := Nat.le_sub_of_add_le' enough
                      simp only [escapedWord, found, left, same behind]

theorem quotedLiteral_isCutOut {shape : Shape} {quote : Char} (other : quote ≠ '\\')
    (isToken : (quotedLiteral shape quote text).shape.isToken = true) (tail : List Char) :
    IsCutOut (quotedLiteral shape quote) text tail := by
  cases scanned : quotedTail quote text with
  | mk following closed =>
      have given : quotedLiteral shape quote text =
          { shape := if closed = true then shape else .invalid, following } := by
        rw [quotedLiteral, scanned]
      cases closed with
      | false =>
          rw [given] at isToken
          cases isToken
      | true =>
          obtain ⟨within, same⟩ := quotedTail_append other scanned tail
          refine ⟨by rw [given]; exact within, fun {count} enough => ?_⟩
          rw [given] at enough ⊢
          rw [quotedLiteral, same enough]

/-- Behind its first character a mark has no break in it. -/
theorem notMem_tail_spelling (symbol : Mark) (isBreak : c ∈ breaks) :
    c ∉ symbol.spelling.toList.tail := by
  have none : breaks.all (!symbol.spelling.toList.tail.contains ·) := by cases symbol <;> decide
  simpa using List.all_eq_true.mp none c isBreak

theorem longest?_ends {symbol : Mark} (found : Mark.longest? text = some symbol)
    (opens : OpensBreak tail) :
    symbol.spelling.toList <+: text ∧ ∀ {count : Nat}, symbol.spelling.length ≤ count →
      Mark.longest? (text.take count ++ tail) = some symbol := by
  unfold Mark.longest? at found ⊢
  obtain ⟨starts, longer, shorter, all, none⟩ := List.find?_eq_some_iff_append.mp found
  have starts := List.isPrefixOf_iff_prefix.mp starts
  refine ⟨starts, fun {count} enough => ?_⟩
  have before : symbol.spelling.toList <+: text.take count :=
    List.prefix_take_iff.mpr ⟨starts, by rwa [String.length_toList]⟩
  refine List.find?_eq_some_iff_append.mpr ⟨?_, longer, shorter, all, ?_⟩
  · exact List.isPrefixOf_iff_prefix.mpr (before.trans (List.prefix_append _ tail))
  · intro other member
    -- A mark that was passed over would have to reach over the cut, but no mark has a break in it.
    have inside : other.spelling.toList <+: text.take count ++ tail →
        other.spelling.toList <+: text := by
      intro further
      refine List.IsPrefix.trans ?_ (List.take_prefix count text)
      cases tail with
      | nil => rwa [List.append_nil] at further
      | cons c tail =>
          have taken : text.take count ≠ [] := by
            have some : symbol.spelling.toList ≠ [] := by cases symbol <;> decide
            exact fun empty => some (List.prefix_nil.mp (empty ▸ before))
          obtain ⟨d, front, cut⟩ := List.exists_cons_of_ne_nil taken
          have unbroken := notMem_tail_spelling other (opens c rfl)
          rw [cut] at further ⊢
          cases written : other.spelling.toList with
          | nil => exact List.nil_prefix
          | cons e more =>
              rw [written] at further unbroken
              rw [List.cons_append, List.cons_prefix_cons] at further
              exact List.cons_prefix_cons.mpr
                ⟨further.1, (Block.prefix_append_cons unbroken).mp further.2⟩
    have missed := none other member
    simp only [Bool.not_eq_true', ← Bool.not_eq_true, List.isPrefixOf_iff_prefix] at missed ⊢
    exact mt inside missed

theorem markAt_isCutOut {first : Char} (isToken : (markAt first text).shape.isToken = true)
    (opens : OpensBreak tail) : IsCutOut (markAt first) text tail := by
  cases found : Mark.longest? (first :: text) with
  | none =>
      rw [markAt, found] at isToken
      cases isToken
  | some symbol =>
      obtain ⟨starts, same⟩ := longest?_ends found opens
      have given : markAt first text =
          { shape := .mark symbol, following := symbol.spelling.length - 1 } := by
        rw [markAt, found]
      have length := starts.length_le
      rw [List.length_cons, String.length_toList] at length
      refine ⟨by rw [given]; exact Nat.sub_le_of_le_add length, fun {count} enough => ?_⟩
      rw [given] at enough ⊢
      have further := same (Nat.le_add_of_sub_le enough)
      rw [List.take_succ_cons, List.cons_append] at further
      rw [markAt, further]

theorem head?_take_append {count : Nat} (taken : 0 < count) (some : text ≠ []) :
    (text.take count ++ tail).head? = text.head? := by
  obtain ⟨c, text, rfl⟩ := List.exists_cons_of_ne_nil some
  obtain ⟨count, rfl⟩ : ∃ less, count = less + 1 := ⟨count - 1, by omega⟩
  rfl

/-- Where a text is cut, a break adds no character of some other kind. -/
theorem head?_of_cut {count : Nat} {holds : Char → Bool} (excludes : breaks.all (!holds ·))
    (opens : OpensBreak tail) (found : (text.take count ++ tail).head?.any holds = true) :
    text.head?.any holds = true := by
  have other : ¬ tail.head?.any holds = true := by
    cases tail with
    | nil => simp
    | cons c tail => simp [opens.excludes excludes c rfl]
  cases count with
  | zero => exact absurd found other
  | succ count =>
      cases text with
      | nil => exact absurd found other
      | cons d text => exact found

theorem starts_iff : [c] <+: text ↔ text.head?.any (· == c) = true := by
  cases text with
  | nil => simp
  | cons d text => simpa using eq_comm

theorem opensEmpty_iff : ['*', '*', '/'] <+: ['*', '*'] ++ text ↔ ['/'] <+: text :=
  List.prefix_append_right_inj ['*', '*']

theorem scan_doc (notEmpty : ¬ ['/'] <+: text) :
    scan '/' (['*', '*'] ++ text) = blockComment .docComment 1 text := by
  rw [scan_slash, if_neg (by simp), if_neg (mt opensEmpty_iff.mp notEmpty),
    if_pos (List.prefix_append _ _)]
  rfl

/-- A doc comment ends in itself, so it is the same whatever comes behind it. -/
theorem doc_isCutOut (notEmpty : ¬ ['/'] <+: text)
    (isToken : (scan '/' (['*', '*'] ++ text)).shape.isToken = true) (tail : List Char) :
    IsCutOut (scan '/') (['*', '*'] ++ text) tail := by
  have given := scan_doc notEmpty
  rw [blockComment] at given
  cases closed : commentTail? text with
  | none =>
      rw [given, closed] at isToken
      cases isToken
  | some length =>
      obtain ⟨positive, within, same⟩ := commentTail?_ends closed tail
      rw [closed] at given
      refine ⟨?_, fun {count} enough => ?_⟩
      · rw [given, List.length_append]
        exact Nat.add_le_add_left within _
      · rw [given] at enough ⊢
        obtain ⟨count, rfl⟩ : ∃ less, count = less + 1 + 1 := ⟨count - 2, by grind⟩
        have further : length ≤ count := by grind
        have some : text ≠ [] := by
          rintro rfl
          exact absurd within (Nat.not_le_of_lt positive)
        have still : ¬ ['/'] <+: text.take count ++ tail := by
          rwa [starts_iff, head?_take_append (by omega) some, ← starts_iff]
        have cut : (['*', '*'] ++ text).take (count + 1 + 1) ++ tail =
            ['*', '*'] ++ (text.take count ++ tail) := rfl
        rw [cut, scan_doc still, blockComment, same further]

theorem scan_slash_isCutOut (isToken : (scan '/' text).shape.isToken = true)
    (opens : OpensBreak tail) : IsCutOut (scan '/') text tail := by
  have given := scan_slash text
  by_cases line : ['/'] <+: text
  · rw [given, if_pos line] at isToken
    cases isToken
  by_cases empty : ['*', '*', '/'] <+: text
  · rw [given, if_neg line, if_pos empty] at isToken
    cases isToken
  by_cases doc : ['*', '*'] <+: text
  · obtain ⟨more, rfl⟩ := doc
    exact doc_isCutOut (mt opensEmpty_iff.mpr empty) isToken tail
  by_cases star : ['*'] <+: text
  · rw [given, if_neg line, if_neg empty, if_neg doc, if_pos star, blockComment] at isToken
    split at isToken <;> cases isToken
  · rw [if_neg line, if_neg empty, if_neg doc, if_neg star] at given
    rw [given] at isToken
    obtain ⟨within, same⟩ := markAt_isCutOut isToken opens
    have none {c : Char} {count : Nat} (content : breaks.all fun d => !(d == c))
        (missed : ¬ [c] <+: text) (more : List Char) : ¬ c :: more <+: text.take count ++ tail := by
      rintro ⟨further, whole⟩
      have starts : (text.take count ++ tail).head?.any (· == c) = true := by
        rw [← whole]
        simp
      exact missed (starts_iff.mpr (head?_of_cut content opens starts))
    refine ⟨by rw [given]; exact within, fun {count} enough => ?_⟩
    rw [given] at enough ⊢
    rw [scan_slash, if_neg (none (by decide) line _), if_neg (none (by decide) star _),
      if_neg (none (by decide) star _), if_neg (none (by decide) star _), same enough]

theorem scan_of_ne_slash {first : Char} (slash : first ≠ '/') (rest : List Char) :
    scan first rest =
      if isSpace first then { shape := .space, following := runLength isSpace rest }
      else if opensWord first then word rest
      else if first = '\\' then escapedWord rest
      else if first.isDigit then { shape := .number, following := numberTail first rest }
      else if first = '"' then quotedLiteral .string '"' rest
      else if first = '\'' then quotedLiteral .character '\'' rest
      else if first = '.' && (rest.head?.any Char.isDigit) then
        { shape := .number, following := pointTail rest }
      else markAt first rest := by
  rw [scan]
  all_goals exact fun _ same => absurd same slash

theorem scan_point (text : List Char) :
    scan '.' text =
      if text.head?.any Char.isDigit then { shape := .number, following := pointTail text }
      else markAt '.' text :=
  scan_of_ne_slash (by decide) text

theorem pointTail_pos (digit : text.head?.any Char.isDigit = true) : 0 < pointTail text := by
  have digits : 0 < runLength isDigitPart text := by
    cases text with
    | nil => cases digit
    | cons d text =>
        have part : isDigitPart d = true := by
          rw [isDigitPart, show d.isDigit = true from digit, Bool.true_or]
        rw [runLength, List.takeWhile_cons_of_pos part]
        exact Nat.succ_pos _
  exact Nat.lt_of_lt_of_le digits (Nat.le_add_right _ _)

theorem pointNumber_isCutOut (digit : text.head?.any Char.isDigit = true)
    (opens : OpensBreak tail) : IsCutOut (scan '.') text tail := by
  have given := scan_point text
  rw [if_pos digit] at given
  obtain ⟨within, same⟩ := pointTail_ends text
  refine ⟨by rw [given]; exact within, fun {count} enough => ?_⟩
  rw [given] at enough ⊢
  have some : text ≠ [] := by
    rintro rfl
    cases digit
  have still : (text.take count ++ tail).head?.any Char.isDigit = true := by
    rw [head?_take_append (Nat.lt_of_lt_of_le (pointTail_pos digit) enough) some, digit]
  rw [scan_point, if_pos still, same enough opens]

theorem scan_point_isCutOut (isToken : (scan '.' text).shape.isToken = true)
    (opens : OpensBreak tail) : IsCutOut (scan '.') text tail := by
  by_cases digit : text.head?.any Char.isDigit = true
  · exact pointNumber_isCutOut digit opens
  · have given := scan_point text
    rw [if_neg digit] at given
    rw [given] at isToken
    obtain ⟨within, same⟩ := markAt_isCutOut isToken opens
    refine ⟨by rw [given]; exact within, fun {count} enough => ?_⟩
    rw [given] at enough ⊢
    have still : ¬ (text.take count ++ tail).head?.any Char.isDigit = true :=
      fun further => digit (head?_of_cut (by decide) opens further)
    rw [scan_point, if_neg still, same enough]

/-- How a text is scanned is decided by its first character, unless this is a slash or a point. -/
inductive ScannedBy (first : Char) : Prop where
  | slash : first = '/' → ScannedBy first
  | point : first = '.' → ScannedBy first
  | space : isSpace first = true → ScannedBy first
  | word : scan first = Lexeme.word → ScannedBy first
  | escapedWord : scan first = Lexeme.escapedWord → ScannedBy first
  | number : scan first = (fun rest => { shape := .number, following := numberTail first rest }) →
      first ≠ '\n' → ScannedBy first
  | quoted {shape : Shape} : scan first = quotedLiteral shape first → first ≠ '\\' →
      first ≠ '\n' → ScannedBy first
  | mark : scan first = markAt first → ScannedBy first

theorem scannedBy (first : Char) : ScannedBy first := by
  by_cases slash : first = '/'
  · exact .slash slash
  by_cases point : first = '.'
  · exact .point point
  by_cases space : isSpace first
  · exact .space space
  have inLine : first ≠ '\n' := by
    rintro rfl
    exact space (by decide)
  by_cases isWord : opensWord first
  · refine .word (funext fun rest => ?_)
    rw [scan_of_ne_slash slash, if_neg space, if_pos isWord]
  by_cases escaped : first = '\\'
  · refine .escapedWord (funext fun rest => ?_)
    rw [scan_of_ne_slash slash, if_neg space, if_neg isWord, if_pos escaped]
  by_cases digit : first.isDigit
  · refine .number (funext fun rest => ?_) inLine
    rw [scan_of_ne_slash slash, if_neg space, if_neg isWord, if_neg escaped, if_pos digit]
  by_cases string : first = '"'
  · subst string
    have same (rest : List Char) : scan '"' rest = quotedLiteral .string '"' rest := by
      rw [scan_of_ne_slash slash, if_neg space, if_neg isWord, if_neg escaped, if_neg digit,
        if_pos rfl]
    exact .quoted (funext same) escaped inLine
  by_cases character : first = '\''
  · subst character
    have same (rest : List Char) : scan '\'' rest = quotedLiteral .character '\'' rest := by
      rw [scan_of_ne_slash slash, if_neg space, if_neg isWord, if_neg escaped, if_neg digit,
        if_neg string, if_pos rfl]
    exact .quoted (funext same) escaped inLine
  refine .mark (funext fun rest => ?_)
  rw [scan_of_ne_slash slash, if_neg space, if_neg isWord, if_neg escaped, if_neg digit,
    if_neg string, if_neg character, if_neg (by simp [point])]

/-- A token is scanned again as the same if its text is cut behind it, or later, and a break
comes there. -/
theorem scan_isCutOut {first : Char} (isToken : (scan first text).shape.isToken = true)
    (opens : OpensBreak tail) : IsCutOut (scan first) text tail := by
  cases scannedBy first with
  | slash is =>
      subst is
      exact scan_slash_isCutOut isToken opens
  | point is =>
      subst is
      exact scan_point_isCutOut isToken opens
  | space is =>
      rw [scan_of_isSpace is] at isToken
      cases isToken
  | word same =>
      rw [same] at isToken ⊢
      exact word_isCutOut isToken opens
  | escapedWord same =>
      rw [same] at isToken ⊢
      exact escapedWord_isCutOut isToken opens
  | number same =>
      rw [same]
      exact .ofLength .number (numberTail_ends first text) opens
  | quoted same other =>
      rw [same] at isToken ⊢
      exact quotedLiteral_isCutOut other isToken tail
  | mark same =>
      rw [same] at isToken ⊢
      exact markAt_isCutOut isToken opens

/-! ### Literals that are no words -/

/-- The shapes of numbers, strings and characters. -/
def Shape.isLiteral : Shape → Bool
  | number | string | character => true
  | _ => false

theorem isToken_of_isLiteral {shape : Shape} (isLiteral : shape.isLiteral = true) :
    shape.isToken = true := by
  cases shape <;> first | rfl | cases isLiteral

theorem isLiteral_markAt (first : Char) (text : List Char) :
    (markAt first text).shape.isLiteral = false := by
  rcases shape_markAt first text with ⟨symbol, is⟩ | is <;> rw [is] <;> rfl

theorem isLiteral_word (text : List Char) : (word text).shape.isLiteral = false := by
  rcases shape_word text with is | is <;> rw [is] <;> rfl

theorem isLiteral_escapedWord (text : List Char) : (escapedWord text).shape.isLiteral = false := by
  rcases shape_escapedWord text with is | is <;> rw [is] <;> rfl

theorem isLiteral_scan_slash (text : List Char) : (scan '/' text).shape.isLiteral = false := by
  have comment {shape : Shape} (none : shape.isLiteral = false) (opened : Nat)
      (text : List Char) : (blockComment shape opened text).shape.isLiteral = false := by
    rcases shape_blockComment shape opened text with is | is
    · rw [is, none]
    · rw [is]
      rfl
  rw [scan_slash]
  split_ifs
  · rfl
  · rfl
  · exact comment rfl _ _
  · exact comment rfl _ _
  · exact isLiteral_markAt '/' text

/-- A literal within its line, which is scanned again as the same if a break comes behind it. -/
theorem literal_isCutOut {first : Char} (isLiteral : (scan first text).shape.isLiteral = true)
    (opens : OpensBreak tail) :
    '\n' ∉ first :: text.take (scan first text).following ∧ IsCutOut (scan first) text tail := by
  cases scannedBy first with
  | slash is =>
      subst is
      rw [isLiteral_scan_slash] at isLiteral
      cases isLiteral
  | point is =>
      subst is
      have given := scan_point text
      by_cases digit : text.head?.any Char.isDigit = true
      · rw [if_pos digit] at given
        refine ⟨?_, pointNumber_isCutOut digit opens⟩
        rw [given]
        simpa using (pointTail_stays text).inLine
      · rw [if_neg digit] at given
        rw [given, isLiteral_markAt] at isLiteral
        cases isLiteral
  | space is =>
      rw [scan_of_isSpace is] at isLiteral
      cases isLiteral
  | word same =>
      rw [same, isLiteral_word] at isLiteral
      cases isLiteral
  | escapedWord same =>
      rw [same, isLiteral_escapedWord] at isLiteral
      cases isLiteral
  | number same inLine =>
      rw [same]
      have stays := (numberTail_stays first text).inLine
      exact ⟨by simp [inLine.symm, stays], .ofLength .number (numberTail_ends first text) opens⟩
  | quoted same other inLine =>
      rw [same] at isLiteral ⊢
      have stays := notMem_take_quotedTail inLine text
      refine ⟨?_, quotedLiteral_isCutOut other (isToken_of_isLiteral isLiteral) tail⟩
      simpa [quotedLiteral, inLine.symm] using stays
  | mark same =>
      rw [same, isLiteral_markAt] at isLiteral
      cases isLiteral

end JavaDecl.Lexeme
