import JavaDecl.DocComment
import JavaDecl.Proofs.TakenText

/-!
# Texts with carriage returns

A text in which every newline gets a carriage return in front of it has the same lines.  Doc
comments say the same, and blocks end at the same place if no line ends behind a backslash.
-/

namespace JavaDecl

namespace Text

/-- The text with a carriage return in front of every newline. -/
def withReturns : List Char → List Char
  | [] => []
  | c :: rest => if c = '\n' then '\r' :: '\n' :: withReturns rest else c :: withReturns rest

/-- The text without the carriage returns in front of newlines. -/
def withoutReturns : List Char → List Char
  | '\r' :: '\n' :: rest => '\n' :: withoutReturns rest
  | c :: rest => c :: withoutReturns rest
  | [] => []

@[simp] theorem withReturns_nil : withReturns [] = [] := rfl

@[simp] theorem withReturns_newline (rest : List Char) :
    withReturns ('\n' :: rest) = '\r' :: '\n' :: withReturns rest := by
  simp [withReturns]

theorem withReturns_cons {c : Char} (inLine : c ≠ '\n') (rest : List Char) :
    withReturns (c :: rest) = c :: withReturns rest := by
  simp [withReturns, inLine]

@[simp] theorem withReturns_append (front back : List Char) :
    withReturns (front ++ back) = withReturns front ++ withReturns back := by
  induction front with
  | nil => rfl
  | cons c front ih =>
      by_cases newline : c = '\n'
      · subst newline
        simp [ih]
      · simp [withReturns_cons newline, ih]

theorem withReturns_of_notMem {text : List Char} (oneLine : '\n' ∉ text) :
    withReturns text = text := by
  induction text with
  | nil => rfl
  | cons c rest ih =>
      obtain ⟨inLine, further⟩ := not_or.mp (mt List.mem_cons.mpr oneLine)
      rw [withReturns_cons (Ne.symm inLine), ih further]

theorem count_withReturns (text : List Char) :
    (withReturns text).count '\n' = text.count '\n' := by
  induction text with
  | nil => rfl
  | cons c rest ih =>
      by_cases newline : c = '\n'
      · subst newline
        simp [ih]
      · simp [withReturns_cons newline, newline, ih]

theorem length_le_withReturns (text : List Char) :
    text.length ≤ (withReturns text).length := by
  induction text with
  | nil => exact Nat.le_refl _
  | cons c rest ih =>
      by_cases newline : c = '\n'
      · subst newline
        simp only [withReturns_newline, List.length_cons]
        omega
      · simpa [withReturns_cons newline] using ih

theorem withoutReturns_cons {c : Char} (other : c ≠ '\r') (rest : List Char) :
    withoutReturns (c :: rest) = c :: withoutReturns rest := by
  rw [withoutReturns]
  rintro tail rfl
  exact absurd rfl other

theorem withoutReturns_withReturns {text : List Char} (none : '\r' ∉ text) :
    withoutReturns (withReturns text) = text := by
  induction text with
  | nil => rfl
  | cons c rest ih =>
      obtain ⟨other, further⟩ := not_or.mp (mt List.mem_cons.mpr none)
      by_cases newline : c = '\n'
      · subst newline
        rw [withReturns_newline, withoutReturns, ih further]
      · rw [withReturns_cons newline, withoutReturns_cons (Ne.symm other), ih further]

/-! ### Cutting off a part -/

/-- Two numbers of characters that make up the same part of a text without and with carriage
returns. -/
structure SameCut (text : List Char) (count count' : Nat) : Prop where
  taken : (withReturns text).take count' = withReturns (text.take count)
  left : (withReturns text).drop count' = withReturns (text.drop count)

namespace SameCut

variable {text : List Char} {count count' : Nat}

theorem ofInLine (inLine : '\n' ∉ text.take count) : SameCut text count count := by
  induction text generalizing count with
  | nil => exact ⟨by simp, by simp⟩
  | cons c rest ih =>
      cases count with
      | zero => exact ⟨by simp, by simp⟩
      | succ count =>
          obtain ⟨other, further⟩ := not_or.mp (mt List.mem_cons.mpr inLine)
          obtain ⟨taken, left⟩ := ih further
          have same := withReturns_cons (Ne.symm other)
          exact ⟨by simp [same, taken], by simp [same, left]⟩

theorem cons {c : Char} {rest : List Char} (inLine : c ≠ '\n') (cut : SameCut rest count count') :
    SameCut (c :: rest) (1 + count) (1 + count') := by
  rw [Nat.add_comm 1, Nat.add_comm 1]
  constructor
  · simp [withReturns_cons inLine, cut.taken]
  · simp [withReturns_cons inLine, cut.left]

theorem behind {front : List Char} (inLine : '\n' ∉ front) (cut : SameCut text count count') :
    SameCut (front ++ text) (front.length + count) (front.length + count') := by
  constructor
  · rw [withReturns_append, withReturns_of_notMem inLine, List.take_length_add_append, cut.taken,
      List.take_length_add_append, withReturns_append, withReturns_of_notMem inLine]
  · rw [withReturns_append, withReturns_of_notMem inLine, List.drop_length_add_append, cut.left,
      List.drop_length_add_append]

theorem newline {rest : List Char} (cut : SameCut rest count count') :
    SameCut ('\n' :: rest) (1 + count) (2 + count') := by
  rw [Nat.add_comm 1, Nat.add_comm 2]
  exact ⟨by simp [cut.taken], by simp [cut.left]⟩

theorem whole (text : List Char) : SameCut text text.length (withReturns text).length :=
  ⟨by simp, by simp⟩

theorem eq_take (inLine : '\n' ∉ text.take count) :
    (withReturns text).take count = text.take count := by
  rw [(ofInLine inLine).taken, withReturns_of_notMem inLine]

end SameCut

/-! ### Looking for a part within a line -/

/-- A text that holds no end of a line. -/
def IsInLine (text : List Char) : Prop :=
  '\n' ∉ text ∧ '\r' ∉ text

instance (text : List Char) : Decidable (IsInLine text) :=
  inferInstanceAs (Decidable (_ ∧ _))

variable {text middle : List Char}

theorem prefix_withReturns_iff (inLine : IsInLine middle) :
    middle <+: withReturns text ↔ middle <+: text := by
  induction text generalizing middle with
  | nil => rfl
  | cons c rest ih =>
      cases middle with
      | nil => simp
      | cons d middle =>
          obtain ⟨⟨noNewline, further⟩, noReturn, still⟩ : (d ≠ '\n' ∧ '\n' ∉ middle) ∧
              d ≠ '\r' ∧ '\r' ∉ middle := by
            simpa [IsInLine, eq_comm] using inLine
          by_cases newline : c = '\n'
          · subst newline
            simp [noNewline, noReturn]
          · rw [withReturns_cons newline, List.cons_prefix_cons, List.cons_prefix_cons,
              ih ⟨further, still⟩]

/-- A pattern that a text does not match is no prefix of it. -/
theorem notPrefix_cons {first c : Char} {more rest : List Char}
    (other : ∀ tail, c = first → rest = more ++ tail → False) : ¬ first :: more <+: c :: rest := by
  rintro ⟨tail, found⟩
  obtain ⟨same, split⟩ := List.cons.inj found
  exact other tail same.symm split.symm

theorem notMem_of_withReturns (none : '\r' ∉ withReturns text) : '\n' ∉ text := by
  induction text with
  | nil => simp
  | cons c rest ih =>
      by_cases newline : c = '\n'
      · subst newline
        simp at none
      · rw [withReturns_cons newline] at none
        have further := ih (mt (List.mem_cons_of_mem c) none)
        simp [further, Ne.symm newline]

theorem suffix_withReturns_iff (inLine : IsInLine middle) :
    middle <:+ withReturns text ↔ middle <:+ text := by
  constructor
  · intro found
    induction text with
    | nil => exact found
    | cons c rest ih =>
        by_cases newline : c = '\n'
        · subst newline
          rw [withReturns_newline] at found
          rcases List.suffix_cons_iff.mp found with rfl | later
          · exact absurd List.mem_cons_self inLine.2
          rcases List.suffix_cons_iff.mp later with rfl | later
          · exact absurd List.mem_cons_self inLine.1
          exact (ih later).trans (List.suffix_cons _ rest)
        · rw [withReturns_cons newline] at found
          rcases List.suffix_cons_iff.mp found with rfl | later
          · have none : '\n' ∉ rest :=
              notMem_of_withReturns (mt (List.mem_cons_of_mem c) inLine.2)
            exact ⟨[], by rw [withReturns_of_notMem none, List.nil_append]⟩
          · exact (ih later).trans (List.suffix_cons c rest)
  · rintro ⟨front, rfl⟩
    rw [withReturns_append, withReturns_of_notMem inLine.1]
    exact List.suffix_append _ _

/-! ### Lines -/

theorem lines_cons {c : Char} (noNewline : c ≠ '\n') (noReturn : c ≠ '\r') (rest : List Char) :
    lines (c :: rest) =
      match lines rest with
      | [] => [[c]]
      | line :: more => (c :: line) :: more := by
  conv => lhs; unfold lines
  split
  · next same => cases same
  · next same => exact absurd (List.cons.inj same).1 noNewline
  · next same => exact absurd (List.cons.inj same).1 noReturn
  · next same =>
      obtain ⟨rfl, rfl⟩ := List.cons.inj same
      rfl

theorem lines_withReturns (none : '\r' ∉ text) : lines (withReturns text) = lines text := by
  induction text with
  | nil => rfl
  | cons c rest ih =>
      obtain ⟨other, further⟩ := not_or.mp (mt List.mem_cons.mpr none)
      by_cases newline : c = '\n'
      · subst newline
        rw [withReturns_newline, lines, lines, ih further]
      · rw [withReturns_cons newline, lines_cons newline (Ne.symm other),
          lines_cons newline (Ne.symm other), ih further]

end Text

open Text

/-! ### Doc comments -/

namespace DocComment

variable {text : List Char}

theorem dropOpening_withReturns {opening : List Char} (inLine : IsInLine opening)
    (text : List Char) :
    dropOpening opening (withReturns text) = withReturns (dropOpening opening text) := by
  unfold dropOpening
  simp only [List.isPrefixOf_iff_prefix, prefix_withReturns_iff inLine]
  split
  · next opens =>
      obtain ⟨rest, rfl⟩ := opens
      rw [withReturns_append, withReturns_of_notMem inLine.1, List.drop_left, List.drop_left]
  · rfl

theorem dropClosing_withReturns {closing : List Char} (inLine : IsInLine closing)
    (text : List Char) :
    dropClosing closing (withReturns text) = withReturns (dropClosing closing text) := by
  unfold dropClosing
  simp only [List.isSuffixOf_iff_suffix, suffix_withReturns_iff inLine]
  split
  · next closes =>
      obtain ⟨front, rfl⟩ := closes
      rw [withReturns_append, withReturns_of_notMem inLine.1]
      simp
  · rfl

/-- A doc comment says the same with carriage returns at the ends of its lines. -/
theorem ofText_withReturns (none : '\r' ∉ text) (line : Nat) :
    ofText (withReturns text) line = ofText text line := by
  have inside_eq : inside (withReturns text) = withReturns (inside text) := by
    unfold inside
    rw [dropOpening_withReturns (by decide), dropClosing_withReturns (by decide)]
  have still : '\r' ∉ inside text := by
    refine fun member => none ?_
    unfold inside dropClosing dropOpening at member
    split at member <;> split at member
    · exact List.mem_of_mem_drop (List.mem_of_mem_take member)
    · exact List.mem_of_mem_drop member
    · exact List.mem_of_mem_take member
    · exact member
  unfold ofText
  rw [inside_eq, lines_withReturns still]

end DocComment

/-! ### Blocks -/

/-- A text whose lines end in newlines alone, none of them behind a backslash. -/
structure Text.EndsLines (text : List Char) : Prop where
  noReturn : '\r' ∉ text
  unescaped : ¬ ['\\', '\n'] <:+: text

theorem Text.EndsLines.suffix {text later : List Char} (ends : EndsLines text)
    (suffix : later <:+ text) : EndsLines later :=
  ⟨fun member => ends.noReturn (suffix.subset member),
    fun found => ends.unescaped (found.trans suffix.isInfix)⟩

theorem Text.EndsLines.tail {c : Char} {rest : List Char} (ends : EndsLines (c :: rest)) :
    EndsLines rest :=
  ends.suffix (List.suffix_cons c rest)

theorem Text.EndsLines.ne_of_backslash {c : Char} {rest : List Char}
    (ends : EndsLines ('\\' :: c :: rest)) : c ≠ '\n' := by
  rintro rfl
  exact ends.unescaped ⟨[], rest, rfl⟩

/-- A backslash in front of nothing stays in front of nothing. -/
theorem Text.unescaped_withReturns {c : Char} {rest : List Char}
    (unescaped : ∀ d tail, c = '\\' → rest = d :: tail → False) :
    c ≠ '\\' ∨ withReturns rest = [] := by
  cases rest with
  | nil => exact .inr rfl
  | cons d tail => exact .inl fun same => unescaped d tail same rfl

namespace Block

variable {text rest : List Char}

theorem afterLiteral_withReturns {quote : Char} (isQuote : quote = '"' ∨ quote = '\'')
    (ends : EndsLines text) :
    afterLiteral quote (withReturns text) = withReturns (afterLiteral quote text) := by
  have others : quote ≠ '\n' ∧ quote ≠ '\r' := by
    rcases isQuote with rfl | rfl <;> decide
  fun_induction afterLiteral quote text with
  | case1 => rfl
  | case2 c rest ih =>
      rw [withReturns_cons (by decide), withReturns_cons ends.ne_of_backslash, afterLiteral,
        ih ends.tail.tail]
  | case3 c rest unescaped stops =>
      by_cases newline : c = '\n'
      · subst newline
        rw [withReturns_newline, afterLiteral_cons quote (.inl (by decide)),
          if_neg (by simp [Ne.symm others.2]), afterLiteral_cons quote (.inl (by decide)),
          if_pos (by simp)]
      · have isEnd : c = quote := by simpa [newline] using stops
        have plain : c ≠ '\\' := by
          rw [isEnd]
          rcases isQuote with rfl | rfl <;> decide
        rw [withReturns_cons newline, afterLiteral_cons quote (.inl plain), if_pos stops]
  | case4 c rest unescaped goesOn ih =>
      have newline : c ≠ '\n' := by
        rintro rfl
        simp at goesOn
      rw [withReturns_cons newline, afterLiteral_cons quote (unescaped_withReturns unescaped),
        if_neg goesOn, ih ends.tail]

theorem afterTextBlock_withReturns (text : List Char) :
    afterTextBlock (withReturns text) = withReturns (afterTextBlock text) := by
  fun_induction afterTextBlock text with
  | case1 rest => rfl
  | case2 c rest goesOn ih =>
      by_cases newline : c = '\n'
      · subst newline
        rw [withReturns_newline, afterTextBlock_cons (by simp [textBlockQuotes]),
          afterTextBlock_cons (by simp [textBlockQuotes]), ih]
      · have still : ¬ textBlockQuotes <+: c :: withReturns rest := by
          rw [← withReturns_cons newline, prefix_withReturns_iff (by decide)]
          exact notPrefix_cons goesOn
        rw [withReturns_cons newline, afterTextBlock_cons still, ih]
  | case3 => rfl

theorem afterLine_withReturns (text : List Char) :
    afterLine (withReturns text) = withReturns (afterLine text) := by
  fun_induction afterLine text with
  | case1 => rfl
  | case2 rest => simp [afterLine]
  | case3 c rest inLine ih => rw [withReturns_cons inLine, afterLine, if_neg inLine, ih]

theorem afterComment?_withReturns (text : List Char) :
    afterComment? (withReturns text) = (afterComment? text).map withReturns := by
  fun_induction afterComment? text with
  | case1 rest => rfl
  | case2 c rest goesOn ih =>
      by_cases newline : c = '\n'
      · subst newline
        rw [withReturns_newline, afterComment?_cons (by simp), afterComment?_cons (by simp), ih]
      · have still : ¬ ['*', '/'] <+: c :: withReturns rest := by
          rw [← withReturns_cons newline, prefix_withReturns_iff (by decide)]
          exact notPrefix_cons goesOn
        rw [withReturns_cons newline, afterComment?_cons still, ih]
  | case3 => rfl

/-- The end of a block in a text with carriage returns. -/
def End.withReturns : End → End
  | .closed rest => .closed (Text.withReturns rest)
  | .unclosedComment text => .unclosedComment (Text.withReturns text)
  | .unclosed => .unclosed

theorem blockEnd_unclosedComment (depth : Nat) (missing : afterComment? rest = none) :
    blockEnd depth ('/' :: '*' :: rest) = .unclosedComment ('/' :: '*' :: rest) := by
  rw [blockEnd]
  split
  · next found =>
      rw [missing] at found
      cases found
  · rfl

theorem opensComment_withReturns_iff : OpensComment (withReturns text) ↔ OpensComment text :=
  or_congr (prefix_withReturns_iff (by decide)) (prefix_withReturns_iff (by decide))

/-- What the end of a block becomes by a character that opens neither a text block nor a
comment, in a text with carriage returns. -/
theorem blockEnd_cons_withReturns {c : Char} (depth : Nat) (inLine : c ≠ '\n')
    (noBlock : ¬ textBlockQuotes <+: c :: rest) (noComment : ¬ OpensComment (c :: rest)) :
    blockEnd depth (withReturns (c :: rest)) =
      if c = '\x7b' then blockEnd (depth + 1) (withReturns rest)
      else if c = '\x7d' then
        match depth with
        | 0 => .closed (withReturns rest)
        | outer + 1 => blockEnd outer (withReturns rest)
      else if c = '"' || c = '\'' then blockEnd depth (afterLiteral c (withReturns rest))
      else blockEnd depth (withReturns rest) := by
  rw [← prefix_withReturns_iff (by decide), withReturns_cons inLine] at noBlock
  rw [← opensComment_withReturns_iff, withReturns_cons inLine] at noComment
  rw [withReturns_cons inLine]
  exact blockEnd_cons depth noBlock noComment

theorem blockEnd_withReturns (depth : Nat) (ends : EndsLines text) :
    blockEnd depth (withReturns text) = (blockEnd depth text).withReturns := by
  have further {front later whole : List Char} (ends : EndsLines (front ++ whole))
      (passed : later <:+ whole) : EndsLines later :=
    ends.suffix (passed.trans (List.suffix_append front whole))
  fun_induction blockEnd depth text with
  | case1 =>
      rw [withReturns_nil, blockEnd]
      rfl
  | case2 depth tail ih =>
      have left : EndsLines (textBlockQuotes ++ tail) := ends
      have opens : withReturns ('"' :: '"' :: '"' :: tail) =
          '"' :: '"' :: '"' :: withReturns tail :=
        rfl
      rw [← ih (further left (suffix_afterTextBlock tail)), ← afterTextBlock_withReturns, opens,
        blockEnd]
  | case3 depth tail ih =>
      have left : EndsLines (['/', '/'] ++ tail) := ends
      have opens : withReturns ('/' :: '/' :: tail) = '/' :: '/' :: withReturns tail := rfl
      rw [← ih (further left (suffix_afterLine tail)), ← afterLine_withReturns, opens, blockEnd]
  | case4 depth tail after closed ih =>
      have left : EndsLines (['/', '*'] ++ tail) := ends
      have closed' : afterComment? (withReturns tail) = some (withReturns after) := by
        rw [afterComment?_withReturns, closed, Option.map_some]
      rw [← ih (further left (suffix_afterComment? closed)), ← blockEnd_blockComment depth closed']
      rfl
  | case5 depth tail missing =>
      have missing' : afterComment? (withReturns tail) = none := by
        rw [afterComment?_withReturns, missing, Option.map_none]
      exact blockEnd_unclosedComment depth missing'
  | case6 depth tail _ _ _ ih =>
      rw [blockEnd_cons_withReturns depth (by decide) (by simp [textBlockQuotes])
        (by simp [OpensComment]), if_pos rfl, ih ends.tail]
  | case7 tail =>
      rw [blockEnd_cons_withReturns 0 (by decide) (by simp [textBlockQuotes])
        (by simp [OpensComment])]
      rfl
  | case8 tail outer _ _ _ _ ih =>
      rw [blockEnd_cons_withReturns _ (by decide) (by simp [textBlockQuotes])
        (by simp [OpensComment])]
      exact ih ends.tail
  | case9 depth c tail noBlock _ _ notOpen notClose isQuote ih =>
      have quote : c = '"' ∨ c = '\'' := by simpa using isQuote
      have others : c ≠ '\n' ∧ c ≠ '/' := by rcases quote with rfl | rfl <;> decide
      have noText : ¬ textBlockQuotes <+: c :: tail := notPrefix_cons noBlock
      rw [blockEnd_cons_withReturns depth others.1 noText (by simp [OpensComment, others.2.symm]),
        if_neg notOpen, if_neg notClose, if_pos isQuote, afterLiteral_withReturns quote ends.tail]
      exact ih (ends.tail.suffix (suffix_afterLiteral c tail))
  | case10 depth c tail noBlock noLine noStars notOpen notClose noQuote ih =>
      by_cases newline : c = '\n'
      · subst newline
        rw [withReturns_newline, blockEnd_plain depth (by decide), blockEnd_plain depth (by decide),
          ih ends.tail]
      · have noText : ¬ textBlockQuotes <+: c :: tail := notPrefix_cons noBlock
        have noComment : ¬ OpensComment (c :: tail) :=
          not_or.mpr ⟨notPrefix_cons noLine, notPrefix_cons noStars⟩
        rw [blockEnd_cons_withReturns depth newline noText noComment, if_neg notOpen,
          if_neg notClose, if_neg noQuote]
        exact ih ends.tail

end Block

end JavaDecl
