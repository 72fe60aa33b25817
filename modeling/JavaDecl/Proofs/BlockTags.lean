import Mathlib.Data.List.TakeWhile
import JavaDecl.DocComment

/-!
# Doc comments split at their block tags

The lines of a doc comment, freed of their gutters, fall into those before the first
tag and one section for each line that opens a tag.  A line opens a tag if it starts
with an at sign and a name, with nothing in front of the at sign but the gutter.  A
blank that is left behind the gutter keeps a line from opening a tag.
-/

namespace JavaDecl

namespace Text

theorem drop_length_takeWhile (holds : Char → Bool) (text : List Char) :
    text.drop (text.takeWhile holds).length = text.dropWhile holds := by
  induction text with
  | nil => rfl
  | cons c rest ih => by_cases held : holds c <;> simp [held, ih]

theorem trimStart_append_of_blank {blanks text : List Char}
    (blank : ∀ c ∈ blanks, isBlank c = true) :
    trimStart (blanks ++ text) = trimStart text :=
  List.dropWhile_append_of_pos blank

theorem trimStart_cons_of_not_blank {c : Char} {rest : List Char}
    (inked : isBlank c = false) : trimStart (c :: rest) = c :: rest := by
  simp [trimStart, inked]

/-- A text is blanks and what trimming leaves of it. -/
theorem exists_blanks (text : List Char) :
    ∃ blanks, text = blanks ++ trimStart text ∧ ∀ c ∈ blanks, isBlank c = true :=
  ⟨text.takeWhile isBlank, (List.takeWhile_append_dropWhile).symm,
    fun _ mem => List.mem_takeWhile_imp mem⟩

theorem isBlank_head?_trimStart (text : List Char) :
    ∀ c ∈ (trimStart text).head?, isBlank c = false := by
  intro c head
  have holds := List.head?_dropWhile_not isBlank text
  rw [show text.dropWhile isBlank = trimStart text from rfl, head] at holds
  simpa using holds

theorem trimStart_eq_self {text : List Char}
    (inked : ∀ c ∈ text.head?, isBlank c = false) : trimStart text = text := by
  cases text with
  | nil => rfl
  | cons c rest => exact trimStart_cons_of_not_blank (inked c rfl)

/-- Blanks at the left edge of the first part are trimmed with the whole. -/
theorem trimStart_append (first second : List Char) :
    trimStart (trimStart first ++ second) = trimStart (first ++ second) := by
  obtain ⟨blanks, same, blank⟩ := exists_blanks first
  conv => rhs; rw [same, List.append_assoc, trimStart_append_of_blank blank]

theorem trimEnd_append_of_ne_nil {first second : List Char}
    (left : trimEnd second ≠ []) : trimEnd (first ++ second) = first ++ trimEnd second := by
  have cut : second.reverse.dropWhile isBlank ≠ [] := by
    intro none
    exact left (by simp [trimEnd, none])
  have grown : (second.reverse ++ first.reverse).dropWhile isBlank =
      second.reverse.dropWhile isBlank ++ first.reverse := by
    rw [List.dropWhile_append, if_neg (by simpa using cut)]
  simp [trimEnd, grown]

/-- The edges of a text may be trimmed in either order. -/
theorem trimStart_trimEnd (text : List Char) :
    trimStart (trimEnd text) = trimEnd (trimStart text) := by
  obtain ⟨blanks, same, blank⟩ := exists_blanks text
  by_cases none : trimEnd (trimStart text) = []
  · have allBlank : ∀ c ∈ text, isBlank c = true := by
      have gone : (trimStart text).reverse.dropWhile isBlank = [] := by
        simpa [trimEnd] using none
      have rest := List.dropWhile_eq_nil_iff.mp gone
      intro c mem
      rw [same, List.mem_append] at mem
      exact mem.elim (blank c) (fun inside => rest c (List.mem_reverse.mpr inside))
    have gone : trimEnd text = [] := by
      have all := List.dropWhile_eq_nil_iff.mpr
        (fun c mem => allBlank c (List.mem_reverse.mp mem))
      simp [trimEnd, all]
    rw [gone, none]
    rfl
  · rw [show trimEnd text = blanks ++ trimEnd (trimStart text) by
      conv => lhs; rw [same]
      exact trimEnd_append_of_ne_nil none, trimStart_append_of_blank blank]
    refine trimStart_eq_self (fun c head => ?_)
    refine isBlank_head?_trimStart text c ?_
    have isPrefix : trimEnd (trimStart text) <+: trimStart text := by
      have := List.dropWhile_suffix isBlank (l := (trimStart text).reverse)
      simpa [trimEnd] using List.reverse_prefix.mpr this
    obtain ⟨rest, whole⟩ := isPrefix
    rw [← whole, List.head?_append, head]
    rfl

theorem unlines_cons (piece : List Char) (more : List (List Char)) :
    unlines (piece :: more) =
      piece ++ more.flatMap (fun next => '\n' :: next) := by
  induction more generalizing piece with
  | nil => simp [unlines]
  | cons next more ih =>
      have rest := ih next
      simp only [unlines, List.intercalate, List.intersperse, List.flatten_cons,
        List.flatMap_cons] at rest ⊢
      rw [rest]
      simp

/-- The left edge of the first line is trimmed with the whole. -/
theorem trim_unlines_cons (piece : List Char) (more : List (List Char)) :
    trim (unlines (trim piece :: more)) = trim (unlines (trimEnd piece :: more)) := by
  have edges : trim piece = trimStart (trimEnd piece) := (trimStart_trimEnd piece).symm
  rw [unlines_cons, unlines_cons, edges]
  exact congrArg trimEnd (trimStart_append (trimEnd piece) _)

end Text

namespace DocComment

open Text (isBlank trim trimStart trimEnd unlines)

/-- A line opens a tag: an at sign and a character that is no blank stand at its start. -/
def OpensTag (content : List Char) : Prop :=
  ∃ c rest, content = '@' :: c :: rest ∧ isBlank c = false

/-- The first character of a line that is no blank is an at sign in front of a
character that is no blank. -/
def ShowsTag (content : List Char) : Prop :=
  ∃ c rest, trimStart content = '@' :: c :: rest ∧ isBlank c = false

/-- A line that shows a tag opens it exactly if no blank stands in front of it. -/
theorem opensTag_iff_showsTag (content : List Char) :
    OpensTag content ↔ ShowsTag content ∧ ∀ c ∈ content.head?, isBlank c = false := by
  constructor
  · rintro ⟨c, rest, rfl, inked⟩
    exact ⟨⟨c, rest, Text.trimStart_cons_of_not_blank rfl, inked⟩, by simp; rfl⟩
  · rintro ⟨⟨c, rest, same, inked⟩, front⟩
    exact ⟨c, rest, (Text.trimStart_eq_self front).symm.trans same, inked⟩

/-- The lines of a doc comment without its delimiters and without their gutters. -/
def contents (comment : List Char) : List (List Char) :=
  (Text.lines (inside comment)).map stripGutter

/-- A gutter: blanks, or blanks and stars with at most one space behind them. -/
def IsGutter (gutter : List Char) : Prop :=
  ∃ blanks stars gap, gutter = blanks ++ (stars ++ gap) ∧
    (∀ c ∈ blanks, isBlank c = true) ∧ (∀ c ∈ stars, c = '*') ∧
    (gap = [] ∨ stars ≠ [] ∧ gap = [' '])

/-- What is left of a line stands behind its gutter. -/
theorem stripGutter_behind (line : List Char) :
    ∃ gutter, IsGutter gutter ∧ line = gutter ++ stripGutter line := by
  obtain ⟨blanks, same, blank⟩ := Text.exists_blanks line
  unfold stripGutter
  split
  case h_1 rest starred =>
    have stars : ∀ c ∈ '*' :: rest.takeWhile (· == '*'), c = '*' := by
      simp only [List.mem_cons, forall_eq_or_imp, true_and]
      exact fun c mem => by simpa using List.mem_takeWhile_imp mem
    have whole : line = blanks ++ ('*' :: rest.takeWhile (· == '*') ++
        rest.dropWhile (· == '*')) := by
      rw [List.cons_append, List.takeWhile_append_dropWhile, ← starred]
      exact same
    unfold dropOpening
    split
    · rename_i spaced
      obtain ⟨behind, spaceAhead⟩ := List.isPrefixOf_iff_prefix.mp spaced
      refine ⟨_, ⟨blanks, _, [' '], rfl, blank, stars, .inr ⟨by simp, rfl⟩⟩, ?_⟩
      rw [← spaceAhead] at whole ⊢
      rw [whole]
      simp
    · exact ⟨_, ⟨blanks, _, [], rfl, blank, stars, .inl rfl⟩, by simpa using whole⟩
  case h_2 =>
    exact ⟨blanks, ⟨blanks, [], [], by simp, blank, by simp, .inl rfl⟩, same⟩

/-- A line opens a tag exactly if an at sign and a character that is no blank stand
right behind a gutter. -/
theorem opensTag_stripGutter_iff (line : List Char) :
    OpensTag (stripGutter line) ↔ ∃ gutter c rest, IsGutter gutter ∧
      line = gutter ++ '@' :: c :: rest ∧ isBlank c = false := by
  constructor
  · rintro ⟨c, rest, opened, inked⟩
    obtain ⟨gutter, isGutter, same⟩ := stripGutter_behind line
    exact ⟨gutter, c, rest, isGutter, opened ▸ same, inked⟩
  · rintro ⟨_, c, rest, ⟨blanks, stars, gap, rfl, blank, allStars, spaced⟩, rfl, inked⟩
    refine ⟨c, rest, ?_, inked⟩
    unfold stripGutter
    rw [List.append_assoc, Text.trimStart_append_of_blank blank]
    cases stars with
    | nil =>
        obtain rfl : gap = [] := by simpa using spaced
        rfl
    | cons star stars =>
        obtain rfl := allStars star (by simp)
        rw [show ∀ tail, '*' :: stars ++ gap ++ tail = '*' :: (stars ++ (gap ++ tail)) by simp,
          Text.trimStart_cons_of_not_blank rfl]
        have run : ∀ tail, (stars ++ tail).dropWhile (· == '*') = tail.dropWhile (· == '*') :=
          fun tail => List.dropWhile_append_of_pos
            (fun c mem => by simp [allStars c (by simp [mem])])
        rcases spaced with rfl | ⟨-, rfl⟩ <;> simp [run, dropOpening, List.isPrefixOf]

/-- A tag as it is written: its name, what stands behind the name on the line, and the
lines up to the next tag. -/
structure Section where
  name : List Char
  rest : List Char
  body : List (List Char)

namespace Section

def opening (part : Section) : List Char :=
  '@' :: (part.name ++ part.rest)

def lines (part : Section) : List (List Char) :=
  part.opening :: part.body

/-- The name is a word that ends at a blank or at the end of the line, and no further
line opens a tag. -/
structure IsProper (part : Section) : Prop where
  named : part.name ≠ []
  inked : ∀ c ∈ part.name, isBlank c = false
  ended : ∀ c ∈ part.rest.head?, isBlank c = true
  closed : ∀ content ∈ part.body, ¬ OpensTag content

def value (part : Section) : List Char :=
  trim (unlines ((part.rest :: part.body).map trimEnd))

/-- The tags of sections that follow on each other from a line on. -/
def tags (line : Nat) : List Section → List DocTag
  | [] => []
  | part :: more =>
      { name := String.ofList part.name, value := String.ofList part.value, line } ::
        tags (line + part.lines.length) more

theorem IsProper.opensTag {part : Section} (proper : part.IsProper) :
    OpensTag part.opening := by
  obtain ⟨c, name, named⟩ := List.exists_cons_of_ne_nil proper.named
  exact ⟨c, name ++ part.rest, by simp [opening, named], proper.inked c (by simp [named])⟩

theorem length_tags (line : Nat) (parts : List Section) :
    (tags line parts).length = parts.length := by
  induction parts generalizing line with
  | nil => rfl
  | cons part more ih => simp [tags, ih]

/-- The tag of a section has its line number from the lines in front of it. -/
theorem getElem?_tags (line index : Nat) (parts : List Section) :
    (tags line parts)[index]? = parts[index]?.map (fun part =>
      { name := String.ofList part.name, value := String.ofList part.value,
        line := line + ((parts.take index).flatMap lines).length }) := by
  induction parts generalizing line index with
  | nil => simp [tags]
  | cons part more ih =>
      cases index with
      | zero => simp [tags]
      | succ index => simp [tags, ih, Nat.add_assoc]

end Section

theorem openedTag?_eq_some {content : List Char} (opened : OpensTag content) :
    ∃ name rest, content = '@' :: (name ++ rest) ∧ name ≠ [] ∧
      (∀ c ∈ name, isBlank c = false) ∧ (∀ c ∈ rest.head?, isBlank c = true) ∧
      openedTag? content = some (name, trim rest) := by
  obtain ⟨c, text, rfl, inked⟩ := opened
  refine ⟨(c :: text).takeWhile (!isBlank ·), (c :: text).dropWhile (!isBlank ·),
    by rw [List.takeWhile_append_dropWhile], by simp [inked],
    fun d mem => by simpa using List.mem_takeWhile_imp mem, fun d head => ?_, ?_⟩
  · have holds := List.head?_dropWhile_not (!isBlank ·) (c :: text)
    rw [head] at holds
    simpa using holds
  · have named : ((c :: text).takeWhile (!isBlank ·)).isEmpty = false := by simp [inked]
    simp only [openedTag?, named, Bool.false_eq_true, if_false, Text.drop_length_takeWhile]

theorem openedTag?_eq_none {content : List Char} (closed : ¬ OpensTag content) :
    openedTag? content = none := by
  unfold openedTag?
  split
  case h_2 => rfl
  case h_1 text =>
    cases text with
    | nil => rfl
    | cons c text =>
        have blank : isBlank c = true := by
          by_contra inked
          exact closed ⟨c, text, rfl, by simpa using inked⟩
        simp [blank]

/-- The lines fall into those before the first tag and the sections of the tags. -/
theorem splitTags_sections (line : Nat) (lines : List (List Char)) :
    ∃ (before : List (List Char)) (parts : List Section),
      lines = before ++ parts.flatMap Section.lines ∧
      (∀ content ∈ before, ¬ OpensTag content) ∧ (∀ part ∈ parts, part.IsProper) ∧
      splitTags line lines =
        (before.map trimEnd, Section.tags (line + before.length) parts) := by
  induction lines generalizing line with
  | nil => exact ⟨[], [], rfl, by simp, by simp, rfl⟩
  | cons content rest ih =>
      obtain ⟨before, parts, same, closed, proper, split⟩ := ih (line + 1)
      by_cases opened : OpensTag content
      · obtain ⟨name, first, written, named, inked, ended, found⟩ := openedTag?_eq_some opened
        refine ⟨[], ⟨name, first, before⟩ :: parts, ?_, by simp, ?_, ?_⟩
        · simp [Section.lines, Section.opening, same, written]
        · simpa using ⟨⟨named, inked, ended, closed⟩, proper⟩
        · simp only [splitTags, split, found]
          simp [Section.tags, Section.value, Section.lines, Text.trim_unlines_cons,
            Nat.add_comm, Nat.add_left_comm]
      · refine ⟨content :: before, parts, by simp [same], ?_, proper, ?_⟩
        · simpa using ⟨opened, closed⟩
        · simp only [splitTags, split, openedTag?_eq_none opened]
          simp [Nat.add_comm, Nat.add_left_comm]

/-- A doc comment is split at the lines that open a tag.  Every line lies before the first
tag or in the section of one tag, and each tag has its name, its value and its line from
its section. -/
theorem doc_comments_are_split_at_tags (comment : List Char) (line : Nat) :
    (∀ written ∈ Text.lines (inside comment),
      (OpensTag (stripGutter written) ↔ ∃ gutter c rest, IsGutter gutter ∧
        written = gutter ++ '@' :: c :: rest ∧ isBlank c = false) ∧
      (OpensTag (stripGutter written) ↔ ShowsTag (stripGutter written) ∧
        ∀ c ∈ (stripGutter written).head?, isBlank c = false)) ∧
    ∃ (before : List (List Char)) (parts : List Section),
      contents comment = before ++ parts.flatMap Section.lines ∧
      (∀ content ∈ before, ¬ OpensTag content) ∧
      (∀ part ∈ parts, OpensTag part.opening ∧ part.IsProper) ∧
      (ofText comment line).text = String.ofList (trim (unlines (before.map trimEnd))) ∧
      (ofText comment line).tags.length = parts.length ∧
      ∀ (index : Nat) (part : Section), parts[index]? = some part →
        (ofText comment line).tags[index]? = some
          { name := String.ofList part.name
            value := String.ofList part.value
            line := line +
              (before ++ (parts.take index).flatMap Section.lines).length } := by
  refine ⟨fun written _ =>
    ⟨opensTag_stripGutter_iff written, opensTag_iff_showsTag (stripGutter written)⟩, ?_⟩
  obtain ⟨before, parts, same, closed, proper, split⟩ := splitTags_sections line (contents comment)
  have answer : ofText comment line =
      { text := String.ofList (trim (unlines (before.map trimEnd)))
        tags := Section.tags (line + before.length) parts } := by
    unfold ofText
    rw [show (Text.lines (inside comment)).map stripGutter = contents comment from rfl, split]
  refine ⟨before, parts, same, closed,
    fun part mem => ⟨(proper part mem).opensTag, proper part mem⟩, by rw [answer], ?_,
    fun index part found => ?_⟩
  · rw [answer]
    exact Section.length_tags _ parts
  · rw [answer, Section.getElem?_tags, found]
    simp [Nat.add_assoc]

/-- A second blank behind the stars hides a tag: the line shows one, and it is given as
text. -/
theorem second_blank_hides_tag :
    contents "/**\n *  @param a\n */".toList = [[], " @param a".toList, "".toList] ∧
      ShowsTag " @param a".toList ∧
      ofText "/**\n *  @param a\n */".toList 1 = { text := "@param a", tags := [] } := by
  refine ⟨by decide +kernel, ⟨'p', "aram a".toList, by decide +kernel, rfl⟩, by decide +kernel⟩

end DocComment

end JavaDecl
