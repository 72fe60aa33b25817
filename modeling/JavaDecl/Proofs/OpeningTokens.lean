import JavaDecl.Proofs.TakenText
import Mathlib.Data.List.Nodup

/-!
# The tokens that a text opens with

Which tokens a text opens with is told without their places.  A word is a token if no word
goes on behind it, and a mark if no longer one starts with it; blanks in front of a token do not
matter.
-/

namespace JavaDecl

/-- A token without its place. -/
structure Sign where
  kind : TokenKind
  text : String
deriving DecidableEq, Repr

namespace Sign

def word (text : List Char) : Sign where
  kind := ((Keyword.ofSpelling? (String.ofList text)).map .keyword).getD .identifier
  text := String.ofList text

theorem kind_word (text : List Char) :
    (word text).kind = .identifier ∨ ∃ keyword, (word text).kind = .keyword keyword := by
  unfold word
  cases Keyword.ofSpelling? (String.ofList text) with
  | none => exact .inl rfl
  | some keyword => exact .inr ⟨keyword, rfl⟩

def keyword (word : Keyword) : Sign := ⟨.keyword word, word.spelling⟩

def mark (symbol : Mark) : Sign := ⟨.mark symbol, symbol.spelling⟩

def ended : Sign := ⟨.endOfInput, ""⟩

end Sign

open Lexeme

/-- The first tokens of a text, none of which is a doc comment. -/
inductive OpensWith : List Char → List Sign → Prop where
  | nothing (text : List Char) : OpensWith text []
  | ended : OpensWith [] [.ended]
  | layout {first : Char} {rest : List Char} {signs : List Sign} :
      (opening first rest 0).shape.isLayout = true → OpensWith (opening first rest 0).rest signs →
        OpensWith (first :: rest) signs
  | token {first : Char} {rest : List Char} {sign : Sign} {signs : List Sign} :
      (opening first rest 0).token? = .ok (sign.kind, sign.text) → sign.kind ≠ .docComment →
      OpensWith (opening first rest 0).rest signs → OpensWith (first :: rest) (sign :: signs)

namespace Lexeme

variable {text rest : List Char}

theorem isLayout_of_token? {cut : Cut} {value : TokenKind × String}
    (read : cut.token? = .ok value) : cut.shape.isLayout = false := by
  unfold Cut.token? at read
  cases shape : cut.shape <;> rw [shape] at read <;> first | rfl | cases read

/-! ### Words -/

/-- Whether a text is a word that is written without escapes. -/
def isWord : List Char → Bool
  | [] => false
  | first :: rest => opensWord first && rest.all continuesWord

theorem exists_of_isWord {word : List Char} (is : isWord word = true) :
    ∃ first rest, word = first :: rest ∧ opensWord first = true ∧
      ∀ c ∈ rest, continuesWord c = true := by
  cases word with
  | nil => cases is
  | cons first rest =>
      rw [isWord, Bool.and_eq_true, List.all_eq_true] at is
      exact ⟨first, rest, rfl, is⟩

/-- A text that no word goes on with. -/
def EndsWord (text : List Char) : Prop :=
  ∀ c ∈ text.head?, c ≠ '\\' ∧ continuesWord c = false

theorem EndsWord.cons {c : Char} (other : continuesWord c = false) (plain : c ≠ '\\') :
    EndsWord (c :: rest) := by
  intro next found
  obtain rfl := Option.some.inj found
  exact ⟨plain, other⟩

theorem wordTail_append (continues : ∀ c ∈ text, continuesWord c = true) (ends : EndsWord rest) :
    wordTail (text ++ rest) = (text.length, true) := by
  induction text with
  | nil =>
      cases rest with
      | nil => rw [List.append_nil, wordTail, List.length_nil]
      | cons c rest =>
          obtain ⟨plain, other⟩ := ends c rfl
          rw [List.nil_append, wordTail, if_neg plain, if_neg (by simp [other]), List.length_nil]
  | cons c text ih =>
      obtain ⟨first, others⟩ := List.forall_mem_cons.mp continues
      have plain : c ≠ '\\' := by
        rintro rfl
        revert first
        decide
      rw [List.cons_append, wordTail, if_neg plain, if_pos first, ih others, List.length_cons,
        Nat.add_comm]

theorem scan_word {first : Char} (opens : opensWord first = true)
    (continues : ∀ c ∈ text, continuesWord c = true) (ends : EndsWord rest) :
    scan first (text ++ rest) = { shape := .word, following := text.length } := by
  have space : ¬ isSpace first = true := by
    intro space
    simp only [isSpace, Bool.or_eq_true, beq_iff_eq] at space
    rcases space with (((rfl | rfl) | rfl) | rfl) | rfl <;> revert opens <;> decide
  unfold scan
  rw [if_neg space, if_pos opens, word, wordTail_append continues ends]
  rfl

theorem decodeEscapes_of_notMem (plain : '\\' ∉ text) : Text.decodeEscapes text = text := by
  unfold Text.decodeEscapes
  induction text with
  | nil => rw [Text.pieces, Text.joinPieces]
  | cons c text ih =>
      obtain ⟨other, further⟩ := not_or.mp (mt List.mem_cons.mpr plain)
      rw [Text.pieces, if_neg (Ne.symm other), Text.joinPieces, ih further]

theorem continuesWord_of_isWord {word : List Char} (is : isWord word = true) :
    ∀ c ∈ word, continuesWord c = true := by
  obtain ⟨first, rest, rfl, opens, continues⟩ := exists_of_isWord is
  exact List.forall_mem_cons.mpr ⟨by simp [continuesWord, opens], continues⟩

theorem notMem_of_isWord {word : List Char} (is : isWord word = true) {c : Char}
    (other : continuesWord c = false) : c ∉ word := by
  intro member
  rw [continuesWord_of_isWord is c member] at other
  cases other

/-! ### Marks -/

/-- Whether some mark of several characters opens with two characters. -/
def marksGoOn (first next : Char) : Bool :=
  Mark.all.any fun mark => [first, next].isPrefixOf mark.spelling.toList

/-- The characters that open nothing but marks, a slash apart, which may open a comment. -/
def opensMark (c : Char) : Bool :=
  !(isSpace c || opensWord c || c == '\\' || c.isDigit || c == '"' || c == '\'' || c == '/')

theorem nodup_spelling : (Mark.all.map Mark.spelling).Nodup := by decide +kernel

theorem eq_of_spelling {symbol other : Mark} (same : symbol.spelling = other.spelling) :
    symbol = other :=
  List.inj_on_of_nodup_map nodup_spelling (Mark.mem_all symbol) (Mark.mem_all other) same

/-- A mark of one character that no longer mark starts with. -/
theorem longest?_of_single {symbol : Mark} {first : Char}
    (spelled : symbol.spelling.toList = [first])
    (alone : ∀ next ∈ rest.head?, marksGoOn first next = false) :
    Mark.longest? (first :: rest) = some symbol := by
  have fits : symbol.spelling.toList.isPrefixOf (first :: rest) = true := by simp [spelled]
  unfold Mark.longest?
  cases found : Mark.all.find? fun mark => mark.spelling.toList.isPrefixOf (first :: rest) with
  | none => exact absurd fits (List.find?_eq_none.mp found symbol (Mark.mem_all symbol))
  | some other =>
      have opens : other.spelling.toList <+: first :: rest :=
        List.isPrefixOf_iff_prefix.mp (List.find?_some found :)
      congr 1
      refine eq_of_spelling (String.toList_inj.mp ?_)
      rw [spelled]
      cases spelling : other.spelling.toList with
      | nil =>
          have written : other.spelling.toList ≠ [] := by cases other <;> decide
          exact absurd spelling written
      | cons c more =>
          rw [spelling] at opens
          obtain ⟨rfl, further⟩ := List.cons_prefix_cons.mp opens
          cases more with
          | nil => rfl
          | cons next more =>
              obtain ⟨tail, rfl⟩ := further
              have goesOn : marksGoOn c next = true :=
                List.any_eq_true.mpr ⟨other, Mark.mem_all other, by simp [spelling]⟩
              rw [alone next rfl] at goesOn
              cases goesOn

theorem scan_mark {symbol : Mark} {first : Char} (spelled : symbol.spelling.toList = [first])
    (opens : opensMark first = true) (noNumber : first = '.' → rest.head?.any Char.isDigit = false)
    (alone : ∀ next ∈ rest.head?, marksGoOn first next = false) :
    scan first rest = { shape := .mark symbol, following := 0 } := by
  simp only [opensMark, Bool.not_eq_true', Bool.or_eq_false_iff, beq_eq_false_iff_ne] at opens
  obtain ⟨⟨⟨⟨⟨⟨space, word⟩, escape⟩, digit⟩, string⟩, character⟩, slash⟩ := opens
  have number : ¬ (decide (first = '.') && rest.head?.any Char.isDigit) = true := by
    rw [Bool.and_eq_true, decide_eq_true_eq]
    rintro ⟨point, isDigit⟩
    rw [noNumber point] at isDigit
    cases isDigit
  unfold scan
  rw [if_neg (by simp [space]), if_neg (by simp [word]), if_neg escape, if_neg (by simp [digit]),
    if_neg string, if_neg character, if_neg number]
  split
  case h_5 =>
      rw [markAt, longest?_of_single spelled alone]
      simp only [← String.length_toList, spelled, List.length_singleton]
  all_goals exact absurd rfl slash

end Lexeme

namespace Sign

variable {rest : List Char} {sign : Sign}

/-- The text of a token is scanned as this token if a certain text comes behind it. -/
inductive ScannedBefore (rest : List Char) (sign : Sign) : Prop where
  | intro {first : Char} {more : List Char} {shape : Shape} :
      sign.text.toList = first :: more →
      scan first (more ++ rest) = { shape, following := more.length } →
      Cut.token? { shape, text := first :: more, first := 0, rest } = .ok (sign.kind, sign.text) →
      sign.kind ≠ .docComment → ScannedBefore rest sign

theorem ScannedBefore.next? (before : sign.ScannedBefore rest) (offset : Nat) :
    ∃ cut, Lexeme.next? offset (sign.text.toList ++ rest) = some cut ∧
      cut.token? = .ok (sign.kind, sign.text) ∧ cut.text = sign.text.toList ∧ cut.rest = rest ∧
        sign.kind ≠ .docComment := by
  obtain ⟨written, reach, read, noComment⟩ := before
  rw [written, List.cons_append, next?_cons, opening_of_scan reach, isLayout_of_token? read]
  exact ⟨_, rfl, read, rfl, rfl, noComment⟩

theorem toList_word (word : List Char) : (Sign.word word).text.toList = word :=
  String.toList_ofList

theorem word_scanned {word : List Char} (is : isWord word = true) (ends : EndsWord rest) :
    ScannedBefore rest (.word word) := by
  have plain := decodeEscapes_of_notMem (notMem_of_isWord is (by decide))
  obtain ⟨first, more, rfl, isFirst, continues⟩ := exists_of_isWord is
  refine .intro (toList_word (first :: more)) (scan_word isFirst continues ends) ?_ ?_
  · simp only [Cut.token?, plain]
    rfl
  · rcases Sign.kind_word (first :: more) with kind | ⟨keyword, kind⟩ <;> simp [kind]

theorem mark_scanned {symbol : Mark} {first : Char} (spelled : symbol.spelling.toList = [first])
    (isMark : opensMark first = true) (noNumber : first = '.' → rest.head?.any Char.isDigit = false)
    (alone : ∀ next ∈ rest.head?, marksGoOn first next = false) :
    ScannedBefore rest (.mark symbol) := by
  have reach : scan first ([] ++ rest) = _ := scan_mark spelled isMark noNumber alone
  refine .intro spelled reach ?_ (by simp [Sign.mark])
  simp only [Cut.token?, Sign.mark, ← spelled, String.ofList_toList]

/-- A mark that no longer mark starts with at all. -/
theorem lone_scanned {symbol : Mark} {first : Char} (spelled : symbol.spelling.toList = [first])
    (isMark : opensMark first = true) (alone : ∀ next, marksGoOn first next = false)
    (noPoint : first ≠ '.') : ScannedBefore rest (.mark symbol) :=
  mark_scanned spelled isMark (fun point => absurd point noPoint) fun next _ => alone next

end Sign

namespace OpensWith

variable {text rest : List Char} {sign : Sign} {signs : List Sign}

theorem scanned (before : sign.ScannedBefore rest) (opens : OpensWith rest signs) :
    OpensWith (sign.text.toList ++ rest) (sign :: signs) := by
  obtain ⟨written, reach, read, noComment⟩ := before
  rw [written, List.cons_append]
  refine .token ?_ noComment ?_
  · rw [opening_of_scan reach, read]
  · rw [opening_of_scan reach]
    exact opens

theorem word {word : List Char} (is : isWord word = true) (ends : EndsWord rest)
    (opens : OpensWith rest signs) : OpensWith (word ++ rest) (.word word :: signs) := by
  have whole := scanned (Sign.word_scanned is ends) opens
  rwa [Sign.toList_word] at whole

theorem mark {symbol : Mark} {first : Char} (spelled : symbol.spelling.toList = [first])
    (isMark : opensMark first = true) (noNumber : first = '.' → rest.head?.any Char.isDigit = false)
    (alone : ∀ next ∈ rest.head?, marksGoOn first next = false) (opens : OpensWith rest signs) :
    OpensWith (first :: rest) (.mark symbol :: signs) := by
  have whole := scanned (Sign.mark_scanned spelled isMark noNumber alone) opens
  rwa [Sign.mark, spelled] at whole

/-- A mark that no longer mark starts with at all. -/
theorem lone {symbol : Mark} {first : Char} (spelled : symbol.spelling.toList = [first])
    (isMark : opensMark first = true) (alone : ∀ next, marksGoOn first next = false)
    (noPoint : first ≠ '.') (opens : OpensWith rest signs) :
    OpensWith (first :: rest) (.mark symbol :: signs) :=
  mark spelled isMark (fun point => absurd point noPoint) (fun next _ => alone next) opens

theorem opening_of_isSpace {c : Char} (space : isSpace c = true) (rest : List Char) :
    (opening c rest 0).shape = .space ∧ (opening c rest 0).rest = rest.dropWhile isSpace := by
  unfold opening
  rw [scan_of_isSpace space, drop_runLength]
  exact ⟨rfl, rfl⟩

/-- A blank in front of a text does not matter. -/
theorem blank {c : Char} (space : isSpace c = true) (opens : OpensWith rest signs) :
    OpensWith (c :: rest) signs := by
  obtain ⟨shape, left⟩ := opening_of_isSpace space rest
  refine .layout (by rw [shape]; rfl) ?_
  rw [left]
  cases opens with
  | nothing => exact .nothing _
  | ended => exact .ended
  | @layout first rest _ isLayout opens =>
      by_cases further : isSpace first = true
      · rw [List.dropWhile_cons_of_pos further, ← (opening_of_isSpace further rest).2]
        exact opens
      · rw [List.dropWhile_cons_of_neg further]
        exact .layout isLayout opens
  | @token first rest _ _ read noComment opens =>
      have other : ¬ isSpace first = true := by
        intro further
        have content := isLayout_of_token? read
        rw [(opening_of_isSpace further rest).1] at content
        cases content
      rw [List.dropWhile_cons_of_neg other]
      exact .token read noComment opens

theorem next? (opens : OpensWith text (sign :: signs)) (offset : Nat) :
    (Lexeme.next? offset text = none ∧ sign = .ended ∧ signs = []) ∨
      ∃ cut, Lexeme.next? offset text = some cut ∧ cut.token? = .ok (sign.kind, sign.text) ∧
        sign.kind ≠ .docComment ∧ OpensWith cut.rest signs := by
  generalize all : sign :: signs = tokens at opens
  induction opens generalizing offset with
  | nothing => cases all
  | ended =>
      obtain ⟨rfl, rfl⟩ := List.cons.inj all
      exact .inl ⟨by rw [Lexeme.next?], rfl, rfl⟩
  | @layout first rest _ isLayout _ ih =>
      have passed : (opening first rest offset).shape.isLayout = true := isLayout
      rw [next?_cons, if_pos passed]
      exact ih _ all
  | @token first rest _ _ read noComment opens =>
      obtain ⟨rfl, rfl⟩ := List.cons.inj all
      refine .inr ⟨opening first rest offset, ?_, read, noComment, opens⟩
      have content : (opening first rest offset).shape.isLayout = false := isLayout_of_token? read
      rw [next?_cons, content]
      rfl

end OpensWith

end JavaDecl
