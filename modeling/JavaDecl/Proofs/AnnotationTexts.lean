import JavaDecl.Declaration.AnnotationUse
import JavaDecl.Proofs.PlacedTokens

/-!
# Texts of annotations

An annotation is printed within one line, with its element values in brackets.  The text is made
up of certain tokens, each of which is scanned where it stands.
-/

namespace JavaDecl

open Lexeme

/-! ### Literals -/

/-- The token that a text opens with, if it opens with one. -/
def openingSign? : List Char → Option Sign
  | [] => none
  | first :: rest =>
      (opening first rest 0).token?.toOption.map fun (kind, text) => { kind, text }

/-- A text that is scanned as a literal. -/
def IsLiteral (text : String) : Prop :=
  ∃ sign, openingSign? text.toList = some sign ∧ sign.kind.isLiteral = true ∧ sign.text = text

instance (text : String) : Decidable (IsLiteral text) :=
  match opens : openingSign? text.toList with
  | none => isFalse fun ⟨_, found, _⟩ => by simp [opens] at found
  | some sign =>
      decidable_of_iff (sign.kind.isLiteral = true ∧ sign.text = text) <| by
        simp [IsLiteral, opens]

def literalSign (text : String) : Sign :=
  (openingSign? text.toList).getD .ended

/-- A text that opens with what may stand behind a value. -/
def ClosesValue (text : List Char) : Prop :=
  ∃ c rest, text = c :: rest ∧ c ∈ [',', ')', '\x7d']

theorem ClosesValue.opensBreak {text : List Char} (closes : ClosesValue text) :
    OpensBreak text := by
  obtain ⟨c, rest, rfl, closing⟩ := closes
  intro d found
  obtain rfl := Option.some.inj found
  exact List.mem_append_right blanks (List.mem_append_left [';'] closing)

theorem ClosesValue.endsWord {text : List Char} (closes : ClosesValue text) : EndsWord text := by
  obtain ⟨c, rest, rfl, closing⟩ := closes
  simp only [List.mem_cons, List.not_mem_nil, or_false] at closing
  rcases closing with rfl | rfl | rfl <;> exact .cons (by decide) (by decide)

/-- A literal is a word of three, or its lexeme is a literal as it is written. -/
theorem literal_of_token? {cut : Cut} {sign : Sign}
    (read : cut.token? = .ok (sign.kind, sign.text)) (isLiteral : sign.kind.isLiteral = true) :
    (∃ keyword : Keyword, keyword.isLiteral = true ∧ sign = .keyword keyword) ∨
      cut.shape.isLiteral = true ∧ sign.text.toList = cut.text := by
  unfold Cut.token? at read
  cases shape : cut.shape with
  | word =>
      rw [shape] at read
      obtain ⟨kind, text⟩ := by simpa using read
      cases found : Keyword.ofSpelling? (String.ofList (Text.decodeEscapes cut.text)) with
      | none =>
          rw [found] at kind
          rw [← kind] at isLiteral
          cases isLiteral
      | some keyword =>
          rw [found] at kind
          have spelled : keyword.spelling = sign.text := by
            rw [← text]
            simpa using List.find?_some found
          refine .inl ⟨keyword, ?_, ?_⟩
          · rw [← kind] at isLiteral
            exact isLiteral
          · cases sign
            simp_all [Sign.keyword]
  | space | comment | invalid | unclosedComment =>
      rw [shape] at read
      cases read
  | docComment | mark =>
      rw [shape] at read
      obtain ⟨kind, -⟩ := by simpa using read
      rw [← kind] at isLiteral
      cases isLiteral
  | number | string | character =>
      rw [shape] at read
      obtain ⟨-, text⟩ := by simpa using read
      exact .inr ⟨rfl, by rw [← text, String.toList_ofList]⟩

theorem Sign.keyword_scanned {keyword : Keyword} {rest : List Char}
    (isLiteral : keyword.isLiteral = true) (ends : EndsWord rest) :
    '\n' ∉ keyword.spelling.toList ∧ ScannedBefore rest (.keyword keyword) := by
  have known : ∀ keyword ∈ [Keyword.trueKw, .falseKw, .nullKw],
      isWord keyword.spelling.toList = true ∧
        Sign.word keyword.spelling.toList = .keyword keyword := by
    decide
  have among : keyword ∈ [Keyword.trueKw, .falseKw, .nullKw] := by
    revert isLiteral
    cases keyword <;> decide
  obtain ⟨is, same⟩ := known keyword among
  exact ⟨notMem_of_isWord is (by decide), same ▸ word_scanned is ends⟩

theorem IsLiteral.text_literalSign {text : String} (is : IsLiteral text) :
    (literalSign text).text = text := by
  obtain ⟨sign, opens, -, rfl⟩ := is
  rw [literalSign, opens, Option.getD_some]

theorem IsLiteral.kind_literalSign {text : String} (is : IsLiteral text) :
    (literalSign text).kind.isLiteral = true := by
  obtain ⟨sign, opens, isLiteral, rfl⟩ := is
  rwa [literalSign, opens, Option.getD_some]

/-- A literal is scanned as one token within its line. -/
theorem IsLiteral.scanned {text : String} {rest : List Char} (is : IsLiteral text)
    (closes : ClosesValue rest) :
    '\n' ∉ text.toList ∧ (literalSign text).ScannedBefore rest := by
  obtain ⟨sign, opens, isLiteral, rfl⟩ := is
  rw [literalSign, opens, Option.getD_some]
  cases written : sign.text.toList with
  | nil => simp [written, openingSign?] at opens
  | cons first more =>
      rw [written, openingSign?] at opens
      have read : (opening first more 0).token? = .ok (sign.kind, sign.text) := by
        cases outcome : (opening first more 0).token? with
        | error detail => simp [outcome, Except.toOption] at opens
        | ok value =>
            rw [outcome] at opens
            obtain rfl := Option.some.inj opens
            rfl
      rcases literal_of_token? read isLiteral with ⟨keyword, isWord, rfl⟩ | ⟨shape, all⟩
      · obtain ⟨inLine, scanned⟩ := Sign.keyword_scanned isWord closes.endsWord
        exact ⟨written ▸ inLine, scanned⟩
      · have taken : more.take (scan first more).following = more :=
          (List.cons.inj (written.symm.trans all)).2.symm
        obtain ⟨inLine, within, same⟩ := literal_isCutOut shape closes.opensBreak
        have same := same (Nat.le_refl _)
        rw [taken] at inLine same
        have length : (scan first more).following = more.length := by
          have short := congrArg List.length taken
          rw [List.length_take] at short
          omega
        have reach : scan first (more ++ rest) =
            { shape := (scan first more).shape, following := more.length } := by
          rw [same, ← length]
        have whole : Cut.token?
            { shape := (scan first more).shape, text := first :: more, first := 0, rest } =
              .ok (sign.kind, sign.text) := by
          rw [← read, opening, taken]
          rfl
        refine ⟨inLine, .intro written reach whole ?_⟩
        intro kind
        rw [kind] at isLiteral
        cases isLiteral

/-- The name of a class in a literal: dotted plain words, or a primitive type. -/
def IsClassName (name : String) : Prop :=
  IsPlainName name ∨ isPrimitiveName name = true

instance (name : String) : Decidable (IsClassName name) :=
  inferInstanceAs (Decidable (_ ∨ _))

/-! ### Values -/

/-- The value of an annotation element as it is written. -/
inductive ElementText where
  | literal (text : String)
  /-- A class literal with the brackets of its dimensions. -/
  | classLiteral (name : String) (dims : Nat)
  | nested (name : String) (pairs : List (String × ElementText))
  /-- Values in braces, perhaps with a comma behind the last one. -/
  | array (items : List ElementText) (trailing : Bool)
  /-- A dotted name of a constant. -/
  | constant (name : String)

/-- What values of each kind come to, given what the values inside come to. -/
structure ElementForm (β : Type) where
  literal : String → β
  classLiteral : String → Nat → β
  nested : String → List (String × β) → β
  array : List β → Bool → β
  constant : String → β

namespace ElementText

variable {β : Type}

mutual

def fold (form : ElementForm β) : ElementText → β
  | .literal text => form.literal text
  | .classLiteral name dims => form.classLiteral name dims
  | .nested name pairs => form.nested name (foldPairs form pairs)
  | .array items trailing => form.array (foldItems form items) trailing
  | .constant name => form.constant name

def foldItems (form : ElementForm β) : List ElementText → List β
  | [] => []
  | item :: items => fold form item :: foldItems form items

def foldPairs (form : ElementForm β) : List (String × ElementText) → List (String × β)
  | [] => []
  | (key, value) :: pairs => (key, fold form value) :: foldPairs form pairs

end

@[simp] theorem foldItems_eq (form : ElementForm β) (items : List ElementText) :
    foldItems form items = items.map (fold form) := by
  induction items with
  | nil => rw [foldItems, List.map_nil]
  | cons item items ih => rw [foldItems, ih, List.map_cons]

@[simp] theorem foldPairs_eq (form : ElementForm β) (pairs : List (String × ElementText)) :
    foldPairs form pairs = pairs.map fun pair => (pair.1, fold form pair.2) := by
  induction pairs with
  | nil => rw [foldPairs, List.map_nil]
  | cons pair pairs ih => rw [foldPairs, ih, List.map_cons]

/-! ### Texts, values and tokens -/

def annotationText (name : String) (elements : List String) : String :=
  "@" ++ name ++ "(" ++ ", ".intercalate elements ++ ")"

def pairText (pair : String × String) : String :=
  pair.1 ++ " = " ++ pair.2

def textForm : ElementForm String where
  literal := id
  classLiteral name dims := name ++ dimsText dims ++ ".class"
  nested name pairs := annotationText name (pairs.map pairText)
  array items trailing :=
    "\x7b" ++ ", ".intercalate items ++ (if trailing then ",\x7d" else "\x7d")
  constant := id

/-- An annotation on the first line. -/
def useOf (name : String) (values : List (String × ElementValue TypeExpr)) :
    AnnotationUse TypeExpr :=
  { type := { name }, values, line := 1 }

/-- The value that is written, on the first line. -/
def valueForm : ElementForm (ElementValue TypeExpr) where
  literal := .constant
  classLiteral name dims := .classLiteral { name, dims }
  nested name values := .nested (useOf name values)
  array items _ := .array items
  constant := .expression

def text : ElementText → String := fold textForm

def value : ElementText → ElementValue TypeExpr := fold valueForm

variable {source : List Char}

def comma : Chunk source := { sign := .mark .comma, spaced := true }

/-- The end of a class literal. -/
def classSigns : List Sign := [.mark .dot, .keyword .classKw]

def pairChunks (pair : String × List (Chunk source)) : List (Chunk source) :=
  { sign := .word pair.1.toList, spaced := true } :: { sign := .mark .assign, spaced := true } ::
    pair.2

/-- The tokens of an annotation up to the bracket that closes it, given those of its elements. -/
def openChunks (name : String) (elements : List (List (Chunk source))) : List (Chunk source) :=
  { sign := .mark .atSign } :: (Chunk.tight (signsOf name) ++ { sign := .mark .leftParen } ::
    [comma].intercalate elements)

def trailingChunks (trailing : Bool) : List (Chunk source) :=
  if trailing then [{ sign := .mark .comma }] else []

def chunksForm : ElementForm (List (Chunk source)) where
  literal text := [{ sign := literalSign text }]
  classLiteral name dims := Chunk.tight (signsOf name ++ dimSigns dims) ++ Chunk.tight classSigns
  nested name pairs := openChunks name (pairs.map pairChunks) ++ [{ sign := .mark .rightParen }]
  array items trailing :=
    { sign := .mark .leftBrace } :: ([comma].intercalate items ++
      (trailingChunks trailing ++ [{ sign := .mark .rightBrace }]))
  constant name := Chunk.tight (signsOf name)

def chunks : ElementText → List (Chunk source) := fold chunksForm

def elementText (pair : String × ElementText) : String :=
  pairText (pair.1, pair.2.text)

def element (pair : String × ElementText) : String × ElementValue TypeExpr :=
  (pair.1, pair.2.value)

def elementChunks (pair : String × ElementText) : List (Chunk source) :=
  pairChunks (pair.1, pair.2.chunks)

/-! ### Plain values -/

/-- Names and keys are plain, keys are distinct, and a comma stands only behind a value. -/
inductive IsPlain : ElementText → Prop where
  | literal {text : String} : IsLiteral text → IsPlain (.literal text)
  | classLiteral {name : String} {dims : Nat} : IsClassName name → IsPlain (.classLiteral name dims)
  | nested {name : String} {pairs : List (String × ElementText)} : IsPlainName name →
      (∀ pair ∈ pairs, IsPlainWord pair.1.toList) → (pairs.map Prod.fst).Nodup →
        (∀ pair ∈ pairs, IsPlain pair.2) → IsPlain (.nested name pairs)
  | array {items : List ElementText} {trailing : Bool} : (trailing = true → items ≠ []) →
      (∀ item ∈ items, IsPlain item) → IsPlain (.array items trailing)
  | constant {name : String} : IsPlainName name → IsPlain (.constant name)

section Equations

variable (name : String) (pairs : List (String × ElementText)) (items : List ElementText)
  (trailing : Bool)

theorem text_nested :
    (nested name pairs).text = annotationText name (pairs.map elementText) := by
  rw [text, fold, foldPairs_eq]
  exact congrArg (annotationText name) List.map_map

theorem text_array :
    (array items trailing).text = "\x7b" ++ ", ".intercalate (items.map text) ++
      (if trailing then ",\x7d" else "\x7d") := by
  rw [text, fold, foldItems_eq]
  rfl

theorem value_nested : (nested name pairs).value = .nested (useOf name (pairs.map element)) := by
  rw [value, fold, foldPairs_eq]
  rfl

/-- A comma behind the last value of an array makes no difference. -/
theorem value_array : (array items trailing).value = .array (items.map value) := by
  rw [value, fold, foldItems_eq]
  rfl

theorem chunks_classLiteral (dims : Nat) :
    ((classLiteral name dims).chunks : List (Chunk source)) =
      Chunk.tight (signsOf name ++ dimSigns dims) ++ Chunk.tight classSigns := by
  rw [chunks, fold]
  rfl

theorem chunks_nested :
    ((nested name pairs).chunks : List (Chunk source)) =
      openChunks name (pairs.map elementChunks) ++ [{ sign := .mark .rightParen }] := by
  rw [chunks, fold, foldPairs_eq]
  exact congrArg (openChunks name · ++ [{ sign := .mark .rightParen }]) List.map_map

theorem chunks_array :
    ((array items trailing).chunks : List (Chunk source)) =
      { sign := .mark .leftBrace } :: ([comma].intercalate (items.map chunks) ++
        (trailingChunks trailing ++ [{ sign := .mark .rightBrace }])) := by
  rw [chunks, fold, foldItems_eq]
  rfl

end Equations

/-! ### Texts of tokens -/

open Chunk

theorem textOf_signsOf (name : String) :
    textOf (tight (signsOf name) : List (Chunk source)) = name.toList := by
  rw [textOf_name, List.intercalate_splitOn]

theorem textOf_commas (lists : List (List (Chunk source))) :
    textOf ([comma].intercalate lists) = [',', ' '].intercalate (lists.map textOf) := by
  induction lists with
  | nil => rfl
  | cons list lists ih =>
      cases lists with
      | nil => simp
      | cons next lists =>
          rw [List.map_cons, List.map_cons, List.intercalate_cons_cons, List.intercalate_cons_cons,
            textOf_append, textOf_append, ih, List.map_cons]
          simp [comma, textOf_cons, Sign.mark, Mark.spelling]

theorem textOf_elementChunks {pair : String × ElementText}
    (same : textOf (pair.2.chunks : List (Chunk source)) = pair.2.text.toList) :
    textOf (elementChunks pair : List (Chunk source)) = (elementText pair).toList := by
  simp [elementChunks, elementText, pairChunks, pairText, textOf_cons, Sign.toList_word, Sign.mark,
    Mark.spelling, same]

theorem textOf_openChunks (name : String) {pairs : List (String × ElementText)}
    (each : ∀ pair ∈ pairs, textOf (pair.2.chunks : List (Chunk source)) = pair.2.text.toList) :
    textOf (openChunks name (pairs.map elementChunks) : List (Chunk source)) ++ [')'] =
      (annotationText name (pairs.map elementText)).toList := by
  have written : pairs.map (fun pair => textOf (elementChunks pair : List (Chunk source))) =
      pairs.map fun pair => (elementText pair).toList :=
    List.map_congr_left fun pair member => textOf_elementChunks (each pair member)
  simp [openChunks, annotationText, textOf_cons, textOf_signsOf, textOf_commas, Sign.mark,
    Mark.spelling, String.toList_intercalate, Function.comp_def, written]

theorem IsPlain.textOf_chunks {item : ElementText} (plain : item.IsPlain) :
    textOf (item.chunks : List (Chunk source)) = item.text.toList := by
  induction plain with
  | @literal text is =>
      have written : (literalSign text).text = text := is.text_literalSign
      simp [chunks, ElementText.text, fold, chunksForm, textForm, textOf_cons, written]
  | @classLiteral name dims =>
      have last : textOf (tight classSigns : List (Chunk source)) = ".class".toList := by
        simp [classSigns, textOf_cons, Sign.mark, Mark.spelling, Sign.keyword, Keyword.spelling]
      rw [chunks_classLiteral, tight_append, textOf_append, textOf_append, textOf_signsOf,
        textOf_dims, last]
      simp [ElementText.text, fold, textForm]
  | nested _ _ _ _ ih =>
      rw [chunks_nested, text_nested, ← textOf_openChunks _ ih, textOf_append]
      simp [textOf_cons, Sign.mark, Mark.spelling]
  | @array items trailing _ _ ih =>
      have inside : items.map (fun item => textOf (item.chunks : List (Chunk source))) =
          items.map fun item => item.text.toList :=
        List.map_congr_left ih
      have closed : textOf (trailingChunks trailing ++ [({ sign := .mark .rightBrace } :
          Chunk source)]) = (if trailing then ",\x7d" else "\x7d").toList := by
        cases trailing <;> simp [trailingChunks, textOf_cons, Sign.mark, Mark.spelling]
      rw [chunks_array, text_array, textOf_cons, textOf_append, closed]
      simp [textOf_commas, Sign.mark, Mark.spelling, String.toList_intercalate,
        Function.comp_def, inside]
  | @constant name => exact textOf_signsOf name

/-! ### Tokens where they stand -/

variable {later : List (Chunk source)}

/-- The marks of annotations that no longer mark starts with. -/
def loneMarks : List Mark :=
  [.atSign, .leftParen, .rightParen, .leftBrace, .rightBrace, .comma]

def loneChars : List Char := ['@', '(', ')', '\x7b', '\x7d', ',']

theorem laid_mark {symbol : Mark} (spaced : Bool) (lone : symbol ∈ loneMarks)
    (laid : Laid later) : Laid ({ sign := .mark symbol, spaced } :: later) := by
  have known : ∀ symbol ∈ loneMarks, loneChars.any (symbol.spelling.toList == [·]) := by decide
  obtain ⟨c, among, spelled⟩ := List.any_eq_true.mp (known symbol lone)
  simp only [loneChars, List.mem_cons, List.not_mem_nil, or_false] at among
  rcases among with rfl | rfl | rfl | rfl | rfl | rfl <;>
    exact .mark (eq_of_beq spelled) (by decide) (fun _ => rfl) (by decide) (by decide) laid

theorem closesValue_mark {symbol : Mark} (spaced : Bool) (later : List (Chunk source))
    (closing : symbol ∈ [Mark.comma, .rightParen, .rightBrace]) :
    ClosesValue (textOf ({ sign := .mark symbol, spaced } :: later)) := by
  have known : ∀ symbol ∈ [Mark.comma, .rightParen, .rightBrace],
      [',', ')', '\x7d'].any (symbol.spelling.toList == [·]) := by
    decide
  obtain ⟨c, member, spelled⟩ := List.any_eq_true.mp (known symbol closing)
  exact ⟨c, _, by rw [textOf_cons, Sign.mark, eq_of_beq spelled]; rfl, member⟩

/-- A value that is laid out in front of anything that may stand behind it. -/
def LaidValue (value : List (Chunk source)) : Prop :=
  ∀ {later : List (Chunk source)}, ClosesValue (textOf later) → Laid later → Laid (value ++ later)

theorem laid_commas {values : List (List (Chunk source))} (each : ∀ value ∈ values, LaidValue value)
    (closes : ClosesValue (textOf later)) (laid : Laid later) :
    Laid ([comma].intercalate values ++ later) := by
  induction values with
  | nil => exact laid
  | cons value values ih =>
      obtain ⟨first, others⟩ := List.forall_mem_cons.mp each
      cases values with
      | nil => simpa using first closes laid
      | cons next values =>
          rw [List.intercalate_cons_cons, List.append_assoc, List.append_assoc]
          exact first (closesValue_mark true _ (by simp)) (laid_mark true (by decide) (ih others))

theorem laid_element {pair : String × ElementText} (isKey : IsPlainWord pair.1.toList)
    (value : LaidValue (pair.2.chunks : List (Chunk source))) :
    LaidValue (elementChunks pair : List (Chunk source)) := by
  intro later closes laid
  have assign : Laid ({ sign := .mark .assign, spaced := true } :: (pair.2.chunks ++ later)) := by
    have spelled : Mark.assign.spelling.toList = ['='] := rfl
    have inLine : '\n' ∉ Mark.assign.spelling.toList := by decide
    refine .token (Sign.mark_scanned spelled (by decide) (fun point => absurd point (by decide)) ?_)
      inLine (value closes laid)
    intro next found
    obtain rfl : next = ' ' := (Option.some.inj found).symm
    decide
  exact .word true isKey.1 (.cons (by decide) (by decide)) assign

theorem laid_name {name : String} {words : List (List Char)} (spells : Spells name words)
    (ends : EndsWord (textOf later)) (laid : Laid later) :
    Laid (tight (signsOf name) ++ later) := by
  rw [spells.signsOf]
  exact .name spells.2.1 ends laid

theorem laid_openChunks {name : String} {pairs : List (String × ElementText)}
    (isName : IsPlainName name) (keys : ∀ pair ∈ pairs, IsPlainWord pair.1.toList)
    (values : ∀ pair ∈ pairs, LaidValue (pair.2.chunks : List (Chunk source))) :
    LaidValue (openChunks name (pairs.map elementChunks) : List (Chunk source)) := by
  intro later closes laid
  obtain ⟨words, spells, -⟩ := isName.spells
  have each : ∀ value ∈ pairs.map elementChunks, LaidValue (value : List (Chunk source)) := by
    intro value member
    obtain ⟨pair, among, rfl⟩ := List.mem_map.mp member
    exact laid_element (keys pair among) (values pair among)
  have inside := laid_mark false (by decide : Mark.leftParen ∈ loneMarks)
    (laid_commas each closes laid)
  have whole := laid_mark false (by decide : Mark.atSign ∈ loneMarks)
    (laid_name spells (endsWord_mark .leftParen false _) inside)
  simpa [openChunks] using whole

theorem IsPlain.laid {item : ElementText} (plain : item.IsPlain) :
    LaidValue (item.chunks : List (Chunk source)) := by
  induction plain with
  | @literal text is =>
      intro later closes laid
      obtain ⟨inLine, scanned⟩ := is.scanned closes
      rw [← is.text_literalSign] at inLine
      exact .token scanned inLine laid
  | @classLiteral name dims known =>
      intro later closes laid
      obtain ⟨words, spells⟩ : ∃ words, Spells name words := by
        rcases known with plain | primitive
        · exact ⟨_, plain.spells.choose_spec.1⟩
        · exact ⟨_, (spells_of_primitive primitive).1⟩
      have last : Laid (tight classSigns ++ later) := by
        have isWord : isWord "class".toList = true := by decide
        have same : Sign.word "class".toList = .keyword .classKw := by decide
        have word := Laid.dot isWord (.word false isWord closes.endsWord laid)
        rwa [same] at word
      have ends : EndsWord (textOf (tight (dimSigns dims) ++ (tight classSigns ++ later))) := by
        rw [textOf_append, textOf_dims]
        exact endsWord_dims dims (endsWord_mark .dot false _)
      have whole := laid_name spells ends (.dims dims last)
      simpa [chunks_classLiteral, tight_append] using whole
  | @nested name pairs isName keys _ _ ih =>
      intro later closes laid
      rw [chunks_nested, List.append_assoc]
      exact laid_openChunks isName keys ih (closesValue_mark false _ (by simp))
        (laid_mark false (by decide) laid)
  | @array items trailing _ _ ih =>
      intro later closes laid
      have last : Laid (trailingChunks trailing ++ { sign := .mark .rightBrace } :: later) := by
        have brace := laid_mark false (by decide : Mark.rightBrace ∈ loneMarks) laid
        cases trailing with
        | false => exact brace
        | true => exact laid_mark false (by decide) brace
      have ends : ClosesValue
          (textOf (trailingChunks trailing ++ { sign := .mark .rightBrace } :: later)) := by
        cases trailing with
        | false => exact closesValue_mark false _ (by simp)
        | true => exact closesValue_mark false _ (by simp)
      have each : ∀ value ∈ items.map chunks, LaidValue (value : List (Chunk source)) := by
        simpa using ih
      have inside := laid_commas each ends last
      have whole := laid_mark false (by decide : Mark.leftBrace ∈ loneMarks) inside
      simpa [chunks_array] using whole
  | @constant name plain =>
      intro later closes laid
      obtain ⟨words, spells, -⟩ := plain.spells
      exact laid_name spells closes.endsWord laid

end ElementText

end JavaDecl
