import JavaDecl.Proofs.KnownUnits
import JavaDecl.Proofs.SetOutTokens

/-!
# Tokens in their places

What is captured from a source as it is written depends on where its tokens stand.  Here the
tokens of a source are told one by one, each with whether a blank comes behind it, so that the
text from any of them on is known.
-/

namespace JavaDecl

open Lexeme

/-- A token that is written without escapes, in some source. -/
structure Chunk (source : List Char) where
  sign : Sign
  /-- Whether a blank comes behind it. -/
  spaced : Bool := false

namespace Chunk

variable {source : List Char} {chunk : Chunk source} {later items : List (Chunk source)}

def gap (chunk : Chunk source) : List Char :=
  if chunk.spaced then [' '] else []

@[simp] theorem gap_tight (sign : Sign) : ({ sign } : Chunk source).gap = [] := rfl

@[simp] theorem gap_spaced (sign : Sign) :
    ({ sign, spaced := true } : Chunk source).gap = [' '] :=
  rfl

def textOf (items : List (Chunk source)) : List Char :=
  items.flatMap fun chunk => chunk.sign.text.toList ++ chunk.gap

@[simp] theorem textOf_nil : textOf ([] : List (Chunk source)) = [] := rfl

theorem textOf_cons (chunk : Chunk source) (later : List (Chunk source)) :
    textOf (chunk :: later) = chunk.sign.text.toList ++ (chunk.gap ++ textOf later) := by
  simp [textOf]

@[simp] theorem textOf_append (items later : List (Chunk source)) :
    textOf (items ++ later) = textOf items ++ textOf later :=
  List.flatMap_append

theorem isSpace_of_mem_gap {c : Char} (member : c ∈ chunk.gap) : isSpace c = true := by
  unfold gap at member
  split at member
  · obtain rfl := List.mem_singleton.mp member
    decide
  · cases member

end Chunk

/-- A token that stands in a source in front of some text. -/
structure Token.StandsIn (source : List Char) (sign : Sign) (behind : List Char)
    (token : Token) : Prop where
  shows : token.Shows sign
  place : ∃ before, source = before ++ (sign.text.toList ++ behind) ∧
    token.span.first = Text.byteSize before ∧
      token.span.stop = Text.byteSize before + Text.byteSize sign.text.toList

instance {source : List Char} : TokenView (Chunk source) where
  sign := Chunk.sign
  Shows whole token chunk later :=
    whole = source ∧ token.StandsIn source chunk.sign (chunk.gap ++ Chunk.textOf later)
  shows_sign known := known.2.shows

section Places

variable {source : List Char} {chunk : Chunk source} {later items : List (Chunk source)}

@[simp] theorem TokenView.sign_chunk (chunk : Chunk source) :
    TokenView.sign chunk = chunk.sign :=
  rfl

theorem TokenView.Shown.standsIn {token : Token} (shown : TokenView.Shown token chunk later) :
    token.StandsIn source chunk.sign (chunk.gap ++ Chunk.textOf later) := by
  obtain ⟨_, -, stands⟩ := shown
  exact stands

/-- The tokens of a source of one line up to its end, each of which is scanned as this token. -/
inductive Chunk.Laid : List (Chunk source) → Prop where
  | ended : Laid [{ sign := .ended }]
  | token {chunk : Chunk source} {later : List (Chunk source)} :
      chunk.sign.ScannedBefore (chunk.gap ++ textOf later) → '\n' ∉ chunk.sign.text.toList →
        Laid later → Laid (chunk :: later)

namespace Chunk.Laid

theorem inLine (laid : Laid items) : '\n' ∉ textOf items := by
  induction laid with
  | ended => simp [textOf, Sign.ended, gap]
  | @token chunk later _ inLine _ ih =>
      have noBlank : '\n' ∉ chunk.gap := by
        unfold gap
        split <;> simp
      simp [textOf_cons, inLine, noBlank, ih]

/-- A stream within one line gives the tokens that are laid out there. -/
theorem comes {stream : TokenStream} {taken pending : List Char} (laid : Laid items)
    (oneLine : '\n' ∉ source) (located : stream.Located source taken)
    (blank : ∀ c ∈ pending, isSpace c = true) (left : stream.rest = pending ++ textOf items) :
    ∃ tokens, TokenView.ShowAll source tokens items ∧ stream.Comes tokens := by
  induction laid generalizing stream taken pending with
  | ended =>
      have none : Lexeme.next? stream.offset stream.rest = none := by
        have last : textOf [({ sign := .ended } : Chunk source)] = [] := rfl
        rw [left, last, next?_blanks blank, Lexeme.next?]
      obtain ⟨token, after, answer, kind, text, covers, -, -⟩ := located.next_of_none none
      have whole := located.rest
      have all : source = TokenStream.lead source ++ (taken ++ stream.rest ++ []) := by
        simpa using whole
      have line := covers.line_of_oneLine oneLine all
      have stands : token.StandsIn source .ended [] := by
        refine ⟨⟨kind, text, line⟩, source, by simp [Sign.ended], ?_, ?_⟩
        · rw [covers.first, ← whole]
        · rw [covers.stop, covers.first, ← whole]
          rfl
      have notComment : token.kind ≠ .docComment := by simp [kind]
      exact ⟨[token], .cons ⟨rfl, stands⟩ .nil, .cons answer notComment (.nil after)⟩
  | @token chunk later scanned _ _ ih =>
      obtain ⟨cut, found, read, written, rest, noComment⟩ :=
        scanned.next? (stream.offset + Text.byteSize pending)
      rw [← next?_blanks blank, ← textOf_cons, ← left] at found
      obtain ⟨gap, after, split, -, behind, further, answer⟩ := located.next_of_some found
      rw [read] at answer
      obtain ⟨token, answer, kind, text, covers⟩ := answer
      have same : gap = pending := by
        rw [left, textOf_cons, written, rest] at split
        exact (List.append_cancel_right split).symm
      subst same
      obtain ⟨tokens, shown, comes⟩ := ih further (fun c => isSpace_of_mem_gap)
        (by rw [behind, rest])
      have all : source =
          TokenStream.lead source ++ (taken ++ gap ++ (cut.text ++ cut.rest)) := by
        rw [List.append_assoc taken, ← split]
        exact located.rest
      have line := covers.line_of_oneLine oneLine all
      have stands : token.StandsIn source chunk.sign (chunk.gap ++ textOf later) := by
        refine ⟨⟨kind, text, line⟩, TokenStream.lead source ++ (taken ++ gap), ?_, covers.first, ?_⟩
        · rw [List.append_assoc, List.append_assoc, ← textOf_cons, ← left]
          exact located.rest
        · rw [covers.stop, covers.first, written]
      exact ⟨token :: tokens, .cons ⟨rfl, stands⟩ shown, .cons answer (kind ▸ noComment) comes⟩

end Chunk.Laid

/-- A source of one line is read as the tokens that are laid out there. -/
theorem readUnit_of_laid {left : List (Chunk source)} {told : List Event}
    (noMark : source.head? ≠ some TokenStream.byteOrderMark) (laid : Chunk.Laid items)
    (text : Chunk.textOf items = source)
    (finds : ReadM.Finds (ReadM.compilationUnit (readingBudget source)) items (· = ⟨⟩) told left) :
    readUnit source = (told, none) := by
  have located := TokenStream.Located.ofSource source
  have whole : (TokenStream.ofSource source).rest = [] ++ Chunk.textOf items :=
    (rest_ofSource noMark).trans text.symm
  obtain ⟨tokens, shown, comes⟩ := laid.comes (text ▸ laid.inLine) located (by simp) whole
  exact readUnit_of_faces (faces_ofSource shown comes) finds

namespace Chunk

/-! ### Names and dimensions -/

/-- Tokens without blanks between them. -/
def tight (signs : List Sign) : List (Chunk source) :=
  signs.map fun sign => { sign }

@[simp] theorem tight_nil : (tight [] : List (Chunk source)) = [] := rfl

@[simp] theorem tight_cons (sign : Sign) (signs : List Sign) :
    (tight (sign :: signs) : List (Chunk source)) = { sign } :: tight signs :=
  rfl

theorem tight_append (signs more : List Sign) :
    (tight (signs ++ more) : List (Chunk source)) = tight signs ++ tight more :=
  List.map_append

@[simp] theorem map_sign_tight (signs : List Sign) :
    (tight signs : List (Chunk source)).map TokenView.sign = signs := by
  simp [tight, Function.comp_def]

theorem textOf_tight (signs : List Sign) :
    textOf (tight signs : List (Chunk source)) = signs.flatMap fun sign => sign.text.toList := by
  simp [textOf, tight, List.flatMap_map]

theorem endsWord_mark (symbol : Mark) (spaced : Bool) (later : List (Chunk source)) :
    EndsWord (textOf ({ sign := .mark symbol, spaced } :: later)) := by
  have known : symbol.spelling.toList.head?.any fun c => !continuesWord c && c != '\\' := by
    cases symbol <;> decide
  rw [textOf_cons, Sign.mark]
  cases spelled : symbol.spelling.toList with
  | nil => simp [spelled] at known
  | cons c rest =>
      have ends : continuesWord c = false ∧ c ≠ '\\' := by simpa [spelled] using known
      exact .cons ends.1 ends.2

namespace Laid

theorem word {word : List Char} (spaced : Bool) (is : isWord word = true)
    (ends : EndsWord (({ sign := .word word, spaced } : Chunk source).gap ++ textOf later))
    (laid : Laid later) : Laid ({ sign := .word word, spaced } :: later) := by
  refine .token (Sign.word_scanned is ends) ?_ laid
  rw [Sign.toList_word]
  exact notMem_of_isWord is (by decide)

/-- A mark that no longer mark starts with at all. -/
theorem mark {symbol : Mark} {c : Char} {spaced : Bool} (spelled : symbol.spelling.toList = [c])
    (isMark : opensMark c = true) (alone : ∀ next, marksGoOn c next = false) (noPoint : c ≠ '.')
    (inLine : '\n' ≠ c) (laid : Laid later) : Laid ({ sign := .mark symbol, spaced } :: later) :=
  .token (Sign.lone_scanned spelled isMark alone noPoint) (by simp [Sign.mark, spelled, inLine])
    laid

theorem dot {word : List Char} {spaced : Bool} (is : isWord word = true)
    (laid : Laid ({ sign := .word word, spaced } :: later)) :
    Laid ({ sign := .mark .dot } :: { sign := .word word, spaced } :: later) := by
  have inLine : '\n' ∉ Mark.dot.spelling.toList := by decide
  refine .token ?_ inLine laid
  rw [gap_tight, List.nil_append, textOf_cons, Sign.toList_word]
  exact Sign.dot_scanned is

theorem name {words : List (List Char)} (are : ∀ word ∈ words, isWord word = true)
    (ends : EndsWord (textOf later)) (laid : Laid later) :
    Laid (tight (nameSigns words) ++ later) := by
  have behind (words : List (List Char)) (are : ∀ word ∈ words, isWord word = true) :
      EndsWord (textOf (tight (words.flatMap fun word => [Sign.mark .dot, .word word]) ++ later)) ∧
      Laid (tight (words.flatMap fun word => [Sign.mark .dot, .word word]) ++ later) := by
    induction words with
    | nil => exact ⟨ends, laid⟩
    | cons word words ih =>
        obtain ⟨isWord, others⟩ := List.forall_mem_cons.mp are
        obtain ⟨ends, laid⟩ := ih others
        have first := Laid.word false isWord ends laid
        exact ⟨endsWord_mark .dot false _, .dot isWord first⟩
  cases words with
  | nil => exact laid
  | cons word words =>
      obtain ⟨isWord, others⟩ := List.forall_mem_cons.mp are
      obtain ⟨ends, laid⟩ := behind words others
      exact .word false isWord ends laid

theorem dims (dims : Nat) (laid : Laid later) : Laid (tight (dimSigns dims) ++ later) := by
  induction dims with
  | zero => exact laid
  | succ dims ih =>
      have opening : Mark.leftBracket.spelling.toList = ['['] := rfl
      have closing : Mark.rightBracket.spelling.toList = [']'] := rfl
      exact .mark opening (by decide) (fun _ => rfl) (by decide) (by decide)
        (.mark closing (by decide) (fun _ => rfl) (by decide) (by decide) ih)

end Laid

theorem flatMap_nameSigns (words : List (List Char)) :
    ((nameSigns words).flatMap fun sign => sign.text.toList) = ['.'].intercalate words := by
  cases words with
  | nil => rfl
  | cons word words =>
      have dotted : Mark.dot.spelling.toList = ['.'] := rfl
      rw [intercalate_cons, nameSigns]
      simp [List.flatMap_assoc, Sign.toList_word, Sign.mark, dotted]

theorem textOf_name (words : List (List Char)) :
    textOf (tight (nameSigns words) : List (Chunk source)) = ['.'].intercalate words := by
  rw [textOf_tight, flatMap_nameSigns]

theorem textOf_dims (dims : Nat) :
    textOf (tight (dimSigns dims) : List (Chunk source)) = (dimsText dims).toList := by
  have opening : Mark.leftBracket.spelling.toList = ['['] := rfl
  have closing : Mark.rightBracket.spelling.toList = [']'] := rfl
  rw [textOf_tight, toList_dimsText, dimSigns]
  induction dims with
  | zero => rfl
  | succ dims ih => simpa [List.replicate_succ, Sign.mark, opening, closing] using ih

end Chunk

end Places

/-! ### Expressions -/

theorem Text.byteSize_pos {text : List Char} (some : text ≠ []) : 0 < Text.byteSize text := by
  cases text with
  | nil => exact absurd rfl some
  | cons c text =>
      have size := c.utf8Size_pos
      rw [Text.byteSize_cons]
      omega

namespace ReadM

open Chunk

variable {source : List Char} {chunk : Chunk source} {later rest : List (Chunk source)}
  {sign : Sign} {signs : List Sign} {budget stop : Nat}

def expressionEnds : List TokenKind :=
  [.mark .comma, .mark .rightParen, .mark .rightBrace]

theorem get_finds :
    Finds get (chunk :: later) (fun reading => reading.stream.source = source) []
      (chunk :: later) := by
  rintro before ⟨tokens, shown, comes⟩
  refine ⟨?_, ⟨tokens, shown, comes⟩, (List.append_nil _).symm⟩
  generalize before.lookahead ++ tokens = ahead at shown
  cases shown with
  | cons shows => exact shows.1

/-- A name or a dot is taken, and the expression reaches behind it. -/
theorem expressionStep_gives (known : sign.kind = .identifier ∨ sign.kind = .mark .dot)
    (place : stop + Text.byteSize (textOf ({ sign } :: later)) = Text.byteSize source) :
    Gives (expressionStep budget [.comma] { depth := 0, stop }) ({ sign } :: later)
      (.inl { depth := 0, stop := stop + Text.byteSize sign.text.toList }) later := by
  have extended : Gives (extend { depth := 0, stop }) ({ sign } :: later)
      (.inl { depth := 0, stop := stop + Text.byteSize sign.text.toList }) later := by
    refine take_shown.bind fun token shown => .pure ?_
    obtain ⟨-, before, whole, -, ends⟩ := shown.standsIn
    have same : Text.byteSize before = stop := by
      have sizes := congrArg Text.byteSize whole
      rw [textOf_cons] at place
      simp only [Text.byteSize_append] at sizes place
      omega
    rw [Extent.after, ends, same]
  refine (kindAt_gives rfl).andThen ?_
  rw [TokenView.sign_chunk]
  rcases known with isName | isDot
  · rw [isName]
    exact extended
  · rw [isDot]
    exact extended

theorem expressionSteps_give
    (known : ∀ sign ∈ signs, sign.kind = .identifier ∨ sign.kind = .mark .dot)
    (ends : ∃ last more, rest = last :: more ∧ last.sign.kind ∈ expressionEnds)
    (place : stop + Text.byteSize (textOf (tight signs ++ rest)) = Text.byteSize source)
    (rounds : Nat) :
    Gives (iterate (expressionStep budget [.comma]) rounds { depth := 0, stop })
      (tight signs ++ rest) (stop + Text.byteSize (textOf (tight signs : List (Chunk source))))
      rest := by
  induction signs generalizing stop rounds with
  | nil =>
      cases rounds with
      | zero => exact .exhausted
      | succ rounds =>
          obtain ⟨last, more, rfl, kind⟩ := ends
          have stops : Gives (expressionStep budget [.comma] { depth := 0, stop }) (last :: more)
              (.inr stop) (last :: more) := by
            refine (kindAt_gives rfl).andThen ?_
            rw [TokenView.sign_chunk]
            simp only [expressionEnds, List.mem_cons, List.not_mem_nil, or_false] at kind
            rcases kind with kind | kind | kind <;> rw [kind] <;> exact .pure rfl
          exact stops.andThen (.pure rfl)
  | cons sign signs ih =>
      cases rounds with
      | zero => exact .exhausted
      | succ rounds =>
          obtain ⟨first, others⟩ := List.forall_mem_cons.mp known
          have further : stop + Text.byteSize sign.text.toList +
              Text.byteSize (textOf (tight signs ++ rest)) = Text.byteSize source := by
            simp [← place, textOf_cons, Nat.add_assoc]
          have whole : stop + Text.byteSize (textOf (tight (sign :: signs) : List (Chunk source))) =
              stop + Text.byteSize sign.text.toList +
                Text.byteSize (textOf (tight signs : List (Chunk source))) := by
            simp [textOf_cons, Nat.add_assoc]
          rw [whole]
          exact (expressionStep_gives first place).andThen (ih others further rounds)

/-- Names and dots are captured as they are written. -/
theorem expressionText_gives (some : textOf (tight signs : List (Chunk source)) ≠ [])
    (known : ∀ sign ∈ signs, sign.kind = .identifier ∨ sign.kind = .mark .dot)
    (ends : ∃ last more, rest = last :: more ∧ last.sign.kind ∈ expressionEnds) :
    Gives (expressionText budget [.comma]) (tight signs ++ rest)
      (String.ofList (textOf (tight signs : List (Chunk source)))) rest := by
  cases signs with
  | nil => exact absurd rfl some
  | cons sign signs =>
      refine (peek_shown 0 rfl).bind fun token shown => ?_
      obtain ⟨-, before, whole, first, -⟩ := shown.standsIn
      have split : source = before ++ (textOf (tight (sign :: signs) : List (Chunk source)) ++
          textOf rest) := by
        rw [← textOf_append, tight_cons, List.cons_append, textOf_cons]
        exact whole
      have place : token.span.first + Text.byteSize (textOf (tight (sign :: signs) ++ rest)) =
          Text.byteSize source := by
        rw [textOf_append, first, ← Text.byteSize_append, ← split]
      have captured := Text.slice?_middle before
        (textOf (tight (sign :: signs) : List (Chunk source))) (textOf rest)
      rw [← split, ← first] at captured
      have positive := Text.byteSize_pos some
      refine (expressionSteps_give known ends place budget).andThen ?_
      rw [if_neg (by omega)]
      obtain ⟨last, more, rfl, -⟩ := ends
      refine get_finds.bind fun reading same => .pure ?_
      rw [same, captured]
      rfl

end ReadM

end JavaDecl
