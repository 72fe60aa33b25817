import JavaDecl.Proofs.DecodedEscapes
import JavaDecl.Proofs.OpeningTokens

/-!
# Texts of identifiers

The text of an identifier is what its slice of the source stands for.  It is a word again if
every escape in the slice stands for a character that may stand there in a word; nothing else
can keep it from being one.
-/

namespace JavaDecl

namespace Text

variable {text front : List Char} {cuts : List Piece} {units : List Nat} {allowed : Char → Bool}

/-! ### Characters of decoded texts -/

/-- A piece that is an allowed character, or that may be part of one beyond ASCII. -/
def Piece.Fits (allowed : Char → Bool) : Piece → Prop
  | .plain c => allowed c = true
  | .unit value => value < 0x80 → allowed (Char.ofNat value) = true

/-- The units of a character fit exactly if it is allowed. -/
theorem fits_utf16 (beyond : ∀ c : Char, 0x80 ≤ c.toNat → allowed c = true) (c : Char) :
    ∀ value ∈ utf16 c, (Piece.unit value).Fits allowed ↔ allowed c = true := by
  intro value member
  by_cases ascii : c.toNat < 0x80
  · rw [utf16, if_pos (by omega)] at member
    obtain rfl := List.mem_singleton.mp member
    simp [Piece.Fits, ascii, Char.ofNat_toNat]
  · have large : ¬ value < 0x80 := by
      unfold utf16 at member
      split at member
      · obtain rfl := List.mem_singleton.mp member
        exact ascii
      · simp only [List.mem_cons, List.not_mem_nil, or_false] at member
        omega
    simp [Piece.Fits, large, beyond c (by omega)]

theorem utf16_ne_nil (c : Char) : utf16 c ≠ [] := by
  unfold utf16
  split <;> simp

theorem fits_of_isSurrogate {value : Nat} (surrogate : isSurrogate value = true) :
    (Piece.unit value).Fits allowed := by
  intro ascii
  have := isSurrogate_iff.mp surrogate
  omega

theorem ReadsUnits.forall_iff (beyond : ∀ c : Char, 0x80 ≤ c.toNat → allowed c = true)
    (reads : ReadsUnits units text) :
    (∀ c ∈ text, allowed c = true) ↔ ∀ value ∈ units, (Piece.unit value).Fits allowed := by
  induction reads with
  | nil => simp
  | @char c units text _ ih =>
      obtain ⟨first, some⟩ := List.exists_mem_of_ne_nil _ (utf16_ne_nil c)
      have fits := fits_utf16 beyond c
      rw [List.forall_mem_cons, List.forall_mem_append, ih]
      refine and_congr_left fun _ => ⟨fun isAllowed value member => ?_, fun all => ?_⟩
      · exact (fits value member).mpr isAllowed
      · exact (fits first some).mp (all first some)
  | unpaired surrogate _ _ ih =>
      rw [List.forall_mem_cons, List.forall_mem_cons, ih]
      exact and_congr_left fun _ =>
        ⟨fun _ => fits_of_isSurrogate surrogate, fun _ => beyond replacement (by decide)⟩

/-- A text has only allowed characters exactly if its pieces fit. -/
theorem StandsFor.forall_iff (beyond : ∀ c : Char, 0x80 ≤ c.toNat → allowed c = true)
    (stands : StandsFor cuts text) :
    (∀ c ∈ text, allowed c = true) ↔ ∀ piece ∈ cuts, piece.Fits allowed := by
  induction stands with
  | nil => simp
  | plain _ ih =>
      rw [List.forall_mem_cons, List.forall_mem_cons, ih]
      rfl
  | run _ _ reads _ ih =>
      rw [List.forall_mem_append, List.forall_mem_append, ih, reads.forall_iff beyond,
        List.forall_mem_map]

theorem ReadsUnits.head_iff (beyond : ∀ c : Char, 0x80 ≤ c.toNat → allowed c = true)
    (reads : ReadsUnits units text) (some : units ≠ []) :
    ∃ c value, text.head? = .some c ∧ units.head? = .some value ∧
      (allowed c = true ↔ (Piece.unit value).Fits allowed) := by
  cases reads with
  | nil => exact absurd rfl some
  | @char c =>
      obtain ⟨value, others, split⟩ := List.exists_cons_of_ne_nil (utf16_ne_nil c)
      refine ⟨c, value, rfl, by rw [split]; rfl, ?_⟩
      exact (fits_utf16 beyond c value (by rw [split]; simp)).symm
  | unpaired surrogate =>
      exact ⟨_, _, rfl, rfl, fun _ => fits_of_isSurrogate surrogate,
        fun _ => beyond replacement (by decide)⟩

/-- The first character is allowed exactly if the first piece fits. -/
theorem StandsFor.head_iff (beyond : ∀ c : Char, 0x80 ≤ c.toNat → allowed c = true)
    (stands : StandsFor cuts text) (some : cuts ≠ []) :
    ∃ c piece, text.head? = .some c ∧ cuts.head? = .some piece ∧
      (allowed c = true ↔ piece.Fits allowed) := by
  cases stands with
  | nil => exact absurd rfl some
  | plain => exact ⟨_, _, rfl, rfl, Iff.rfl⟩
  | @run units cuts front text more ends reads =>
      obtain ⟨c, value, first, opens, iff⟩ := reads.head_iff beyond more
      exact ⟨c, .unit value, by simp [first], by simp [opens], iff⟩

end Text

namespace Lexeme

open Text

variable {text rest slice : List Char} {length : Nat}

/-! ### Slices of words -/

theorem isWord_iff : isWord text = true ↔
    (∃ first, text.head? = some first ∧ opensWord first = true) ∧
      ∀ c ∈ text, continuesWord c = true := by
  constructor
  · intro is
    have continues := continuesWord_of_isWord is
    obtain ⟨first, rest, rfl, opens, -⟩ := exists_of_isWord is
    exact ⟨⟨first, rfl, opens⟩, continues⟩
  · rintro ⟨⟨first, head, opens⟩, continues⟩
    obtain ⟨rest, rfl⟩ := List.head?_eq_some_iff.mp head
    rw [isWord, opens, Bool.true_and, List.all_eq_true]
    exact fun c member => continues c (List.mem_cons_of_mem first member)

/-- Every ASCII character that is written as an escape may stand there in a word. -/
structure EscapesFit (slice : List Char) : Prop where
  continues : ∀ value < 0x80, .unit value ∈ pieces slice → continuesWord (Char.ofNat value) = true
  opens : ∀ value < 0x80, (pieces slice).head? = some (.unit value) →
    opensWord (Char.ofNat value) = true

/-- What is written without escapes in a slice makes up a word. -/
structure IsWritten (slice : List Char) : Prop where
  nonempty : pieces slice ≠ []
  continues : ∀ c, .plain c ∈ pieces slice → continuesWord c = true
  opens : ∀ c, (pieces slice).head? = some (.plain c) → opensWord c = true

theorem opensWord_of_beyond (c : Char) (beyond : 0x80 ≤ c.toNat) : opensWord c = true := by
  simp [opensWord, beyond]

theorem continuesWord_of_beyond (c : Char) (beyond : 0x80 ≤ c.toNat) : continuesWord c = true := by
  simp [continuesWord, opensWord_of_beyond c beyond]

/-- A word stands for a word exactly if its escapes fit. -/
theorem IsWritten.isWord_iff (written : IsWritten slice) :
    isWord (decodeEscapes slice) = true ↔ EscapesFit slice := by
  have stands := standsFor_joinPieces slice
  obtain ⟨c, piece, first, head, opens⟩ := stands.head_iff opensWord_of_beyond written.nonempty
  rw [Lexeme.isWord_iff, decodeEscapes, stands.forall_iff continuesWord_of_beyond, first]
  constructor
  · rintro ⟨⟨_, same, isFirst⟩, continues⟩
    obtain rfl := Option.some.inj same
    refine ⟨fun value ascii member => continues _ member ascii, fun value ascii unit => ?_⟩
    obtain rfl : piece = .unit value := Option.some.inj (head.symm.trans unit)
    exact opens.mp isFirst ascii
  · intro fits
    refine ⟨⟨c, rfl, opens.mpr ?_⟩, fun piece member => ?_⟩
    · cases piece with
      | plain c => exact written.opens c head
      | unit value => exact fun ascii => fits.opens value ascii head
    · cases piece with
      | plain c => exact written.continues c member
      | unit value => exact fun ascii => fits.continues value ascii member

theorem exists_isNumeral {digits : List Char} (all : digits.all isHexDigit = true) :
    ∃ value, IsNumeral digits value := by
  have values : ∃ values, List.Forall₂ HasHexValue digits values := by
    induction digits with
    | nil => exact ⟨[], .nil⟩
    | cons c digits ih =>
        rw [List.all_cons, Bool.and_eq_true] at all
        obtain ⟨value, found⟩ := Option.isSome_iff_exists.mp all.1
        obtain ⟨values, others⟩ := ih all.2
        exact ⟨value :: values, .cons (hexValue?_eq_some_iff.mp found) others⟩
  obtain ⟨values, all⟩ := values
  exact ⟨_, values, all, rfl⟩

theorem isEscape_of_escapeTail (sound : escapeTail text = (length, true)) :
    ∃ value, IsEscape ('\\' :: text.take length) value := by
  unfold escapeTail at sound
  dsimp only at sound
  split at sound
  · next complete =>
      simp only [Bool.and_eq_true, decide_eq_true_eq] at complete
      obtain ⟨⟨some, four⟩, hexadecimal⟩ := complete
      obtain ⟨rfl, -⟩ := Prod.mk.inj sound
      obtain ⟨value, numeral⟩ := exists_isNumeral hexadecimal
      obtain ⟨more, count⟩ := Nat.exists_eq_succ_of_ne_zero (Nat.ne_of_gt some)
      have marks : text.take (runLength (· == 'u') text) = 'u' :: List.replicate more 'u' := by
        rw [take_runLength, ← List.replicate_succ, ← Nat.succ_eq_add_one, ← count]
        refine List.eq_replicate_of_mem fun c member => ?_
        simpa using List.all_eq_true.mp List.all_takeWhile c member
      refine ⟨value, more, _, ?_, four, numeral⟩
      rw [List.take_add, marks, List.cons_append]
  · cases (Prod.mk.inj sound).2

theorem pieces_of_escapeTail (sound : escapeTail text = (length, true)) (behind : List Char) :
    ∃ value, pieces ('\\' :: (text.take length ++ behind)) = .unit value :: pieces behind := by
  obtain ⟨value, escape⟩ := isEscape_of_escapeTail sound
  exact ⟨value, pieces_of_escape (IsEitherEscape.escapedUnit? (.inl escape) behind)⟩

theorem continuesWord_of_wordTail (sound : (wordTail text).2 = true) :
    ∀ c, .plain c ∈ pieces (text.take (wordTail text).1) → continuesWord c = true := by
  fun_induction wordTail text with
  | case1 => simp [pieces]
  | case2 => simp [pieces]
  | case3 rest length _ escape more _ further ih =>
      rw [further] at ih
      obtain ⟨value, opens⟩ := pieces_of_escapeTail escape ((rest.drop length).take more)
      have split : ('\\' :: rest).take (1 + length + more) =
          '\\' :: (rest.take length ++ (rest.drop length).take more) := by
        rw [Nat.add_assoc, Nat.add_comm 1, List.take_succ_cons, List.take_add]
      rw [split, opens]
      intro c member
      exact ih sound c (by simpa using member)
  | case4 => cases sound
  | case5 c rest plain continues more _ further ih =>
      rw [further] at ih
      rw [Nat.add_comm 1, List.take_succ_cons,
        pieces_of_plain fun backslash => absurd backslash plain]
      intro d member
      rcases List.mem_cons.mp member with same | later
      · cases same
        exact continues
      · exact ih sound d later
  | case6 => simp [pieces]

/-- A word opens with a character that may do so or with an escape, and goes on from there. -/
theorem word_of_scan {first : Char} (word : (scan first rest).shape = .word) :
    (opensWord first = true ∧ (wordTail rest).2 = true ∧
      (scan first rest).following = (wordTail rest).1) ∨
    (first = '\\' ∧ ∃ length, escapeTail rest = (length, true) ∧
      (wordTail (rest.drop length)).2 = true ∧
        (scan first rest).following = length + (wordTail (rest.drop length)).1) := by
  revert word
  fun_cases scan first rest with
  | case2 first rest _ opens =>
      intro word
      refine .inl ⟨opens, ?_, rfl⟩
      by_contra bad
      simp [Lexeme.word, bad] at word
  | case3 rest =>
      unfold escapedWord
      split
      · simp
      · simp
      · next length _ escape =>
          intro word
          refine .inr ⟨rfl, length, escape, ?_, rfl⟩
          by_contra bad
          simp [bad] at word
  | case5 rest => rcases shape_quotedLiteral .string '"' rest with is | is <;> simp [is]
  | case6 rest => rcases shape_quotedLiteral .character '\'' rest with is | is <;> simp [is]
  | case10 more => rcases shape_blockComment .docComment 1 more with is | is <;> simp [is]
  | case11 more => rcases shape_blockComment .comment 0 more with is | is <;> simp [is]
  | case12 first rest => rcases shape_markAt first rest with ⟨symbol, is⟩ | is <;> simp [is]
  | case1 | case4 | case7 | case8 | case9 => simp

theorem isWritten_of_scan {first : Char} (word : (scan first rest).shape = .word) :
    IsWritten (first :: rest.take (scan first rest).following) := by
  obtain ⟨opens, sound, following⟩ | ⟨rfl, length, escape, sound, following⟩ := word_of_scan word
  · have plain : first ≠ '\\' := by
      rintro rfl
      revert opens
      decide
    have cut : pieces (first :: rest.take (wordTail rest).1) =
        .plain first :: pieces (rest.take (wordTail rest).1) :=
      pieces_of_plain fun backslash => absurd backslash plain
    rw [following]
    refine ⟨by simp [cut], fun c member => ?_, fun c head => ?_⟩
    · rcases List.mem_cons.mp (cut ▸ member) with same | later
      · cases same
        simp [continuesWord, opens]
      · exact continuesWord_of_wordTail sound c later
    · rw [cut] at head
      cases head
      exact opens
  · obtain ⟨value, cut⟩ :=
      pieces_of_escapeTail escape ((rest.drop length).take (wordTail (rest.drop length)).1)
    rw [← List.take_add] at cut
    rw [following]
    refine ⟨by simp [cut], fun c member => ?_, fun c head => ?_⟩
    · rcases List.mem_cons.mp (cut ▸ member) with same | later
      · cases same
      · exact continuesWord_of_wordTail sound c later
    · rw [cut] at head
      cases head

theorem escapesFit_of_notMem (plain : '\\' ∉ slice) : EscapesFit slice := by
  have cut : pieces slice = slice.map .plain := by
    refine (cutAt_plain fun front value escape inside => ?_).pieces_eq
    obtain ⟨more, rfl⟩ := escape.exists_more
    exact plain (inside.subset List.mem_cons_self)
  constructor <;> simp [cut]

theorem Cut.word_of_identifier {cut : Cut} {text : String}
    (whole : cut.token? = .ok (.identifier, text)) :
    cut.shape = .word ∧ text.toList = decodeEscapes cut.text ∧ Keyword.ofSpelling? text = none := by
  unfold Cut.token? at whole
  cases shape : cut.shape with
  | word =>
      rw [shape] at whole
      simp only [Except.ok.injEq, Prod.mk.injEq] at whole
      obtain ⟨kind, rfl⟩ := whole
      refine ⟨rfl, String.toList_ofList, ?_⟩
      cases found : Keyword.ofSpelling? (String.ofList (decodeEscapes cut.text)) with
      | none => rfl
      | some keyword => simp [found] at kind
  | _ => simp [shape] at whole

end Lexeme

theorem ne_spelling_of_ofSpelling? {word : String} (none : Keyword.ofSpelling? word = none)
    (keyword : Keyword) : word ≠ keyword.spelling := by
  rintro rfl
  have := List.find?_eq_none.mp none keyword (Keyword.mem_all keyword)
  exact this (beq_self_eq_true _)

/-- An identifier has the text that its slice stands for.  It is never empty and never spells a
keyword, and it is a word exactly if the escapes of the slice fit, so always if there are none. -/
theorem identifiers_stand_for_words {source : List Char} {stream after : TokenStream}
    {token : Token} (reached : TokenStream.Reached source stream)
    (taken : stream.next = (.ok token, after)) (isIdentifier : token.kind = .identifier) :
    ∃ slice, Text.slice? source token.span.first token.span.stop = some slice ∧
      token.text.toList = Text.decodeEscapes slice ∧ token.text ≠ "" ∧
      (∀ keyword : Keyword, token.text ≠ keyword.spelling) ∧
      (Lexeme.isWord token.text.toList = true ↔ Lexeme.EscapesFit slice) ∧
      ('\\' ∉ slice → Lexeme.isWord token.text.toList = true) := by
  rcases TokenStream.next_ok taken with ⟨-, ended⟩ | ⟨cut, found, whole, start, stop, -⟩
  · rw [isIdentifier] at ended
    cases ended
  · rw [isIdentifier] at whole
    obtain ⟨shape, text, noKeyword⟩ := Lexeme.Cut.word_of_identifier whole
    obtain ⟨before, whole, offset⟩ := reached.stands
    obtain ⟨front, first, rest, split, place, opens⟩ := Lexeme.exists_front_of_next? found
    have written : Lexeme.IsWritten cut.text := by
      rw [opens.text]
      exact Lexeme.isWritten_of_scan (opens.shape.symm.trans shape)
    have iff := written.isWord_iff
    rw [← text] at iff
    refine ⟨cut.text, ?_, text, ?_, ne_spelling_of_ofSpelling? noKeyword, iff,
      fun plain => iff.mpr (Lexeme.escapesFit_of_notMem plain)⟩
    · rw [start, stop, Lexeme.Cut.stop, place, offset, ← Text.byteSize_append, whole, split,
        ← opens.append, ← List.append_assoc]
      exact Text.slice?_middle (before ++ front) cut.text cut.rest
    · intro empty
      have standsFor := Text.standsFor_joinPieces cut.text
      obtain ⟨c, -, head, -⟩ :=
        standsFor.head_iff Lexeme.opensWord_of_beyond written.nonempty
      rw [← Text.decodeEscapes, ← text, empty] at head
      cases head

/-- A name that is written with an escape. -/
theorem escaped_letter_stands_in_name :
    let stream := TokenStream.ofSource "F\\uu006fo".toList
    ∃ token, stream.next = (.ok token, stream.next.2) ∧ token.kind = .identifier ∧
      token.text = "Foo" ∧ ∃ slice,
        Text.slice? "F\\uu006fo".toList token.span.first token.span.stop = some slice ∧
          Lexeme.EscapesFit slice := by
  intro stream
  have taken := TokenStream.next_eq (by decide +kernel :
    stream.next.1.toOption = some ⟨.identifier, "Foo", ⟨⟨1, 1, 0⟩, 0, 9⟩⟩)
  obtain ⟨slice, covered, -, -, -, iff, -⟩ := identifiers_stand_for_words .start taken rfl
  exact ⟨_, taken, rfl, rfl, slice, covered, iff.mp (by decide +kernel)⟩

/-- A dot that is written as an escape stands in a name. -/
theorem escaped_dot_stands_in_name :
    let stream := TokenStream.ofSource "a\\u002eb".toList
    ∃ token, stream.next = (.ok token, stream.next.2) ∧ token.kind = .identifier ∧
      token.text = "a.b" ∧ Lexeme.isWord token.text.toList = false := by
  intro stream
  have taken := TokenStream.next_eq (by decide +kernel :
    stream.next.1.toOption = some ⟨.identifier, "a.b", ⟨⟨1, 1, 0⟩, 0, 8⟩⟩)
  exact ⟨_, taken, rfl, rfl, by decide +kernel⟩

end JavaDecl
