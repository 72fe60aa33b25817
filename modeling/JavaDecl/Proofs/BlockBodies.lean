import JavaDecl.Proofs.TakenText

/-!
# Bodies of blocks

A text is a body if it is taken whole as a block.  The scan for the end of a block is back in
its first state behind a body, inside neither a literal nor a comment, and it has looked no
further.  So what comes behind the closing brace does not matter, and bodies are put together
to bodies.
-/

namespace JavaDecl

namespace Block

variable {front back body rest tail : List Char} {c : Char}

/-- A character that does not belong to a text makes no text start with it that did not before. -/
theorem prefix_append_cons {opening : List Char} (other : c ∉ opening) :
    opening <+: front ++ c :: tail ↔ opening <+: front := by
  refine ⟨fun starts => ?_, fun starts => starts.trans (List.prefix_append front _)⟩
  rcases List.prefix_or_prefix_of_prefix starts (List.prefix_append front (c :: tail)) with
    inside | ⟨more, rfl⟩
  · exact inside
  · cases more with
    | nil => simp
    | cons d more =>
        have within := (List.prefix_append_right_inj front).mp starts
        obtain ⟨rfl, -⟩ := List.cons_prefix_cons.mp within
        simp at other

/-! ### What is skipped as a whole -/

/-- The rest of a text is not what comes in front of it. -/
theorem ne_of_suffix (skipped : back <:+ rest) : back ≠ front ++ c :: rest := by
  rintro rfl
  have := skipped.length_le
  simp only [List.length_append, List.length_cons] at this
  omega

/-- A literal ends at the same place whatever comes behind it. -/
theorem afterLiteral_append {quote : Char}
    (lands : afterLiteral quote (front ++ '\x7d' :: rest) = back ++ '\x7d' :: rest) :
    afterLiteral quote (front ++ c :: tail) = back ++ c :: tail := by
  have plain {d : Char} {front : List Char}
      (unescaped : ∀ next later, d = '\\' → front = next :: later → False)
      (lands : afterLiteral quote (d :: front ++ '\x7d' :: rest) = back ++ '\x7d' :: rest) :
      d ≠ '\\' := by
    rintro rfl
    cases front with
    | nil => exact ne_of_suffix (suffix_afterLiteral quote rest) lands
    | cons next later => exact unescaped next later rfl rfl
  induction front using afterLiteral.induct quote with
  | case1 =>
      rw [List.nil_append, afterLiteral_cons quote (.inl (by decide))] at lands
      split at lands
      · exact absurd lands (ne_of_suffix (List.suffix_refl rest))
      · exact absurd lands (ne_of_suffix (suffix_afterLiteral quote rest))
  | case2 escaped front ih => exact ih lands
  | case3 d front unescaped ends =>
      have escape := plain unescaped lands
      rw [List.cons_append, afterLiteral_cons quote (.inl escape), if_pos ends] at lands ⊢
      rw [List.append_cancel_right lands]
  | case4 d front unescaped goesOn ih =>
      have escape := plain unescaped lands
      rw [List.cons_append, afterLiteral_cons quote (.inl escape), if_neg goesOn] at lands ⊢
      exact ih lands

/-- A text block ends at the same place whatever comes behind it, unless quotes go on there. -/
theorem afterTextBlock_append (other : c ≠ '"')
    (lands : afterTextBlock (front ++ '\x7d' :: rest) = back ++ '\x7d' :: rest) :
    afterTextBlock (front ++ c :: tail) = back ++ c :: tail := by
  induction front with
  | nil =>
      rw [List.nil_append, afterTextBlock_cons (by simp [textBlockQuotes])] at lands
      exact absurd lands (ne_of_suffix (suffix_afterTextBlock rest))
  | cons d front ih =>
      by_cases closes : textBlockQuotes <+: d :: front
      · obtain ⟨front, opens⟩ := closes
        rw [← opens] at lands ⊢
        exact congrArg (· ++ c :: tail) (List.append_cancel_right lands)
      · have goesOn {next : Char} (differs : next ≠ '"') (tail : List Char) :
            ¬ textBlockQuotes <+: d :: (front ++ next :: tail) := by
          rw [← List.cons_append, prefix_append_cons (by simpa [textBlockQuotes] using differs)]
          exact closes
        rw [List.cons_append, afterTextBlock_cons (goesOn (by decide) rest)] at lands
        rw [List.cons_append, afterTextBlock_cons (goesOn other tail)]
        exact ih lands

/-- A line ends at the same place whatever comes behind it. -/
theorem afterLine_append
    (lands : afterLine (front ++ '\x7d' :: rest) = back ++ '\x7d' :: rest) :
    afterLine (front ++ c :: tail) = back ++ c :: tail := by
  induction front with
  | nil => exact absurd lands (ne_of_suffix (suffix_afterLine rest))
  | cons d front ih =>
      rw [List.cons_append, afterLine] at lands ⊢
      split
      · next newline =>
          rw [if_pos newline] at lands
          rw [List.append_cancel_right lands]
      · next goesOn =>
          rw [if_neg goesOn] at lands
          exact ih lands

/-- A comment ends at the same place whatever comes behind it, unless stars or slashes do. -/
theorem afterComment?_append (other : c ∉ ['*', '/'])
    (lands : afterComment? (front ++ '\x7d' :: rest) = some (back ++ '\x7d' :: rest)) :
    afterComment? (front ++ c :: tail) = some (back ++ c :: tail) := by
  induction front with
  | nil =>
      rw [List.nil_append, afterComment?_cons (by simp)] at lands
      exact absurd rfl (ne_of_suffix (suffix_afterComment? lands))
  | cons d front ih =>
      by_cases closes : ['*', '/'] <+: d :: front
      · obtain ⟨front, opens⟩ := closes
        rw [← opens] at lands ⊢
        exact congrArg (some <| · ++ c :: tail) (List.append_cancel_right (Option.some.inj lands))
      · have goesOn {next : Char} (differs : next ∉ ['*', '/']) (tail : List Char) :
            ¬ ['*', '/'] <+: d :: (front ++ next :: tail) := by
          rw [← List.cons_append, prefix_append_cons differs]
          exact closes
        rw [List.cons_append, afterComment?_cons (goesOn (by decide) rest)] at lands
        rw [List.cons_append, afterComment?_cons (goesOn other tail)]
        exact ih lands

/-! ### Behind a body -/

/-- What a text starts with, as the scan for the end of a block tells it apart. -/
inductive Start : List Char → Prop where
  | nothing : Start []
  | textBlock (rest : List Char) : Start (textBlockQuotes ++ rest)
  | lineComment (rest : List Char) : Start ('/' :: '/' :: rest)
  | comment (rest : List Char) : Start ('/' :: '*' :: rest)
  | single {c : Char} {rest : List Char} : ¬ textBlockQuotes <+: c :: rest →
      ¬ OpensComment (c :: rest) → Start (c :: rest)

theorem start (text : List Char) : Start text := by
  by_cases block : textBlockQuotes <+: text
  · obtain ⟨rest, rfl⟩ := block
    exact .textBlock rest
  by_cases comment : OpensComment text
  · rcases comment with ⟨rest, rfl⟩ | ⟨rest, rfl⟩
    · exact .lineComment rest
    · exact .comment rest
  cases text with
  | nil => exact .nothing
  | cons c rest => exact .single block comment

theorem blockEnd_textBlock (depth : Nat) :
    blockEnd depth (textBlockQuotes ++ rest) = blockEnd depth (afterTextBlock rest) := by
  rw [textBlockQuotes, List.cons_append, List.cons_append, List.cons_append, List.nil_append,
    blockEnd]

theorem blockEnd_lineComment (depth : Nat) :
    blockEnd depth ('/' :: '/' :: rest) = blockEnd depth (afterLine rest) := by
  rw [blockEnd]

theorem exists_afterComment?_of_closed {depth : Nat}
    (closed : blockEnd depth ('/' :: '*' :: front) = .closed rest) :
    ∃ after, afterComment? front = some after ∧ blockEnd depth after = .closed rest := by
  rw [blockEnd] at closed
  split at closed
  · next after found => exact ⟨after, found, closed⟩
  · cases closed

/-- The scan for the end of a block passes over a text that a block may end behind, whatever
comes there, unless it goes on with a mark that opens or closes a literal or a comment. -/
theorem blockEnd_append {depth : Nat}
    (closed : blockEnd depth (body ++ '\x7d' :: rest) = .closed rest)
    (apart : c ∉ ['"', '/', '*']) (outer : Nat) (tail : List Char) :
    blockEnd (depth + outer) (body ++ c :: tail) = blockEnd outer (c :: tail) := by
  simp only [List.mem_cons, List.not_mem_nil, or_false, not_or] at apart
  obtain ⟨noQuote, noSlash, noStar⟩ := apart
  induction length : body.length using Nat.strongRecOn generalizing body depth with
  | ind _ ih =>
      subst length
      have skips {inner skipped other : List Char} (shorter : inner.length < body.length)
          (within : skipped <:+ inner ++ '\x7d' :: rest)
          (ends : blockEnd depth skipped = .closed rest)
          (same : ∀ back, skipped = back ++ '\x7d' :: rest → other = back ++ c :: tail) :
          blockEnd (depth + outer) other = blockEnd outer (c :: tail) := by
        obtain ⟨back, lands⟩ := exists_body_of_closed ends
        rw [same back lands]
        rw [lands] at ends within
        have few := within.length_le
        simp only [List.length_append, List.length_cons] at few
        exact ih back.length (by omega) ends rfl
      cases start body with
      | nothing =>
          rw [List.nil_append, blockEnd_cons depth (by simp [textBlockQuotes])
            (by simp [OpensComment])] at closed
          cases depth with
          | zero => rw [Nat.zero_add, List.nil_append]
          | succ depth =>
              obtain ⟨back, lands⟩ := exists_body_of_closed closed
              exact absurd lands (ne_of_suffix (List.suffix_refl rest))
      | textBlock inner =>
          rw [List.append_assoc, blockEnd_textBlock] at closed ⊢
          refine skips ?_ (suffix_afterTextBlock _) closed fun back => afterTextBlock_append noQuote
          simp only [textBlockQuotes, List.length_append, List.length_cons]
          omega
      | lineComment inner =>
          rw [List.cons_append, List.cons_append, blockEnd_lineComment] at closed ⊢
          refine skips ?_ (suffix_afterLine _) closed fun back => afterLine_append
          simp only [List.length_cons]
          omega
      | comment inner =>
          obtain ⟨after, found, ends⟩ := exists_afterComment?_of_closed closed
          obtain ⟨back, rfl⟩ := exists_body_of_closed ends
          have passed : afterComment? (inner ++ c :: tail) = some (back ++ c :: tail) :=
            afterComment?_append (by simp [noSlash, noStar]) found
          rw [List.cons_append, List.cons_append, blockEnd_blockComment _ passed]
          refine skips ?_ (suffix_afterComment? found) ends fun other same => ?_
          · simp only [List.length_cons]
            omega
          · rw [List.append_cancel_right same]
      | @single d inner noBlock noComment =>
          have alone (next : Char) (differs : next ≠ '"' ∧ next ≠ '/' ∧ next ≠ '*')
              (later : List Char) :
              ¬ textBlockQuotes <+: d :: (inner ++ next :: later) ∧
                ¬ OpensComment (d :: (inner ++ next :: later)) := by
            obtain ⟨quote, slash, star⟩ := differs
            rw [← List.cons_append, prefix_append_cons (by simpa [textBlockQuotes] using quote),
              OpensComment, prefix_append_cons (by simpa using slash),
              prefix_append_cons (by simp [slash, star])]
            exact ⟨noBlock, noComment⟩
          obtain ⟨block, comment⟩ := alone '\x7d' (by decide) rest
          obtain ⟨block', comment'⟩ := alone c ⟨noQuote, noSlash, noStar⟩ tail
          rw [List.cons_append, blockEnd_cons _ block comment] at closed
          rw [List.cons_append, blockEnd_cons _ block' comment']
          have shorter : inner.length < (d :: inner).length := by simp
          by_cases opens : d = '\x7b'
          · rw [if_pos opens] at closed ⊢
            rw [Nat.add_right_comm]
            exact ih inner.length shorter closed rfl
          rw [if_neg opens] at closed ⊢
          by_cases closes : d = '\x7d'
          · rw [if_pos closes] at closed ⊢
            cases depth with
            | zero =>
                exact absurd (End.closed.inj closed).symm (ne_of_suffix (List.suffix_refl rest))
            | succ depth =>
                rw [Nat.add_right_comm]
                exact ih inner.length shorter closed rfl
          rw [if_neg closes] at closed ⊢
          by_cases quoted : d = '"' || d = '\''
          · rw [if_pos quoted] at closed ⊢
            exact skips shorter (suffix_afterLiteral d _) closed fun back => afterLiteral_append
          · rw [if_neg quoted] at closed ⊢
            exact ih inner.length shorter closed rfl

end Block

namespace TokenStream

open Block

variable {source body one other suffix : List Char} {stream after : TokenStream} {block : Token}

/-- A text is a body if it is taken as a block in front of a closing brace and some more text. -/
def IsBody (body : List Char) : Prop :=
  ∃ (stream : TokenStream) (suffix : List Char) (block : Token) (after : TokenStream),
    stream.rest = body ++ '\x7d' :: suffix ∧ stream.takeBlock = (.ok block, after) ∧
      block.text = String.ofList body

/-- A block that is taken ends in front of a brace. -/
theorem takeBlock_ok (taken : stream.takeBlock = (.ok block, after)) :
    ∃ body, stream.rest = body ++ '\x7d' :: after.rest ∧ block.text = String.ofList body ∧
      after.offset = stream.offset + Text.byteSize body + 1 ∧
        blockEnd 0 stream.rest = .closed after.rest := by
  cases ends : blockEnd 0 stream.rest with
  | closed rest =>
      obtain ⟨body, split⟩ := exists_body_of_closed ends
      obtain ⟨_, _, took, -, text, left, place⟩ := takeBlock_of_closed split ends
      rw [took, Prod.mk.injEq, Except.ok.injEq] at taken
      obtain ⟨rfl, rfl⟩ := taken
      exact ⟨body, by rw [left, split], text, place, by rw [left]⟩
  | unclosedComment text | unclosed =>
      unfold takeBlock at taken
      rw [ends] at taken
      cases taken

/-- A block that is not taken leaves everything to be taken. -/
theorem takeBlock_error {failure : ParseError}
    (failed : stream.takeBlock = (.error failure, after)) :
    after.offset = stream.offset ∧ after.rest = stream.rest := by
  cases ends : blockEnd 0 stream.rest with
  | closed rest =>
      obtain ⟨body, split⟩ := exists_body_of_closed ends
      obtain ⟨_, _, took, -⟩ := takeBlock_of_closed split ends
      rw [took] at failed
      cases failed
  | unclosedComment text | unclosed =>
      unfold takeBlock at failed
      rw [ends] at failed
      cases failed
      exact ⟨rfl, rfl⟩

theorem isBody_iff :
    IsBody body ↔ ∃ suffix, blockEnd 0 (body ++ '\x7d' :: suffix) = .closed suffix := by
  constructor
  · rintro ⟨stream, suffix, block, after, split, taken, text⟩
    obtain ⟨inside, whole, same, -, closed⟩ := takeBlock_ok taken
    obtain rfl : inside = body := String.ofList_injective (same.symm.trans text)
    obtain rfl : after.rest = suffix := by simpa [whole] using split
    exact ⟨after.rest, whole ▸ closed⟩
  · rintro ⟨suffix, closed⟩
    let stream := { (default : TokenStream) with rest := body ++ '\x7d' :: suffix }
    have ends : blockEnd 0 stream.rest = .closed suffix := closed
    obtain ⟨block, after, taken, -, text, -⟩ := takeBlock_of_closed rfl ends
    exact ⟨stream, suffix, block, after, rfl, taken, text⟩

/-- The scan for the end of a block is behind a body where it was in front of it. -/
theorem IsBody.blockEnd_append (is : IsBody body) {c : Char} (apart : c ∉ ['"', '/', '*'])
    (outer : Nat) (tail : List Char) :
    blockEnd outer (body ++ c :: tail) = blockEnd outer (c :: tail) := by
  obtain ⟨suffix, closed⟩ := isBody_iff.mp is
  simpa using Block.blockEnd_append closed apart outer tail

theorem blockEnd_brace (tail : List Char) : blockEnd 0 ('\x7d' :: tail) = .closed tail := by
  rw [blockEnd_cons 0 (by simp [textBlockQuotes]) (by simp [OpensComment])]
  rfl

theorem IsBody.append (first : IsBody one) (second : IsBody other) :
    IsBody (one ++ '\n' :: other) := by
  refine isBody_iff.mpr ⟨[], ?_⟩
  calc blockEnd 0 (one ++ '\n' :: other ++ ['\x7d'])
      = blockEnd 0 (one ++ '\n' :: (other ++ ['\x7d'])) := by
        rw [List.append_assoc, List.cons_append]
    _ = blockEnd 0 ('\n' :: (other ++ ['\x7d'])) := first.blockEnd_append (by decide) 0 _
    _ = blockEnd 0 (other ++ ['\x7d']) :=
        blockEnd_cons 0 (by simp [textBlockQuotes]) (by simp [OpensComment])
    _ = blockEnd 0 ['\x7d'] := second.blockEnd_append (by decide) 0 _
    _ = .closed [] := blockEnd_brace []

theorem IsBody.inBraces (is : IsBody body) : IsBody ('\x7b' :: body ++ ['\x7d']) := by
  refine isBody_iff.mpr ⟨[], ?_⟩
  calc blockEnd 0 ('\x7b' :: body ++ ['\x7d'] ++ ['\x7d'])
      = blockEnd 0 ('\x7b' :: (body ++ ['\x7d', '\x7d'])) := by simp
    _ = blockEnd 1 (body ++ ['\x7d', '\x7d']) :=
        blockEnd_cons 0 (by simp [textBlockQuotes]) (by simp [OpensComment])
    _ = blockEnd 1 ['\x7d', '\x7d'] := is.blockEnd_append (by decide) 1 _
    _ = blockEnd 0 ['\x7d'] := blockEnd_cons 1 (by simp [textBlockQuotes]) (by simp [OpensComment])
    _ = .closed [] := blockEnd_brace []

end TokenStream

open TokenStream in
/-- Bodies of blocks are taken whatever comes behind them, and are put together to bodies.  A
body is taken as it is from every stream in front of which it stands with a closing brace, and
the stream goes on behind the brace.  Two bodies with a newline between them are a body, and
so is a body in braces.  From every place in a source, a block that is taken has what stands
there up to a closing brace, and one that is not taken leaves the place. -/
theorem bodies_are_taken_and_put_together :
    (∀ body, IsBody body → ∀ (stream : TokenStream) suffix,
      stream.rest = body ++ '\x7d' :: suffix →
        ∃ block after, stream.takeBlock = (.ok block, after) ∧ block.kind = .block ∧
          block.text = String.ofList body ∧ after.rest = suffix ∧
            after.offset = stream.offset + Text.byteSize body + 1) ∧
    (∀ one other, IsBody one → IsBody other → IsBody (one ++ '\n' :: other)) ∧
    (∀ body, IsBody body → IsBody ('\x7b' :: body ++ ['\x7d'])) ∧
    ∀ (source : List Char) (stream : TokenStream), stream.Stands source →
      (∀ block after, stream.takeBlock = (.ok block, after) →
        ∃ body closing, Text.slice? source stream.offset closing = some body ∧
          block.text = String.ofList body ∧
            Text.slice? source closing after.offset = some ['\x7d'] ∧
              after.offset = closing + 1 ∧ after.Stands source) ∧
      ∀ failure after, stream.takeBlock = (.error failure, after) →
        after.offset = stream.offset ∧ after.rest = stream.rest := by
  refine ⟨fun body is stream suffix split => ?_, fun one other => IsBody.append,
    fun body => IsBody.inBraces, fun source stream stands =>
      ⟨fun block after taken => ?_, fun failure after => takeBlock_error⟩⟩
  · have closed : Block.blockEnd 0 stream.rest = .closed suffix := by
      rw [split, is.blockEnd_append (by decide), blockEnd_brace]
    exact takeBlock_of_closed split closed
  · obtain ⟨body, split, text, place, -⟩ := takeBlock_ok taken
    obtain ⟨front, whole, start⟩ := stands
    have brace : Text.byteSize ['\x7d'] = 1 := by decide
    refine ⟨body, stream.offset + Text.byteSize body, ?_, text, ?_, place, ?_⟩
    · rw [whole, split, start]
      exact Text.slice?_middle front body _
    · have behind := Text.slice?_middle (front ++ body) ['\x7d'] after.rest
      rw [brace, Text.byteSize_append, ← start, ← place] at behind
      rw [whole, split]
      simpa using behind
    · refine ⟨front ++ (body ++ ['\x7d']), by simp [whole, split], ?_⟩
      rw [place, start, Text.byteSize_append, Text.byteSize_append, brace, Nat.add_assoc]

/-- A literal with a brace and a comment with a brace are bodies of blocks, so the block that
has both, in braces, is taken in front of a quote that opens another literal. -/
theorem body_in_braces_is_taken_before_literal :
    let one := "\"\x7d\"".toList
    let other := "/*\x7d*/".toList
    let source := "\x7b\x7b\"\x7d\"\n/*\x7d*/\x7d\x7d'".toList
    let stream : TokenStream := (TokenStream.ofSource source).next.2
    TokenStream.IsBody one ∧ TokenStream.IsBody other ∧
      ∃ block after, stream.takeBlock = (.ok block, after) ∧
        block.text = "\x7b\"\x7d\"\n/*\x7d*/\x7d" ∧ after.rest = ['\''] ∧
          ∃ body, Text.slice? source stream.offset (after.offset - 1) = some body ∧
            block.text = String.ofList body := by
  intro one other source stream
  obtain ⟨stable, joined, wrapped, places⟩ := bodies_are_taken_and_put_together
  have first : TokenStream.IsBody one :=
    TokenStream.isBody_iff.mpr ⟨[], by decide +kernel⟩
  have second : TokenStream.IsBody other :=
    TokenStream.isBody_iff.mpr ⟨[], by decide +kernel⟩
  obtain ⟨block, after, taken, -, text, rest, -⟩ :=
    stable _ (wrapped _ (joined one other first second)) stream ['\''] (by decide +kernel)
  have stands : stream.Stands source := (TokenStream.Reached.next .start).stands
  obtain ⟨body, closing, between, same, -, behind, -⟩ :=
    (places source stream stands).1 block after taken
  refine ⟨first, second, block, after, taken, by rw [text]; decide +kernel, rest, body, ?_, same⟩
  rwa [behind, Nat.add_sub_cancel]

end JavaDecl
