import JavaDecl.Proofs.PassedLexemes

/-!
# What streams take

A stream stands somewhere in its source, and what is left of it is the end of the source.
Tokens and blocks are taken from there, each with what stands in front of it.
-/

namespace JavaDecl

namespace Lexeme

variable {text rest : List Char} {offset : Nat} {cut : Cut}

/-- A lexeme is what a text opens with. -/
structure Cut.Opens (cut : Cut) (first : Char) (rest : List Char) : Prop where
  shape : cut.shape = (scan first rest).shape
  text : cut.text = first :: rest.take (scan first rest).following
  rest : cut.rest = rest.drop (scan first rest).following

theorem Cut.Opens.append {first : Char} (opens : cut.Opens first rest) :
    cut.text ++ cut.rest = first :: rest := by
  rw [opens.text, opens.rest, List.cons_append, List.take_append_drop]

theorem Cut.token?_ok {cut : Cut} {kind : TokenKind} {text : String}
    (whole : cut.token? = .ok (kind, text)) :
    cut.shape ≠ .invalid ∧ cut.shape ≠ .unclosedComment ∧
      ∀ symbol, kind = .mark symbol ↔ cut.shape = .mark symbol := by
  unfold token? at whole
  cases shape : cut.shape with
  | word =>
      rw [shape] at whole
      simp only [Except.ok.injEq, Prod.mk.injEq] at whole
      refine ⟨by simp, by simp, fun symbol => ?_⟩
      rw [← whole.1]
      cases Keyword.ofSpelling? (String.ofList (Text.decodeEscapes cut.text)) <;> simp
  | space | comment | invalid | unclosedComment =>
      rw [shape] at whole
      cases whole
  | number | string | character | docComment | mark =>
      rw [shape] at whole
      obtain ⟨rfl, -⟩ := by simpa using whole
      exact ⟨by simp, by simp, fun symbol => by simp⟩

/-- The first lexeme that is no layout stands behind the layout. -/
theorem exists_front_of_next? (found : next? offset text = some cut) :
    ∃ front first rest, text = front ++ first :: rest ∧
      cut.first = offset + Text.byteSize front ∧ cut.Opens first rest := by
  fun_induction next? offset text with
  | case1 => cases found
  | case2 offset first rest reach taken layout ih =>
      obtain ⟨front, next, tail, split, place, opens⟩ := ih found
      refine ⟨taken ++ front, next, tail, ?_, ?_, opens⟩
      · rw [List.append_assoc, ← split, List.cons_append, List.take_append_drop]
      · rw [place, Text.byteSize_append, Nat.add_assoc]
  | case3 offset first rest reach taken content =>
      cases found
      exact ⟨[], first, rest, rfl, rfl, rfl, rfl, rfl⟩

def opening (first : Char) (rest : List Char) (offset : Nat) : Cut where
  shape := (scan first rest).shape
  text := first :: rest.take (scan first rest).following
  first := offset
  rest := rest.drop (scan first rest).following

theorem next?_cons (offset : Nat) (first : Char) (rest : List Char) :
    next? offset (first :: rest) =
      if (opening first rest offset).shape.isLayout then
        next? (opening first rest offset).stop (opening first rest offset).rest
      else some (opening first rest offset) := by
  rw [next?]
  rfl

theorem opening_of_scan {first : Char} {more : List Char} {shape : Shape}
    (reach : scan first (more ++ rest) = { shape, following := more.length }) (offset : Nat) :
    opening first (more ++ rest) offset =
      { shape, text := first :: more, first := offset, rest } := by
  rw [opening, reach, List.take_left, List.drop_left]

theorem scan_of_isSpace {first : Char} (space : isSpace first = true) (rest : List Char) :
    scan first rest = { shape := .space, following := runLength isSpace rest } := by
  unfold scan
  rw [if_pos space]

end Lexeme

/-! ### What is passed over -/

namespace Block

theorem suffix_afterLiteral (quote : Char) (text : List Char) :
    afterLiteral quote text <:+ text := by
  fun_induction afterLiteral quote text with
  | case1 => exact List.suffix_refl _
  | case2 escaped rest ih => exact ih.trans (List.suffix_append ['\\', escaped] rest)
  | case3 c rest => exact List.suffix_cons c rest
  | case4 c rest _ _ ih => exact ih.trans (List.suffix_cons c rest)

theorem suffix_afterTextBlock (text : List Char) : afterTextBlock text <:+ text := by
  fun_induction afterTextBlock text with
  | case1 rest => exact List.suffix_append textBlockQuotes rest
  | case2 c rest _ ih => exact ih.trans (List.suffix_cons c rest)
  | case3 => exact List.suffix_refl _

theorem suffix_afterLine (text : List Char) : afterLine text <:+ text := by
  fun_induction afterLine text with
  | case1 => exact List.suffix_refl _
  | case2 rest => exact List.suffix_cons _ rest
  | case3 c rest _ ih => exact ih.trans (List.suffix_cons c rest)

theorem suffix_afterComment? {text rest : List Char} (closed : afterComment? text = some rest) :
    rest <:+ text := by
  rw [Lexeme.afterComment?_eq] at closed
  obtain ⟨count, -, rfl⟩ := Option.map_eq_some_iff.mp closed
  exact List.drop_suffix count text

theorem exists_body_of_closed {depth : Nat} {text rest : List Char}
    (closed : blockEnd depth text = .closed rest) : ∃ body, text = body ++ '\x7d' :: rest := by
  have further (front : List Char) {later whole : List Char} (passed : later <:+ whole)
      (found : ∃ body, later = body ++ '\x7d' :: rest) :
      ∃ body, front ++ whole = body ++ '\x7d' :: rest := by
    obtain ⟨skipped, rfl⟩ := passed
    obtain ⟨body, rfl⟩ := found
    exact ⟨front ++ skipped ++ body, by simp⟩
  fun_induction blockEnd depth text with
  | case1 => cases closed
  | case2 depth tail ih =>
      exact further textBlockQuotes (suffix_afterTextBlock tail) (ih closed)
  | case3 depth tail ih => exact further ['/', '/'] (suffix_afterLine tail) (ih closed)
  | case4 depth tail after ended ih =>
      exact further ['/', '*'] (suffix_afterComment? ended) (ih closed)
  | case5 => cases closed
  | case6 depth tail _ _ _ ih => exact further ['\x7b'] (List.suffix_refl tail) (ih closed)
  | case7 tail =>
      cases closed
      exact ⟨[], rfl⟩
  | case8 tail outer _ _ _ _ ih =>
      exact further ['\x7d'] (List.suffix_refl tail) (ih closed)
  | case9 depth c tail _ _ _ _ _ _ ih =>
      exact further [c] (suffix_afterLiteral c tail) (ih closed)
  | case10 depth c tail _ _ _ _ _ _ ih =>
      exact further [c] (List.suffix_refl tail) (ih closed)

end Block

namespace TokenStream

open Lexeme Block

variable {source : List Char} {stream after : TokenStream} {token : Token}

/-! ### Places in a source -/

/-- The streams on a source text: that of all its tokens, and what is left of a stream after
the next token or a block is asked for. -/
inductive Reached (source : List Char) : TokenStream → Prop where
  | start : Reached source (.ofSource source)
  | next {stream : TokenStream} : Reached source stream → Reached source stream.next.2
  | takeBlock {stream : TokenStream} : Reached source stream → Reached source stream.takeBlock.2

/-- What is left of a stream is the end of the source, and its offset is where that starts. -/
def Stands (source : List Char) (stream : TokenStream) : Prop :=
  ∃ taken, source = taken ++ stream.rest ∧ stream.offset = Text.byteSize taken

theorem Stands.drop (stands : stream.Stands source) {front : List Char}
    (split : stream.rest = front ++ after.rest)
    (moved : after.offset = stream.offset + Text.byteSize front) : after.Stands source := by
  obtain ⟨taken, whole, place⟩ := stands
  refine ⟨taken ++ front, ?_, ?_⟩
  · rw [whole, split, List.append_assoc]
  · rw [moved, place, Text.byteSize_append]

/-- What the next token takes from a stream: everything, or the next lexeme and the layout in
front of it. -/
theorem next_takes (stream : TokenStream) :
    ∃ front, stream.rest = front ++ stream.next.2.rest ∧
      stream.next.2.offset = stream.offset + Text.byteSize front := by
  unfold next
  cases found : Lexeme.next? stream.offset stream.rest with
  | none => exact ⟨stream.rest, by simp [locate], by simp [locate, endOffset]⟩
  | some cut =>
      obtain ⟨front, first, rest, split, place, opens⟩ := exists_front_of_next? found
      have behind : stream.rest = front ++ cut.text ++ cut.rest := by
        rw [List.append_assoc, opens.append, split]
      refine ⟨front ++ cut.text, ?_, ?_⟩
      all_goals
        dsimp only
        split
      all_goals simp [locate, Cut.stop, place, behind, Nat.add_assoc]

/-- The token of a block has the text in front of its closing brace. -/
theorem take_of_split {body rest : List Char} (split : stream.rest = body ++ '\x7d' :: rest) :
    stream.rest.take (stream.rest.length - rest.length - 1) = body := by
  have length : stream.rest.length - rest.length - 1 = body.length := by
    rw [split, List.length_append, List.length_cons]
    omega
  rw [length, split, List.take_left]

/-- A block that is closed is taken with its closing brace, and its token has what is in
front of the brace. -/
theorem takeBlock_of_closed {body rest : List Char} (split : stream.rest = body ++ '\x7d' :: rest)
    (closed : Block.blockEnd 0 stream.rest = .closed rest) :
    ∃ block after, stream.takeBlock = (.ok block, after) ∧ block.kind = .block ∧
      block.text = String.ofList body ∧ after.rest = rest ∧
        after.offset = stream.offset + Text.byteSize body + 1 := by
  have inside := take_of_split split
  unfold takeBlock
  rw [closed]
  exact ⟨_, _, rfl, rfl, congrArg String.ofList inside, rfl,
    congrArg (stream.offset + Text.byteSize · + 1) inside⟩

theorem takeBlock_takes (stream : TokenStream) :
    ∃ front, stream.rest = front ++ stream.takeBlock.2.rest ∧
      stream.takeBlock.2.offset = stream.offset + Text.byteSize front := by
  cases ends : Block.blockEnd 0 stream.rest with
  | closed rest =>
      obtain ⟨body, split⟩ := exists_body_of_closed ends
      obtain ⟨block, after, taken, -, -, left, place⟩ := takeBlock_of_closed split ends
      have brace : Text.byteSize ['\x7d'] = 1 := by decide
      rw [taken]
      refine ⟨body ++ ['\x7d'], by simp [left, split], ?_⟩
      rw [place, Text.byteSize_append, brace, Nat.add_assoc]
  | unclosedComment text =>
      unfold takeBlock
      rw [ends]
      exact ⟨[], rfl, rfl⟩
  | unclosed =>
      unfold takeBlock
      rw [ends]
      exact ⟨[], rfl, rfl⟩

theorem Reached.stands (reached : Reached source stream) : stream.Stands source := by
  induction reached with
  | start =>
      unfold ofSource
      split
      · exact ⟨[], rfl, rfl⟩
      · next c rest =>
          split
          · exact ⟨[c], rfl, by simp⟩
          · exact ⟨[], rfl, rfl⟩
  | next _ ih =>
      obtain ⟨front, split, moved⟩ := next_takes _
      exact ih.drop split moved
  | takeBlock _ ih =>
      obtain ⟨front, split, moved⟩ := takeBlock_takes _
      exact ih.drop split moved

/-! ### Tokens -/

theorem next_eq (found : stream.next.1.toOption = some token) :
    stream.next = (.ok token, stream.next.2) := by
  refine Prod.ext ?_ rfl
  cases outcome : stream.next.1 with
  | error failure => simp [outcome, Except.toOption] at found
  | ok other => simpa [outcome, Except.toOption] using found

/-- A token is taken, or the end of input where there is none left. -/
theorem next_ok (taken : stream.next = (.ok token, after)) :
    (after.rest = [] ∧ token.kind = .endOfInput) ∨
      ∃ cut, Lexeme.next? stream.offset stream.rest = some cut ∧
        cut.token? = .ok (token.kind, token.text) ∧ token.span.first = cut.first ∧
          token.span.stop = cut.stop ∧ after.rest = cut.rest ∧ after.offset = cut.stop := by
  unfold next at taken
  cases found : Lexeme.next? stream.offset stream.rest with
  | none =>
      rw [found] at taken
      obtain ⟨rfl, rfl⟩ := by simpa using taken
      exact .inl ⟨rfl, rfl⟩
  | some cut =>
      rw [found] at taken
      dsimp only at taken
      cases read : cut.token? with
      | error detail => simp [read] at taken
      | ok value =>
          obtain ⟨kind, text⟩ := value
          rw [read] at taken
          obtain ⟨rfl, rfl⟩ := by simpa using taken
          exact .inr ⟨cut, rfl, read, rfl, rfl, rfl, rfl⟩

/-- A mark of one character that is the next token. -/
theorem next_mark (taken : stream.next = (.ok token, after)) {symbol : Mark} {c : Char}
    (isMark : token.kind = .mark symbol) (spelled : symbol.spelling.toList = [c]) :
    ∃ front, stream.rest = front ++ c :: after.rest ∧
      token.span.first = stream.offset + Text.byteSize front ∧
        after.offset = token.span.first + c.utf8Size := by
  rcases next_ok taken with ⟨-, ended⟩ | ⟨cut, found, whole, place, -, rest, stop⟩
  · rw [isMark] at ended
    cases ended
  · obtain ⟨front, first, tail, split, position, opens⟩ := exists_front_of_next? found
    have shape := ((Cut.token?_ok whole).2.2 symbol).mp isMark
    have written := spelling_of_scan (opens.shape.symm.trans shape)
    rw [spelled, ← opens.rest] at written
    obtain ⟨rfl, rfl⟩ := List.cons.inj written
    have text : cut.text = [first] := by
      have appended := opens.append
      exact List.append_cancel_right (appended.trans written)
    refine ⟨front, ?_, place.trans position, ?_⟩
    · rw [split, rest]
      rfl
    · rw [stop, Cut.stop, text, place]
      rfl

end TokenStream

end JavaDecl
