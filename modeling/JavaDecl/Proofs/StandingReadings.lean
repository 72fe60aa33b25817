import JavaDecl.Proofs.FirstTokens
import JavaDecl.Proofs.ParallelReading
import JavaDecl.Proofs.UnitReading

/-!
# Readings that stand at a text

A reading stands at some text at the end of its source: the tokens that are looked at and not
taken are the first ones of that text.  What a part of a reading finds there is told by the
first tokens of the texts alone, whatever the layout and the doc comments.

A strict statement about a part says that it does not fail.  One that is not strict says only
what is found if it does not.  Nothing is said of a reading whose budget is used up.
-/

namespace JavaDecl

/-! ### Places -/

/-- The line of a source on which a text at its end starts. -/
def lineOf (source text : List Char) : Nat :=
  1 + (source.count '\n' - text.count '\n')

theorem lineOf_append (before text : List Char) (inLine : before.count '\n' = 0) :
    lineOf (before ++ text) text = 1 := by
  rw [lineOf, List.count_append, inLine, Nat.zero_add, Nat.sub_self]

/-- The number of bytes of a source in front of a text at its end. -/
def offsetOf (source text : List Char) : Nat :=
  Text.byteSize source - Text.byteSize text

theorem offsetOf_append (before text : List Char) :
    offsetOf (before ++ text) text = Text.byteSize before := by
  rw [offsetOf, Text.byteSize_append, Nat.add_sub_cancel]

/-- A slice of a source is between the offsets of two texts at its end. -/
theorem slice?_offsetOf {source slice rest : List Char} (inside : slice ++ rest <:+ source) :
    Text.slice? source (offsetOf source (slice ++ rest)) (offsetOf source rest) = some slice := by
  obtain ⟨before, rfl⟩ := inside
  have middle := Text.slice?_middle before slice rest
  rw [offsetOf_append, ← List.append_assoc, offsetOf_append, Text.byteSize_append,
    List.append_assoc]
  exact middle

theorem offsetOf_eq_iff {source slice rest : List Char} (inside : slice ++ rest <:+ source) :
    offsetOf source rest = offsetOf source (slice ++ rest) ↔ slice = [] := by
  obtain ⟨before, rfl⟩ := inside
  rw [offsetOf_append, ← List.append_assoc, offsetOf_append, Text.byteSize_append]
  refine ⟨fun same => ?_, fun nothing => by rw [nothing, Text.byteSize_nil, Nat.add_zero]⟩
  cases slice with
  | nil => rfl
  | cons c slice =>
      have size := c.utf8Size_pos
      rw [Text.byteSize_cons] at same
      omega

/-- A token of a source that is the first one of a text at its end. -/
structure Token.IsHead (source : List Char) (head : Head) (token : Token) : Prop where
  kind : token.kind = head.kind
  text : token.text = head.text
  inside : head.slice ++ head.rest <:+ source
  line : token.line = lineOf source (head.slice ++ head.rest)
  first : token.span.first = offsetOf source (head.slice ++ head.rest)
  stop : token.span.stop = offsetOf source head.rest

/-- A token that covers the slice of the first one is that one. -/
theorem Token.Covers.isHead {source before : List Char} {head : Head} {token : Token}
    (covers : token.Covers source before head.slice) (kind : token.kind = head.kind)
    (text : token.text = head.text)
    (split : source = TokenStream.lead source ++ (before ++ (head.slice ++ head.rest))) :
    token.IsHead source head where
  kind := kind
  text := text
  inside := ⟨TokenStream.lead source ++ before, by rw [List.append_assoc, ← split]⟩
  line := by
    have line : token.line = (Location.after source before).line :=
      congrArg Location.line covers.place
    have count := congrArg (List.count '\n') split
    rw [List.count_append, List.count_append, TokenStream.count_lead] at count
    rw [line, Location.line_after, lineOf]
    omega
  first := by
    have size := congrArg Text.byteSize split
    simp only [Text.byteSize_append] at size
    rw [covers.first, offsetOf]
    simp only [Text.byteSize_append]
    omega
  stop := by
    have size := congrArg Text.byteSize split
    simp only [Text.byteSize_append] at size
    rw [covers.stop, covers.first, offsetOf]
    simp only [Text.byteSize_append]
    omega

theorem TokenStream.Located.suffix {source taken : List Char} {stream : TokenStream}
    (located : stream.Located source taken) : stream.rest <:+ source := by
  refine ⟨lead source ++ taken, ?_⟩
  rw [List.append_assoc]
  exact located.rest.symm

theorem TokenStream.Located.offset_eq {source taken : List Char} {stream : TokenStream}
    (located : stream.Located source taken) : stream.offset = offsetOf source stream.rest := by
  have size := congrArg Text.byteSize located.rest
  rw [located.offset, offsetOf, size]
  simp only [Text.byteSize_append]
  omega

/-! ### First tokens one after the other -/

/-- The first tokens of a text, and what is left behind them. -/
inductive Heads : List Char → List Head → List Char → Prop where
  | nil {text : List Char} : Heads text [] text
  | cons {text rest : List Char} {head : Head} {heads : List Head} :
      Head.of? text = some head → Heads head.rest heads rest → Heads text (head :: heads) rest

namespace Heads

variable {text mid rest other : List Char} {heads more others : List Head} {head : Head}

theorem single (found : Head.of? text = some head) : Heads text [head] head.rest :=
  .cons found .nil

theorem eq_of_nil (none : Heads text [] rest) : rest = text := by
  cases none
  rfl

theorem append (first : Heads text heads mid) (second : Heads mid more rest) :
    Heads text (heads ++ more) rest := by
  induction first with
  | nil => exact second
  | cons found _ ih => exact .cons found (ih second)

theorem split (chain : Heads text (heads ++ more) rest) :
    ∃ mid, Heads text heads mid ∧ Heads mid more rest := by
  induction heads generalizing text with
  | nil => exact ⟨text, .nil, chain⟩
  | cons head heads ih =>
      cases chain with
      | cons found chain =>
          obtain ⟨mid, first, second⟩ := ih chain
          exact ⟨mid, .cons found first, second⟩

/-- Of the first tokens of a text, some are the first of the others. -/
theorem total (one : Heads text heads rest) (two : Heads text others other) :
    (∃ more, others = heads ++ more ∧ Heads rest more other) ∨
      ∃ more, heads = others ++ more ∧ Heads other more rest := by
  induction one generalizing others with
  | nil => exact .inl ⟨others, rfl, two⟩
  | @cons text rest head heads found chain ih =>
      cases two with
      | nil => exact .inr ⟨head :: heads, rfl, .cons found chain⟩
      | @cons _ _ head' others' found' chain' =>
          obtain rfl := Option.some.inj (found.symm.trans found')
          rcases ih chain' with ⟨more, rfl, behind⟩ | ⟨more, rfl, behind⟩
          · exact .inl ⟨more, rfl, behind⟩
          · exact .inr ⟨more, rfl, behind⟩

theorem suffix (chain : Heads text heads rest) : rest <:+ text := by
  induction chain with
  | nil => exact List.suffix_refl _
  | cons found _ ih => exact ih.trans (Head.suffix_rest found)

end Heads

/-! ### Standing readings -/

/-- Only the last token that is looked at may open a block. -/
def Tidy (lookahead : List Token) : Prop :=
  ∀ token ∈ lookahead.dropLast, token.kind ≠ .mark .leftBrace

theorem Tidy.tail {lookahead : List Token} (tidy : Tidy lookahead) : Tidy lookahead.tail := by
  intro token member
  refine tidy token ?_
  cases lookahead with
  | nil => exact member
  | cons first rest =>
      cases rest with
      | nil => cases member
      | cons second rest => exact List.mem_cons_of_mem first member

/-- A reading stands at a text, with certain events announced besides doc comments. -/
structure Reading.Stands (strict : Prop) (source text : List Char) (said : List Event)
    (reading : Reading) : Prop where
  inside : text <:+ source
  located : ∃ taken, reading.stream.Located source taken
  ahead : ∃ heads, Heads text heads reading.stream.rest ∧
    List.Forall₂ (Token.IsHead source) heads reading.lookahead
  said : reading.events.toList.filter (!·.isComment) = said
  tidy : strict → Tidy reading.lookahead

/-- The outcome of a part of a reading. -/
def Reading.Reaches {α : Type} (strict : Prop) (source : List Char) (said : List Event)
    (post : α → List Char → List Event → Prop) : EStateM.Result ParseError Reading α → Prop
  | .ok value after =>
      ∃ rest told, post value rest told ∧ after.Stands strict source rest (said ++ told)
  | .error failure _ => failure.IsExhaustion ∨ ¬ strict

namespace ReadM

variable {α β : Type} {strict : Prop} {source text mid rest : List Char} {head next third : Head}
  {post post' : α → List Char → List Event → Prop} {last : β → List Char → List Event → Prop}
  {told more : List Event} {value : α} {result : β}

/-- What a part of a reading comes to where it stands at a text: its value, the text behind
what it takes, and its events besides doc comments. -/
def Leads (strict : Prop) (source : List Char) (part : ReadM α) (text : List Char)
    (post : α → List Char → List Event → Prop) : Prop :=
  ∀ (reading : Reading) (said : List Event), reading.Stands strict source text said →
    Reading.Reaches strict source said post (part reading)

/-- A part gives a value, announces some events and stops in front of a text. -/
abbrev Delivers (strict : Prop) (source : List Char) (part : ReadM α) (text : List Char) (value : α)
    (rest : List Char) (told : List Event) : Prop :=
  Leads strict source part text fun found behind events =>
    found = value ∧ behind = rest ∧ events = told

/-- What is known of the value of a part that announces nothing. -/
abbrev Meets (strict : Prop) (source : List Char) (part : ReadM α) (text : List Char)
    (found : α → Prop) (rest : List Char) : Prop :=
  Leads strict source part text fun value behind events =>
    found value ∧ behind = rest ∧ events = []

/-- The value of a part that announces nothing. -/
abbrev Reads (strict : Prop) (source : List Char) (part : ReadM α) (text : List Char) (value : α)
    (rest : List Char) : Prop :=
  Delivers strict source part text value rest []

namespace Leads

theorem mono {part : ReadM α} (leads : Leads strict source part text post)
    (implies : ∀ value rest told, post value rest told → post' value rest told) :
    Leads strict source part text post' := by
  intro reading said stands
  have ran := leads reading said stands
  cases outcome : part reading with
  | error failure after => rwa [outcome] at ran
  | ok value after =>
      rw [outcome] at ran
      obtain ⟨rest, told, holds, further⟩ := ran
      exact ⟨rest, told, implies value rest told holds, further⟩

theorem pure (holds : post value text []) : Leads strict source (Pure.pure value) text post :=
  fun _ said stands => ⟨text, [], holds, by rwa [List.append_nil]⟩

theorem bind {part : ReadM α} {next : α → ReadM β} (first : Leads strict source part text post)
    (second : ∀ value mid told, post value mid told →
      Leads strict source (next value) mid fun other rest more => last other rest (told ++ more)) :
    Leads strict source (part >>= next) text last := by
  intro reading said stands
  have ran := first reading said stands
  simp only [Bind.bind, EStateM.bind]
  cases outcome : part reading with
  | error failure after => rwa [outcome] at ran
  | ok value after =>
      rw [outcome] at ran
      obtain ⟨mid, told, holds, further⟩ := ran
      have rest := second value mid told holds after (said ++ told) further
      change Reading.Reaches strict source said last (next value after)
      cases ended : next value after with
      | error failure last => rwa [ended] at rest
      | ok value last =>
          rw [ended] at rest
          obtain ⟨rest, more, holds, further⟩ := rest
          exact ⟨rest, told ++ more, holds, by rwa [← List.append_assoc]⟩

/-- A part that announces nothing, and another. -/
theorem meet {part : ReadM α} {next : α → ReadM β} {found : α → Prop}
    (first : Meets strict source part text found mid)
    (second : ∀ value, found value → Leads strict source (next value) mid last) :
    Leads strict source (part >>= next) text last := by
  refine first.bind fun value behind told same => ?_
  obtain ⟨holds, rfl, rfl⟩ := same
  exact second value holds

theorem andThen {part : ReadM α} {next : α → ReadM β}
    (first : Reads strict source part text value mid)
    (second : Leads strict source (next value) mid last) :
    Leads strict source (part >>= next) text last :=
  first.meet fun _ same => same ▸ second

theorem append {part : ReadM α} {next : α → ReadM β}
    (first : Delivers strict source part text value mid told)
    (second : Delivers strict source (next value) mid result rest more) :
    Delivers strict source (part >>= next) text result rest (told ++ more) := by
  refine first.bind fun other behind events same => ?_
  obtain ⟨rfl, rfl, rfl⟩ := same
  exact second.mono fun _ _ _ ⟨is, left, also⟩ => ⟨is, left, also ▸ rfl⟩

theorem changed {part : ReadM α} (first : Delivers strict source part text value rest told)
    (change : α → β) :
    Delivers strict source (part >>= fun value => Pure.pure (change value)) text (change value)
      rest told := by
  have whole : Delivers strict source (part >>= fun value => Pure.pure (change value)) text
      (change value) rest (told ++ []) := first.append (.pure ⟨rfl, rfl, rfl⟩)
  rwa [List.append_nil] at whole

theorem within {part : ReadM α} (leads : text <:+ source → Leads strict source part text post) :
    Leads strict source part text post :=
  fun reading said stands => leads stands.inside reading said stands

theorem exhausted : Leads strict source ReadM.exhausted text post := fun _ _ _ => .inl ⟨_, rfl⟩

theorem yes {question : ReadM Bool} {held failed : ReadM α}
    (asked : Reads strict source question text true mid)
    (rest : Leads strict source held mid post) :
    Leads strict source (question >>= fun answer => if answer then held else failed) text post :=
  asked.andThen rest

theorem no {question : ReadM Bool} {held failed : ReadM α}
    (asked : Reads strict source question text false mid)
    (rest : Leads strict source failed mid post) :
    Leads strict source (question >>= fun answer => if answer then held else failed) text post :=
  asked.andThen rest

theorem both {one other : ReadM Bool} {answer : Bool}
    (first : Reads strict source one text true text)
    (second : Reads strict source other text answer rest) :
    Reads strict source (one <&&> other) text answer rest :=
  first.andThen second

theorem notBoth {one other : ReadM Bool} (first : Reads strict source one text false rest) :
    Reads strict source (one <&&> other) text false rest :=
  first.andThen (.pure ⟨rfl, rfl, rfl⟩)

/-- Both answers are no if the second one is. -/
theorem neither {one other : ReadM Bool} {answer : Bool}
    (first : Reads strict source one text answer text)
    (second : Reads strict source other text false text) :
    Reads strict source (one <&&> other) text false text := by
  cases answer with
  | true => exact first.both second
  | false => exact first.notBoth

theorem either {one other : ReadM Bool} {answer : Bool}
    (first : Reads strict source one text false text)
    (second : Reads strict source other text answer rest) :
    Reads strict source (one <||> other) text answer rest :=
  first.andThen second

theorem map {part : ReadM α} {change : α → β} (first : Reads strict source part text value rest)
    (same : change value = result) :
    Reads strict source (change <$> part) text result rest := by
  rw [map_eq_pure_bind]
  exact first.andThen (.pure ⟨same, rfl, rfl⟩)

end Leads

/-! ### Single tokens -/

/-- The next token that is not looked at yet is the first one of what is left. -/
theorem pull_of_head {reading : Reading} {taken : List Char}
    (located : reading.stream.Located source taken)
    (found : Head.of? reading.stream.rest = some head) :
    ∃ token stream events, Reading.pull reading = .ok token { reading with stream, events } ∧
      token.IsHead source head ∧ stream.rest = head.rest ∧
      (∃ taken, stream.Located source taken) ∧ events.toList.filter (!·.isComment) =
        reading.events.toList.filter (!·.isComment) := by
  generalize same : reading.stream.rest = text at found
  replace found := Head.comes_of_found found
  induction found generalizing reading taken with
  | atEnd none =>
      subst same
      obtain ⟨token, after, answer, kind, written, covers, left, later⟩ :=
        located.next_of_none (Lexeme.next?_none_of_start none _)
      refine ⟨token, after, reading.events, ?_, ?_, left, ⟨_, later⟩, rfl⟩
      · exact Reading.pull_of_token answer (by rw [kind]; decide)
      · refine covers.isHead kind written ?_
        simpa [Head.ended] using located.rest
  | @token text cut kind written first read notComment =>
      subst same
      obtain ⟨gap, after, split, -, left, later, answer⟩ :=
        located.next_of_some (Lexeme.next?_of_start first _)
      have same : ({ cut with first := reading.stream.offset + cut.first } : Lexeme.Cut).token? =
          .ok (kind, written) := read
      rw [same] at answer
      obtain ⟨token, answer, isKind, isText, covers⟩ := answer
      refine ⟨token, after, reading.events, ?_, ?_, left, ⟨_, later⟩, rfl⟩
      · exact Reading.pull_of_token answer (isKind ▸ notComment)
      · refine covers.isHead isKind isText ?_
        have whole := located.rest
        rw [split] at whole
        simpa using whole
  | @comment text cut written head first read _ ih =>
      subst same
      obtain ⟨gap, after, -, -, left, later, answer⟩ :=
        located.next_of_some (Lexeme.next?_of_start first _)
      have same : ({ cut with first := reading.stream.offset + cut.first } : Lexeme.Cut).token? =
          .ok (.docComment, written) := read
      rw [same] at answer
      obtain ⟨token, answer, isKind, -, -⟩ := answer
      let comment := DocComment.ofText token.text.toList token.line
      obtain ⟨token', stream, events, pulled, isHead, rest, further, quiet⟩ :=
        @ih ({ reading with stream := after }.announce comment.events) _ later left
      refine ⟨token', stream, events, ?_, isHead, rest, further, ?_⟩
      · rw [Reading.pull_of_comment answer isKind]
        exact pulled
      · have silent : comment.events.filter (!·.isComment) = [] := by
          rw [List.filter_eq_nil_iff]
          intro event member
          simpa using DocComment.isComment_of_mem_events member
        rw [quiet]
        simp [Reading.announce, silent]

/-- Nothing is taken if a fault comes before the first token. -/
theorem pull_of_fault {reading : Reading} {taken : List Char}
    (located : reading.stream.Located source taken)
    (none : Head.of? reading.stream.rest = none) :
    ∃ failure after, Reading.pull reading = .error failure after := by
  generalize same : reading.stream.rest = text at none
  fun_induction Head.of? text generalizing reading taken with
  | case1 => cases none
  | case2 text cut found detail read =>
      subst same
      obtain ⟨gap, after, -, -, -, -, answer⟩ :=
        located.next_of_some (Lexeme.next?_of_start found _)
      have same : ({ cut with first := reading.stream.offset + cut.first } : Lexeme.Cut).token? =
          .error detail := read
      rw [same] at answer
      exact ⟨_, _, Reading.pull_of_error answer⟩
  | case3 text cut found written read ih =>
      subst same
      obtain ⟨gap, after, -, -, left, later, answer⟩ :=
        located.next_of_some (Lexeme.next?_of_start found _)
      have same : ({ cut with first := reading.stream.offset + cut.first } : Lexeme.Cut).token? =
          .ok (.docComment, written) := read
      rw [same] at answer
      obtain ⟨token, answer, isKind, -, -⟩ := answer
      obtain ⟨failure, last, failed⟩ := @ih ({ reading with stream := after }.announce
        (DocComment.ofText token.text.toList token.line).events) _ later left none
      exact ⟨failure, last, by rw [Reading.pull_of_comment answer isKind, failed]⟩
  | case4 => cases none

theorem fill_of_heads {heads : List Head} {reading : Reading} {taken : List Char}
    (located : reading.stream.Located source taken)
    (chain : Heads reading.stream.rest heads rest) :
    ∃ tokens stream events, fill heads.length reading =
        .ok ⟨⟩ { stream, lookahead := reading.lookahead ++ tokens, events } ∧
      List.Forall₂ (Token.IsHead source) heads tokens ∧ stream.rest = rest ∧
      (∃ taken, stream.Located source taken) ∧ events.toList.filter (!·.isComment) =
        reading.events.toList.filter (!·.isComment) := by
  generalize same : reading.stream.rest = text at chain
  induction chain generalizing reading taken with
  | nil =>
      refine ⟨[], reading.stream, reading.events, ?_, .nil, same, ⟨taken, located⟩, rfl⟩
      rw [List.append_nil]
      rfl
  | @cons text rest head heads found chain ih =>
      subst same
      obtain ⟨token, stream, events, pulled, isHead, left, ⟨passed, later⟩, quiet⟩ :=
        pull_of_head located found
      obtain ⟨tokens, stream', events', filled, isHeads, rest, further, quiet'⟩ :=
        @ih { stream, lookahead := reading.lookahead ++ [token], events } passed later left
      refine ⟨token :: tokens, stream', events', ?_, .cons isHead isHeads, rest, further,
        quiet'.trans quiet⟩
      rw [List.length_cons, fill]
      simp only [Bind.bind, EStateM.bind, pulled]
      rw [List.append_assoc] at filled
      exact filled

theorem forall₂_concat {relation : Head → Token → Prop} {front : List Head} {tokens : List Token}
    (all : List.Forall₂ relation (front ++ [head]) tokens) :
    ∃ before token, tokens = before ++ [token] ∧ List.Forall₂ relation front before ∧
      relation head token := by
  induction front generalizing tokens with
  | nil =>
      obtain ⟨token, others, first, rest, rfl⟩ := List.forall₂_cons_left_iff.mp all
      obtain rfl := List.forall₂_nil_left_iff.mp rest
      exact ⟨[], token, rfl, .nil, first⟩
  | cons other front ih =>
      obtain ⟨token, others, first, rest, rfl⟩ := List.forall₂_cons_left_iff.mp all
      obtain ⟨before, last, rfl, isFront, isLast⟩ := ih rest
      exact ⟨token :: before, last, rfl, .cons first isFront, isLast⟩

/-- Tokens up to some one are looked at. -/
theorem peek_ahead {said : List Event} {reading : Reading} (front : List Head)
    (stands : reading.Stands strict source text said)
    (chain : Heads text (front ++ [head]) rest)
    (closed : strict → ∀ head ∈ front, head.kind ≠ .mark .leftBrace) :
    ∃ token after, peek front.length reading = .ok token after ∧ token.IsHead source head ∧
      after.lookahead[front.length]? = some token ∧ after.Stands strict source text said := by
  have got (reading : Reading) : (get : ReadM Reading) reading = .ok reading reading := rfl
  obtain ⟨taken, located⟩ := stands.located
  obtain ⟨heads, known, isHeads⟩ := stands.ahead
  have length := isHeads.length_eq
  have enough (more : List Head) (whole : heads = front ++ [head] ++ more) :
      ∃ token after, peek front.length reading = .ok token after ∧ token.IsHead source head ∧
        after.lookahead[front.length]? = some token ∧ after.Stands strict source text said := by
    have inside : front.length < reading.lookahead.length := by
      rw [← length, whole]
      simp
    have here : heads.get ⟨front.length, length ▸ inside⟩ = head := by simp [whole]
    refine ⟨reading.lookahead[front.length], reading, ?_, ?_, List.getElem?_eq_getElem inside,
      stands⟩
    · simp only [peek, Bind.bind, EStateM.bind, got, List.getElem?_eq_getElem inside]
      rfl
    · exact here ▸ isHeads.get (length ▸ inside) inside
  rcases known.total chain with ⟨more, whole, further⟩ | ⟨more, whole, -⟩
  · rcases List.eq_nil_or_concat more with rfl | ⟨more, lastHead, rfl⟩
    · exact enough [] (by rw [whole, List.append_nil, List.append_nil])
    · rw [List.concat_eq_append, ← List.append_assoc] at whole
      obtain ⟨rfl, same⟩ := List.append_inj' whole rfl
      obtain rfl : head = lastHead := by simpa using same
      obtain ⟨tokens, stream, events, filled, areMore, left, later, quiet⟩ :=
        fill_of_heads located further
      obtain ⟨before, token, rfl, areFront, isHead⟩ :=
        forall₂_concat (List.concat_eq_append ▸ areMore)
      have count := areFront.length_eq
      have unseen : reading.lookahead[(heads ++ more).length]? = none := by
        rw [List.getElem?_eq_none_iff, ← length, List.length_append]
        omega
      have here : (reading.lookahead ++ (before ++ [token]))[(heads ++ more).length]? =
          some token := by
        rw [← List.append_assoc, List.length_append, length, count, ← List.length_append]
        simp
      refine ⟨token, { stream, lookahead := reading.lookahead ++ (before ++ [token]), events },
        ?_, isHead, here, ?_⟩
      · have missing : (heads ++ more).length + 1 - reading.lookahead.length =
            (more.concat head).length := by
          rw [List.length_append, List.length_concat, length]
          omega
        simp only [peek, Bind.bind, EStateM.bind, got, unseen, missing, filled]
        rw [List.getD_eq_getElem?_getD, here]
        rfl
      · refine ⟨stands.inside, later, ⟨heads ++ (more ++ [head]), ?_, ?_⟩,
          quiet.trans stands.said, fun isStrict other member => ?_⟩
        · rw [left]
          exact known.append (List.concat_eq_append ▸ further)
        · exact List.rel_append isHeads (List.concat_eq_append ▸ areMore)
        · rw [← List.append_assoc, List.dropLast_concat] at member
          obtain ⟨place, inside, rfl⟩ := List.getElem_of_mem member
          have isFront : List.Forall₂ (Token.IsHead source) (heads ++ more)
              (reading.lookahead ++ before) := List.rel_append isHeads areFront
          have within : place < (heads ++ more).length := isFront.length_eq ▸ inside
          have same : Token.IsHead source (heads ++ more)[place]
              (reading.lookahead ++ before)[place] := isFront.get within inside
          rw [same.kind]
          exact closed isStrict _ (List.getElem_mem within)
  · exact enough more whole

section Looking

variable {kind : TokenKind} {answer : Bool}

theorem peek_leads (front : List Head) (chain : Heads text (front ++ [head]) rest)
    (closed : strict → ∀ head ∈ front, head.kind ≠ .mark .leftBrace) :
    Meets strict source (peek front.length) text (Token.IsHead source head) text := by
  intro reading said stands
  obtain ⟨token, after, peeked, isHead, -, further⟩ := peek_ahead front stands chain closed
  rw [peeked]
  exact ⟨text, [], ⟨isHead, rfl, rfl⟩, by rwa [List.append_nil]⟩

theorem kindAt_reads (front : List Head) (chain : Heads text (front ++ [head]) rest)
    (closed : strict → ∀ head ∈ front, head.kind ≠ .mark .leftBrace) :
    Reads strict source (kindAt front.length) text head.kind text :=
  (peek_leads front chain closed).meet fun _ isHead => .pure ⟨isHead.kind, rfl, rfl⟩

theorem peek_first (found : Head.of? text = some head) :
    Meets strict source (peek 0) text (Token.IsHead source head) text :=
  peek_leads [] (.single found) (by simp)

theorem kindAt_first (found : Head.of? text = some head) :
    Reads strict source (kindAt 0) text head.kind text :=
  kindAt_reads [] (.single found) (by simp)

theorem kindAt_second (found : Head.of? text = some head)
    (further : Head.of? head.rest = some next) (closed : head.kind ≠ .mark .leftBrace) :
    Reads strict source (kindAt 1) text next.kind text :=
  kindAt_reads [head] (.cons found (.single further)) (by simpa using fun _ => closed)

theorem isNext_reads (found : Head.of? text = some head) (is : (head.kind == kind) = answer) :
    Reads strict source (isNext kind) text answer text :=
  (kindAt_first found).andThen (.pure ⟨is, rfl, rfl⟩)

theorem isSecond_reads (found : Head.of? text = some head)
    (further : Head.of? head.rest = some next) (closed : head.kind ≠ .mark .leftBrace)
    (is : (next.kind == kind) = answer) : Reads strict source (isAt 1 kind) text answer text :=
  (kindAt_second found further closed).andThen (.pure ⟨is, rfl, rfl⟩)

theorem isWordAt_reads {word : String} (front : List Head)
    (chain : Heads text (front ++ [head]) rest)
    (closed : strict → ∀ head ∈ front, head.kind ≠ .mark .leftBrace)
    (is : (head.kind == .identifier && head.text == word) = answer) :
    Reads strict source (isWordAt front.length word) text answer text :=
  (peek_leads front chain closed).meet fun _ isHead =>
    .pure ⟨by rw [isHead.kind, isHead.text, is], rfl, rfl⟩

theorem nextLine_reads (found : Head.of? text = some head) :
    Reads strict source nextLine text (lineOf source (head.slice ++ head.rest)) text :=
  (peek_first found).meet fun _ isHead => .pure ⟨isHead.line, rfl, rfl⟩

end Looking

section Taking

variable {kind : TokenKind}

/-- A token is taken from those that are looked at. -/
theorem take_ahead {said : List Event} {reading : Reading}
    (stands : reading.Stands strict source text said) (found : Head.of? text = some head) :
    ∃ (token : Token) (after seen : Reading), take reading = .ok token after ∧
      token.IsHead source head ∧ after.Stands strict source head.rest said ∧
      seen.Stands strict source text said ∧ seen.lookahead = token :: after.lookahead := by
  obtain ⟨token, seen, peeked, isHead, here, further⟩ :=
    peek_ahead [] stands (.single found) (by simp)
  obtain ⟨others, first⟩ := List.head?_eq_some_iff.mp (List.head?_eq_getElem? ▸ here)
  refine ⟨token, { seen with lookahead := others }, seen, ?_, isHead, ⟨?_, further.located, ?_,
    further.said, fun isStrict => ?_⟩, further, first⟩
  · simp only [take, Bind.bind, EStateM.bind, show peek 0 reading = _ from peeked]
    rw [show others = seen.lookahead.tail by rw [first]; rfl]
    rfl
  · exact (Head.suffix_rest found).trans further.inside
  · obtain ⟨heads, known, areHeads⟩ := further.ahead
    rw [first] at areHeads
    obtain ⟨first, heads, -, rest, rfl⟩ := List.forall₂_cons_right_iff.mp areHeads
    cases known with
    | cons found' known =>
        obtain rfl := Option.some.inj (found.symm.trans found')
        exact ⟨heads, known, rest⟩
  · have tidy := (further.tidy isStrict).tail
    rwa [first] at tidy

theorem take_leads (found : Head.of? text = some head) :
    Meets strict source take text (Token.IsHead source head) head.rest := by
  intro reading said stands
  obtain ⟨token, after, -, taken, isHead, further, -⟩ := take_ahead stands found
  rw [taken]
  exact ⟨head.rest, [], ⟨isHead, rfl, rfl⟩, by rwa [List.append_nil]⟩

theorem takeMany_leads {heads : List Head} (chain : Heads text heads rest) :
    Meets strict source (takeMany heads.length) text
      (List.Forall₂ (Token.IsHead source) heads) rest := by
  induction chain with
  | nil => exact .pure ⟨.nil, rfl, rfl⟩
  | cons found _ ih =>
      exact (take_leads found).meet fun token isHead => ih.meet fun tokens areHeads =>
        .pure ⟨.cons isHead areHeads, rfl, rfl⟩

theorem accept_takes_head (found : Head.of? text = some head) (same : head.kind = kind) :
    Reads strict source (accept kind) text true head.rest :=
  .yes (isNext_reads found (by simp [same]))
    ((take_leads found).meet fun _ _ => .pure ⟨rfl, rfl, rfl⟩)

theorem accept_leaves_head (found : Head.of? text = some head) (other : head.kind ≠ kind) :
    Reads strict source (accept kind) text false text :=
  .no (isNext_reads found (by simpa using other)) (.pure ⟨rfl, rfl, rfl⟩)

theorem expect_leads {expected : String} (found : Head.of? text = some head)
    (same : head.kind = kind) :
    Meets strict source (expect kind expected) text (Token.IsHead source head) head.rest :=
  .yes (isNext_reads found (by simp [same])) (take_leads found)

theorem identifier_reads (found : Head.of? text = some head) (isName : head.kind = .identifier) :
    Reads strict source identifier text head.text head.rest :=
  (expect_leads found isName).meet fun _ isHead => .pure ⟨isHead.text, rfl, rfl⟩

end Taking

/-! ### Parts that fail -/

theorem Leads.ofError {part : ReadM α}
    (failed : ∀ (reading : Reading) (said : List Event), reading.Stands False source text said →
      ∃ failure after, part reading = .error failure after) :
    Leads False source part text post := by
  intro reading said stands
  obtain ⟨failure, after, outcome⟩ := failed reading said stands
  rw [outcome]
  exact .inr not_false

theorem Leads.fault {failure : ParseError} : Leads False source (throw failure) text post :=
  .ofError fun reading _ _ => ⟨failure, reading, rfl⟩

theorem Leads.failing {part : ReadM α} {next : α → ReadM β}
    (first : Leads False source part text fun _ _ _ => False) :
    Leads False source (part >>= next) text last :=
  first.bind fun _ _ _ never => never.elim

theorem peek_fails {post : Token → List Char → List Event → Prop}
    (none : Head.of? text = none) : Leads False source (peek 0) text post := by
  refine .ofError fun reading said stands => ?_
  obtain ⟨heads, known, isHeads⟩ := stands.ahead
  cases known with
  | cons found _ => simp [none] at found
  | nil =>
      obtain ⟨taken, located⟩ := stands.located
      have nothing := List.forall₂_nil_left_iff.mp isHeads
      obtain ⟨failure, after, failed⟩ := pull_of_fault located none
      have got : (get : ReadM Reading) reading = .ok reading reading := rfl
      refine ⟨failure, after, ?_⟩
      simp only [peek, Bind.bind, EStateM.bind, got, nothing, List.getElem?_nil,
        List.length_nil, fill, failed]

theorem kindAt_fails {post : TokenKind → List Char → List Event → Prop}
    (none : Head.of? text = none) : Leads False source (kindAt 0) text post :=
  .failing (peek_fails none)

theorem isNext_fails {kind : TokenKind} {post : Bool → List Char → List Event → Prop}
    (none : Head.of? text = none) : Leads False source (isNext kind) text post :=
  .failing (kindAt_fails none)

theorem refuse_fails {expected : String} :
    Leads False source (refuse expected : ReadM α) text post := by
  cases found : Head.of? text with
  | none => exact .failing (peek_fails found)
  | some head =>
      refine (peek_first found).meet fun token _ => ?_
      split
      · exact .fault
      · exact .fault

/-- A token is taken if it is the first one. -/
theorem accept_finds (kind : TokenKind) :
    Leads False source (accept kind) text fun answer rest told => told = [] ∧
      ∃ head, Head.of? text = some head ∧ (answer = true ∧ head.kind = kind ∧ rest = head.rest ∨
        answer = false ∧ head.kind ≠ kind ∧ rest = text) := by
  cases found : Head.of? text with
  | none => exact .failing (isNext_fails found)
  | some head =>
      by_cases same : head.kind = kind
      · exact (accept_takes_head found same).mono fun _ _ _ ⟨is, left, quiet⟩ =>
          ⟨quiet, head, rfl, .inl ⟨is, same, left⟩⟩
      · exact (accept_leaves_head found same).mono fun _ _ _ ⟨is, left, quiet⟩ =>
          ⟨quiet, head, rfl, .inr ⟨is, same, left⟩⟩

theorem expect_finds_head (kind : TokenKind) (expected : String) :
    Leads False source (expect kind expected) text fun token rest told => told = [] ∧
      ∃ head, Head.of? text = some head ∧ head.kind = kind ∧ token.IsHead source head ∧
        rest = head.rest := by
  cases found : Head.of? text with
  | none => exact .failing (isNext_fails found)
  | some head =>
      by_cases same : head.kind = kind
      · exact (expect_leads found same).mono fun _ _ _ ⟨isHead, left, quiet⟩ =>
          ⟨quiet, head, rfl, same, isHead, left⟩
      · exact .no (isNext_reads found (by simpa using same)) refuse_fails

theorem identifier_finds :
    Leads False source identifier text fun name rest told => told = [] ∧
      ∃ head, Head.of? text = some head ∧ head.kind = .identifier ∧ head.text = name ∧
        rest = head.rest := by
  refine (expect_finds_head .identifier _).bind fun token rest told ⟨quiet, head, known⟩ => ?_
  obtain ⟨found, isName, isHead, left⟩ := known
  subst quiet
  exact .pure ⟨rfl, head, found, isName, isHead.text.symm, left⟩

/-! ### Events -/

theorem emit_delivers {event : Event} (content : event.isComment = false) :
    Delivers strict source (emit event) text ⟨⟩ text [event] := by
  intro reading said stands
  refine ⟨text, [event], ⟨rfl, rfl, rfl⟩, stands.inside, stands.located, stands.ahead, ?_,
    stands.tidy⟩
  simp [stands.said, content]

theorem emitAnnotations_delivers (uses : List (AnnotationUse TypeExpr)) :
    Delivers strict source (emitAnnotations uses) text ⟨⟩ text (annotating uses) := by
  induction uses with
  | nil => exact .pure ⟨rfl, rfl, rfl⟩
  | cons use uses ih => exact Leads.append (emit_delivers rfl) ih

/-! ### Repetition -/

theorem many_ends {part : ReadM (Option α)} {budget : Nat}
    (nothing : Reads strict source part text none text) :
    Reads strict source (many part budget) text [] text := by
  cases budget with
  | zero => exact .exhausted
  | succ budget => exact nothing.andThen (.pure ⟨rfl, rfl, rfl⟩)

theorem many_goesOn {part : ReadM (Option α)} {budget : Nat} {values : List α}
    (first : Delivers strict source part text (some value) mid told)
    (others : ∀ budget, Delivers strict source (many part budget) mid values rest more) :
    Delivers strict source (many part budget) text (value :: values) rest (told ++ more) := by
  cases budget with
  | zero => exact .exhausted
  | succ budget =>
      exact Leads.append first ((others budget).changed (value :: ·))

section Lists

variable {part : ReadM α} {budget : Nat} {values : List α} {symbol closing : Mark}

/-- The last part is the one that no mark comes behind. -/
theorem separatedBy_last (one : Reads strict source part text value rest)
    (found : Head.of? rest = some head) (other : head.kind ≠ .mark symbol) :
    Reads strict source (separatedBy symbol part budget) text [value] rest := by
  cases budget with
  | zero => exact .exhausted
  | succ budget =>
      exact one.andThen (.no (accept_leaves_head found other) (.pure ⟨rfl, rfl, rfl⟩))

theorem separatedBy_more (one : Reads strict source part text value mid)
    (found : Head.of? mid = some head) (same : head.kind = .mark symbol)
    (others : ∀ budget,
      Reads strict source (separatedBy symbol part budget) head.rest values rest) :
    Reads strict source (separatedBy symbol part budget) text (value :: values) rest := by
  cases budget with
  | zero => exact .exhausted
  | succ budget =>
      exact one.andThen (.yes (accept_takes_head found same) ((others budget).changed (value :: ·)))

/-- There are no parts in front of the closing mark. -/
theorem listUntil_none (found : Head.of? text = some head) (closes : head.kind = .mark closing) :
    Reads strict source (listUntil closing part budget) text [] text := by
  cases budget with
  | zero => exact .exhausted
  | succ budget => exact .yes (isNext_reads found (by simp [closes])) (.pure ⟨rfl, rfl, rfl⟩)

theorem listUntil_last (found : Head.of? text = some head) (isOpen : head.kind ≠ .mark closing)
    (one : Reads strict source part text value rest) (further : Head.of? rest = some next)
    (noComma : next.kind ≠ .mark .comma) :
    Reads strict source (listUntil closing part budget) text [value] rest := by
  cases budget with
  | zero => exact .exhausted
  | succ budget =>
      exact .no (isNext_reads found (by simpa using isOpen))
        (one.andThen (.no (accept_leaves_head further noComma) (.pure ⟨rfl, rfl, rfl⟩)))

theorem listUntil_more (found : Head.of? text = some head) (isOpen : head.kind ≠ .mark closing)
    (one : Reads strict source part text value mid) (further : Head.of? mid = some next)
    (comma : next.kind = .mark .comma)
    (others : ∀ budget, Reads strict source (listUntil closing part budget) next.rest values rest) :
    Reads strict source (listUntil closing part budget) text (value :: values) rest := by
  cases budget with
  | zero => exact .exhausted
  | succ budget =>
      exact .no (isNext_reads found (by simpa using isOpen)) (one.andThen
        (.yes (accept_takes_head further comma) ((others budget).changed (value :: ·))))

end Lists

end ReadM

/-! ### Sources -/

theorem Reading.stands_ofSource (source : List Char) :
    (Reading.ofSource source).Stands strict source (TokenStream.ofSource source).rest [] where
  inside := by
    have whole := (TokenStream.Located.ofSource source).rest
    exact ⟨TokenStream.lead source, by simpa using whole.symm⟩
  located := ⟨[], .ofSource source⟩
  ahead := ⟨[], .nil, .nil⟩
  said := rfl
  tidy _ := by simp [Tidy, Reading.ofSource]

/-- A source whose unit is read without a fault. -/
theorem readUnit_of_delivers {source rest : List Char} {told : List Event}
    (delivers : ∀ budget, ReadM.Delivers True source (ReadM.compilationUnit budget)
      (TokenStream.ofSource source).rest ⟨⟩ rest told) :
    (readUnit source).2 = none ∧ (readUnit source).1.filter (!·.isComment) = told := by
  have ran := delivers (readingBudget source) _ _ (Reading.stands_ofSource source)
  cases ended : ReadM.compilationUnit (readingBudget source) (.ofSource source) with
  | ok value after =>
      rw [ended] at ran
      obtain ⟨_, _, ⟨-, -, rfl⟩, stands⟩ := ran
      rw [readUnit_of_ok ended]
      exact ⟨rfl, stands.said⟩
  | error failure after =>
      rw [ended] at ran
      exact absurd (ran.resolve_right (not_not_intro trivial)) (not_isExhaustion_of_error ended)

end JavaDecl
