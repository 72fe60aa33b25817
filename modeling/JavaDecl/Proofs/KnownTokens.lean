import JavaDecl.Proofs.OpeningTokens
import JavaDecl.Proofs.ParallelReading
import JavaDecl.Proofs.TiledSources

/-!
# Reading known tokens

What a part of a reading finds is told by the tokens that are ahead.  The sources are of one
line, without doc comments, and nothing is said of a reading whose budget is used up.
-/

namespace JavaDecl

/-- A token on the first line, without its column. -/
structure Token.Shows (token : Token) (sign : Sign) : Prop where
  kind : token.kind = sign.kind
  text : token.text = sign.text
  line : token.line = 1

/-- What is told of a token that is ahead: its kind and text at least, and what else follows from
the tokens behind it and the source. -/
class TokenView (ι : Type) where
  sign : ι → Sign
  Shows : List Char → Token → ι → List ι → Prop
  shows_sign {source : List Char} {token : Token} {item : ι} {later : List ι} :
    Shows source token item later → token.Shows (sign item)

instance : TokenView Sign where
  sign := id
  Shows _ token sign _ := token.Shows sign
  shows_sign := id

@[simp] theorem TokenView.sign_eq (sign : Sign) : TokenView.sign sign = sign := rfl

inductive TokenView.ShowAll {ι : Type} [TokenView ι] (source : List Char) :
    List Token → List ι → Prop where
  | nil : ShowAll source [] []
  | cons {token : Token} {tokens : List Token} {item : ι} {items : List ι} :
      Shows source token item items → ShowAll source tokens items →
        ShowAll source (token :: tokens) (item :: items)

namespace TokenView

variable {ι : Type} [TokenView ι] {source : List Char} {tokens : List Token} {token : Token}
  {item : ι} {items later : List ι}

theorem ShowAll.length_eq (shown : ShowAll source tokens items) :
    tokens.length = items.length := by
  induction shown with
  | nil => rfl
  | cons _ _ ih => rw [List.length_cons, List.length_cons, ih]

theorem ShowAll.get (shown : ShowAll source tokens items) {place : Nat}
    (seen : tokens[place]? = some token) (here : items[place]? = some item) :
    Shows source token item (items.drop (place + 1)) := by
  induction shown generalizing place with
  | nil => cases seen
  | cons shows _ ih =>
      cases place with
      | zero =>
          cases seen
          cases here
          exact shows
      | succ place => exact ih seen here

/-- A token is as it is told to be, in some source. -/
def Shown (token : Token) (item : ι) (later : List ι) : Prop :=
  ∃ source, Shows source token item later

theorem Shown.sign (shown : Shown token item later) : token.Shows (TokenView.sign item) := by
  obtain ⟨source, shows⟩ := shown
  exact shows_sign shows

end TokenView

/-- The tokens that a stream gives one after the other, none of which is a doc comment. -/
inductive TokenStream.Comes : TokenStream → List Token → Prop where
  | nil (stream : TokenStream) : Comes stream []
  | cons {stream after : TokenStream} {token : Token} {tokens : List Token} :
      stream.next = (.ok token, after) → token.kind ≠ .docComment → Comes after tokens →
        Comes stream (token :: tokens)

/-- The next tokens of a reading, those that are looked at first. -/
structure Reading.Faces {ι : Type} [TokenView ι] (reading : Reading) (items : List ι) : Prop where
  ahead : ∃ tokens, TokenView.ShowAll reading.stream.source (reading.lookahead ++ tokens) items ∧
    reading.stream.Comes tokens

theorem TokenStream.source_next (stream : TokenStream) : stream.next.2.source = stream.source := by
  unfold TokenStream.next
  split
  · rfl
  · dsimp only
    split <;> rfl

/-- What a part finds and announces, and the tokens it leaves. -/
def Reading.Finds {ι α : Type} [TokenView ι] (before : Reading) (found : α → Prop)
    (told : List Event) (left : List ι) : EStateM.Result ParseError Reading α → Prop
  | .ok value after =>
      found value ∧ after.Faces left ∧ after.events.toList = before.events.toList ++ told
  | .error failure _ => failure.IsExhaustion

namespace ReadM

variable {ι α β : Type} [TokenView ι] {signs mid left : List ι} {item : ι} {found : α → Prop}
  {result : β → Prop} {told more : List Event}

open TokenView

/-- What a part finds if certain tokens are ahead. -/
def Finds (part : ReadM α) (signs : List ι) (found : α → Prop) (told : List Event)
    (left : List ι) : Prop :=
  ∀ before : Reading, before.Faces signs → before.Finds found told left (part before)

/-- The value that a part gives without announcing anything. -/
abbrev Gives (part : ReadM α) (signs : List ι) (value : α) (left : List ι) : Prop :=
  Finds part signs (· = value) [] left

namespace Finds

theorem pure {value : α} (holds : found value) : Finds (Pure.pure value) signs found [] signs :=
  fun _ faces => ⟨holds, faces, (List.append_nil _).symm⟩

theorem mono {part : ReadM α} {weaker : α → Prop} (finds : Finds part signs found told left)
    (implies : ∀ value, found value → weaker value) : Finds part signs weaker told left := by
  intro before faces
  have ran := finds before faces
  cases outcome : part before with
  | error failure after =>
      rw [outcome] at ran
      exact ran
  | ok value after =>
      rw [outcome] at ran
      exact ⟨implies value ran.1, ran.2⟩

theorem exhausted : Finds ReadM.exhausted signs found told left := fun _ _ => ⟨_, rfl⟩

theorem append {part : ReadM α} {next : α → ReadM β} (first : Finds part signs found told mid)
    (second : ∀ value, found value → Finds (next value) mid result more left) :
    Finds (part >>= next) signs result (told ++ more) left := by
  intro before faces
  have ran := first before faces
  simp only [Bind.bind, EStateM.bind]
  cases outcome : part before with
  | error failure after =>
      rw [outcome] at ran
      exact ran
  | ok value after =>
      rw [outcome] at ran
      obtain ⟨holds, further, events⟩ := ran
      have rest := second value holds after further
      change before.Finds result (told ++ more) left (next value after)
      cases ended : next value after with
      | error failure last =>
          rw [ended] at rest
          exact rest
      | ok value last =>
          rw [ended] at rest
          obtain ⟨holds, further, others⟩ := rest
          exact ⟨holds, further, by rw [others, events, List.append_assoc]⟩

theorem bind {part : ReadM α} {next : α → ReadM β} (first : Finds part signs found [] mid)
    (second : ∀ value, found value → Finds (next value) mid result told left) :
    Finds (part >>= next) signs result told left :=
  append first second

theorem andThen {part : ReadM α} {next : α → ReadM β} {value : α}
    (first : Gives part signs value mid) (second : Finds (next value) mid result told left) :
    Finds (part >>= next) signs result told left := by
  refine first.bind fun other same => ?_
  subst same
  exact second

theorem changed {part : ReadM α} {change : α → β} (finds : Finds part signs found told left)
    (holds : ∀ value, found value → result (change value)) :
    Finds (part >>= fun value => Pure.pure (change value)) signs result told left := by
  have whole := finds.append fun value isFound => Finds.pure (holds value isFound)
  rwa [List.append_nil] at whole

theorem map {part : ReadM α} {change : α → β} {value : α} {other : β}
    (first : Gives part signs value left) (same : change value = other) :
    Gives (change <$> part) signs other left := by
  rw [map_eq_pure_bind]
  exact first.andThen (.pure same)

theorem yes {question : ReadM Bool} {held failed : ReadM α} (asked : Gives question signs true mid)
    (rest : Finds held mid found told left) :
    Finds (question >>= fun answer => if answer then held else failed) signs found told left :=
  asked.andThen rest

theorem no {question : ReadM Bool} {held failed : ReadM α}
    (asked : Gives question signs false mid) (rest : Finds failed mid found told left) :
    Finds (question >>= fun answer => if answer then held else failed) signs found told left :=
  asked.andThen rest

theorem both {one other : ReadM Bool} {answer : Bool} (first : Gives one signs true signs)
    (second : Gives other signs answer signs) : Gives (one <&&> other) signs answer signs :=
  first.andThen second

theorem notBoth {one other : ReadM Bool} (first : Gives one signs false signs) :
    Gives (one <&&> other) signs false signs :=
  first.andThen (.pure rfl)

end Finds

/-- The tokens start with one that is of none of some kinds. -/
def Lacks (kinds : List TokenKind) (signs : List ι) : Prop :=
  ∃ item rest, signs = item :: rest ∧ (sign item).kind ∉ kinds

theorem Lacks.cons {kinds : List TokenKind} {rest : List ι} (other : (sign item).kind ∉ kinds) :
    Lacks kinds (item :: rest) :=
  ⟨item, rest, rfl, other⟩

theorem Lacks.mono {kinds fewer : List TokenKind} (lacks : Lacks kinds signs)
    (sub : fewer ⊆ kinds) : Lacks fewer signs := by
  obtain ⟨item, rest, rfl, other⟩ := lacks
  exact .cons fun member => other (sub member)

/-! ### Single tokens -/

theorem pull_of_comes {before : Reading} {token : Token} {tokens : List Token}
    (comes : before.stream.Comes (token :: tokens)) :
    ∃ stream, Reading.pull before = .ok token { before with stream } ∧ stream.Comes tokens ∧
      stream.source = before.stream.source := by
  cases comes with
  | cons taken notComment rest =>
      have same := before.stream.source_next
      rw [taken] at same
      exact ⟨_, Reading.pull_of_token taken notComment, rest, same⟩

theorem fill_finds (count : Nat) (before : Reading) (faces : before.Faces signs)
    (known : before.lookahead.length + count ≤ signs.length) :
    ∃ after, fill count before = .ok ⟨⟩ after ∧ after.Faces signs ∧
      after.events = before.events := by
  induction count generalizing before with
  | zero => exact ⟨before, rfl, faces, rfl⟩
  | succ count ih =>
      obtain ⟨tokens, shown, comes⟩ := faces.ahead
      have length := shown.length_eq
      cases tokens with
      | nil =>
          rw [List.append_nil] at length
          omega
      | cons token tokens =>
          obtain ⟨stream, pulled, comes, same⟩ := pull_of_comes comes
          let between : Reading :=
            { before with stream, lookahead := before.lookahead ++ [token] }
          have further : between.Faces signs := by
            refine ⟨tokens, ?_, comes⟩
            rw [List.append_assoc, List.singleton_append, same]
            exact shown
          obtain ⟨after, filled, faces, events⟩ := ih between further (by
            simp only [between, List.length_append, List.length_singleton]
            omega)
          refine ⟨after, ?_, faces, events⟩
          rw [fill]
          simp only [Bind.bind, EStateM.bind, pulled]
          exact filled

theorem peek_ok {skipped : Nat} {before : Reading} (faces : before.Faces signs)
    (here : signs[skipped]? = some item) :
    ∃ token after, peek skipped before = .ok token after ∧ after.Faces signs ∧
      after.events = before.events ∧ after.lookahead[skipped]? = some token := by
  have got (reading : Reading) : (get : ReadM Reading) reading = .ok reading reading := rfl
  cases seen : before.lookahead[skipped]? with
  | some token =>
      refine ⟨token, before, ?_, faces, rfl, seen⟩
      simp only [peek, Bind.bind, EStateM.bind, got, seen]
      rfl
  | none =>
      have few := List.getElem?_eq_none_iff.mp seen
      obtain ⟨inside, -⟩ := List.getElem?_eq_some_iff.mp here
      obtain ⟨after, filled, further, events⟩ :=
        fill_finds (skipped + 1 - before.lookahead.length) before faces (by omega)
      have enough : skipped < after.lookahead.length := by
        rw [length_of_fill filled]
        omega
      have seen' : after.lookahead[skipped]? = some (after.lookahead.getD skipped default) := by
        simp [enough]
      refine ⟨_, after, ?_, further, events, seen'⟩
      simp only [peek, Bind.bind, EStateM.bind, got, seen, filled]
      rfl

theorem shown_of_faces {skipped : Nat} {reading : Reading} {token : Token}
    (faces : reading.Faces signs) (seen : reading.lookahead[skipped]? = some token)
    (here : signs[skipped]? = some item) : Shown token item (signs.drop (skipped + 1)) := by
  obtain ⟨tokens, shown, -⟩ := faces.ahead
  obtain ⟨inside, -⟩ := List.getElem?_eq_some_iff.mp seen
  exact ⟨_, shown.get (by rwa [List.getElem?_append_left inside]) here⟩

theorem peek_shown (skipped : Nat) (here : signs[skipped]? = some item) :
    Finds (peek skipped) signs (Shown · item (signs.drop (skipped + 1))) [] signs := by
  intro before faces
  obtain ⟨token, after, peeked, further, events, seen⟩ := peek_ok faces here
  rw [peeked]
  exact ⟨shown_of_faces further seen here, further, by rw [events, List.append_nil]⟩

theorem peek_finds (skipped : Nat) (here : signs[skipped]? = some item) :
    Finds (peek skipped) signs (·.Shows (sign item)) [] signs :=
  (peek_shown skipped here).mono fun _ => Shown.sign

section Looking

variable {skipped : Nat} {answer : Bool}

theorem kindAt_gives (here : signs[skipped]? = some item) :
    Gives (kindAt skipped) signs (sign item).kind signs :=
  (peek_finds skipped here).bind fun _ shows => .pure shows.kind

theorem isAt_gives {kind : TokenKind} (here : signs[skipped]? = some item)
    (is : ((sign item).kind == kind) = answer) : Gives (isAt skipped kind) signs answer signs :=
  (kindAt_gives here).andThen (.pure is)

theorem isWordAt_gives {word : String} (here : signs[skipped]? = some item)
    (is : ((sign item).kind == .identifier && (sign item).text == word) = answer) :
    Gives (isWordAt skipped word) signs answer signs := by
  refine (peek_finds skipped here).bind fun token shows => .pure ?_
  rw [shows.kind, shows.text, is]

end Looking

section Taking

variable {rest : List ι} {kind : TokenKind}

theorem isNext_gives {answer : Bool} (is : ((sign item).kind == kind) = answer) :
    Gives (isNext kind) (item :: rest) answer (item :: rest) :=
  isAt_gives rfl is

theorem isNext_no (lacks : Lacks [kind] signs) : Gives (isNext kind) signs false signs := by
  obtain ⟨item, rest, rfl, other⟩ := lacks
  exact isNext_gives (by simpa using other)

theorem nextLine_gives : Gives nextLine (item :: rest) 1 (item :: rest) :=
  (peek_finds 0 rfl).bind fun _ shows => .pure shows.line

theorem take_shown : Finds take (item :: rest) (Shown · item rest) [] rest := by
  intro before faces
  have here : (item :: rest)[0]? = some item := rfl
  obtain ⟨token, after, peeked, further, events, seen⟩ := peek_ok faces here
  have taken : take before = .ok token { after with lookahead := after.lookahead.tail } := by
    simp only [take, Bind.bind, EStateM.bind, peeked]
    rfl
  have shown := shown_of_faces further seen here
  obtain ⟨tokens, all, comes⟩ := further.ahead
  rw [taken]
  refine ⟨shown, ⟨tokens, ?_, comes⟩, by rw [events, List.append_nil]⟩
  obtain ⟨others, first⟩ := List.head?_eq_some_iff.mp (List.head?_eq_getElem? ▸ seen)
  rw [first] at all ⊢
  cases all with
  | cons _ all => exact all

theorem take_finds : Finds take (item :: rest) (·.Shows (sign item)) [] rest :=
  take_shown.mono fun _ => Shown.sign

theorem takeMany_finds (front rest : List ι) :
    Finds (takeMany front.length) (front ++ rest)
      (List.Forall₂ (fun token item => token.Shows (sign item)) · front) [] rest := by
  induction front with
  | nil => exact .pure .nil
  | cons item front ih =>
      exact take_finds.bind fun _ first => ih.bind fun _ others => .pure (.cons first others)

theorem accept_takes (same : (sign item).kind = kind) :
    Gives (accept kind) (item :: rest) true rest :=
  (isNext_gives (by simp [same])).yes (take_finds.bind fun _ _ => .pure rfl)

theorem accept_leaves (lacks : Lacks [kind] signs) : Gives (accept kind) signs false signs :=
  (isNext_no lacks).no (.pure rfl)

theorem expect_finds {expected : String} (same : (sign item).kind = kind) :
    Finds (expect kind expected) (item :: rest) (·.Shows (sign item)) [] rest :=
  (isNext_gives (by simp [same])).yes take_finds

theorem identifier_gives (isName : (sign item).kind = .identifier) :
    Gives identifier (item :: rest) (sign item).text rest :=
  (expect_finds isName).bind fun _ shows => .pure shows.text

end Taking

/-! ### Events -/

theorem emit_finds (event : Event) : Finds (emit event) signs (· = ⟨⟩) [event] signs := by
  rintro before ⟨ahead⟩
  exact ⟨rfl, ⟨ahead⟩, by simp⟩

theorem Finds.say {event : Event} {next : PUnit → ReadM α}
    (rest : Finds (next ⟨⟩) signs found told left) :
    Finds (emit event >>= next) signs found (event :: told) left :=
  (emit_finds event).append fun _ _ => rest

theorem emitAnnotations_nil : Gives (emitAnnotations []) signs ⟨⟩ signs := .pure rfl

/-! ### Repetition -/

theorem many_gives_nil {part : ReadM (Option α)} {budget : Nat}
    (nothing : Gives part signs none signs) : Gives (many part budget) signs [] signs := by
  cases budget with
  | zero => exact .exhausted
  | succ budget => exact nothing.andThen (.pure rfl)

theorem many_gives_cons {part : ReadM (Option α)} {budget : Nat} {value : α} {values : List α}
    (first : Gives part signs (some value) mid)
    (others : ∀ budget, Gives (many part budget) mid values left) :
    Gives (many part budget) signs (value :: values) left := by
  cases budget with
  | zero => exact .exhausted
  | succ budget =>
      exact first.andThen ((others budget).andThen (.pure rfl))

section Lists

variable {γ : Type} {part : ReadM α} {write : γ → List ι} {mean : γ → α} {ends : List ι → Prop}
  {values : List γ} {comma : ι} {rest : List ι} {budget : Nat}

/-- Parts with a mark between them, each of which ends before the mark and before what comes
behind the last one. -/
theorem separatedBy_gives {symbol : Mark} (isComma : (sign comma).kind = .mark symbol)
    (goesOn : ∀ value ∈ values, ∀ behind, ends (comma :: (write value ++ behind)))
    (each : ∀ value ∈ values, ∀ behind, ends behind →
      Gives part (write value ++ behind) (mean value) behind)
    (last : ends rest) (lacks : Lacks [.mark symbol] rest) (some : values ≠ []) :
    Gives (separatedBy symbol part budget) ([comma].intercalate (values.map write) ++ rest)
      (values.map mean) rest := by
  induction values generalizing budget with
  | nil => exact absurd rfl some
  | cons value values ih =>
      cases budget with
      | zero => exact .exhausted
      | succ budget =>
          have first := each value (by simp)
          cases values with
          | nil =>
              rw [List.map_singleton, List.intercalate_singleton]
              exact (first rest last).andThen (Finds.no (accept_leaves lacks) (.pure rfl))
          | cons next values =>
              have others : Gives (separatedBy symbol part budget)
                  ([comma].intercalate ((next :: values).map write) ++ rest)
                  ((next :: values).map mean) rest :=
                ih (fun other member => goesOn other (List.mem_cons_of_mem value member))
                  (fun other member => each other (List.mem_cons_of_mem value member)) (by simp)
              rw [List.map_cons, List.map_cons, List.intercalate_cons_cons, List.append_assoc,
                List.append_assoc]
              have behind : ends (comma :: ([comma].intercalate ((next :: values).map write) ++
                  rest)) := by
                cases values with
                | nil => simpa using goesOn next (by simp) rest
                | cons => simpa using goesOn next (by simp) _
              refine (first _ behind).andThen (Finds.yes (accept_takes isComma) ?_)
              exact others.andThen (.pure rfl)

/-- Parts with commas between them up to a closing mark, and perhaps a comma behind the last
one. -/
theorem listUntil_gives {closing : Mark} {final : ι} {trailing : List ι}
    (isComma : (sign comma).kind = .mark .comma)
    (goesOn : ∀ item ∈ comma :: trailing, ∀ behind, behind ≠ [] → ends (item :: behind))
    (opens : ∀ value ∈ values, ∀ behind, Lacks [.mark closing] (write value ++ behind))
    (each : ∀ value ∈ values, ∀ behind, ends behind →
      Gives part (write value ++ behind) (mean value) behind)
    (last : ends (final :: rest)) (isClosing : (sign final).kind = .mark closing)
    (other : closing ≠ .comma)
    (afterLast : trailing = [] ∨
      values ≠ [] ∧ ∃ item, trailing = [item] ∧ (sign item).kind = .mark .comma) :
    Gives (listUntil closing part budget)
      ([comma].intercalate (values.map write) ++ (trailing ++ final :: rest)) (values.map mean)
      (final :: rest) := by
  have closed (budget : Nat) : Gives (listUntil closing part budget) (final :: rest) []
      (final :: rest) := by
    cases budget with
    | zero => exact .exhausted
    | succ budget => exact Finds.yes (isNext_gives (by simp [isClosing])) (.pure rfl)
  induction values generalizing budget with
  | nil =>
      obtain rfl : trailing = [] := afterLast.resolve_right fun some => some.1 rfl
      exact closed budget
  | cons value values ih =>
      cases budget with
      | zero => exact .exhausted
      | succ budget =>
          have first := each value (by simp)
          have starts := opens value (by simp)
          cases values with
          | nil =>
              rw [List.map_singleton, List.intercalate_singleton]
              refine Finds.no (isNext_no (starts _)) ?_
              rcases afterLast with rfl | ⟨-, item, rfl, isTrailing⟩
              · refine (first _ last).andThen (Finds.no (accept_leaves ?_) (.pure rfl))
                exact .cons (by simp [isClosing, other])
              · refine (first _ (goesOn item (by simp) _ (by simp))).andThen ?_
                exact Finds.yes (accept_takes isTrailing) ((closed budget).andThen (.pure rfl))
          | cons next values =>
              have others : Gives (listUntil closing part budget)
                  ([comma].intercalate ((next :: values).map write) ++ (trailing ++ final :: rest))
                  ((next :: values).map mean) (final :: rest) :=
                ih (fun value member => opens value (List.mem_cons_of_mem _ member))
                  (fun value member => each value (List.mem_cons_of_mem _ member))
                  (afterLast.imp_right fun some => ⟨by simp, some.2⟩)
              rw [List.map_cons, List.map_cons, List.intercalate_cons_cons, List.append_assoc,
                List.append_assoc]
              refine Finds.no (isNext_no (starts _)) ?_
              refine (first _ (goesOn comma (by simp) _ (by simp))).andThen ?_
              exact Finds.yes (accept_takes isComma) (others.andThen (.pure rfl))

end Lists

end ReadM

/-! ### Tokens of texts -/

/-- A token within a source of one line is on the first line. -/
theorem Token.Covers.line_of_oneLine {source taken slice rest : List Char} {token : Token}
    (covers : token.Covers source taken slice) (oneLine : '\n' ∉ source)
    (split : source = TokenStream.lead source ++ (taken ++ rest)) : token.line = 1 := by
  have inTaken : '\n' ∉ taken := by
    intro newline
    rw [split] at oneLine
    exact oneLine (List.mem_append_right _ (List.mem_append_left _ newline))
  have line : token.line = (Location.after source taken).line :=
    congrArg Location.line covers.place
  rw [line, Location.line_after, List.count_eq_zero_of_not_mem inTaken]

/-- A stream within one line gives the tokens that the text it has left opens with. -/
theorem OpensWith.comes {stream : TokenStream} {source taken : List Char} {signs : List Sign}
    (oneLine : '\n' ∉ source) (located : stream.Located source taken)
    (opens : OpensWith stream.rest signs) :
    ∃ tokens, TokenView.ShowAll source tokens signs ∧ stream.Comes tokens := by
  induction signs generalizing stream taken with
  | nil => exact ⟨[], .nil, .nil stream⟩
  | cons sign signs ih =>
      have whole {passed rest : List Char} (split : stream.rest = passed ++ rest) :
          source = TokenStream.lead source ++ (taken ++ passed ++ rest) := by
        rw [List.append_assoc, ← split]
        exact located.rest
      rcases opens.next? stream.offset with ⟨none, rfl, rfl⟩ | ⟨cut, found, read, other, rest⟩
      · obtain ⟨token, after, answer, kind, text, covers, -, -⟩ := located.next_of_none none
        have notComment : token.kind ≠ .docComment := by
          rw [kind]
          decide
        have line := covers.line_of_oneLine oneLine (whole (List.append_nil _).symm)
        exact ⟨[token], .cons ⟨kind, text, line⟩ .nil, .cons answer notComment (.nil after)⟩
      · obtain ⟨gap, after, split, -, left, later, answer⟩ := located.next_of_some found
        rw [read] at answer
        obtain ⟨token, answer, kind, text, covers⟩ := answer
        obtain ⟨tokens, shown, comes⟩ := ih later (left ▸ rest)
        have line := covers.line_of_oneLine oneLine (whole split)
        exact ⟨token :: tokens, .cons ⟨kind, text, line⟩ shown,
          .cons answer (kind ▸ other) comes⟩

end JavaDecl
