import JavaDecl.Proofs.Announcement
import JavaDecl.Proofs.TakenText

/-!
# Reading tokens ends

Looking at tokens and taking them announces only comments.  A token that is taken
brings the end of the source nearer, and a repetition whose rounds take tokens is
done before its budget is used up.
-/

namespace JavaDecl

theorem ParseError.not_isExhaustion_of_ne {detail : String} {place : Location}
    (other : detail ≠ "nesting too deep") :
    ¬ (ParseError.invalidSyntax detail place).IsExhaustion := by
  rintro ⟨_, equal⟩
  exact other (ParseError.invalidSyntax.inj equal).1

theorem ParseError.not_isExhaustion_of_token {expected found : String} {place : Location} :
    ¬ (ParseError.unexpectedToken expected found place).IsExhaustion := by
  rintro ⟨_, equal⟩
  cases equal

theorem ParseError.not_isExhaustion_of_end {expected : String} {place : Location} :
    ¬ (ParseError.unexpectedEnd expected place).IsExhaustion := by
  rintro ⟨_, equal⟩
  cases equal

theorem ParseError.not_isExhaustion_of_lexical {detail : String} {place : Location} :
    ¬ (ParseError.lexical detail place).IsExhaustion := by
  rintro ⟨_, equal⟩
  cases equal

namespace TokenStream

theorem length_rest_next_le (stream : TokenStream) :
    stream.next.2.rest.length ≤ stream.rest.length := by
  obtain ⟨front, split, -⟩ := stream.next_takes
  rw [split, List.length_append]
  exact Nat.le_add_left _ _

theorem next_error_not_isExhaustion {stream after : TokenStream} {failure : ParseError}
    (failed : stream.next = (.error failure, after)) : ¬ failure.IsExhaustion := by
  unfold next at failed
  split at failed
  · simp at failed
  · dsimp only at failed
    split at failed
    · simp at failed
    · obtain ⟨rfl, -⟩ := by simpa using failed
      exact ParseError.not_isExhaustion_of_lexical

theorem length_rest_takeBlock_le (stream : TokenStream) :
    stream.takeBlock.2.rest.length ≤ stream.rest.length := by
  obtain ⟨front, split, -⟩ := stream.takeBlock_takes
  rw [split, List.length_append]
  exact Nat.le_add_left _ _

theorem takeBlock_error_not_isExhaustion {stream after : TokenStream} {failure : ParseError}
    (failed : stream.takeBlock = (.error failure, after)) : ¬ failure.IsExhaustion := by
  unfold takeBlock at failed
  split at failed
  · simp at failed
  · obtain ⟨rfl, -⟩ := by simpa using failed
    exact ParseError.not_isExhaustion_of_lexical
  · obtain ⟨rfl, -⟩ := by simpa using failed
    exact ParseError.not_isExhaustion_of_end

end TokenStream

theorem DocComment.isComment_of_mem_events {comment : DocComment} {event : Event}
    (member : event ∈ comment.events) : event.isComment := by
  unfold DocComment.events at member
  rcases List.mem_cons.mp member with rfl | inTags
  · rfl
  · obtain ⟨tag, -, rfl⟩ := List.mem_map.mp inTags
    rfl

namespace ReadM

open Reading

variable {language : EventLanguage} {before : Reading}

/-! ### Single tokens -/

/-- A stream that has moved on changes nothing but what is left. -/
theorem follows_of_stream {stream : TokenStream}
    (shorter : stream.rest.length ≤ before.stream.rest.length) :
    before.Follows language.Holds { before with stream } :=
  ⟨⟨[], by simp, language.nothing⟩, by simpa [Reading.size] using shorter⟩

theorem pull_announces (language : EventLanguage) (before : Reading) :
    Announces language.Holds Reading.pull before fun token after =>
      after.lookahead = before.lookahead ∧
        (token.kind ≠ .endOfInput → after.size < before.size) := by
  unfold Announces
  fun_induction Reading.pull before with
  | case1 reading failure stream failed =>
      have shorter := reading.stream.length_rest_next_le
      rw [failed] at shorter
      exact ⟨.ofFollows (follows_of_stream shorter),
        TokenStream.next_error_not_isExhaustion failed⟩
  | case2 reading token stream taken isDocument comment ih =>
      have shorter := reading.stream.length_rest_next_le
      rw [taken] at shorter
      have document : reading.Follows language.Holds
          ({ reading with stream }.announce comment.events) :=
        ⟨⟨comment.events, by simp [announce],
          language.ofComments fun _ => DocComment.isComment_of_mem_events⟩,
          by simpa [announce, Reading.size] using shorter⟩
      split at ih
      · next value after _ =>
          refine ⟨document.trans ih.1, ih.2.1, fun inside => ?_⟩
          exact Nat.lt_of_lt_of_le (ih.2.2 inside) document.size_le
      · exact ⟨document.breaksOff ih.1, ih.2⟩
  | case3 reading token stream taken notDocument =>
      have shorter := reading.stream.length_rest_next_le
      rw [taken] at shorter
      refine ⟨follows_of_stream shorter, rfl, fun inside => ?_⟩
      have := TokenStream.length_rest_next_lt taken inside
      simpa [Reading.size] using this

/-- A token that has been pulled is counted again once it is looked at. -/
theorem size_look (reading : Reading) (token : Token) :
    { reading with lookahead := reading.lookahead ++ [token] }.size =
      reading.size + if token.kind = .endOfInput then 0 else 1 := by
  by_cases ended : token.kind = .endOfInput <;>
    simp [Reading.size, List.countP_append, ended, Nat.add_assoc]

theorem fill_announces (language : EventLanguage) (count : Nat) (before : Reading) :
    Announces language.Holds (fill count) before fun _ after =>
      before.LooksOn after ∧ after.lookahead.length = before.lookahead.length + count := by
  induction count generalizing before with
  | zero => exact .pure ⟨.refl before, rfl⟩
  | succ count ih =>
      refine .bindUpdate (pull_announces language before) ?_ ?_
      · intro token between follows pulled
        refine ⟨follows.told, ?_⟩
        rw [size_look]
        split
        · exact follows.size_le
        · next inside => exact pulled.2 inside
      · intro token between _ pulled
        apply Announces.weaken (ih _)
        intro _ after _ looked
        constructor
        · exact .trans ⟨[token], by simp [pulled.1]⟩ looked.1
        · simp [looked.2, pulled.1, Nat.add_assoc, Nat.add_comm 1]

/-- The token that is asked for is looked at afterwards. -/
theorem peek_announces (language : EventLanguage) (skipped : Nat) (before : Reading) :
    Announces language.Holds (peek skipped) before fun token after =>
      before.LooksOn after ∧ after.lookahead[skipped]? = some token := by
  apply Announces.get
  split
  · next token found => exact .pure ⟨.refl before, found⟩
  · next unknown =>
      refine .get (.bind (fill_announces language _ before) fun _ between _ looked => ?_)
      refine .get (.pure ⟨looked.1, ?_⟩)
      have few := List.getElem?_eq_none_iff.mp unknown
      have enough : skipped < between.lookahead.length := by omega
      simp [enough]

theorem kindAt_announces (language : EventLanguage) (skipped : Nat) (before : Reading) :
    Announces language.Holds (kindAt skipped) before fun kind after =>
      before.LooksOn after ∧ after.kindAt? skipped = some kind := by
  apply Announces.bind (peek_announces language skipped before)
  intro token after _ looked
  exact .pure ⟨looked.1, by simp [kindAt?, looked.2]⟩

theorem isAt_announces (language : EventLanguage) (skipped : Nat) (kind : TokenKind)
    (before : Reading) :
    Announces language.Holds (isAt skipped kind) before fun here after =>
      before.LooksOn after ∧ (here → after.kindAt? skipped = some kind) := by
  apply Announces.bind (kindAt_announces language skipped before)
  intro other after _ looked
  refine .pure ⟨looked.1, fun same => ?_⟩
  rw [looked.2, eq_of_beq same]

theorem isNext_announces (language : EventLanguage) (kind : TokenKind) (before : Reading) :
    Announces language.Holds (isNext kind) before fun here after =>
      before.LooksOn after ∧ (here → after.kindAt? 0 = some kind) :=
  isAt_announces language 0 kind before

theorem isMark_announces (language : EventLanguage) (symbol : Mark) (before : Reading) :
    Announces language.Holds (isMark symbol) before fun here after =>
      before.LooksOn after ∧ (here → after.kindAt? 0 = some (.mark symbol)) :=
  isNext_announces language (.mark symbol) before

theorem isWordAt_announces (language : EventLanguage) (skipped : Nat) (word : String)
    (before : Reading) :
    Announces language.Holds (isWordAt skipped word) before fun here after =>
      before.LooksOn after ∧ (here → after.kindAt? skipped = some .identifier) := by
  apply Announces.bind (peek_announces language skipped before)
  intro token after _ looked
  refine .pure ⟨looked.1, fun here => ?_⟩
  simp only [Bool.and_eq_true, beq_iff_eq] at here
  simp [kindAt?, looked.2, here.1]

theorem nextLine_announces (language : EventLanguage) (before : Reading) :
    Announces language.Holds nextLine before fun _ after => before.LooksOn after :=
  .bind (peek_announces language 0 before) fun _ _ _ looked => .pure looked.1

theorem follows_drop (language : EventLanguage) (reading : Reading) :
    reading.Follows language.Holds { reading with lookahead := reading.lookahead.tail } := by
  refine ⟨⟨[], by simp, language.nothing⟩, Nat.add_le_add_left ?_ _⟩
  exact (List.tail_sublist _).countP_le

theorem size_drop_lt {reading : Reading} (inside : reading.IsInside) :
    { reading with lookahead := reading.lookahead.tail }.size < reading.size := by
  obtain ⟨kind, seen, other⟩ := inside
  cases ahead : reading.lookahead with
  | nil => simp [kindAt?, ahead] at seen
  | cons token rest =>
      have same : token.kind = kind := by simpa [kindAt?, ahead] using seen
      simp [Reading.size, ahead, same, other]

/-- Taking a token that is not the end of the source leaves fewer. -/
theorem take_announces (language : EventLanguage) (before : Reading) :
    Announces language.Holds take before fun _ after =>
      before.IsInside → after.size < before.size := by
  apply Announces.bind (peek_announces language 0 before)
  intro token between follows looked
  refine .update (follows_drop language between) (.pure fun inside => ?_)
  exact Nat.lt_of_lt_of_le (size_drop_lt (looked.1.isInside inside)) follows.size_le

theorem takeMany_announces (language : EventLanguage) (count : Nat) (before : Reading) :
    Announces language.Holds (takeMany count) before fun _ after =>
      before.IsInside → 0 < count → after.size < before.size := by
  induction count generalizing before with
  | zero => exact .pure fun _ positive => absurd positive (Nat.lt_irrefl 0)
  | succ count ih =>
      apply Announces.bind (take_announces language before)
      intro token between _ taken
      refine .bind (ih between) fun tokens after more _ => .pure fun inside _ => ?_
      exact Nat.lt_of_le_of_lt more.size_le (taken inside)

theorem accept_announces (language : EventLanguage) {kind : TokenKind}
    (inside : kind ≠ .endOfInput) (before : Reading) :
    Announces language.Holds (accept kind) before fun taken after =>
      taken → after.size < before.size := by
  apply Announces.bind (isNext_announces language kind before)
  intro here between follows looked
  cases here with
  | false => exact .pure (by simp)
  | true =>
      refine .bind (take_announces language between) fun _ after _ taken => .pure fun _ => ?_
      have smaller := taken (isInside_of_kindAt? (looked.2 rfl) inside)
      exact Nat.lt_of_lt_of_le smaller follows.size_le

theorem acceptMark_announces (language : EventLanguage) (symbol : Mark) (before : Reading) :
    Announces language.Holds (acceptMark symbol) before fun taken after =>
      taken → after.size < before.size :=
  accept_announces language (by simp) before

theorem acceptKeyword_announces (language : EventLanguage) (word : Keyword) (before : Reading) :
    Announces language.Holds (acceptKeyword word) before fun taken after =>
      taken → after.size < before.size :=
  accept_announces language (by simp) before

theorem refuse_announces {α : Type} (language : EventLanguage) (expected : String)
    (before : Reading) (post : α → Reading → Prop) :
    Announces language.Holds (refuse expected) before post := by
  apply Announces.bind (peek_announces language 0 before)
  intro token between _ _
  split
  · exact .fault ParseError.not_isExhaustion_of_end
  · exact .fault ParseError.not_isExhaustion_of_token

theorem expect_announces (language : EventLanguage) {kind : TokenKind}
    (inside : kind ≠ .endOfInput) (expected : String) (before : Reading) :
    Announces language.Holds (expect kind expected) before fun _ after =>
      after.size < before.size := by
  apply Announces.bind (isNext_announces language kind before)
  intro here between follows looked
  cases here with
  | false => exact refuse_announces language expected between _
  | true =>
      apply Announces.weaken (take_announces language between)
      intro _ after _ taken
      have smaller := taken (isInside_of_kindAt? (looked.2 rfl) inside)
      exact Nat.lt_of_lt_of_le smaller follows.size_le

theorem expectMark_announces (language : EventLanguage) (symbol : Mark) (expected : String)
    (before : Reading) :
    Announces language.Holds (expectMark symbol expected) before fun _ after =>
      after.size < before.size :=
  expect_announces language (by simp) expected before

theorem expectWord_announces (language : EventLanguage) (word : String) (before : Reading) :
    Announces language.Holds (expectWord word) before fun _ after =>
      after.size < before.size := by
  apply Announces.bind (isWordAt_announces language 0 word before)
  intro here between follows looked
  cases here with
  | false => exact refuse_announces language _ between _
  | true =>
      apply Announces.weaken (take_announces language between)
      intro _ after _ taken
      have smaller := taken (isInside_of_kindAt? (looked.2 rfl) (by simp))
      exact Nat.lt_of_lt_of_le smaller follows.size_le

theorem identifier_announces (language : EventLanguage) (before : Reading) :
    Announces language.Holds identifier before fun _ after => after.size < before.size :=
  .bind (expect_announces language (by simp) _ before) fun _ _ _ taken => .pure taken

theorem emit_announces {event : Event} (holds : language.Holds [event]) (before : Reading) :
    Announces language.Holds (emit event) before fun _ _ => True :=
  ⟨⟨⟨[event], by simp, holds⟩, Nat.le_refl _⟩, trivial⟩

/-! ### Repetition -/

/-- A part whose rounds take tokens is repeated no more often than there are tokens. -/
theorem many_announces {α : Type} {part : ReadM (Option α)} {budget : Nat}
    (round : ∀ start : Reading, start.size ≤ before.size →
      Announces language.Holds part start fun found after =>
        found.isSome → after.size < start.size)
    (enough : before.size < budget) :
    Announces language.Holds (many part budget) before fun _ _ => True := by
  induction budget generalizing before with
  | zero => omega
  | succ budget ih =>
      apply Announces.bind (round before (Nat.le_refl _))
      intro found between follows shrinks
      cases found with
      | none => exact .pure trivial
      | some value =>
          have smaller := shrinks rfl
          refine .bind (ih (fun start small => ?_) (by omega)) fun _ _ _ _ => .pure trivial
          exact round start (by omega)

/-- What holds after a round of a repetition: of the next value, or of the result. -/
def AfterRound {σ α : Type} (goesOn : σ → Reading → Prop) (ends : α → Reading → Prop) :
    σ ⊕ α → Reading → Prop
  | .inl next, after => goesOn next after
  | .inr result, after => ends result after

/-- A part is repeated no more often than a rank of its value and the state tells, if
every round lowers the rank. -/
theorem iterate_announces {σ α : Type} {part : σ → ReadM (σ ⊕ α)} {budget : Nat} {value : σ}
    {post : α → Reading → Prop} (invariant : σ → Reading → Prop) (rank : σ → Reading → Nat)
    (round : ∀ (value : σ) (start : Reading), start.size ≤ before.size → invariant value start →
      Announces language.Holds (part value) start
        (AfterRound (fun next after => invariant next after ∧ rank next after < rank value start)
          post))
    (holds : invariant value before) (enough : rank value before < budget) :
    Announces language.Holds (iterate part budget value) before post := by
  induction budget generalizing before value with
  | zero => omega
  | succ budget ih =>
      apply Announces.bind (round value before (Nat.le_refl _) holds)
      intro outcome between follows ran
      cases outcome with
      | inr result => exact .pure ran
      | inl next =>
          refine ih (fun value start small => ?_) ran.1 (by have := ran.2; omega)
          exact round value start (Nat.le_trans small follows.size_le)

/-- Every mark between two parts is a token that is taken. -/
theorem separatedBy_announces {α : Type} {symbol : Mark} {part : ReadM α} {budget : Nat}
    (round : ∀ start : Reading, start.size ≤ before.size →
      Announces language.Holds part start fun _ _ => True)
    (enough : before.size < budget) :
    Announces language.Holds (separatedBy symbol part budget) before fun _ _ => True := by
  induction budget generalizing before with
  | zero => omega
  | succ budget ih =>
      apply Announces.bind (round before (Nat.le_refl _))
      intro value between follows _
      apply Announces.bind (acceptMark_announces language symbol between)
      intro more after further taken
      have small := follows.size_le
      cases more with
      | false => exact .pure trivial
      | true =>
          have smaller := taken rfl
          refine .bind (ih (fun start bound => ?_) (by omega)) fun _ _ _ _ => .pure trivial
          exact round start (by omega)

theorem listUntil_announces {α : Type} {closing : Mark} {part : ReadM α} {budget : Nat}
    (round : ∀ start : Reading, start.size ≤ before.size →
      Announces language.Holds part start fun _ _ => True)
    (enough : before.size < budget) :
    Announces language.Holds (listUntil closing part budget) before fun _ _ => True := by
  induction budget generalizing before with
  | zero => omega
  | succ budget ih =>
      apply Announces.bind (isMark_announces language closing before)
      intro ends start look _
      have bound := look.size_le
      cases ends with
      | true => exact .pure trivial
      | false =>
          apply Announces.bind (round start bound)
          intro value between follows _
          apply Announces.bind (acceptMark_announces language .comma between)
          intro more after _ taken
          have small := follows.size_le
          cases more with
          | false => exact .pure trivial
          | true =>
              have smaller := taken rfl
              refine .bind (ih (fun start bound => ?_) (by omega)) fun _ _ _ _ => .pure trivial
              exact round start (by omega)

/-! ### Names and blocks -/

theorem qualifiedName_announces (language : EventLanguage) {budget : Nat} {before : Reading}
    (enough : before.size ≤ budget) :
    Announces language.Holds (qualifiedName budget) before fun _ after =>
      after.size < before.size := by
  apply Announces.bind (identifier_announces language before)
  intro first between _ taken
  refine .bind (many_announces (fun start _ => ?_) (by omega)) fun more after follows _ =>
    .pure (Nat.lt_of_le_of_lt follows.size_le taken)
  refine .bind (.both (isMark_announces language .dot start)
    fun mid => (isAt_announces language 1 .identifier mid).forget) fun continues mid follows _ => ?_
  cases continues with
  | false => exact .pure (by simp)
  | true =>
      apply Announces.bind (take_announces language mid)
      intro _ next further _
      refine .bind (identifier_announces language next) fun _ after _ named => .pure fun _ => ?_
      have := follows.size_le
      have := further.size_le
      omega

theorem blockText_announces (language : EventLanguage) (before : Reading) :
    Announces language.Holds blockText before fun _ after => after.size < before.size := by
  refine .bind (expectMark_announces language .leftBrace _ before) fun opening between _ opened =>
    .get ?_
  split
  · have shorter := between.stream.length_rest_takeBlock_le
    cases cut : between.stream.takeBlock with
    | mk result stream =>
        rw [cut] at shorter
        have follows : between.Follows language.Holds { between with stream } :=
          follows_of_stream shorter
        apply Announces.replace follows
        cases result with
        | ok block => exact .pure (Nat.lt_of_le_of_lt follows.size_le opened)
        | error failure => exact .fault (TokenStream.takeBlock_error_not_isExhaustion cut)
  · exact .fault (ParseError.not_isExhaustion_of_ne (by decide))

end ReadM

end JavaDecl
