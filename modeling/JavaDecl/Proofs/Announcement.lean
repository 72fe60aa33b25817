import JavaDecl.Grammar.Reading
import JavaDecl.Proofs.Nesting

/-!
# What a reading announces

`Announces` says of a part of the reading, begun in some state, which events it
announces, that it leaves no more to be read than there was, and that it does not
run out of budget.  A part that ends with a fault has announced the front of such
events.

The statements about parts of a reading hold for every language of events that has
all comments and is closed under concatenation.  So a part that announces nothing
but comments needs one statement only, wherever it is used.
-/

namespace JavaDecl

/-- A reading has ended since its budget was used up. -/
def ParseError.IsExhaustion (failure : ParseError) : Prop :=
  ∃ place, failure = .invalidSyntax "nesting too deep" place

/-- Sequences of events that have all comments and are closed under concatenation. -/
structure EventLanguage where
  Holds : List Event → Prop
  /-- Two sequences of the language, one after the other. -/
  concat : ∀ {front back : List Event}, Holds front → Holds back → Holds (front ++ back)
  /-- Sequences of comments belong to every language. -/
  ofComments : ∀ {events : List Event}, (∀ event ∈ events, event.isComment) → Holds events

namespace EventLanguage

theorem nothing (language : EventLanguage) : language.Holds [] :=
  language.ofComments (by simp)

/-- Sequences whose events all pass a test that comments pass. -/
def ofTest (test : Event → Prop) (passed : ∀ event : Event, event.isComment → test event) :
    EventLanguage where
  Holds events := ∀ event ∈ events, test event
  concat front back event member :=
    (List.mem_append.mp member).elim (front event) (back event)
  ofComments comments event member := passed event (comments event member)

def comments : EventLanguage :=
  ofTest (fun event => event.isComment) fun _ isComment => isComment

def directives : EventLanguage :=
  ofTest (fun event => event.isDirective ∨ event.isComment) fun _ => .inr

/-- Sequences that nest in a surrounding. -/
def nested (surrounding : Surrounding) : EventLanguage where
  Holds := Nested surrounding
  concat := .append
  ofComments := .ofComments

end EventLanguage

namespace Reading

/-- A bound on the number of tokens that can still be taken. -/
def size (reading : Reading) : Nat :=
  reading.stream.rest.length + reading.lookahead.countP fun token => token.kind != .endOfInput

def kindAt? (reading : Reading) (skipped : Nat) : Option TokenKind :=
  reading.lookahead[skipped]?.map Token.kind

/-- The next token is looked at and is not the end of the source. -/
def IsInside (reading : Reading) : Prop :=
  ∃ kind, reading.kindAt? 0 = some kind ∧ kind ≠ .endOfInput

/-- More tokens are looked at than before. -/
def LooksOn (before after : Reading) : Prop :=
  before.lookahead <+: after.lookahead

@[simp] theorem LooksOn.refl (reading : Reading) : reading.LooksOn reading :=
  List.prefix_rfl

theorem LooksOn.trans {first second third : Reading} (one : first.LooksOn second)
    (other : second.LooksOn third) : first.LooksOn third :=
  List.IsPrefix.trans one other

theorem LooksOn.kindAt? {before after : Reading} (looks : before.LooksOn after)
    {skipped : Nat} {kind : TokenKind} (seen : before.kindAt? skipped = some kind) :
    after.kindAt? skipped = some kind := by
  obtain ⟨token, found, same⟩ := Option.map_eq_some_iff.mp seen
  obtain ⟨more, equal⟩ := looks
  have inside : skipped < before.lookahead.length := (List.getElem?_eq_some_iff.mp found).1
  simp [Reading.kindAt?, ← equal, List.getElem?_append_left inside, found, same]

theorem LooksOn.isInside {before after : Reading} (looks : before.LooksOn after)
    (inside : before.IsInside) : after.IsInside := by
  obtain ⟨kind, seen, other⟩ := inside
  exact ⟨kind, looks.kindAt? seen, other⟩

theorem isInside_of_kindAt? {reading : Reading} {kind : TokenKind}
    (seen : reading.kindAt? 0 = some kind) (other : kind ≠ .endOfInput) : reading.IsInside :=
  ⟨kind, seen, other⟩

/-- One state follows another after events of a language and no growth. -/
structure Follows (holds : List Event → Prop) (before after : Reading) : Prop where
  told : ∃ events, after.events.toList = before.events.toList ++ events ∧ holds events
  /-- No more is left than before. -/
  size_le : after.size ≤ before.size

/-- One state follows another after the front of events of a language. -/
def BreaksOff (holds : List Event → Prop) (before after : Reading) : Prop :=
  ∃ events missing, after.events.toList = before.events.toList ++ events ∧
    holds (events ++ missing)

theorem Follows.refl (language : EventLanguage) (reading : Reading) :
    reading.Follows language.Holds reading :=
  ⟨⟨[], by simp, language.nothing⟩, Nat.le_refl _⟩

theorem Follows.trans {language : EventLanguage} {first second third : Reading}
    (one : first.Follows language.Holds second) (other : second.Follows language.Holds third) :
    first.Follows language.Holds third := by
  obtain ⟨⟨front, frontTold, frontHolds⟩, frontSize⟩ := one
  obtain ⟨⟨back, backTold, backHolds⟩, backSize⟩ := other
  exact ⟨⟨front ++ back, by simp [backTold, frontTold], language.concat frontHolds backHolds⟩,
    Nat.le_trans backSize frontSize⟩

theorem BreaksOff.ofFollows {language : EventLanguage} {before after : Reading}
    (follows : before.Follows language.Holds after) :
    before.BreaksOff language.Holds after := by
  obtain ⟨events, told, holds⟩ := follows.told
  exact ⟨events, [], told, by simpa using holds⟩

theorem Follows.breaksOff {language : EventLanguage} {first second third : Reading}
    (one : first.Follows language.Holds second)
    (other : second.BreaksOff language.Holds third) : first.BreaksOff language.Holds third := by
  obtain ⟨front, frontTold, frontHolds⟩ := one.told
  obtain ⟨back, missing, backTold, backHolds⟩ := other
  exact ⟨front ++ back, missing, by simp [backTold, frontTold],
    by simpa using language.concat frontHolds backHolds⟩

end Reading

namespace ReadM

open Reading

/-- A part of the reading, begun in a state, announces events of a language, leaves no
more to be read, and ends in a state with some value as described.  If it ends with a
fault, more events could have come, and the budget is not to blame. -/
def Announces {α : Type} (holds : List Event → Prop) (part : ReadM α) (before : Reading)
    (post : α → Reading → Prop) : Prop :=
  match part before with
  | .ok value after => before.Follows holds after ∧ post value after
  | .error failure after => before.BreaksOff holds after ∧ ¬ failure.IsExhaustion

namespace Announces

variable {α β : Type} {language : EventLanguage} {before : Reading}

theorem weaken {holds : List Event → Prop} {part : ReadM α} {post weaker : α → Reading → Prop}
    (part_announces : Announces holds part before post)
    (imp : ∀ value after, before.Follows holds after → post value after → weaker value after) :
    Announces holds part before weaker := by
  unfold Announces at *
  split at part_announces
  · exact ⟨part_announces.1, imp _ _ part_announces.1 part_announces.2⟩
  · exact part_announces

/-- Nothing needs to be known of the value and the state. -/
theorem forget {holds : List Event → Prop} {part : ReadM α} {post : α → Reading → Prop}
    (announces : Announces holds part before post) :
    Announces holds part before fun _ _ => True :=
  announces.weaken fun _ _ _ _ => trivial

theorem pure {value : α} {post : α → Reading → Prop} (holds : post value before) :
    Announces language.Holds (Pure.pure value) before post :=
  ⟨.refl language before, holds⟩

theorem fault {failure : ParseError} {post : α → Reading → Prop}
    (known : ¬ failure.IsExhaustion) :
    Announces language.Holds (throw failure : ReadM α) before post :=
  ⟨.ofFollows (.refl language before), known⟩

/-- One part after another, when their events fit together.  What the first ensures is
known to the second. -/
theorem chain {front back whole : List Event → Prop} {part : ReadM α} {next : α → ReadM β}
    {mid : α → Reading → Prop} {post : β → Reading → Prop}
    (fits : ∀ one other, front one → back other → whole (one ++ other))
    (possible : ∃ events, back events) (first : Announces front part before mid)
    (second : ∀ value between, before.Follows front between → mid value between →
      Announces back (next value) between post) :
    Announces whole (part >>= next) before post := by
  unfold Announces at first ⊢
  simp only [Bind.bind, EStateM.bind]
  cases ran : part before with
  | error failure after =>
      rw [ran] at first
      obtain ⟨⟨told, missing, appended, holds⟩, known⟩ := first
      obtain ⟨more, moreHolds⟩ := possible
      exact ⟨⟨told, missing ++ more, appended, by simpa using fits _ _ holds moreHolds⟩, known⟩
  | ok value between =>
      rw [ran] at first
      have rest := second value between first.1 first.2
      obtain ⟨⟨told, appended, holds⟩, small⟩ := first.1
      unfold Announces at rest
      dsimp only
      split at rest
      · obtain ⟨⟨⟨more, further, moreHolds⟩, smaller⟩, ends⟩ := rest
        exact ⟨⟨⟨told ++ more, by simp [further, appended], fits _ _ holds moreHolds⟩,
          Nat.le_trans smaller small⟩, ends⟩
      · obtain ⟨⟨more, missing, further, moreHolds⟩, known⟩ := rest
        exact ⟨⟨told ++ more, missing, by simp [further, appended],
          by simpa using fits _ _ holds moreHolds⟩, known⟩

theorem bind {part : ReadM α} {next : α → ReadM β} {mid : α → Reading → Prop}
    {post : β → Reading → Prop} (first : Announces language.Holds part before mid)
    (second : ∀ value between, before.Follows language.Holds between → mid value between →
      Announces language.Holds (next value) between post) :
    Announces language.Holds (part >>= next) before post :=
  chain (fun _ _ => language.concat) ⟨[], language.nothing⟩ first second

/-- Events of a language are events of a wider one. -/
theorem widen {holds wider : List Event → Prop} {part : ReadM α} {post : α → Reading → Prop}
    (announces : Announces holds part before post) (imp : ∀ events, holds events → wider events) :
    Announces wider part before post := by
  unfold Announces at *
  split at announces
  · obtain ⟨⟨⟨told, appended, known⟩, small⟩, ends⟩ := announces
    exact ⟨⟨⟨told, appended, imp _ known⟩, small⟩, ends⟩
  · obtain ⟨⟨told, missing, appended, known⟩, blameless⟩ := announces
    exact ⟨⟨told, missing, appended, imp _ known⟩, blameless⟩

/-- Some events, and then a part whose events complete them. -/
theorem told {front : List Event} {whole : List Event → Prop} {say : ReadM PUnit}
    {part : ReadM α} {post : α → Reading → Prop}
    (adds : say before = .ok ⟨⟩ (before.announce front))
    (rest : Announces (fun events => whole (front ++ events)) part (before.announce front) post) :
    Announces whole (say >>= fun _ => part) before post := by
  unfold Announces at rest ⊢
  simp only [Bind.bind, EStateM.bind, adds]
  split at rest
  · obtain ⟨⟨⟨more, appended, holds⟩, small⟩, ends⟩ := rest
    exact ⟨⟨⟨front ++ more, by simp [appended, announce], holds⟩, small⟩, ends⟩
  · obtain ⟨⟨more, missing, appended, holds⟩, blameless⟩ := rest
    exact ⟨⟨front ++ more, missing, by simp [appended, announce], by simpa using holds⟩, blameless⟩

theorem given {value : α} {next : α → ReadM β} {post : β → Reading → Prop}
    (rest : Announces language.Holds (next value) before post) :
    Announces language.Holds (Pure.pure value >>= next) before post :=
  rest

theorem map {change : α → β} {part : ReadM α} {known : Reading → Prop}
    (inner : Announces language.Holds part before fun _ after => known after) :
    Announces language.Holds (change <$> part) before fun _ after => known after := by
  unfold Announces at inner ⊢
  simp only [Functor.map, EStateM.map]
  cases ran : part before with
  | ok value after => simpa [ran] using inner
  | error failure after => simpa [ran] using inner

theorem get {next : Reading → ReadM β} {post : β → Reading → Prop}
    (rest : Announces language.Holds (next before) before post) :
    Announces language.Holds (MonadState.get >>= next) before post :=
  rest

/-- One part, and then a change that restores what the part has put aside.  Only the
changed state has to follow from the beginning. -/
theorem bindUpdate {part : ReadM α} {change : α → Reading → Reading}
    {next : α → PUnit → ReadM β} {mid : α → Reading → Prop} {post : β → Reading → Prop}
    (first : Announces language.Holds part before mid)
    (follows : ∀ value between, before.Follows language.Holds between → mid value between →
      before.Follows language.Holds (change value between))
    (second : ∀ value between, before.Follows language.Holds between → mid value between →
      Announces language.Holds (next value ⟨⟩) (change value between) post) :
    Announces language.Holds (part >>= fun value => modify (change value) >>= next value)
      before post := by
  unfold Announces at first ⊢
  simp only [Bind.bind, EStateM.bind]
  cases ran : part before with
  | error failure after =>
      rw [ran] at first
      exact first
  | ok value between =>
      rw [ran] at first
      have changed := follows value between first.1 first.2
      have rest := second value between first.1 first.2
      unfold Announces at rest
      change match next value ⟨⟩ (change value between) with
        | .ok value after => _
        | .error failure after => _
      split at rest
      · exact ⟨changed.trans rest.1, rest.2⟩
      · exact ⟨changed.breaksOff rest.1, rest.2⟩

theorem update {change : Reading → Reading} {next : PUnit → ReadM β}
    {post : β → Reading → Prop} (follows : before.Follows language.Holds (change before))
    (rest : Announces language.Holds (next ⟨⟩) (change before) post) :
    Announces language.Holds (modify change >>= next) before post := by
  have changed : Announces language.Holds (modify change) before
      fun _ after => after = change before := ⟨follows, rfl⟩
  exact bind changed fun _ _ _ equal => equal ▸ rest

theorem replace {after : Reading} {next : PUnit → ReadM β} {post : β → Reading → Prop}
    (follows : before.Follows language.Holds after)
    (rest : Announces language.Holds (next ⟨⟩) after post) :
    Announces language.Holds (set after >>= next) before post := by
  have changed : Announces language.Holds (set after : ReadM PUnit) before
      fun _ reached => reached = after := ⟨follows, rfl⟩
  exact bind changed fun _ _ _ equal => equal ▸ rest

theorem andM {one other : ReadM Bool} {mid : Bool → Reading → Prop} {known : Reading → Prop}
    (first : Announces language.Holds one before mid)
    (second : ∀ between, before.Follows language.Holds between → mid true between →
      Announces language.Holds other between fun yes after => yes → known after) :
    Announces language.Holds (one <&&> other) before fun yes after => yes → known after := by
  refine bind first fun answer between follows middle => ?_
  cases answer with
  | true => exact second between follows middle
  | false => exact pure (by simp)

/-- Two questions, of which the answers tell nothing more. -/
theorem both {one other : ReadM Bool} {mid : Bool → Reading → Prop}
    (first : Announces language.Holds one before mid)
    (second : ∀ between, Announces language.Holds other between fun _ _ => True) :
    Announces language.Holds (one <&&> other) before fun _ _ => True := by
  refine bind first fun answer between _ _ => ?_
  cases answer with
  | true => exact second between
  | false => exact pure trivial

theorem either {one other : ReadM Bool} {mid : Bool → Reading → Prop}
    (first : Announces language.Holds one before mid)
    (second : ∀ between, Announces language.Holds other between fun _ _ => True) :
    Announces language.Holds (one <||> other) before fun _ _ => True := by
  refine bind first fun answer between _ _ => ?_
  cases answer with
  | true => exact pure trivial
  | false => exact second between

end Announces

end ReadM

end JavaDecl
