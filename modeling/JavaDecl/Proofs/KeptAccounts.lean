import JavaDecl.Proofs.DeclarationRules
import JavaDecl.Proofs.ParallelReading

/-!
# Accounts that readings keep

An account says what holds of the streams of a reading, of the tokens that are looked at and
of the events so far, given the classes that have begun.  If every token and every event
keeps it, then so does the reading of a whole source, and all its events are accounted for,
also if a fault ends it.
-/

namespace JavaDecl

/-- What may hold of a reading. -/
structure Account where
  streams : TokenStream → Prop
  tokens : Token → Prop
  /-- What holds of the events so far, given the classes that have begun. -/
  tells : List ClassDecl → List Event → Prop

namespace Account

/-- An account that is kept by every token and every event. -/
structure Lawful (account : Account) (isName : String → Prop) : Prop where
  next : ∀ {stream after : TokenStream} {token : Token}, account.streams stream →
    stream.next = (.ok token, after) → account.streams after ∧ account.tokens token
  block : ∀ {stream after : TokenStream} {block : Token}, account.streams stream →
    stream.takeBlock = (.ok block, after) → account.streams after
  name : ∀ {token : Token}, account.tokens token → token.kind = .identifier → isName token.text
  comment : ∀ {stream after : TokenStream} {token : Token} {opened : List ClassDecl}
    {events : List Event}, account.streams stream → stream.next = (.ok token, after) →
      token.kind = .docComment → account.tells opened events →
        account.tells opened
          (events ++ (DocComment.ofText token.text.toList token.line).events)
  plain : ∀ {opened : List ClassDecl} {events : List Event} {event : Event},
    event.isComment = false → event.isClassEdge = false → account.tells opened events →
      account.tells opened (events ++ [event])
  begins : ∀ {opened : List ClassDecl} {events : List Event} {declared : ClassDecl},
    declared.IsHeaded isName ∨ declared.IsBodyIn opened → account.tells opened events →
      account.tells (declared :: opened) (events ++ [.beginClass declared])
  ends : ∀ {opened : List ClassDecl} {events : List Event} {declared : ClassDecl},
    account.tells (declared :: opened) events → account.tells opened (events ++ [.endClass])

structure Holds (account : Account) (opened : List ClassDecl) (reading : Reading) : Prop where
  stream : account.streams reading.stream
  ahead : ∀ token ∈ reading.lookahead, account.tokens token
  told : account.tells opened reading.events.toList

variable {account : Account} {isName : String → Prop} {opened between closed : List ClassDecl}
  {α β σ : Type}

/-- The account holds after a part of a reading if it holds before, and the value is as
described.  A fault leaves the events accounted for. -/
def Keeps (account : Account) (opened closed : List ClassDecl) (part : ReadM α)
    (post : α → Prop) : Prop :=
  ∀ before, account.Holds opened before →
    match part before with
    | .ok value after => account.Holds closed after ∧ post value
    | .error _ after => ∃ opened, account.tells opened after.events.toList

namespace Keeps

variable {part : ReadM α} {next : α → ReadM β} {mid post : α → Prop} {last : β → Prop}

theorem pure {value : α} (known : post value) :
    account.Keeps opened opened (Pure.pure value) post :=
  fun _ holds => ⟨holds, known⟩

theorem fault (failure : ParseError) :
    account.Keeps opened closed (throw failure : ReadM α) post :=
  fun _ holds => ⟨opened, holds.told⟩

theorem bind (first : account.Keeps opened between part mid)
    (second : ∀ value, mid value → account.Keeps between closed (next value) last) :
    account.Keeps opened closed (part >>= next) last := by
  intro before holds
  have ran := first before holds
  simp only [Bind.bind, EStateM.bind]
  cases outcome : part before with
  | error failure after =>
      rw [outcome] at ran
      exact ran
  | ok value after =>
      rw [outcome] at ran
      exact second value ran.2 after ran.1

theorem weaken {weaker : α → Prop} (keeps : account.Keeps opened closed part post)
    (imp : ∀ value, post value → weaker value) : account.Keeps opened closed part weaker := by
  intro before holds
  have ran := keeps before holds
  split
  · next value after outcome =>
      rw [outcome] at ran
      exact ⟨ran.1, imp value ran.2⟩
  · next failure after outcome =>
      rw [outcome] at ran
      exact ran

theorem get : account.Keeps opened opened (MonadState.get : ReadM Reading)
    (account.Holds opened) :=
  fun _ holds => ⟨holds, holds⟩

theorem modify {change : Reading → Reading}
    (kept : ∀ reading, account.Holds opened reading → account.Holds closed (change reading)) :
    account.Keeps opened closed (modify change) fun _ => True :=
  fun before holds => ⟨kept before holds, trivial⟩

theorem ite {condition : Prop} [Decidable condition] {other : ReadM α}
    (yes : account.Keeps opened closed part post) (no : account.Keeps opened closed other post) :
    account.Keeps opened closed (if condition then part else other) post := by
  split
  · exact yes
  · exact no

theorem iterate {part : σ → ReadM (σ ⊕ α)} {values : σ → Prop} (budget : Nat)
    (once : ∀ value, values value →
      account.Keeps opened opened (part value) (Sum.elim values post))
    {value : σ} (known : values value) :
    account.Keeps opened opened (ReadM.iterate part budget value) post := by
  induction budget generalizing value with
  | zero => exact get.bind fun _ _ => fault _
  | succ budget ih =>
      refine (once value known).bind fun outcome described => ?_
      cases outcome with
      | inl next => exact ih described
      | inr result => exact pure described

end Keeps

theorem Holds.lookOn {reading : Reading} (holds : account.Holds opened reading)
    {more : List Token} (described : ∀ token ∈ more, account.tokens token) :
    account.Holds opened { reading with lookahead := reading.lookahead ++ more } :=
  ⟨holds.stream, List.forall_mem_append.mpr ⟨holds.ahead, described⟩, holds.told⟩

variable (lawful : account.Lawful isName)

include lawful

/-! ### Tokens -/

theorem keeps_pull : account.Keeps opened opened Reading.pull account.tokens := by
  intro before holds
  fun_induction Reading.pull before with
  | case1 reading failure stream failed => exact ⟨opened, holds.told⟩
  | case2 reading token stream taken isComment comment ih =>
      refine ih ⟨(lawful.next holds.stream taken).1, holds.ahead, ?_⟩
      have told := lawful.comment holds.stream taken isComment holds.told
      simpa [Reading.announce, comment] using told
  | case3 reading token stream taken notComment =>
      obtain ⟨further, described⟩ := lawful.next holds.stream taken
      exact ⟨⟨further, holds.ahead, holds.told⟩, described⟩

theorem keeps_fill (count : Nat) :
    account.Keeps opened opened (ReadM.fill count) fun _ => True := by
  induction count with
  | zero => exact .pure trivial
  | succ count ih =>
      refine (keeps_pull lawful).bind fun token described => ?_
      have looks : account.Keeps opened opened
          (modify fun reading => { reading with lookahead := reading.lookahead ++ [token] })
          fun _ => True :=
        .modify fun _ holds => holds.lookOn (by simpa using described)
      exact looks.bind fun _ _ => ih

/-- The token that is looked at stays ahead. -/
theorem keeps_peek (skipped : Nat) :
    account.Keeps opened opened (ReadM.peek skipped) account.tokens := by
  intro before holds
  have looked := ReadM.peek_announces EventLanguage.comments skipped before
  have kept : account.Keeps opened opened (ReadM.peek skipped) fun _ => True := by
    refine Keeps.get.bind fun reading _ => ?_
    split
    · exact .pure trivial
    · exact Keeps.get.bind fun _ _ => (keeps_fill lawful _).bind fun _ _ =>
        Keeps.get.bind fun _ _ => .pure trivial
  have ran := kept before holds
  unfold ReadM.Announces at looked
  split
  · next token after outcome =>
      rw [outcome] at ran looked
      exact ⟨ran.1, ran.1.ahead token (List.mem_of_getElem? looked.2.2)⟩
  · next failure after outcome =>
      rw [outcome] at ran
      exact ran

theorem keeps_take : account.Keeps opened opened ReadM.take account.tokens := by
  have drops : account.Keeps opened opened
      (modify fun reading => { reading with lookahead := reading.lookahead.tail })
      fun _ => True :=
    .modify fun _ holds => ⟨holds.stream,
      fun token listed => holds.ahead token (List.mem_of_mem_tail listed), holds.told⟩
  exact (keeps_peek lawful 0).bind fun _ described => drops.bind fun _ _ => .pure described

theorem tokenRules :
    ReadM.TokenRules fun _ part => account.Keeps opened opened part fun _ => True where
  pure _ := .pure trivial
  fault := .fault
  bind first second := first.bind fun value _ => second value
  get := Keeps.get.weaken fun _ _ => trivial
  peek skipped := (keeps_peek lawful skipped).weaken fun _ _ => trivial
  take := (keeps_take lawful).weaken fun _ _ => trivial

theorem keeps_expect (kind : TokenKind) (expected : String) :
    account.Keeps opened opened (ReadM.expect kind expected) fun token =>
      account.tokens token ∧ token.kind = kind := by
  intro before holds
  have rules : ReadM.TokenRules fun _ part => account.Keeps opened opened part fun _ => True :=
    tokenRules lawful
  have looked := ReadM.isNext_announces EventLanguage.comments kind before
  have kept := rules.isNext kind before holds
  unfold ReadM.Announces at looked
  simp only [ReadM.expect, Bind.bind, EStateM.bind]
  cases outcome : ReadM.isNext kind before with
  | error failure after =>
      rw [outcome] at kept
      exact kept
  | ok here between =>
      rw [outcome] at kept looked
      cases here with
      | false =>
          have refuses : account.Keeps opened opened (ReadM.refuse expected : ReadM Token)
              fun token => account.tokens token ∧ token.kind = kind :=
            (keeps_peek lawful 0).bind fun _ _ => .ite (.fault _) (.fault _)
          exact refuses between kept.1
      | true =>
          obtain ⟨token, seen, same⟩ := Option.map_eq_some_iff.mp (looked.2.2 rfl)
          have took := keeps_take lawful between kept.1
          rw [ReadM.take_of_seen seen] at took
          simp only [if_true, ReadM.take_of_seen seen]
          exact ⟨took.1, took.2, same⟩

/-! ### Blocks and expressions -/

theorem keeps_blockText :
    account.Keeps opened opened ReadM.blockText fun _ => True := by
  refine ((tokenRules lawful).expect _ _).bind fun opening _ =>
    Keeps.get.bind fun reading holds => .ite ?_ (.fault _)
  cases cut : reading.stream.takeBlock with
  | mk result stream =>
      cases result with
      | error failure =>
          intro before _
          exact ⟨opened, holds.told⟩
      | ok block =>
          intro before _
          exact ⟨⟨lawful.block holds.stream cut, holds.ahead, holds.told⟩, trivial⟩

theorem keeps_typeArgumentsAhead? (budget : Nat) :
    account.Keeps opened opened (ReadM.typeArgumentsAhead? budget) fun _ => True := by
  refine Keeps.get.bind fun reading _ => ?_
  split
  · exact .pure trivial
  · next look _ =>
      have further (value : ReadM.AngleLook × Array Token)
          (described : ∀ token ∈ value.2.toList, account.tokens token) :
          account.Keeps opened opened (ReadM.lookFurther value)
            (Sum.elim (fun next => ∀ token ∈ next.2.toList, account.tokens token)
              fun result => ∀ token ∈ result.2.toList, account.tokens token) := by
        refine (keeps_pull lawful).bind fun token known => ?_
        have all : ∀ other ∈ (value.2.push token).toList, account.tokens other := by
          simpa [or_imp, forall_and] using ⟨by simpa using described, known⟩
        dsimp only
        split
        · exact .pure all
        · exact .pure all
      refine (Keeps.iterate budget further (by simp)).bind fun result described => ?_
      have looks : account.Keeps opened opened
          (modify fun reading =>
            { reading with lookahead := reading.lookahead ++ result.2.toList })
          fun _ => True :=
        .modify fun _ holds => holds.lookOn described
      exact looks.bind fun _ _ => .pure trivial

theorem phraseRules :
    ReadM.PhraseRules fun _ part => account.Keeps opened opened part fun _ => True where
  toTokenRules := tokenRules lawful
  blockText := keeps_blockText lawful
  expressionText := (tokenRules lawful).expressionText (keeps_blockText lawful)
    (keeps_typeArgumentsAhead? lawful)

/-! ### Declarations and units -/

omit lawful in
theorem keeps_emit {event : Event} (told : ∀ events, account.tells opened events →
    account.tells closed (events ++ [event])) :
    account.Keeps opened closed (ReadM.emit event) fun _ => True :=
  .modify fun _ holds => ⟨holds.stream, holds.ahead, by simpa using told _ holds.told⟩

theorem tellingRules :
    ReadM.TellingRules fun _ part => account.Keeps opened opened part fun _ => True where
  toPhraseRules := phraseRules lawful
  emit _ content inside _ := keeps_emit fun _ => lawful.plain content inside

theorem classRules : ReadM.ClassRules isName
    fun opened closed _ part => account.Keeps opened closed part fun _ => True where
  within _ := tellingRules lawful
  bind first second := first.bind fun value _ => second value
  fault := .fault
  named expected rest := (keeps_expect lawful .identifier expected).bind fun token known =>
    rest token (lawful.name known.1 known.2)
  memberRest _ := (tellingRules lawful).memberRest fun _ =>
    keeps_emit fun _ told => lawful.plain rfl rfl told
  begins heads := keeps_emit fun _ => lawful.begins heads
  ends _ _ := keeps_emit fun _ => lawful.ends

/-- The events of a source are accounted for.  If it is accepted, all its classes have ended. -/
theorem readUnit_tells {source : List Char} (starts : account.streams (.ofSource source))
    (silent : account.tells [] []) :
    (∃ opened, account.tells opened (readUnit source).1) ∧
      ((readUnit source).2 = none → account.tells [] (readUnit source).1) := by
  have ran := (classRules lawful).compilationUnit (readingBudget source) (.ofSource source)
    ⟨starts, nofun, silent⟩
  unfold readUnit
  split
  · next outcome =>
      rw [outcome] at ran
      exact ⟨⟨[], ran.1.told⟩, fun _ => ran.1.told⟩
  · next outcome =>
      rw [outcome] at ran
      exact ⟨ran, nofun⟩

end Account

end JavaDecl
