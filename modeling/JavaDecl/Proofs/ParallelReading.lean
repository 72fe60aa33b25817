import JavaDecl.Proofs.TokenReading
import Mathlib.Data.List.Forall2
import Mathlib.Data.Sum.Basic

/-!
# Two readings side by side

A correspondence relates the token streams of two sources that answer alike: with tokens of
the same kinds on the same lines, or with failures at places that correspond.  Two readings
of such streams go the same way.  Only the verbatim texts of their events may differ, and a
correspondence says how those of the first are restored from those of the second.

The budget of the first reading is the smaller one.  Nothing is said if it is used up.
-/

namespace JavaDecl

/-! ### Verbatim texts -/

mutual

def AnnotationUse.mapVerbatim (change : String → String) :
    AnnotationUse TypeExpr → AnnotationUse TypeExpr
  | ⟨type, values, line⟩ => ⟨type, mapVerbatimOfPairs change values, line⟩

def mapVerbatimOfPairs (change : String → String) :
    List (String × ElementValue TypeExpr) → List (String × ElementValue TypeExpr)
  | [] => []
  | (element, value) :: rest =>
      (element, value.mapVerbatim change) :: mapVerbatimOfPairs change rest

def ElementValue.mapVerbatim (change : String → String) :
    ElementValue TypeExpr → ElementValue TypeExpr
  | .nested use => .nested (use.mapVerbatim change)
  | .array items => .array (mapVerbatimOfItems change items)
  | .expression text => .expression (change text)
  | value => value

def mapVerbatimOfItems (change : String → String) :
    List (ElementValue TypeExpr) → List (ElementValue TypeExpr)
  | [] => []
  | item :: rest => item.mapVerbatim change :: mapVerbatimOfItems change rest

end

def MethodDecl.mapVerbatim (change : String → String) (declared : MethodDecl) : MethodDecl :=
  { declared with
    body := declared.body.map change, defaultValue := declared.defaultValue.map change }

def VariableDecl.mapVerbatim (change : String → String) (declared : VariableDecl) :
    VariableDecl :=
  { declared with
    initializer := declared.initializer.map change, args := declared.args.map change }

/-- An event with its verbatim texts changed: bodies, initial values, arguments, default
values and the expressions in annotations. -/
def Event.mapVerbatim (change : String → String) : Event → Event
  | .annotated use => .annotated (use.mapVerbatim change)
  | .endConstructor declared => .endConstructor (declared.mapVerbatim change)
  | .endMethod declared => .endMethod (declared.mapVerbatim change)
  | .beginField declared => .beginField (declared.mapVerbatim change)
  | .initializer declared => .initializer { declared with body := change declared.body }
  | event => event

theorem mapVerbatimOfPairs_eq_map (change : String → String)
    (pairs : List (String × ElementValue TypeExpr)) :
    mapVerbatimOfPairs change pairs =
      pairs.map (Prod.map id (ElementValue.mapVerbatim change)) := by
  induction pairs with
  | nil => rfl
  | cons pair rest ih => rw [mapVerbatimOfPairs, ih, List.map_cons, Prod.map, id]

theorem mapVerbatimOfItems_eq_map (change : String → String)
    (items : List (ElementValue TypeExpr)) :
    mapVerbatimOfItems change items = items.map (ElementValue.mapVerbatim change) := by
  induction items with
  | nil => rfl
  | cons item rest ih => rw [mapVerbatimOfItems, ih, List.map_cons]

theorem setElement_map {υ ω : Type} (change : υ → ω) (pairs : List (String × υ))
    (element : String) (value : υ) :
    setElement (pairs.map (Prod.map id change)) element (change value) =
      (setElement pairs element value).map (Prod.map id change) := by
  induction pairs with
  | nil => rfl
  | cons pair rest ih =>
      obtain ⟨other, old⟩ := pair
      simp only [List.map_cons, Prod.map, id, setElement]
      split
      · rfl
      · simp [Prod.map, ih]

/-- Which value an element gets does not depend on what the values are. -/
theorem elementsOfList_map {υ ω : Type} (change : υ → ω) (pairs : List (String × υ)) :
    elementsOfList (pairs.map (Prod.map id change)) =
      (elementsOfList pairs).map (Prod.map id change) := by
  have fromKnown (known : List (String × υ)) :
      (pairs.map (Prod.map id change)).foldl (fun known pair => setElement known pair.1 pair.2)
          (known.map (Prod.map id change)) =
        (pairs.foldl (fun known pair => setElement known pair.1 pair.2) known).map
          (Prod.map id change) := by
    induction pairs generalizing known with
    | nil => rfl
    | cons pair rest ih =>
        rw [List.map_cons, List.foldl_cons, List.foldl_cons, ← ih, ← setElement_map]
        rfl
  exact fromKnown []

/-! ### Correspondences -/

/-- What it means for two token streams to answer alike. -/
structure Correspondence where
  streams : TokenStream → TokenStream → Prop
  offsets : Nat → Nat → Prop
  places : Location → Location → Prop
  /-- A verbatim text of the first source, from the one of the second. -/
  restore : String → String

namespace Correspondence

structure Tokens (between : Correspondence) (one other : Token) : Prop where
  kind : one.kind = other.kind
  text : one.text = other.text
  place : between.places one.place other.place
  first : between.offsets one.span.first other.span.first
  stop : between.offsets one.span.stop other.span.stop

/-- Answers that correspond.  Doc comments may differ if they say the same. -/
inductive Answers (between : Correspondence) :
    Except ParseError Token × TokenStream → Except ParseError Token × TokenStream → Prop where
  | token {token other : Token} {left right : TokenStream} : between.Tokens token other →
      between.streams left right → Answers between (.ok token, left) (.ok other, right)
  | comment {token other : Token} {left right : TokenStream} : token.kind = .docComment →
      other.kind = .docComment → DocComment.ofText token.text.toList token.line =
        DocComment.ofText other.text.toList other.line →
      between.streams left right → Answers between (.ok token, left) (.ok other, right)
  | failure {failure other : ParseError} {left right : TokenStream} :
      between.places failure.place other.place →
        Answers between (.error failure, left) (.error other, right)

inductive Blocks (between : Correspondence) :
    Except ParseError Token × TokenStream → Except ParseError Token × TokenStream → Prop where
  | block {block other : Token} {left right : TokenStream} :
      block.text = between.restore other.text → between.streams left right →
        Blocks between (.ok block, left) (.ok other, right)
  | failure {failure other : ParseError} {left right : TokenStream} :
      between.places failure.place other.place →
        Blocks between (.error failure, left) (.error other, right)

/-- Streams that correspond answer alike, and go on to correspond. -/
structure Lawful (between : Correspondence) : Prop where
  line : ∀ {one other : Location}, between.places one other → one.line = other.line
  equal : ∀ {start start' stop stop' : Nat}, between.offsets start start' →
    between.offsets stop stop' → (stop = start ↔ stop' = start')
  offset : ∀ {one other : TokenStream}, between.streams one other →
    between.offsets one.offset other.offset
  slice : ∀ {one other : TokenStream} {start start' stop stop' : Nat},
    between.streams one other → between.offsets start start' → between.offsets stop stop' →
      String.ofList ((Text.slice? one.source start stop).getD []) =
        between.restore (String.ofList ((Text.slice? other.source start' stop').getD []))
  next : ∀ {one other : TokenStream}, between.streams one other →
    between.Answers one.next other.next
  block : ∀ {one other : TokenStream}, between.streams one other →
    between.Blocks one.takeBlock other.takeBlock

/-- The events of the first reading are those of the second with their texts restored. -/
def Tell (between : Correspondence) (one other : Reading) : Prop :=
  one.events.toList = other.events.toList.map (Event.mapVerbatim between.restore)

structure Alike (between : Correspondence) (one other : Reading) : Prop where
  streams : between.streams one.stream other.stream
  lookahead : List.Forall₂ between.Tokens one.lookahead other.lookahead
  tell : between.Tell one other

/-- Results that correspond, the values by a relation of their own. -/
inductive Results (between : Correspondence) {α : Type} (values : α → α → Prop) :
    EStateM.Result ParseError Reading α → EStateM.Result ParseError Reading α → Prop where
  | done {value other : α} {left right : Reading} : values value other →
      between.Alike left right → Results between values (.ok value left) (.ok other right)
  | failed {failure other : ParseError} {left right : Reading} :
      between.places failure.place other.place → between.Tell left right →
        Results between values (.error failure left) (.error other right)
  | exhausted {failure : ParseError} {left : Reading}
      {result : EStateM.Result ParseError Reading α} : failure.IsExhaustion →
        Results between values (.error failure left) result

theorem Results.weaken {between : Correspondence} {α : Type} {values weaker : α → α → Prop}
    {one other : EStateM.Result ParseError Reading α} (known : between.Results values one other)
    (imp : ∀ value value', values value value' → weaker value value') :
    between.Results weaker one other := by
  cases known with
  | done same alike => exact .done (imp _ _ same) alike
  | failed place tell => exact .failed place tell
  | exhausted spent => exact .exhausted spent

end Correspondence

theorem DocComment.mapVerbatim_events (comment : DocComment) (change : String → String) :
    comment.events.map (Event.mapVerbatim change) = comment.events := by
  simp [DocComment.events, Event.mapVerbatim]

namespace Reading

variable {reading : Reading} {stream : TokenStream}

theorem pull_of_error {failure : ParseError}
    (failed : reading.stream.next = (.error failure, stream)) :
    reading.pull = .error failure { reading with stream } := by
  unfold pull
  split
  · next found =>
      rw [failed] at found
      cases found
      rfl
  · next found =>
      rw [failed] at found
      cases found

theorem pull_of_comment {token : Token} (taken : reading.stream.next = (.ok token, stream))
    (isComment : token.kind = .docComment) :
    reading.pull = ({ reading with stream }.announce
      (DocComment.ofText token.text.toList token.line).events).pull := by
  conv => lhs; unfold pull
  split
  · next found =>
      rw [taken] at found
      cases found
  · next found =>
      rw [taken] at found
      cases found
      rw [dif_pos isComment]

theorem pull_of_token {token : Token} (taken : reading.stream.next = (.ok token, stream))
    (notComment : token.kind ≠ .docComment) :
    reading.pull = .ok token { reading with stream } := by
  unfold pull
  split
  · next found =>
      rw [taken] at found
      cases found
  · next found =>
      rw [taken] at found
      cases found
      rw [dif_neg notComment]

end Reading

namespace ReadM

open Correspondence

variable {between : Correspondence} {α β : Type} {values : α → α → Prop}
  {results : β → β → Prop}

/-- Two parts of readings that lead from readings that correspond to such ones. -/
def Parallel (between : Correspondence) (values : α → α → Prop) (part other : ReadM α) : Prop :=
  ∀ left right : Reading, between.Alike left right →
    between.Results values (part left) (other right)

/-- One part after another, from the states that the first one reaches. -/
theorem results_bind {part other : ReadM α} {next further : α → ReadM β} {left right : Reading}
    (first : between.Results values (part left) (other right))
    (second : ∀ value value' after after', part left = .ok value after → values value value' →
      between.Alike after after' →
        between.Results results (next value after) (further value' after')) :
    between.Results results ((part >>= next) left) ((other >>= further) right) := by
  simp only [Bind.bind, EStateM.bind]
  cases ran : part left with
  | ok value after =>
      cases ended : other right with
      | ok value' after' =>
          rw [ran, ended] at first
          cases first with
          | done same alike => exact second _ _ _ _ ran same alike
      | error failure' after' =>
          rw [ran, ended] at first
          cases first
  | error failure after =>
      rw [ran] at first
      cases ended : other right with
      | ok value' after' =>
          rw [ended] at first
          cases first with
          | exhausted spent => exact .exhausted spent
      | error failure' after' =>
          rw [ended] at first
          cases first with
          | failed place tell => exact .failed place tell
          | exhausted spent => exact .exhausted spent

namespace Parallel

theorem bind {part other : ReadM α} {next further : α → ReadM β}
    (first : Parallel between values part other)
    (second : ∀ value value', values value value' →
      Parallel between results (next value) (further value')) :
    Parallel between results (part >>= next) (other >>= further) := fun left right alike =>
  results_bind (first left right alike) fun value value' after after' _ same =>
    second value value' same after after'

theorem andThen {part other : ReadM α} {next further : α → ReadM β}
    (first : Parallel between Eq part other)
    (second : ∀ value, Parallel between results (next value) (further value)) :
    Parallel between results (part >>= next) (other >>= further) := by
  refine first.bind fun value value' same => ?_
  subst same
  exact second value

theorem pure {value other : α} (same : values value other) :
    Parallel between values (Pure.pure value) (Pure.pure other) := fun _ _ alike =>
  .done same alike

theorem weaken {weaker : α → α → Prop} {part other : ReadM α}
    (parallel : Parallel between values part other)
    (imp : ∀ value value', values value value' → weaker value value') :
    Parallel between weaker part other := fun left right alike =>
  (parallel left right alike).weaken imp

theorem map {part other : ReadM α} {change change' : α → β}
    (parallel : Parallel between values part other)
    (same : ∀ value value', values value value' → results (change value) (change' value')) :
    Parallel between results (change <$> part) (change' <$> other) := by
  rw [map_eq_pure_bind, map_eq_pure_bind]
  exact parallel.bind fun value value' known => .pure (same value value' known)

theorem fault {failure other : ParseError} (place : between.places failure.place other.place) :
    Parallel between values (throw failure) (throw other) := fun _ _ alike =>
  .failed place alike.tell

/-- Whatever stands beside a reading whose budget is used up. -/
theorem exhausted {other : ReadM α} : Parallel between values ReadM.exhausted other :=
  fun _ _ _ => .exhausted ⟨_, rfl⟩

theorem ite {question : Prop} [Decidable question] {yes yes' no no' : ReadM α}
    (held : question → Parallel between values yes yes')
    (failed : ¬ question → Parallel between values no no') :
    Parallel between values (if question then yes else no) (if question then yes' else no') := by
  split
  · next holds => exact held holds
  · next fails => exact failed fails

/-- The states are at hand wherever they are asked for. -/
theorem get {next further : Reading → ReadM α}
    (rest : ∀ left right, between.Alike left right →
      between.Results values (next left left) (further right right)) :
    Parallel between values (MonadState.get >>= next) (MonadState.get >>= further) := rest

theorem update {change change' : Reading → Reading}
    (alike : ∀ left right, between.Alike left right →
      between.Alike (change left) (change' right)) :
    Parallel between Eq (modify change) (modify change') := fun left right known =>
  .done rfl (alike left right known)

/-- A first question, and another if the answer is yes. -/
theorem both {one one' other other' : ReadM Bool} (first : Parallel between Eq one one')
    (second : Parallel between Eq other other') :
    Parallel between Eq (one <&&> other) (one' <&&> other') := by
  refine andThen first fun answer => ?_
  cases answer with
  | true => exact second
  | false => exact pure rfl

/-- A first question, and another if the answer is no. -/
theorem either {one one' other other' : ReadM Bool} (first : Parallel between Eq one one')
    (second : Parallel between Eq other other') :
    Parallel between Eq (one <||> other) (one' <||> other') := by
  refine andThen first fun answer => ?_
  cases answer with
  | true => exact pure rfl
  | false => exact second

end Parallel

/-! ### Single tokens -/

theorem peek_of_seen {skipped : Nat} {reading : Reading} {token : Token}
    (seen : reading.lookahead[skipped]? = some token) :
    peek skipped reading = .ok token reading := by
  have got : (get : ReadM Reading) reading = .ok reading reading := rfl
  simp only [peek, Bind.bind, EStateM.bind, got, seen]
  rfl

theorem take_of_seen {reading : Reading} {token : Token}
    (seen : reading.lookahead[0]? = some token) :
    take reading = .ok token { reading with lookahead := reading.lookahead.tail } := by
  simp only [take, Bind.bind, EStateM.bind, peek_of_seen seen]
  rfl

/-- Looking at more tokens makes so many more looked at. -/
theorem length_of_fill {count : Nat} {before after : Reading}
    (filled : fill count before = .ok ⟨⟩ after) :
    after.lookahead.length = before.lookahead.length + count := by
  have announced := fill_announces EventLanguage.comments count before
  unfold Announces at announced
  rw [filled] at announced
  exact announced.2.2

section Tokens

variable (lawful : between.Lawful)

include lawful

theorem pull_parallel : Parallel between between.Tokens Reading.pull Reading.pull := by
  intro left right alike
  fun_induction Reading.pull left generalizing right with
  | case1 reading failure stream failed =>
      have answered := lawful.next alike.streams
      rw [failed] at answered
      cases ended : right.stream.next with
      | mk result stream' =>
          rw [ended] at answered
          cases answered with
          | failure place =>
              rw [Reading.pull_of_error ended]
              exact .failed place alike.tell
  | case2 reading token stream taken isComment comment ih =>
      have answered := lawful.next alike.streams
      rw [taken] at answered
      cases ended : right.stream.next with
      | mk result stream' =>
          rw [ended] at answered
          have told {other : Token} (isComment : other.kind = .docComment)
              (same : comment = .ofText other.text.toList other.line)
              (found : right.stream.next = (.ok other, stream'))
              (streams : between.streams stream stream') :
              between.Results between.Tokens
                ({ reading with stream }.announce comment.events).pull right.pull := by
            have before : reading.events.toList =
                right.events.toList.map (Event.mapVerbatim between.restore) := alike.tell
            rw [Reading.pull_of_comment found isComment, ← same]
            refine ih _ ⟨streams, alike.lookahead, ?_⟩
            simp [Tell, Reading.announce, before, comment.mapVerbatim_events]
          cases answered with
          | @token _ other _ _ tokens streams =>
              refine told (tokens.kind ▸ isComment) ?_ ended streams
              have line : token.line = other.line := lawful.line tokens.place
              rw [← tokens.text, ← line]
          | comment _ isComment same streams => exact told isComment same ended streams
  | case3 reading token stream taken notComment =>
      have answered := lawful.next alike.streams
      rw [taken] at answered
      cases ended : right.stream.next with
      | mk result stream' =>
          rw [ended] at answered
          cases answered with
          | comment isComment => exact absurd isComment notComment
          | token tokens streams =>
              rw [Reading.pull_of_token ended (tokens.kind ▸ notComment)]
              exact .done tokens ⟨streams, alike.lookahead, alike.tell⟩

theorem fill_parallel (count : Nat) : Parallel between Eq (fill count) (fill count) := by
  induction count with
  | zero => exact .pure rfl
  | succ count ih =>
      refine (pull_parallel lawful).bind fun token other tokens => .andThen (.update ?_) fun _ => ih
      intro left right alike
      exact ⟨alike.streams, List.rel_append alike.lookahead (.cons tokens .nil), alike.tell⟩

theorem peek_parallel (skipped : Nat) :
    Parallel between between.Tokens (peek skipped) (peek skipped) := by
  refine .get fun left right alike => ?_
  have length := alike.lookahead.length_eq
  by_cases known : skipped < left.lookahead.length
  · have known' : skipped < right.lookahead.length := length ▸ known
    rw [List.getElem?_eq_getElem known, List.getElem?_eq_getElem known']
    exact .done (alike.lookahead.get known known') alike
  · have unknown' : right.lookahead[skipped]? = none := by
      rw [List.getElem?_eq_none_iff]
      omega
    rw [List.getElem?_eq_none (by omega), unknown']
    change between.Results between.Tokens
      ((fill (skipped + 1 - left.lookahead.length) >>= fun _ => _) left)
      ((fill (skipped + 1 - right.lookahead.length) >>= fun _ => _) right)
    rw [← length]
    refine results_bind (fill_parallel lawful _ left right alike)
      fun _ _ after after' filled _ further => ?_
    have enough : skipped < after.lookahead.length := by
      rw [length_of_fill filled]
      omega
    have enough' : skipped < after'.lookahead.length := further.lookahead.length_eq ▸ enough
    refine .done ?_ further
    simpa [enough, enough'] using further.lookahead.get enough enough'

theorem kindAt_parallel (skipped : Nat) :
    Parallel between Eq (kindAt skipped) (kindAt skipped) :=
  (peek_parallel lawful skipped).bind fun _ _ tokens => .pure tokens.kind

theorem isAt_parallel (skipped : Nat) (kind : TokenKind) :
    Parallel between Eq (isAt skipped kind) (isAt skipped kind) :=
  (kindAt_parallel lawful skipped).andThen fun _ => .pure rfl

theorem isNext_parallel (kind : TokenKind) : Parallel between Eq (isNext kind) (isNext kind) :=
  isAt_parallel lawful 0 kind

theorem isMark_parallel (symbol : Mark) : Parallel between Eq (isMark symbol) (isMark symbol) :=
  isNext_parallel lawful (.mark symbol)

theorem isWordAt_parallel (skipped : Nat) (word : String) :
    Parallel between Eq (isWordAt skipped word) (isWordAt skipped word) :=
  (peek_parallel lawful skipped).bind fun _ _ tokens => .pure (by rw [tokens.kind, tokens.text])

theorem nextLine_parallel : Parallel between Eq nextLine nextLine :=
  (peek_parallel lawful 0).bind fun _ _ tokens => .pure (lawful.line tokens.place)

theorem take_parallel : Parallel between between.Tokens take take := by
  refine (peek_parallel lawful 0).bind fun _ _ tokens =>
    .andThen (.update fun left right alike => ?_) fun _ => .pure tokens
  refine ⟨alike.streams, ?_, alike.tell⟩
  simpa only [List.drop_one] using List.forall₂_drop 1 alike.lookahead

theorem takeMany_parallel (count : Nat) :
    Parallel between (List.Forall₂ between.Tokens) (takeMany count) (takeMany count) := by
  induction count with
  | zero => exact .pure .nil
  | succ count ih =>
      exact (take_parallel lawful).bind fun _ _ first =>
        ih.bind fun _ _ rest => .pure (.cons first rest)

theorem accept_parallel (kind : TokenKind) : Parallel between Eq (accept kind) (accept kind) :=
  (isNext_parallel lawful kind).andThen fun _ =>
    .ite (fun _ => (take_parallel lawful).bind fun _ _ _ => .pure rfl) fun _ => .pure rfl

theorem acceptMark_parallel (symbol : Mark) :
    Parallel between Eq (acceptMark symbol) (acceptMark symbol) :=
  accept_parallel lawful (.mark symbol)

theorem acceptKeyword_parallel (word : Keyword) :
    Parallel between Eq (acceptKeyword word) (acceptKeyword word) :=
  accept_parallel lawful (.keyword word)

theorem refuse_parallel (expected : String) :
    Parallel between values (refuse expected) (refuse expected) := by
  refine (peek_parallel lawful 0).bind fun one other tokens => ?_
  rw [tokens.kind]
  exact .ite (fun _ => .fault tokens.place) fun _ => .fault tokens.place

theorem expect_parallel (kind : TokenKind) (expected : String) :
    Parallel between between.Tokens (expect kind expected) (expect kind expected) :=
  (isNext_parallel lawful kind).andThen fun _ =>
    .ite (fun _ => take_parallel lawful) fun _ => refuse_parallel lawful expected

theorem expectMark_parallel (symbol : Mark) (expected : String) :
    Parallel between between.Tokens (expectMark symbol expected) (expectMark symbol expected) :=
  expect_parallel lawful (.mark symbol) expected

theorem expectWord_parallel (word : String) :
    Parallel between between.Tokens (expectWord word) (expectWord word) :=
  (isWordAt_parallel lawful 0 word).andThen fun _ =>
    .ite (fun _ => take_parallel lawful) fun _ => refuse_parallel lawful _

theorem identifier_parallel : Parallel between Eq identifier identifier :=
  (expect_parallel lawful _ _).bind fun _ _ tokens => .pure tokens.text

end Tokens

/-! ### Events -/

/-- Events that are the same once verbatim texts are restored. -/
theorem emit_parallel {event other : Event} (same : event = other.mapVerbatim between.restore) :
    Parallel between Eq (emit event) (emit other) := by
  refine .update fun left right alike => ⟨alike.streams, alike.lookahead, ?_⟩
  have before : left.events.toList =
      right.events.toList.map (Event.mapVerbatim between.restore) := alike.tell
  simp [Tell, before, same]

theorem emitAnnotations_parallel {uses : List (AnnotationUse TypeExpr)} :
    Parallel between Eq (emitAnnotations (uses.map (AnnotationUse.mapVerbatim between.restore)))
      (emitAnnotations uses) := by
  induction uses with
  | nil => exact .pure rfl
  | cons use rest ih =>
      have first : Parallel between Eq (emit (.annotated (use.mapVerbatim between.restore)))
          (emit (.annotated use)) := emit_parallel rfl
      exact first.andThen fun _ => ih

/-! ### Repetition -/

/-- What holds of every larger budget holds of one that is larger by one more round. -/
theorem forall_larger {budget : Nat} {holds : Nat → Prop}
    (round : ∀ larger, budget ≤ larger → holds (larger + 1)) :
    ∀ larger, budget + 1 ≤ larger → holds larger
  | larger + 1, le => round larger (Nat.le_of_succ_le_succ le)

section Repetition

variable (change : α → α) {budget larger : Nat}

/-- A part that finds corresponding values finds as many of them. -/
theorem many_parallel {part other : ReadM (Option α)}
    (round : Parallel between (fun found found' => found = found'.map change) part other)
    (le : budget ≤ larger) :
    Parallel between (fun found found' => found = found'.map change) (many part budget)
      (many other larger) := by
  induction budget generalizing larger with
  | zero => exact .exhausted
  | succ budget ih =>
      obtain ⟨larger, rfl⟩ := Nat.exists_eq_add_of_lt le
      refine round.bind fun found found' same => ?_
      subst same
      cases found' with
      | none => exact .pure rfl
      | some value => exact (ih (by omega)).bind fun _ _ rest => .pure (by rw [rest]; rfl)

theorem many_parallel_eq {part other : ReadM (Option α)} (round : Parallel between Eq part other)
    (le : budget ≤ larger) : Parallel between Eq (many part budget) (many other larger) := by
  refine (many_parallel id (round.weaken ?_) le).weaken ?_
  · simp
  · simp

theorem iterate_parallel {σ : Type} {states : σ → σ → Prop} {part other : σ → ReadM (σ ⊕ α)}
    (round : ∀ value value', states value value' →
      Parallel between (Sum.LiftRel states values) (part value) (other value'))
    (le : budget ≤ larger) {value value' : σ} (first : states value value') :
    Parallel between values (iterate part budget value) (iterate other larger value') := by
  induction budget generalizing larger value value' with
  | zero => exact .exhausted
  | succ budget ih =>
      obtain ⟨larger, rfl⟩ := Nat.exists_eq_add_of_lt le
      refine (round value value' first).bind fun outcome outcome' lifted => ?_
      cases lifted with
      | inl next => exact ih (by omega) next
      | inr result => exact .pure result

variable (lawful : between.Lawful)

include lawful

theorem separatedBy_parallel {symbol : Mark} {part other : ReadM α}
    (round : Parallel between (fun value value' => value = change value') part other)
    (le : budget ≤ larger) :
    Parallel between (fun found found' => found = found'.map change)
      (separatedBy symbol part budget) (separatedBy symbol other larger) := by
  induction budget generalizing larger with
  | zero => exact .exhausted
  | succ budget ih =>
      obtain ⟨larger, rfl⟩ := Nat.exists_eq_add_of_lt le
      refine round.bind fun value value' same => (acceptMark_parallel lawful symbol).andThen
        fun more => .ite (fun _ => ?_) fun _ => .pure (by rw [same]; rfl)
      exact (ih (by omega)).bind fun _ _ rest => .pure (by rw [same, rest]; rfl)

theorem separatedBy_parallel_eq {symbol : Mark} {part other : ReadM α}
    (round : Parallel between Eq part other) (le : budget ≤ larger) :
    Parallel between Eq (separatedBy symbol part budget) (separatedBy symbol other larger) := by
  refine (separatedBy_parallel id lawful round le).weaken ?_
  simp

theorem listUntil_parallel {closing : Mark} {part other : ReadM α}
    (round : Parallel between (fun value value' => value = change value') part other)
    (le : budget ≤ larger) :
    Parallel between (fun found found' => found = found'.map change)
      (listUntil closing part budget) (listUntil closing other larger) := by
  induction budget generalizing larger with
  | zero => exact .exhausted
  | succ budget ih =>
      obtain ⟨larger, rfl⟩ := Nat.exists_eq_add_of_lt le
      refine (isMark_parallel lawful closing).andThen fun ended =>
        .ite (fun _ => .pure rfl) fun _ => round.bind fun value value' same =>
          (acceptMark_parallel lawful .comma).andThen fun more => .ite (fun _ => ?_) fun _ =>
            .pure (by rw [same]; rfl)
      exact (ih (by omega)).bind fun _ _ rest => .pure (by rw [same, rest]; rfl)

/-! ### Names and blocks -/

theorem qualifiedName_parallel (le : budget ≤ larger) :
    Parallel between Eq (qualifiedName budget) (qualifiedName larger) := by
  refine (identifier_parallel lawful).andThen fun first =>
    (many_parallel_eq ?_ le).andThen fun more => .pure rfl
  refine (Parallel.both (isMark_parallel lawful .dot) (isAt_parallel lawful 1 .identifier)).andThen
    fun continues => .ite (fun _ => ?_) fun _ => .pure rfl
  exact (take_parallel lawful).bind fun _ _ _ =>
    (identifier_parallel lawful).andThen fun _ => .pure rfl

theorem blockText_parallel :
    Parallel between (fun text text' => text = between.restore text') blockText blockText := by
  refine (expectMark_parallel lawful .leftBrace _).bind fun opening opening' tokens =>
    .get fun left right alike => ?_
  have length := alike.lookahead.length_eq
  cases ahead : left.lookahead with
  | cons token rest =>
      cases ahead' : right.lookahead with
      | nil => simp [ahead, ahead'] at length
      | cons token' rest' => exact .failed tokens.place alike.tell
  | nil =>
      cases ahead' : right.lookahead with
      | cons token' rest' => simp [ahead, ahead'] at length
      | nil =>
          have cut := lawful.block alike.streams
          simp only [List.isEmpty_nil, if_true]
          cases ended : left.stream.takeBlock with
          | mk result stream =>
              cases ended' : right.stream.takeBlock with
              | mk result' stream' =>
                  rw [ended, ended'] at cut
                  cases cut with
                  | block same streams =>
                      exact .done same ⟨streams, .nil, alike.tell⟩
                  | failure place => exact .failed place alike.tell

end Repetition

end ReadM

end JavaDecl
