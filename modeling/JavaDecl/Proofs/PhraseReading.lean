import JavaDecl.Grammar.Types
import JavaDecl.Proofs.TokenReading

/-!
# Reading expressions, annotations and types ends

The parts of declarations announce nothing but comments.  Each of them needs a budget
that is a multiple of the tokens that are left; the summands after it put the parts
that nest in an order in which every part has budget for the ones inside it.
-/

namespace JavaDecl.ReadM

open Reading

variable {language : EventLanguage} {before : Reading} {budget : Nat}

/-! ### Expressions -/

theorem AngleLook.after_endOfInput (look : AngleLook) :
    look.after .endOfInput = .inr none := rfl

theorem AngleLook.pos_of_after {look : AngleLook} {kind : TokenKind} {count : Nat}
    (found : look.after kind = .inr (some count)) : 0 < count := by
  unfold AngleLook.after at found
  split at found
  · cases found
  · split at found
    · cases found
      exact Nat.succ_pos _
    · cases found
  · split at found <;> cases found

theorem AngleLook.pos_of_afterAll {tokens : List Token} {look : AngleLook} {count : Nat}
    (found : look.afterAll tokens = .inr (some count)) : 0 < count := by
  induction tokens generalizing look with
  | nil => cases found
  | cons token tokens ih =>
      unfold AngleLook.afterAll at found
      split at found
      · exact ih found
      · next seen =>
          cases found
          exact AngleLook.pos_of_after seen

/-- The tokens that a look has added are put aside: with them no more is left than at
the beginning. -/
def PutAside (before : Reading) (added : Array Token) (after : Reading) : Prop :=
  after.lookahead = before.lookahead ∧
    after.size + (added.countP fun token => token.kind != .endOfInput) ≤ before.size

theorem lookFurther_announces (language : EventLanguage) {start : Reading}
    (value : AngleLook × Array Token) (aside : PutAside before value.2 start) :
    Announces language.Holds (lookFurther value) start
      (AfterRound (fun next after => PutAside before next.2 after ∧ after.size < start.size)
        fun result after =>
          PutAside before result.2 after ∧ ∀ count, result.1 = some count → 0 < count) := by
  obtain ⟨look, added⟩ := value
  apply Announces.bind (pull_announces language start)
  intro token between follows pulled
  have more : PutAside before (added.push token) between := by
    refine ⟨pulled.1.trans aside.1, ?_⟩
    have smaller := follows.size_le
    have bound : start.size + (added.countP fun token => token.kind != .endOfInput) ≤ _ := aside.2
    rw [Array.countP_push]
    by_cases ended : token.kind = .endOfInput
    · simp only [ended, bne_self_eq_false, Bool.false_eq_true, if_false]
      omega
    · have := pulled.2 ended
      simp only [bne_iff_ne, ne_eq, ended, not_false_eq_true, if_true]
      omega
  cases seen : look.after token.kind with
  | inr found =>
      refine .pure ⟨more, fun count equal => ?_⟩
      subst equal
      exact AngleLook.pos_of_after seen
  | inl next =>
      refine .pure ⟨more, pulled.2 fun ended => ?_⟩
      rw [ended, AngleLook.after_endOfInput] at seen
      cases seen

theorem typeArgumentsAhead?_announces (language : EventLanguage) (enough : before.size < budget) :
    Announces language.Holds (typeArgumentsAhead? budget) before fun found after =>
      before.LooksOn after ∧ ∀ count, found = some count → 0 < count := by
  apply Announces.get
  split
  · next found seen =>
      refine .pure ⟨.refl before, fun count equal => ?_⟩
      subst equal
      exact AngleLook.pos_of_afterAll seen
  · next look _ =>
      have looked : Announces language.Holds (iterate lookFurther budget (look, #[])) before
          fun outcome after => PutAside before outcome.2 after ∧
            ∀ count, outcome.1 = some count → 0 < count :=
        iterate_announces (fun value => PutAside before value.2) (fun _ reading => reading.size)
          (fun value start _ aside => lookFurther_announces language value aside)
          ⟨rfl, by simp⟩ enough
      refine .bindUpdate looked ?_ ?_
      · intro outcome between follows ended
        refine ⟨follows.told, ?_⟩
        have bound := ended.1.2
        simp only [Reading.size, List.countP_append, Array.countP_toList] at bound ⊢
        omega
      · intro outcome between _ ended
        exact .pure ⟨⟨outcome.2.toList, by simp [ended.1.1]⟩, ended.2⟩

section Steps

variable (language) (extent : Extent) {limit : Nat} (small : before.size ≤ limit)

include small

theorem extend_announces (inside : before.IsInside) :
    Announces language.Holds (extend extent) before fun outcome after =>
      outcome.isLeft → after.size < limit :=
  .bind (take_announces language before) fun _ _ _ taken => .pure fun _ =>
    Nat.lt_of_lt_of_le (taken inside) small

theorem extendOverBlock_announces :
    Announces language.Holds (extendOverBlock extent) before fun outcome after =>
      outcome.isLeft → after.size < limit :=
  .bind (blockText_announces language before) fun _ _ _ taken => .get (.pure fun _ =>
    Nat.lt_of_lt_of_le taken small)

theorem extendOverAngle_announces (inside : before.IsInside) (enough : before.size < budget) :
    Announces language.Holds (extendOverAngle budget extent) before fun outcome after =>
      outcome.isLeft → after.size < limit := by
  refine .bind (typeArgumentsAhead?_announces language enough) fun found between follows ahead => ?_
  have still := ahead.1.isInside inside
  have bound := Nat.le_trans follows.size_le small
  cases found with
  | none => exact extend_announces language extent bound still
  | some count =>
      refine .bind (takeMany_announces language count between) fun _ _ _ taken => .pure fun _ => ?_
      exact Nat.lt_of_lt_of_le (taken still (ahead.2 count rfl)) bound

end Steps

/-- A step through an expression that does not end it takes a token. -/
theorem expressionStep_announces (language : EventLanguage) (terminators : List Mark)
    (extent : Extent) (enough : before.size < budget) :
    Announces language.Holds (expressionStep budget terminators extent) before
      fun outcome after => outcome.isLeft → after.size < before.size := by
  apply Announces.bind (kindAt_announces language 0 before)
  intro kind between follows looked
  have small := follows.size_le
  have inside : kind ≠ .endOfInput → between.IsInside := isInside_of_kindAt? looked.2
  split
  · exact refuse_announces language _ between _
  · dsimp only
    split
    · exact .pure (by simp)
    · have here := inside (by simp)
      split
      · exact extend_announces language _ small here
      · exact extend_announces language _ small here
      · exact extend_announces language _ small here
      · exact extend_announces language _ small here
      · exact extendOverBlock_announces language _ small
      · exact extendOverAngle_announces language _ small here (Nat.lt_of_le_of_lt small enough)
      · exact extend_announces language _ small here
  · next notEnd _ => exact extend_announces language _ small (inside notEnd)

theorem expressionText_announces (language : EventLanguage) (terminators : List Mark)
    (enough : before.size < budget) :
    Announces language.Holds (expressionText budget terminators) before fun _ _ => True := by
  apply Announces.bind (peek_announces language 0 before)
  intro first start follows _
  have small := follows.size_le
  have ended : Announces language.Holds
      (iterate (expressionStep budget terminators) budget { depth := 0, stop := first.span.first })
      start fun _ _ => True := by
    refine iterate_announces (fun _ _ => True) (fun _ reading => reading.size)
      (fun extent step bound _ => ?_) trivial (by omega)
    refine (expressionStep_announces language terminators extent (by omega)).weaken
      fun outcome after _ shrinks => ?_
    cases outcome with
    | inl next => exact ⟨trivial, shrinks rfl⟩
    | inr stop => trivial
  apply Announces.bind ended
  intro stop after _ _
  dsimp only
  split
  · exact refuse_announces language _ after _
  · exact .get (.pure trivial)

/-! ### Annotations and modifiers -/

theorem endsValue_announces (language : EventLanguage) (skipped : Nat) (before : Reading) :
    Announces language.Holds (endsValue skipped) before fun _ after => before.LooksOn after :=
  .bind (kindAt_announces language skipped before) fun _ _ _ looked => .pure looked.1

/-- The tokens before a position are looked at, and the end of the source is not among
them. -/
def InsideUpTo (reading : Reading) (seen : Nat) : Prop :=
  ∀ skipped < seen, ∃ kind, reading.kindAt? skipped = some kind ∧ kind ≠ .endOfInput

theorem InsideUpTo.le_size {reading : Reading} {seen : Nat} (inside : InsideUpTo reading seen) :
    seen ≤ reading.size := by
  have long : seen ≤ reading.lookahead.length := by
    cases seen with
    | zero => exact Nat.zero_le _
    | succ last =>
        obtain ⟨kind, found, _⟩ := inside last (Nat.lt_succ_self last)
        obtain ⟨token, present, _⟩ := Option.map_eq_some_iff.mp found
        exact (List.getElem?_eq_some_iff.mp present).1
  have all : ((reading.lookahead.take seen).countP fun token => token.kind != .endOfInput) =
      (reading.lookahead.take seen).length := by
    refine List.countP_eq_length.mpr fun token member => ?_
    obtain ⟨skipped, bound, same⟩ := List.mem_iff_getElem.mp member
    have below : skipped < seen := by simp at bound; omega
    obtain ⟨kind, found, other⟩ := inside skipped below
    have known : reading.lookahead[skipped]? = some token := by
      rw [← same, List.getElem_take, List.getElem?_eq_getElem]
    simp only [kindAt?, known, Option.map_some, Option.some.injEq] at found
    simpa [found] using other
  have counted := (List.take_sublist seen reading.lookahead).countP_le
    (p := fun token => token.kind != .endOfInput)
  rw [all, List.length_take_of_le long] at counted
  exact Nat.le_trans counted (Nat.le_add_left _ _)

theorem InsideUpTo.looksOn {first second : Reading} {seen : Nat}
    (inside : InsideUpTo first seen) (looks : first.LooksOn second) :
    InsideUpTo second seen := by
  intro skipped below
  obtain ⟨kind, found, other⟩ := inside skipped below
  exact ⟨kind, looks.kindAt? found, other⟩

theorem classNameAhead_step_announces (language : EventLanguage) (first : TokenKind) {seen : Nat}
    (inside : InsideUpTo before seen) :
    Announces language.Holds (classNameAhead.step first seen) before
      (AfterRound (fun next after => next = seen + 2 ∧ InsideUpTo after next) fun _ _ => True) := by
  apply Announces.bind (kindAt_announces language seen before)
  intro kind one _ looked
  refine .bind (kindAt_announces language (seen + 1) one) fun next two _ more => .pure ?_
  split
  · next continues =>
      refine ⟨rfl, fun skipped below => ?_⟩
      have kinds : kind ≠ .endOfInput ∧ next ≠ .endOfInput := by
        constructor <;> rintro rfl <;> simp at continues
      by_cases old : skipped < seen
      · exact (inside.looksOn (looked.1.trans more.1)) skipped old
      · by_cases here : skipped = seen
        · exact ⟨kind, by rw [here]; exact more.1.kindAt? looked.2, kinds.1⟩
        · exact ⟨next, by rw [show skipped = seen + 1 by omega]; exact more.2, kinds.2⟩
  · trivial

theorem classNameAhead_announces (language : EventLanguage) (first : TokenKind)
    (inside : before.IsInside) (enough : before.size < budget) :
    Announces language.Holds (classNameAhead budget first) before fun _ _ => True := by
  refine iterate_announces (fun seen reading => InsideUpTo reading seen)
    (fun seen _ => before.size - seen) (fun seen start small known => ?_) ?_ (by omega)
  · refine (classNameAhead_step_announces language first known).weaken
      fun outcome after follows ended => ?_
    cases outcome with
    | inr _ => trivial
    | inl next =>
        obtain ⟨rfl, inner⟩ := ended
        have := inner.le_size
        have := follows.size_le
        exact ⟨inner, by omega⟩
  · intro skipped below
    rw [Nat.lt_one_iff.mp below]
    exact inside

theorem classLiteral?_announces (language : EventLanguage) (enough : before.size < budget) :
    Announces language.Holds (classLiteral? budget) before fun _ _ => True := by
  apply Announces.bind (kindAt_announces language 0 before)
  intro first start follows looked
  have small := follows.size_le
  split
  · next named =>
      have inside : start.IsInside := by
        apply isInside_of_kindAt? looked.2
        rintro rfl
        simp [TokenKind.isPrimitiveType] at named
      refine .bind (classNameAhead_announces language first inside (by omega))
        fun count between _ _ => ?_
      refine .bind (.both (isAt_announces language count _ between) fun mid =>
        .both (isAt_announces language (count + 1) _ mid) fun last =>
          (endsValue_announces language (count + 2) last).forget) fun isLiteral after _ _ => ?_
      cases isLiteral with
      | false => exact .pure trivial
      | true =>
          apply Announces.bind (takeMany_announces language count after)
          intro _ _ _ _
          exact .bind (takeMany_announces language 2 _) fun _ _ _ _ => .pure trivial
  · exact .pure trivial

/-- What the parts of annotations need as budget, by how they nest. -/
structure AnnotationsAnnounce (language : EventLanguage) (budget : Nat) : Prop where
  annotationUse : ∀ before : Reading, 8 * before.size + 1 ≤ budget →
    Announces language.Holds (annotationUse budget) before fun _ after => after.size < before.size
  elementValue : ∀ before : Reading, 8 * before.size + 2 ≤ budget →
    Announces language.Holds (elementValue budget) before fun _ _ => True
  elementPair : ∀ before : Reading, 8 * before.size + 2 ≤ budget →
    Announces language.Holds (elementPair budget) before fun _ _ => True
  elementValues : ∀ before : Reading, 8 * before.size + 3 ≤ budget →
    Announces language.Holds (elementValues budget) before fun _ _ => True

theorem annotationUse_succ_announces (inner : AnnotationsAnnounce language budget)
    (enough : 8 * before.size + 1 ≤ budget + 1) :
    Announces language.Holds (annotationUse (budget + 1)) before
      fun _ after => after.size < before.size := by
  rw [annotationUse]
  apply Announces.bind (expectMark_announces language .atSign _ before)
  intro sign start _ opened
  apply Announces.bind (qualifiedName_announces language (by omega))
  intro name named _ shorter
  apply Announces.bind (acceptMark_announces language .leftParen named)
  intro bracket between follows taken
  have small := follows.size_le
  cases bracket with
  | false => exact .given (.pure (by omega))
  | true =>
      have := taken rfl
      refine .bind (inner.elementValues between (by omega)) fun _ after further _ => .pure ?_
      have := further.size_le
      omega

theorem elementValue_succ_announces (inner : AnnotationsAnnounce language budget)
    (enough : 8 * before.size + 2 ≤ budget + 1) :
    Announces language.Holds (elementValue (budget + 1)) before fun _ _ => True := by
  rw [elementValue]
  apply Announces.bind (isMark_announces language .atSign before)
  intro nested start follows _
  have small := follows.size_le
  split
  · exact .bind (inner.annotationUse start (by omega)) fun _ _ _ _ => .pure trivial
  apply Announces.bind (acceptMark_announces language .leftBrace start)
  intro array between further taken
  have smaller := further.size_le
  split
  · next opened =>
      have := taken opened
      refine .bind (listUntil_announces (fun item bound => inner.elementValue item (by omega))
        (by omega)) fun _ after _ _ => ?_
      exact .bind (expectMark_announces language .rightBrace _ after) fun _ _ _ _ => .pure trivial
  refine .bind (classLiteral?_announces language (by omega)) fun literal after more _ => ?_
  have smallest := more.size_le
  cases literal with
  | some type => exact .pure trivial
  | none =>
      have literally : Announces language.Holds (TokenKind.isLiteral <$> kindAt 0) after
          fun _ _ => True := .map (kindAt_announces language 0 after).forget
      refine .bind (.both literally fun mid => (endsValue_announces language 1 mid).forget)
        fun single last rest _ => ?_
      have least := rest.size_le
      split
      · exact .bind (take_announces language last) fun _ _ _ _ => .pure trivial
      · exact .bind (expressionText_announces language _ (by omega)) fun _ _ _ _ => .pure trivial

theorem elementPair_succ_announces (inner : AnnotationsAnnounce language budget)
    (enough : 8 * before.size + 2 ≤ budget + 1) :
    Announces language.Holds (elementPair (budget + 1)) before fun _ _ => True := by
  rw [elementPair]
  apply Announces.bind (identifier_announces language before)
  intro element start _ named
  apply Announces.bind (expectMark_announces language .assign _ start)
  intro _ between _ assigned
  exact .bind (inner.elementValue between (by omega)) fun _ _ _ _ => .pure trivial

theorem elementValues_succ_announces (inner : AnnotationsAnnounce language budget)
    (enough : 8 * before.size + 3 ≤ budget + 1) :
    Announces language.Holds (elementValues (budget + 1)) before fun _ _ => True := by
  rw [elementValues]
  apply Announces.bind (isMark_announces language .rightParen before)
  intro none start follows _
  refine .bind (.both (isNext_announces language .identifier start)
    fun mid => (isAt_announces language 1 _ mid).forget) fun paired between further _ => ?_
  have small := Nat.le_trans further.size_le follows.size_le
  have closing (values : List (String × ElementValue TypeExpr)) (last : Reading) :
      Announces language.Holds
        (expectMark .rightParen "')' after annotation values" >>= fun _ => pure values) last
        fun _ _ => True :=
    .bind (expectMark_announces language .rightParen _ last) fun _ _ _ _ => .pure trivial
  dsimp only
  split
  · exact .given (closing _ between)
  split
  · exact .bind (separatedBy_announces (fun pair bound => inner.elementPair pair (by omega))
      (by omega)) fun _ last _ _ => closing _ last
  · apply Announces.bind (inner.elementValue between (by omega))
    intro _ after _ _
    exact .given (closing _ after)

theorem annotationsAnnounce (language : EventLanguage) (budget : Nat) :
    AnnotationsAnnounce language budget := by
  induction budget with
  | zero => exact ⟨by omega, by omega, by omega, by omega⟩
  | succ budget ih =>
      exact ⟨fun _ => annotationUse_succ_announces ih, fun _ => elementValue_succ_announces ih,
        fun _ => elementPair_succ_announces ih, fun _ => elementValues_succ_announces ih⟩

theorem annotationUse_announces (language : EventLanguage)
    (enough : 8 * before.size + 1 ≤ budget) :
    Announces language.Holds (annotationUse budget) before fun _ after =>
      after.size < before.size :=
  (annotationsAnnounce language budget).annotationUse before enough

theorem modifier?_announces (language : EventLanguage) (enough : 8 * before.size + 1 ≤ budget) :
    Announces language.Holds (modifier? budget) before fun found after =>
      found.isSome → after.size < before.size := by
  apply Announces.bind (kindAt_announces language 0 before)
  intro kind start follows looked
  have small := follows.size_le
  have taking (last : Reading) (bound : last.size ≤ before.size) (inside : last.IsInside) :
      Announces language.Holds
        (take >>= fun token => pure (some (.inr token.text))) last
        fun (found : Option (AnnotationUse TypeExpr ⊕ String)) after =>
          found.isSome → after.size < before.size :=
    .bind (take_announces language last) fun _ _ _ taken => .pure fun _ =>
      Nat.lt_of_lt_of_le (taken inside) bound
  split
  · apply Announces.bind (isAt_announces language 1 _ start)
    intro typed between further _
    have smaller := further.size_le
    split
    · exact .pure (by simp)
    · exact .bind (annotationUse_announces language (by omega)) fun _ after _ taken =>
        .pure fun _ => Nat.lt_of_lt_of_le taken (by omega)
  split
  · next worded =>
      refine taking start small (isInside_of_kindAt? looked.2 ?_)
      rintro rfl
      simp [TokenKind.isModifier] at worded
  refine .bind (.andM (isWordAt_announces language 0 "sealed" start)
    fun mid _ word => (Announces.map ((kindAt_announces language 1 mid).weaken
      fun _ last _ looks => looks.1.kindAt? (word.2 rfl))).weaken fun _ _ _ known _ => known)
    fun isSealed between further word => ?_
  have smaller := further.size_le
  split
  · next isSealed => exact taking between (by omega) (isInside_of_kindAt? (word isSealed) (by simp))
  refine .bind (.andM (isWordAt_announces language 0 "non" between)
    fun mid _ word => .andM (isAt_announces language 1 _ mid)
      fun last _ mark => (isWordAt_announces language 2 "sealed" last).weaken
        fun _ final _ looks _ => (mark.1.trans looks.1).kindAt? (word.2 rfl))
    fun isOpen last more word => ?_
  have smallest := more.size_le
  split
  · next isOpen =>
      refine .bind (takeMany_announces language 3 last) fun _ _ _ taken => .pure fun _ => ?_
      have := taken (isInside_of_kindAt? (word isOpen) (by simp)) (by decide)
      omega
  · exact .pure (by simp)

theorem modifiers_announces (language : EventLanguage) (enough : 8 * before.size + 1 ≤ budget) :
    Announces language.Holds (modifiers budget) before fun _ _ => True :=
  .bind (many_announces (fun _ _ => modifier?_announces language (by omega)) (by omega))
    fun _ _ _ _ => .pure trivial

/-! ### Types -/

theorem skipAnnotations_announces (language : EventLanguage)
    (enough : 8 * before.size + 1 ≤ budget) :
    Announces language.Holds (skipAnnotations budget) before fun _ _ => True := by
  refine .bind (many_announces (fun start bound => ?_) (by omega)) fun _ _ _ _ => .pure trivial
  have other (mid : Reading) : Announces language.Holds
      (not <$> isAt 1 (.keyword .interfaceKw)) mid fun _ _ => True :=
    .map (isAt_announces language 1 _ mid).forget
  apply Announces.bind (.both (isMark_announces language .atSign start) other)
  intro annotated mid follows _
  have small := follows.size_le
  split
  · exact .bind (annotationUse_announces language (by omega)) fun _ _ _ taken =>
      .pure fun _ => Nat.lt_of_lt_of_le taken small
  · exact .pure (by simp)

theorem dimensions_announces (language : EventLanguage) (enough : before.size < budget) :
    Announces language.Holds (dimensions budget) before fun _ _ => True := by
  refine .bind (many_announces (fun start bound => ?_) enough) fun _ _ _ _ => .pure trivial
  refine .bind (.andM (isMark_announces language .leftBracket start)
    fun mid _ opened => (isAt_announces language 1 _ mid).weaken
      fun _ _ _ looks _ => looks.1.kindAt? (opened.2 rfl)) fun paired mid follows opened => ?_
  have small := follows.size_le
  split
  · next paired =>
      refine .bind (takeMany_announces language 2 mid) fun _ _ _ taken => .pure fun _ => ?_
      have := taken (isInside_of_kindAt? (opened paired) (by simp)) (by decide)
      omega
  · exact .pure (by simp)

/-- What the parts of types need as budget, by how they nest. -/
structure TypesAnnounce (language : EventLanguage) (budget : Nat) : Prop where
  optionalArguments : ∀ before : Reading, 8 * before.size + 2 ≤ budget →
    Announces language.Holds (optionalArguments budget) before fun _ _ => True
  classTypePart : ∀ (before : Reading) (type : TypeExpr), 8 * before.size + 2 ≤ budget →
    Announces language.Holds (classTypePart budget type) before fun outcome after =>
      outcome.isLeft → after.size < before.size
  classType : ∀ before : Reading, 8 * before.size + 2 ≤ budget →
    Announces language.Holds (classType budget) before fun _ after => after.size < before.size
  typeExpr : ∀ before : Reading, 8 * before.size + 3 ≤ budget →
    Announces language.Holds (typeExpr budget) before fun _ after => after.size < before.size
  typeArgument : ∀ before : Reading, 8 * before.size + 4 ≤ budget →
    Announces language.Holds (typeArgument budget) before fun _ _ => True

theorem optionalArguments_succ_announces (inner : TypesAnnounce language budget)
    (enough : 8 * before.size + 2 ≤ budget + 1) :
    Announces language.Holds (optionalArguments (budget + 1)) before fun _ _ => True := by
  rw [optionalArguments]
  apply Announces.bind (acceptMark_announces language .less before)
  intro opens start follows opened
  split
  · next opens =>
      have := opened opens
      apply Announces.bind (acceptMark_announces language .greater start)
      intro closes between further _
      have := further.size_le
      split
      · exact .pure trivial
      · refine .bind (separatedBy_announces (fun arg bound => inner.typeArgument arg (by omega))
          (by omega)) fun _ after _ _ => ?_
        exact .bind (expectMark_announces language .greater _ after) fun _ _ _ _ => .pure trivial
  · exact .pure trivial

theorem classTypePart_succ_announces (inner : TypesAnnounce language budget) (type : TypeExpr)
    (enough : 8 * before.size + 2 ≤ budget + 1) :
    Announces language.Holds (classTypePart (budget + 1) type) before fun outcome after =>
      outcome.isLeft → after.size < before.size := by
  rw [classTypePart]
  have isName (mid : Reading) : Announces language.Holds
      ((fun kind => kind == .identifier || kind == .mark .atSign) <$> kindAt 1) mid
      fun _ _ => True :=
    .map (kindAt_announces language 1 mid).forget
  apply Announces.bind (.both (isMark_announces language .dot before) isName)
  intro continues start follows _
  have := follows.size_le
  split
  · apply Announces.bind (take_announces language start)
    intro _ dotted more _
    have := more.size_le
    apply Announces.bind (skipAnnotations_announces language (by omega))
    intro _ bare still _
    have := still.size_le
    apply Announces.bind (identifier_announces language bare)
    intro _ named _ shorter
    refine .bind (inner.optionalArguments named (by omega)) fun _ after further _ =>
      .pure fun _ => ?_
    have := further.size_le
    omega
  · exact .pure (by simp)

theorem classType_succ_announces (inner : TypesAnnounce language budget)
    (enough : 8 * before.size + 2 ≤ budget + 1) :
    Announces language.Holds (classType (budget + 1)) before fun _ after =>
      after.size < before.size := by
  rw [classType]
  apply Announces.bind (identifier_announces language before)
  intro name start _ named
  apply Announces.bind (inner.optionalArguments start (by omega))
  intro args between follows _
  have small := follows.size_le
  refine iterate_announces (fun _ reading => reading.size < before.size)
    (fun _ reading => reading.size) (fun type part bound known => ?_) (by omega) (by omega)
  apply Announces.weaken (inner.classTypePart part type (by omega))
  intro outcome after further shrinks
  have := further.size_le
  cases outcome with
  | inl next => exact ⟨by omega, shrinks rfl⟩
  | inr type => exact Nat.lt_of_le_of_lt further.size_le known

theorem typeExpr_succ_announces (inner : TypesAnnounce language budget)
    (enough : 8 * before.size + 3 ≤ budget + 1) :
    Announces language.Holds (typeExpr (budget + 1)) before fun _ after =>
      after.size < before.size := by
  rw [typeExpr]
  apply Announces.bind (skipAnnotations_announces language (by omega))
  intro _ bare still _
  have := still.size_le
  apply Announces.bind (kindAt_announces language 0 bare)
  intro kind start follows looked
  have := follows.size_le
  have sized (type : TypeExpr) (last : Reading) (shorter : last.size < before.size) :
      Announces language.Holds (dimensions budget >>= fun more => pure (type.addDims more)) last
        fun _ after => after.size < before.size :=
    .bind (dimensions_announces language (by omega)) fun _ _ further _ =>
      .pure (Nat.lt_of_le_of_lt further.size_le shorter)
  dsimp only
  split
  · next primitive =>
      refine .bind (take_announces language start) fun _ after _ taken => .given (sized _ _ ?_)
      have inside : start.IsInside := by
        apply isInside_of_kindAt? looked.2
        rintro rfl
        simp [TokenKind.isPrimitiveType] at primitive
      have := taken inside
      omega
  · exact .bind (inner.classType start (by omega)) fun _ after _ named =>
      sized _ _ (by omega)

theorem typeArgument_succ_announces (inner : TypesAnnounce language budget)
    (enough : 8 * before.size + 4 ≤ budget + 1) :
    Announces language.Holds (typeArgument (budget + 1)) before fun _ _ => True := by
  rw [typeArgument]
  apply Announces.bind (skipAnnotations_announces language (by omega))
  intro _ bare still _
  have := still.size_le
  have typed (last : Reading) (bound : last.size ≤ before.size)
      (wrap : TypeExpr → TypeArgument TypeExpr) :
      Announces language.Holds (typeExpr budget >>= fun type => pure (wrap type)) last
        fun _ _ => True :=
    .bind (inner.typeExpr last (by omega)) fun _ _ _ _ => .pure trivial
  apply Announces.bind (acceptMark_announces language .question bare)
  intro wildcard start follows _
  have := follows.size_le
  split
  · apply Announces.bind (acceptKeyword_announces language .extendsKw start)
    intro upper mid further _
    have := further.size_le
    split
    · exact typed mid (by omega) _
    · apply Announces.bind (acceptKeyword_announces language .superKw mid)
      intro lower last more _
      have := more.size_le
      split
      · exact typed last (by omega) _
      · exact .pure trivial
  · exact typed start (by omega) _

theorem typesAnnounce (language : EventLanguage) (budget : Nat) :
    TypesAnnounce language budget := by
  induction budget with
  | zero => exact ⟨by omega, by omega, by omega, by omega, by omega⟩
  | succ budget ih =>
      exact ⟨fun _ => optionalArguments_succ_announces ih,
        fun _ type => classTypePart_succ_announces ih type, fun _ => classType_succ_announces ih,
        fun _ => typeExpr_succ_announces ih, fun _ => typeArgument_succ_announces ih⟩

theorem typeExpr_announces (language : EventLanguage) (enough : 8 * before.size + 3 ≤ budget) :
    Announces language.Holds (typeExpr budget) before fun _ after => after.size < before.size :=
  (typesAnnounce language budget).typeExpr before enough

theorem typeList_announces (language : EventLanguage) (enough : 8 * before.size + 3 ≤ budget) :
    Announces language.Holds (typeList budget) before fun _ _ => True :=
  separatedBy_announces (fun _ _ => (typeExpr_announces language (by omega)).forget) (by omega)

theorem typeParameter_announces (language : EventLanguage)
    (enough : 8 * before.size + 3 ≤ budget) :
    Announces language.Holds (typeParameter budget) before fun _ _ => True := by
  apply Announces.bind (skipAnnotations_announces language (by omega))
  intro _ bare still _
  have := still.size_le
  apply Announces.bind (identifier_announces language bare)
  intro name named _ shorter
  apply Announces.bind (acceptKeyword_announces language .extendsKw named)
  intro bounded start follows _
  have := follows.size_le
  dsimp only
  split
  · exact .bind (separatedBy_announces
      (fun _ _ => (typeExpr_announces language (by omega)).forget) (by omega))
      fun _ _ _ _ => .pure trivial
  · exact .given (.pure trivial)

theorem optionalParameters_announces (language : EventLanguage)
    (enough : 8 * before.size + 3 ≤ budget) :
    Announces language.Holds (optionalParameters budget) before fun _ _ => True := by
  apply Announces.bind (acceptMark_announces language .less before)
  intro opens start follows _
  have := follows.size_le
  split
  · refine .bind (separatedBy_announces (fun _ _ => typeParameter_announces language (by omega))
      (by omega)) fun _ after _ _ => ?_
    exact .bind (expectMark_announces language .greater _ after) fun _ _ _ _ => .pure trivial
  · exact .pure trivial

end JavaDecl.ReadM
