import JavaDecl.Proofs.FoundTokens

/-!
# Annotations that are found

What is read as an annotation without a fault stands in front of the text that it leaves, and so
do the annotations and modifier words of a declaration.
-/

namespace JavaDecl

/-- No annotation and no modifier word comes first. -/
def NoPiece (source text : List Char) : Prop :=
  ∀ piece rest, ¬ Leading source [piece] text rest

/-- All annotations and modifier words in front of a text, as they stand. -/
def ModifiersText (source : List Char) (modifiers : ReadM.Modifiers) (text rest : List Char) :
    Prop :=
  ∃ pieces, modifiers = .ofPieces pieces ∧ Leading source pieces text rest ∧ NoPiece source rest

theorem Leading.append {source text mid rest : List Char}
    {pieces others : List (AnnotationUse TypeExpr ⊕ String)}
    (leading : Leading source pieces text mid) (more : Leading source others mid rest) :
    Leading source (pieces ++ others) text rest := by
  induction leading with
  | none => exact more
  | use stands _ ih => exact .use stands (ih more)
  | word found isWord _ ih => exact .word found isWord (ih more)
  | sealed found isName same further starts _ ih =>
      exact .sealed found isName same further starts (ih more)
  | nonSealed found isName same further isMinus behind isName' same' _ ih =>
      exact .nonSealed found isName same further isMinus behind isName' same' (ih more)

namespace ReadM

variable {β : Type} {source text place mid rest : List Char} {first head next : Head}
  {kind : TokenKind} {heads front : List Head} {budget rounds : Nat}
  {last : β → List Char → List Event → Prop}

/-! ### Names of classes -/

/-- Pairs of tokens that go on with the name of a class. -/
inductive NamePairs (first : TokenKind) : List Head → List Char → List Char → Prop where
  | nil {text : List Char} : NamePairs first [] text text
  | cons {text rest : List Char} {head next : Head} {heads : List Head} :
      Head.of? text = some head → Head.of? head.rest = some next →
        goesOnWithName first head.kind next.kind = true → NamePairs first heads next.rest rest →
          NamePairs first (head :: next :: heads) text rest

theorem NamePairs.goesOn (pairs : NamePairs kind heads text rest)
    (found : Head.of? rest = some head) (noBrace : head.kind ≠ .mark .leftBrace)
    (further : Head.of? head.rest = some next)
    (ends : goesOnWithName kind head.kind next.kind = false) :
    NameGoesOn kind heads text rest := by
  induction pairs with
  | nil => exact .ended found noBrace further ends
  | cons one other two _ ih => exact .pair one other two (ih found)

theorem NamePairs.chain (pairs : NamePairs kind heads text rest) : Heads text heads rest := by
  induction pairs with
  | nil => exact .nil
  | cons found further _ _ ih => exact .cons found (.cons further ih)

theorem classNameSteps_detects (chain : Heads text front place) :
    Detects source (iterate (classNameAhead.step kind) rounds front.length) text fun count rest =>
      rest = text ∧ ∃ heads mid head next, NamePairs kind heads place mid ∧
        Head.of? mid = some head ∧ Head.of? head.rest = some next ∧
          goesOnWithName kind head.kind next.kind = false ∧
            count = front.length + heads.length := by
  induction rounds generalizing front place with
  | zero => exact .exhausted
  | succ rounds ih =>
      rw [iterate, classNameAhead.step]
      simp only [bind_assoc, pure_bind]
      refine .lookBehind chain fun head found => ?_
      have behind : Heads text (front ++ [head]) head.rest := chain.append (.single found)
      have length : front.length + 1 = (front ++ [head]).length := by simp
      rw [length]
      refine .lookBehind behind fun next further => ?_
      rw [← goesOnWithName]
      cases goesOn : goesOnWithName kind head.kind next.kind with
      | false => exact .give ⟨rfl, [], place, head, next, .nil, found, further, goesOn, rfl⟩
      | true =>
          have more := ih (behind.append (.single further))
          simp only [List.length_append, List.length_singleton] at more
          refine more.imp ?_
          rintro _ _ ⟨left, heads, mid, last, after, pairs, found', further', ends, rfl⟩
          refine ⟨left, head :: next :: heads, mid, last, after,
            .cons found further goesOn pairs, found', further', ends, ?_⟩
          simp only [List.length_cons]
          omega

/-! ### A brace behind the name of a class -/

section Blocked

variable {reading before after : Reading} {token brace behind : Token}
  {others tokens more : List Token} {skipped count depth stop : Nat} {terminators : List Mark}

theorem lt_length_of_peek (peeked : peek skipped before = .ok token after) :
    skipped < after.lookahead.length := by
  have got (reading : Reading) : (get : ReadM Reading) reading = .ok reading reading := rfl
  by_cases known : skipped < before.lookahead.length
  · rw [peek_of_seen (List.getElem?_eq_getElem known)] at peeked
    cases peeked
    exact known
  · simp only [peek, Bind.bind, EStateM.bind, got,
      List.getElem?_eq_none (Nat.le_of_not_lt known)] at peeked
    cases filled : fill (skipped + 1 - before.lookahead.length) before with
    | error failure last => simp [filled] at peeked
    | ok _ last =>
        simp only [filled] at peeked
        cases peeked
        rw [length_of_fill filled]
        omega

theorem lt_length_of_classNameStep {seen : Nat} {outcome : Nat ⊕ Nat}
    (ran : classNameAhead.step kind seen before = .ok outcome after) :
    seen + 1 < after.lookahead.length ∧ (outcome = .inl (seen + 2) ∨ outcome = .inr seen) := by
  simp only [classNameAhead.step, kindAt, Bind.bind, EStateM.bind] at ran
  cases first : peek seen before with
  | error failure last => simp [first] at ran
  | ok token mid =>
      cases second : peek (seen + 1) mid with
      | error failure last => simp [first, second, Pure.pure, EStateM.pure] at ran
      | ok other last =>
          simp only [first, second, Pure.pure, EStateM.pure, EStateM.Result.ok.injEq] at ran
          obtain ⟨rfl, rfl⟩ := ran
          refine ⟨lt_length_of_peek second, ?_⟩
          split
          · exact .inl rfl
          · exact .inr rfl

/-- More tokens are looked at than the name of the class has, and one behind them. -/
theorem lt_length_of_classNameSteps {seen : Nat}
    (ran : iterate (classNameAhead.step kind) rounds seen before = .ok count after) :
    count + 1 < after.lookahead.length := by
  induction rounds generalizing seen before with
  | zero => cases ran
  | succ rounds ih =>
      simp only [iterate, Bind.bind, EStateM.bind] at ran
      cases step : classNameAhead.step kind seen before with
      | error failure last => simp [step] at ran
      | ok outcome last =>
          rw [step] at ran
          obtain ⟨looked, rfl | rfl⟩ := lt_length_of_classNameStep step
          · exact ih ran
          · cases ran
            exact looked

theorem bind_of_ok {α : Type} {part : ReadM α} {next : α → ReadM β} {value : α}
    (ran : part before = .ok value after) : (part >>= next) before = next value after := by
  simp only [Bind.bind, EStateM.bind, ran]

theorem kindAt_of_seen (seen : reading.lookahead[skipped]? = some token) :
    kindAt skipped reading = .ok token.kind reading :=
  bind_of_ok (peek_of_seen seen)

/-- A token that is looked at is taken into an expression. -/
theorem extend_of_seen (seen : reading.lookahead = token :: others) (extent : Extent) :
    extend extent reading =
      .ok (.inl (extent.after token)) { reading with lookahead := others } := by
  have taken : take reading = .ok token { reading with lookahead := others } := by
    have first : reading.lookahead[0]? = some token := by simp [seen]
    rw [take_of_seen first, seen, List.tail_cons]
  exact bind_of_ok taken

/-- The tokens that names of classes have are taken into an expression. -/
theorem expressionStep_of_seen (seen : reading.lookahead = token :: others)
    (isPart : opensClassName token.kind = true ∨ token.kind = .mark .dot ∨
      token.kind = .mark .leftBracket ∨ token.kind = .mark .rightBracket ∧ 0 < depth) :
    expressionStep budget [.comma] { depth, stop } reading =
      .ok (.inl { depth := token.kind.depthBehind depth, stop := token.span.stop })
        { reading with lookahead := others } := by
  have looked : kindAt 0 reading = .ok token.kind reading := kindAt_of_seen (by simp [seen])
  rw [expressionStep, bind_of_ok looked]
  rcases isPart with opens | is | is | ⟨is, inside⟩
  · cases same : token.kind with
    | identifier => exact extend_of_seen seen _
    | keyword word => exact extend_of_seen seen _
    | _ =>
        rw [same] at opens
        cases opens
  · rw [is]
    cases depth <;> exact extend_of_seen seen _
  · rw [is]
    cases depth <;> exact extend_of_seen seen _
  · obtain ⟨depth, rfl⟩ := Nat.exists_eq_succ_of_ne_zero inside.ne'
    rw [is]
    exact extend_of_seen seen _

/-- A block is not taken if more than its brace is looked at. -/
theorem expressionStep_of_brace (seen : reading.lookahead = brace :: behind :: more)
    (isBrace : brace.kind = .mark .leftBrace) :
    ∃ failure after,
      expressionStep budget [.comma] { depth, stop } reading = .error failure after := by
  have looked : kindAt 0 reading = .ok brace.kind reading := kindAt_of_seen (by simp [seen])
  have taken : take reading = .ok brace { reading with lookahead := behind :: more } := by
    have first : reading.lookahead[0]? = some brace := by simp [seen]
    rw [take_of_seen first, seen, List.tail_cons]
  have expected : expectMark .leftBrace "'\x7b'" reading =
      .ok brace { reading with lookahead := behind :: more } := by
    have asked : isNext (.mark .leftBrace) reading = .ok true reading := by
      refine (bind_of_ok looked).trans ?_
      rw [isBrace]
      rfl
    exact (bind_of_ok asked).trans taken
  have blocked : ∃ failure after, blockText reading = .error failure after := by
    rw [blockText, bind_of_ok expected]
    exact ⟨_, _, rfl⟩
  obtain ⟨failure, after, blocked⟩ := blocked
  refine ⟨failure, after, ?_⟩
  have fails : extendOverBlock { depth, stop } reading = .error failure after := by
    simp only [extendOverBlock, Bind.bind, EStateM.bind, blocked]
  rw [expressionStep, bind_of_ok looked, isBrace]
  cases depth <;> exact fails

/-- An expression goes on behind a token that is looked at, as far as its budget goes. -/
theorem expressionSteps_of_seen (seen : reading.lookahead = token :: others)
    (isPart : opensClassName token.kind = true ∨ token.kind = .mark .dot ∨
      token.kind = .mark .leftBracket ∨ token.kind = .mark .rightBracket ∧ 0 < depth)
    (blocked : ∀ rounds stop, ∃ failure after,
      iterate (expressionStep budget [.comma]) rounds
        { depth := token.kind.depthBehind depth, stop } { reading with lookahead := others } =
          .error failure after) (rounds stop : Nat) :
    ∃ failure after, iterate (expressionStep budget [.comma]) rounds { depth, stop } reading =
      .error failure after := by
  cases rounds with
  | zero => exact ⟨_, _, rfl⟩
  | succ rounds =>
      rw [iterate, bind_of_ok (expressionStep_of_seen seen isPart)]
      exact blocked rounds _

/-- An expression is not read if a brace comes behind the name of a class and more is looked
at. -/
theorem expressionSteps_blocked (pairs : NamePairs kind heads text rest)
    (are : List.Forall₂ (Token.IsHead source) heads tokens)
    (seen : reading.lookahead = tokens ++ brace :: behind :: more)
    (isBrace : brace.kind = .mark .leftBrace) (rounds stop : Nat) :
    ∃ failure after, iterate (expressionStep budget [.comma]) rounds { depth := 0, stop } reading =
      .error failure after := by
  induction pairs generalizing tokens reading rounds stop with
  | nil =>
      obtain rfl := List.forall₂_nil_left_iff.mp are
      cases rounds with
      | zero => exact ⟨_, _, rfl⟩
      | succ rounds =>
          have blocked : ∃ failure after,
              expressionStep budget [.comma] { depth := 0, stop } reading = .error failure after :=
            expressionStep_of_brace seen isBrace
          obtain ⟨failure, after, blocked⟩ := blocked
          exact ⟨failure, after, by simp only [iterate, Bind.bind, EStateM.bind, blocked]⟩
  | @cons _ _ head next _ found further two _ ih =>
      obtain ⟨one, _, isHead, areBoth, rfl⟩ := List.forall₂_cons_left_iff.mp are
      obtain ⟨other, tokens, isNext, areOthers, rfl⟩ := List.forall₂_cons_left_iff.mp areBoth
      simp only [goesOnWithName, Bool.or_eq_true, Bool.and_eq_true, beq_iff_eq] at two
      rw [← isHead.kind, ← isNext.kind] at two
      rcases two with ⟨⟨isDot, isName⟩, -⟩ | ⟨opens, closes⟩
      · refine expressionSteps_of_seen seen (.inr (.inl isDot)) (fun rounds stop => ?_) rounds stop
        rw [isDot]
        refine expressionSteps_of_seen rfl (.inl (by rw [isName]; rfl)) (fun rounds stop => ?_)
          rounds stop
        rw [isName]
        exact ih areOthers rfl rounds stop
      · refine expressionSteps_of_seen seen (.inr (.inr (.inl opens))) (fun rounds stop => ?_)
          rounds stop
        rw [opens]
        refine expressionSteps_of_seen rfl (.inr (.inr (.inr ⟨closes, Nat.one_pos⟩)))
          (fun rounds stop => ?_) rounds stop
        rw [closes]
        exact ih areOthers rfl rounds stop

/-- An expression that opens with the name of a class is not read if a brace comes behind the
name and more is looked at. -/
theorem expressionText_blocked (budget : Nat) (opens : opensClassName first.kind = true)
    (pairs : NamePairs kind heads text rest)
    (are : List.Forall₂ (Token.IsHead source) (first :: heads) tokens)
    (seen : reading.lookahead = tokens ++ brace :: behind :: more)
    (isBrace : brace.kind = .mark .leftBrace) :
    ∃ failure after, expressionText budget [.comma] reading = .error failure after := by
  obtain ⟨token, others, isHead, areOthers, rfl⟩ := List.forall₂_cons_left_iff.mp are
  have peeked : peek 0 reading = .ok token reading := peek_of_seen (by simp [seen])
  have depth : token.kind.depthBehind 0 = 0 := by
    rw [isHead.kind]
    cases same : first.kind with
    | mark symbol =>
        rw [same] at opens
        cases opens
    | _ => rfl
  have blocked : ∃ failure after, iterate (expressionStep budget [.comma]) budget
      { depth := 0, stop := token.span.first } reading = .error failure after := by
    refine expressionSteps_of_seen seen (.inl (isHead.kind ▸ opens)) (fun rounds stop => ?_) _ _
    rw [depth]
    exact expressionSteps_blocked pairs areOthers rfl isBrace rounds stop
  obtain ⟨failure, after, blocked⟩ := blocked
  refine ⟨failure, after, ?_⟩
  rw [expressionText, bind_of_ok peeked]
  simp only [Bind.bind, EStateM.bind, blocked]

end Blocked

theorem exists_beyond {said : List Event} {reading : Reading}
    (stands : reading.Stands False source text said) (chain : Heads text heads mid)
    (found : Head.of? mid = some head) (looked : heads.length + 1 < reading.lookahead.length) :
    ∃ tokens token behind more, reading.lookahead = tokens ++ token :: behind :: more ∧
      List.Forall₂ (Token.IsHead source) heads tokens ∧ token.kind = head.kind := by
  obtain ⟨all, seen, are⟩ := stands.ahead
  have whole : Heads text (heads ++ [head]) head.rest := chain.append (.single found)
  have length := are.length_eq
  obtain ⟨others, rfl, -⟩ := whole.goesOn seen (by
    rw [List.length_append, List.length_singleton]
    omega)
  cases others with
  | nil =>
      simp only [List.append_nil, List.length_append, List.length_singleton] at length
      omega
  | cons next others =>
      have front := List.forall₂_take heads.length are
      have back := List.forall₂_drop heads.length are
      rw [List.append_assoc, List.take_left] at front
      rw [List.append_assoc, List.drop_left] at back
      obtain ⟨token, _, isHead, backs, split⟩ := List.forall₂_cons_left_iff.mp back
      obtain ⟨behind, more, -, -, rfl⟩ := List.forall₂_cons_left_iff.mp backs
      refine ⟨_, token, behind, more, ?_, front, isHead.kind⟩
      rw [← split, List.take_append_drop]

/-- The name of a class is looked at as far as it goes.  If it ends at a brace, then more is looked
at than the brace. -/
theorem afterClassName {next : Nat → ReadM β} (found : Head.of? text = some first)
    (ended : ∀ heads mid behind, NameGoesOn first.kind heads first.rest mid →
      Head.of? mid = some behind → Leads False source (next (first :: heads).length) text last)
    (blocked : ∀ (reading : Reading) (said : List Event) (heads : List Head) (mid : List Char)
      (brace : Head), reading.Stands False source text said →
        NamePairs first.kind heads first.rest mid → Head.of? mid = some brace →
          brace.kind = .mark .leftBrace → (first :: heads).length + 1 < reading.lookahead.length →
            ∃ failure after, next (first :: heads).length reading = .error failure after) :
    Leads False source (classNameAhead budget first.kind >>= next) text last := by
  have counted : Detects source (classNameAhead budget first.kind) text _ :=
    classNameSteps_detects (.single found)
  intro reading said stands
  have ran := counted reading said stands
  cases outcome : classNameAhead budget first.kind reading with
  | error failure after =>
      simp only [Bind.bind, EStateM.bind, outcome]
      exact .inr not_false
  | ok count after =>
      rw [outcome] at ran
      obtain ⟨_, _, ⟨rfl, rfl, heads, mid, head, second, pairs, behind, further, ends, rfl⟩,
        standing⟩ := ran
      rw [List.append_nil] at standing
      have looked := lt_length_of_classNameSteps outcome
      rw [bind_of_ok outcome]
      have length : [first].length + heads.length = (first :: heads).length := by
        simp [Nat.add_comm]
      rw [length] at looked ⊢
      by_cases isBrace : head.kind = .mark .leftBrace
      · obtain ⟨failure, last, failed⟩ :=
          blocked after said heads mid head standing pairs behind isBrace looked
        rw [failed]
        exact .inr not_false
      · exact ended heads mid head (pairs.goesOn behind isBrace further ends) behind after said
          standing

/-- A choice by whether a class literal that is all of a value comes first. -/
theorem ifLiteral {yes no : ReadM β} (chain : Heads text front place)
    (found : Head.of? place = some head)
    (held : ∀ word next, head.kind = .mark .dot → Head.of? head.rest = some word →
      word.kind = .keyword .classKw → Head.of? word.rest = some next →
        closesValue next.kind = true → Leads False source yes text last)
    (failed : (head.kind = .mark .dot → ∃ word, Head.of? head.rest = some word ∧
      (word.kind = .keyword .classKw → ∃ next, Head.of? word.rest = some next ∧
        closesValue next.kind = false)) → Leads False source no text last) :
    Leads False source ((isAt front.length (.mark .dot) <&&>
      isAt (front.length + 1) (.keyword .classKw) <&&> endsValue (front.length + 2)) >>=
        fun answer => if answer then yes else no) text last := by
  have one (head : Head) : front.length + 1 = (front ++ [head]).length := by simp
  have two (head next : Head) : front.length + 2 = (front ++ [head] ++ [next]).length := by simp
  rw [Leads.and_eq, isAt, bind_assoc, bind_assoc]
  refine .lookBehind chain fun head' found' => ?_
  obtain rfl := Option.some.inj (found.symm.trans found')
  rw [pure_bind]
  split
  · next isDot =>
      rw [Leads.and_eq, isAt, bind_assoc, bind_assoc, one head]
      refine .lookBehind (chain.append (.single found)) fun word further => ?_
      rw [pure_bind]
      split
      · next isWord =>
          rw [endsValue, bind_assoc, two head word]
          refine .lookBehind ((chain.append (.single found)).append (.single further))
            fun next behind => ?_
          rw [pure_bind, ← closesValue]
          split
          · next closes =>
              exact held word next (eq_of_beq isDot) further (eq_of_beq isWord) behind closes
          · next goesOn =>
              exact failed fun _ => ⟨word, further, fun _ => ⟨next, behind, by simpa using goesOn⟩⟩
      · next other =>
          rw [pure_bind]
          exact failed fun _ => ⟨word, further, fun isWord => absurd isWord (by simpa using other)⟩
  · next noDot =>
      rw [pure_bind]
      exact failed fun isDot => absurd isDot (by simpa using noDot)

/-- A class literal that is all of a value is taken, or there is none. -/
theorem afterLiteral {next : Option TypeExpr → ReadM β} (found : Head.of? text = some first)
    (none : NoClassLiteral text → Leads False source (next none) text last)
    (literal : ∀ type rest, UseText source (.value (.classLiteral type)) text rest →
      Leads False source (next (some type)) rest last)
    (blocked : ∀ (reading : Reading) (heads : List Head) (mid : List Char)
      (tokens more : List Token) (brace behind : Token), opensClassName first.kind = true →
        NamePairs first.kind heads first.rest mid →
        List.Forall₂ (Token.IsHead source) (first :: heads) tokens →
          brace.kind = .mark .leftBrace →
            reading.lookahead = tokens ++ brace :: behind :: more →
            ∃ failure after, next .none reading = .error failure after) :
    Leads False source (classLiteral? budget >>= next) text last := by
  rw [classLiteral?, bind_assoc]
  refine .look fun first' found' => ?_
  obtain rfl := Option.some.inj (found.symm.trans found')
  rw [← opensClassName]
  split
  · next opens =>
      simp only [bind_assoc, ite_bind, pure_bind]
      refine afterClassName found (fun heads mid behind goesOn further => ?_)
        fun reading said heads mid brace stands pairs further isBrace looked => ?_
      · have chain : Heads text (first :: heads) mid := .cons found (chain_of_goesOn goesOn)
        refine ifLiteral chain further (fun word after isDot found' isWord found'' closes => ?_)
          fun noLiteral => none (.name found opens goesOn further noLiteral)
        refine (takeMany_leads chain).meet fun tokens are => ?_
        refine (takeMany_leads (.cons further (.single found'))).meet fun _ _ => ?_
        rw [classLiteralType_of_heads are]
        exact literal _ _ (.classLiteral found opens goesOn further isDot found' isWord found''
          closes)
      · have chain : Heads text (first :: heads) mid := .cons found pairs.chain
        obtain ⟨tokens, token, behind, more, seen, are, same⟩ :=
          exists_beyond stands chain further looked
        have looked : kindAt (first :: heads).length reading = .ok token.kind reading :=
          kindAt_of_seen (by simp [seen, are.length_eq])
        rw [Leads.and_eq, isAt, bind_assoc, bind_assoc, bind_of_ok looked, same, isBrace, pure_bind,
          if_neg (by decide), pure_bind, if_neg (by decide)]
        exact blocked reading heads mid tokens more token behind opens pairs are
          (same.trans isBrace) seen
  · next other =>
      rw [pure_bind]
      exact none (.otherwise found (by simpa using other))

/-- A value that is no annotation, no array and no class literal is a constant or an
expression. -/
theorem plainValue_detects (found : Head.of? text = some first)
    (noSign : first.kind ≠ .mark .atSign) (noBrace : first.kind ≠ .mark .leftBrace)
    (noLiteral : NoClassLiteral text) :
    Detects source (do
      if ← (TokenKind.isLiteral <$> kindAt 0) <&&> endsValue 1 then
        return .constant (← take).text
      else return .expression (← expressionText budget [.comma])) text fun value rest =>
        UseText source (.value value) text rest := by
  have expression (noConstant : first.kind.isLiteral = true →
        ∃ next, Head.of? first.rest = some next ∧ closesValue next.kind = false) :
      Detects source (return .expression (← expressionText budget [.comma])) text
        fun value rest => UseText source (.value value) text rest := by
    refine (expressionText_leads False.elim).find ?_
    rintro _ rest ⟨head, slice, found', rfl, split, content, along⟩
    obtain rfl := Option.some.inj (found.symm.trans found')
    exact .give (.expression found noSign noBrace noLiteral noConstant split content along)
  rw [Leads.and_eq, map_eq_pure_bind, bind_assoc, bind_assoc]
  refine .look fun head found' => ?_
  obtain rfl := Option.some.inj (found.symm.trans found')
  rw [pure_bind]
  split
  · next isLiteral =>
      rw [endsValue, bind_assoc]
      refine .lookSecond found fun next further => ?_
      rw [pure_bind, ← closesValue]
      split
      · next closes =>
          refine .takeHead found fun token isHead => ?_
          rw [isHead.text]
          exact .give (.constant found isLiteral further closes)
      · next isOpen => exact expression fun _ => ⟨next, further, by simpa using isOpen⟩
  · next noLiteral =>
      rw [pure_bind]
      exact expression fun isLiteral => absurd isLiteral noLiteral

theorem plainValue_blocked {reading : Reading} {tokens more : List Token} {brace behind : Token}
    (opens : opensClassName first.kind = true) (pairs : NamePairs first.kind heads first.rest mid)
    (are : List.Forall₂ (Token.IsHead source) (first :: heads) tokens)
    (isBrace : brace.kind = .mark .leftBrace)
    (seen : reading.lookahead = tokens ++ brace :: behind :: more) :
    ∃ failure after, (do
      if ← (TokenKind.isLiteral <$> kindAt 0) <&&> endsValue 1 then
        return .constant (← take).text
      else return .expression (← expressionText budget [.comma]) :
        ReadM (ElementValue TypeExpr)) reading = .error failure after := by
  obtain ⟨failure, after, failed⟩ := expressionText_blocked budget opens pairs are seen isBrace
  obtain ⟨token, _, isHead, -, rfl⟩ := List.forall₂_cons_left_iff.mp are
  have looked : kindAt 0 reading = .ok token.kind reading := kindAt_of_seen (by simp [seen])
  have noLiteral : token.kind.isLiteral = false := by
    refine Bool.eq_false_iff.mpr fun isLiteral => ?_
    rw [← isHead.kind, opensClassName_of_isLiteral isLiteral] at opens
    cases opens
  refine ⟨failure, after, ?_⟩
  rw [Leads.and_eq, map_eq_pure_bind, bind_assoc, bind_assoc, bind_of_ok looked, pure_bind,
    noLiteral, if_neg Bool.false_ne_true, pure_bind, if_neg Bool.false_ne_true]
  simp only [Bind.bind, EStateM.bind, failed]

/-! ### Annotations -/

/-- What the parts of an annotation find. -/
structure UsesFound (source : List Char) (budget : Nat) : Prop where
  use : ∀ text, Detects source (annotationUse budget) text fun use rest =>
    UseText source (.use use) text rest
  values : ∀ text, Detects source (elementValues budget) text fun values rest =>
    ∃ mid closing, UseText source (.elements values) text mid ∧ Head.of? mid = some closing ∧
      closing.kind = .mark .rightParen ∧ rest = closing.rest
  pair : ∀ text, Detects source (elementPair budget) text fun pair rest =>
    ∃ name equals, Head.of? text = some name ∧ name.kind = .identifier ∧ pair.1 = name.text ∧
      Head.of? name.rest = some equals ∧ equals.kind = .mark .assign ∧
        UseText source (.value pair.2) equals.rest rest
  value : ∀ text, Detects source (elementValue budget) text fun value rest =>
    UseText source (.value value) text rest

namespace UsesFound

variable (inner : UsesFound source budget)

include inner

theorem pairs (rounds : Nat) (text : List Char) :
    Detects source (separatedBy .comma (elementPair budget) rounds) text fun values rest =>
      UseText source (.pairs values) text rest := by
  induction rounds generalizing text with
  | zero => exact .exhausted
  | succ rounds ih =>
      refine (inner.pair text).find ?_
      rintro ⟨_, value⟩ mid ⟨name, equals, found, isName, rfl, further, isEquals, stands⟩
      refine .ifAccepted (fun comma behind isComma => ?_) fun last behind noComma => ?_
      · exact (ih comma.rest).find fun values rest others =>
          .give (.morePairs found isName further isEquals stands behind isComma others)
      · exact .give (.lastPair found isName further isEquals stands behind noComma)

theorem items (rounds : Nat) (text : List Char) :
    Detects source (listUntil .rightBrace (elementValue budget) rounds) text fun values rest =>
      UseText source (.items values) text rest := by
  induction rounds generalizing text with
  | zero => exact .exhausted
  | succ rounds ih =>
      refine .ifNext (fun closing found closes => .give (.noItems found closes))
        fun first found isOpen => ?_
      refine (inner.value text).find fun value mid stands => ?_
      refine .ifAccepted (fun comma behind isComma => ?_) fun last behind noComma => ?_
      · exact (ih comma.rest).find fun values rest others =>
          .give (.moreItems found isOpen stands behind isComma others)
      · exact .give (.lastItem found isOpen stands behind noComma)

theorem succ_use (text : List Char) :
    Detects source (annotationUse (budget + 1)) text fun use rest =>
      UseText source (.use use) text rest := by
  rw [annotationUse]
  refine .expect fun token sign found isSign isHead => ?_
  refine qualifiedName_detects.find ?_
  rintro _ mid ⟨names, named, rfl⟩
  have line : token.line = firstLine source text := by
    rw [firstLine_eq source found, isHead.line]
  refine .ifAccepted (fun opening behind opens => ?_) fun next behind noValues => ?_
  · refine (inner.values opening.rest).find ?_
    rintro values _ ⟨last, closing, stands, found', closes, rfl⟩
    rw [line]
    exact .give (.withValues found isSign named behind opens stands found' closes)
  · rw [line]
    exact .give (.marker found isSign named behind noValues)

theorem succ_values (text : List Char) :
    Detects source (elementValues (budget + 1)) text fun values rest =>
      ∃ mid closing, UseText source (.elements values) text mid ∧ Head.of? mid = some closing ∧
        closing.kind = .mark .rightParen ∧ rest = closing.rest := by
  have inside : Detects source (elementsInside budget) text fun values rest =>
      UseText source (.elements values) text rest := by
    rw [elementsInside]
    refine .ask _ fun first found => ?_
    have opened (isName : first.kind = .identifier) : (first.kind == .mark .rightParen) = false :=
      by simp [isName]
    refine .askBoth (fun name equals found' isName further isEquals => ?_)
      fun head found' noPair => ?_
    · obtain rfl := Option.some.inj (found.symm.trans found')
      rw [opened isName]
      exact (inner.pairs budget text).imp fun values rest stands =>
        .named found isName further isEquals stands
    · obtain rfl := Option.some.inj (found.symm.trans found')
      split
      · next closes => exact .give (.noValues found (eq_of_beq closes))
      · next isOpen =>
          exact (inner.value text).find fun value rest stands =>
            .give (.single found (by simpa using isOpen) noPair stands)
  rw [elementValues_succ]
  exact inside.find fun values mid stands => .expect fun _ closing found closes _ =>
    .give ⟨mid, closing, stands, found, closes, rfl⟩

theorem succ_value (text : List Char) :
    Detects source (elementValue (budget + 1)) text fun value rest =>
      UseText source (.value value) text rest := by
  rw [elementValue]
  refine .ifNext (fun sign found isSign => ?_) fun first found noSign => ?_
  · exact (inner.use text).find fun use rest stands => .give (.nested stands)
  refine .ifAccepted (fun opening found opens => ?_) fun head found' noBrace => ?_
  · refine (inner.items budget opening.rest).find fun values mid stands => ?_
    exact .expect fun _ closing found' closes _ => .give (.array found opens stands found' closes)
  obtain rfl := Option.some.inj (found.symm.trans found')
  refine afterLiteral found (plainValue_detects found noSign noBrace)
    (fun type rest stands => .give stands) ?_
  intro reading heads mid tokens more brace behind opens pairs are isBrace seen
  exact plainValue_blocked opens pairs are isBrace seen

theorem succ_pair (text : List Char) :
    Detects source (elementPair (budget + 1)) text fun pair rest =>
      ∃ name equals, Head.of? text = some name ∧ name.kind = .identifier ∧ pair.1 = name.text ∧
        Head.of? name.rest = some equals ∧ equals.kind = .mark .assign ∧
          UseText source (.value pair.2) equals.rest rest := by
  rw [elementPair]
  refine .name fun name found isName => .expect fun _ equals further isEquals _ => ?_
  exact (inner.value equals.rest).find fun value rest stands =>
    .give ⟨name, equals, found, isName, rfl, further, isEquals, stands⟩

end UsesFound

theorem usesFound (source : List Char) (budget : Nat) : UsesFound source budget := by
  induction budget with
  | zero =>
      exact ⟨fun _ => .exhausted, fun _ => .exhausted, fun _ => .exhausted, fun _ => .exhausted⟩
  | succ budget ih => exact ⟨ih.succ_use, ih.succ_values, ih.succ_pair, ih.succ_value⟩

/-! ### Modifiers -/

def OpensNoUse (head : Head) : Prop :=
  head.kind = .mark .atSign →
    ∃ second, Head.of? head.rest = some second ∧ second.kind ≠ .identifier

def IsNotSealed (head : Head) : Prop :=
  head.kind = .identifier → head.text = "sealed" →
    ∃ next, Head.of? head.rest = some next ∧ startsDeclaration next.kind = false

def IsNotNonSealed (head : Head) : Prop :=
  head.kind = .identifier → head.text = "non" →
    ∃ minus, Head.of? head.rest = some minus ∧ (minus.kind = .mark .minus →
      ∃ word, Head.of? minus.rest = some word ∧
        ¬ (word.kind = .identifier ∧ word.text = "sealed"))

theorem noPiece_of (found : Head.of? text = some head) (noUse : OpensNoUse head)
    (noWord : ¬ (head.kind.isModifier = true ∨ head.kind = .keyword .defaultKw))
    (noSealed : IsNotSealed head) (noNonSealed : IsNotNonSealed head) : NoPiece source text := by
  intro piece rest leading
  cases leading with
  | use stands others =>
      obtain ⟨sign, name, found', isSign, further, isName⟩ := stands.sign
      obtain rfl := Option.some.inj (found.symm.trans found')
      obtain ⟨second, further', other⟩ := noUse isSign
      obtain rfl := Option.some.inj (further.symm.trans further')
      exact other isName
  | word found' isWord others =>
      obtain rfl := Option.some.inj (found.symm.trans found')
      exact noWord isWord
  | sealed found' isName same further starts others =>
      obtain rfl := Option.some.inj (found.symm.trans found')
      obtain ⟨next, further', ends⟩ := noSealed isName same
      obtain rfl := Option.some.inj (further.symm.trans further')
      cases starts.symm.trans ends
  | nonSealed found' isName same further isMinus behind isName' same' others =>
      obtain rfl := Option.some.inj (found.symm.trans found')
      obtain ⟨minus, further', other⟩ := noNonSealed isName same
      obtain rfl := Option.some.inj (further.symm.trans further')
      obtain ⟨word, behind', unlike⟩ := other isMinus
      obtain rfl := Option.some.inj (behind.symm.trans behind')
      exact unlike ⟨isName', same'⟩

def PieceFound (source text : List Char) (found : Option (AnnotationUse TypeExpr ⊕ String))
    (rest : List Char) : Prop :=
  match found with
  | some piece => Leading source [piece] text rest
  | none => rest = text ∧ NoPiece source text

theorem wordPiece_detects (found : Head.of? text = some head)
    (leading : Leading source [.inr head.text] text head.rest) :
    Detects source (return some (.inr (← take).text)) text (PieceFound source text) := by
  refine .takeHead found fun token isHead => ?_
  rw [isHead.text]
  exact .give leading

/-- An `@` opens an annotation unless it opens the declaration of an annotation type. -/
theorem usePiece_detects (budget : Nat) (found : Head.of? text = some head)
    (isSign : head.kind = .mark .atSign) :
    Detects source (do
      if ← isAt 1 (.keyword .interfaceKw) then return none
      else return some (.inl (← annotationUse budget))) text (PieceFound source text) := by
  rw [isAt, bind_assoc]
  refine .lookSecond found fun second further => ?_
  rw [pure_bind]
  split
  · next isWord =>
      have noUse : OpensNoUse head := fun _ => ⟨second, further, by simp [eq_of_beq isWord]⟩
      refine .give ⟨rfl, noPiece_of found noUse ?_ ?_ ?_⟩
      · simp [isSign, TokenKind.isModifier]
      · simp [IsNotSealed, isSign]
      · simp [IsNotNonSealed, isSign]
  · exact ((usesFound source budget).use text).find fun use rest stands =>
      .give (.use stands .none)

theorem nonSealedPiece_detects (found : Head.of? text = some head)
    (nothing : IsNotNonSealed head → NoPiece source text) :
    Detects source (do
      if ← isWordAt 0 "non" <&&> isAt 1 (.mark .minus) <&&> isWordAt 2 "sealed" then
        let _ ← takeMany 3
        return some (.inr "non-sealed")
      else return none) text (PieceFound source text) := by
  have giveNone (noNonSealed : IsNotNonSealed head) :
      Detects source (return none) text (PieceFound source text) :=
    .give ⟨rfl, nothing noNonSealed⟩
  rw [Leads.and_eq, bind_assoc]
  refine .askWord .nil "non" fun first found' => ?_
  obtain rfl := Option.some.inj (found.symm.trans found')
  split
  · next isNon =>
      obtain ⟨isName, same⟩ : head.kind = .identifier ∧ head.text = "non" := by simpa using isNon
      rw [Leads.and_eq, isAt, bind_assoc, bind_assoc]
      refine .lookSecond found fun minus further => ?_
      rw [pure_bind]
      split
      · next isMinus =>
          have isMinus := eq_of_beq isMinus
          refine .askWord (.cons found (.single further)) "sealed" fun last behind => ?_
          split
          · next isSealed =>
              obtain ⟨isName', same'⟩ : last.kind = .identifier ∧ last.text = "sealed" := by
                simpa using isSealed
              refine (takeMany_leads (.cons found (.cons further (.single behind)))).meet
                fun _ _ => ?_
              exact .give (.nonSealed found isName same further isMinus behind isName' same' .none)
          · next other =>
              exact giveNone fun _ _ =>
                ⟨minus, further, fun _ => ⟨last, behind, by simpa using other⟩⟩
      · next noMinus =>
          rw [pure_bind]
          exact giveNone fun _ _ => ⟨minus, further, fun is => absurd is (by simpa using noMinus)⟩
  · next other =>
      rw [pure_bind]
      exact giveNone fun isName same => absurd other (by simp [isName, same])

theorem modifier?_detects (budget : Nat) (text : List Char) :
    Detects source (modifier? budget) text (PieceFound source text) := by
  refine .look fun head found => ?_
  split
  · next isSign => exact usePiece_detects budget found (eq_of_beq isSign)
  next noSign =>
  split
  · next isWord => exact wordPiece_detects found (.word found (by simpa using isWord) .none)
  next noWord =>
  have noUse : OpensNoUse head := fun is => absurd is (by simpa using noSign)
  have noPiece (noSealed : IsNotSealed head) (noNonSealed : IsNotNonSealed head) :
      NoPiece source text :=
    noPiece_of found noUse (by simpa using noWord) noSealed noNonSealed
  rw [Leads.and_eq, bind_assoc]
  refine .askWord .nil "sealed" fun first found' => ?_
  obtain rfl := Option.some.inj (found.symm.trans found')
  split
  · next isSealed =>
      obtain ⟨isName, same⟩ : head.kind = .identifier ∧ head.text = "sealed" := by
        simpa using isSealed
      rw [map_eq_pure_bind, bind_assoc]
      refine .lookSecond found fun next further => ?_
      rw [pure_bind]
      split
      · next starts =>
          exact wordPiece_detects found (.sealed found isName same further starts .none)
      · next ends =>
          refine nonSealedPiece_detects found (noPiece fun _ _ => ?_)
          exact ⟨next, further, by simpa using ends⟩
  · next other =>
      rw [pure_bind]
      refine nonSealedPiece_detects found (noPiece fun isName same => ?_)
      exact absurd other (by simp [isName, same])

theorem modifiers_detects (text : List Char) :
    Detects source (modifiers budget) text fun modifiers rest =>
      ModifiersText source modifiers text rest := by
  have pieces (rounds : Nat) (text : List Char) :
      Detects source (many (modifier? budget) rounds) text fun pieces rest =>
        Leading source pieces text rest ∧ NoPiece source rest := by
    induction rounds generalizing text with
    | zero => exact .exhausted
    | succ rounds ih =>
        refine (modifier?_detects budget text).find fun found mid piece => ?_
        cases found with
        | none =>
            obtain ⟨rfl, none⟩ := piece
            exact .give ⟨.none, none⟩
        | some piece' =>
            refine (ih mid).find fun pieces rest ⟨others, ended⟩ =>
              .give ⟨piece.append others, ended⟩
  exact (pieces budget text).find fun pieces rest ⟨leading, ended⟩ =>
    .give ⟨pieces, rfl, leading, ended⟩

end ReadM

end JavaDecl
