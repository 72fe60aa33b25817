import JavaDecl.Proofs.BlockBodies
import JavaDecl.Proofs.StandingReadings

/-!
# How far expressions extend

Where an expression ends is told by the first tokens of the texts in it: brackets nest, blocks
are passed over as a whole, and so are type arguments.  It is told again in the same way if the
text is cut behind the expression and something comes there that ends it.
-/

namespace JavaDecl

namespace ReadM

/-! ### Looks at type arguments -/

/-- What a look at the tokens of a text ends with. -/
inductive AngleLook.Ends : AngleLook → List Char → Option Nat → Prop where
  | stops {look : AngleLook} {text : List Char} {head : Head} {found : Option Nat} :
      Head.of? text = some head → look.after head.kind = .inr found → Ends look text found
  | passes {look next : AngleLook} {text : List Char} {head : Head} {found : Option Nat} :
      Head.of? text = some head → look.after head.kind = .inl next →
        Ends next head.rest found → Ends look text found

namespace AngleLook

variable {look next : AngleLook} {text rest : List Char} {head : Head} {found other : Option Nat}
  {count : Nat} {heads : List Head}

theorem Ends.unique (one : look.Ends text found) (two : look.Ends text other) :
    found = other := by
  induction one with
  | stops first after =>
      cases two with
      | stops again after' =>
          obtain rfl := Option.some.inj (first.symm.trans again)
          exact Sum.inr.inj (after.symm.trans after')
      | passes again after' =>
          obtain rfl := Option.some.inj (first.symm.trans again)
          cases after.symm.trans after'
  | passes first after _ ih =>
      cases two with
      | stops again after' =>
          obtain rfl := Option.some.inj (first.symm.trans again)
          cases after.symm.trans after'
      | passes again after' further =>
          obtain rfl := Option.some.inj (first.symm.trans again)
          obtain rfl := Sum.inl.inj (after.symm.trans after')
          exact ih further

/-- What a look comes to at a token that it passes. -/
theorem seen_of_passed {kind : TokenKind} (passed : look.after kind = .inl next) :
    next.seen = look.seen + 1 ∧ kind ≠ .mark .leftBrace := by
  unfold after at passed
  split at passed
  · cases passed
    exact ⟨rfl, by simp⟩
  · split at passed
    · cases passed
    · cases passed
      exact ⟨rfl, by simp⟩
  · split at passed
    · next argument =>
        cases passed
        refine ⟨rfl, ?_⟩
        rintro rfl
        cases argument
    · cases passed

theorem seen_of_stopped {kind : TokenKind} (stopped : look.after kind = .inr (some count)) :
    count = look.seen + 1 := by
  unfold after at stopped
  split at stopped
  · cases stopped
  · split at stopped
    · cases stopped
      rfl
    · cases stopped
  · split at stopped <;> cases stopped

theorem Ends.exists_heads (ends : look.Ends text (some count)) :
    ∃ heads rest, Heads text heads rest ∧ count = look.seen + heads.length ∧ heads ≠ [] := by
  generalize whole : some count = found at ends
  induction ends with
  | stops first stopped =>
      subst whole
      exact ⟨[_], _, .single first, seen_of_stopped stopped, by simp⟩
  | passes first passed _ ih =>
      obtain ⟨heads, rest, chain, length, -⟩ := ih whole
      refine ⟨_ :: heads, rest, .cons first chain, ?_, by simp⟩
      rw [length, (seen_of_passed passed).1, List.length_cons]
      omega

theorem Ends.lt (ends : look.Ends text (some count)) : look.seen < count := by
  obtain ⟨heads, _, _, rfl, some⟩ := ends.exists_heads
  exact Nat.lt_add_of_pos_right (List.length_pos_iff.mpr some)

/-- A look goes on behind a token that it passes. -/
theorem ends_iff_of_after {head : Head} (first : Head.of? text = some head)
    (step : look.after head.kind = .inl next) :
    look.Ends text found ↔ next.Ends head.rest found := by
  refine ⟨fun ends => ?_, .passes first step⟩
  cases ends with
  | stops again after =>
      obtain rfl := Option.some.inj (first.symm.trans again)
      cases step.symm.trans after
  | passes again after further =>
      obtain rfl := Option.some.inj (first.symm.trans again)
      obtain rfl := Sum.inl.inj (step.symm.trans after)
      exact further

theorem ends_iff_of_afterAll {source : List Char} {tokens : List Token}
    (chain : Heads text heads rest) (are : List.Forall₂ (Token.IsHead source) heads tokens)
    (passed : look.afterAll tokens = .inl next) :
    (∀ found, look.Ends text found ↔ next.Ends rest found) ∧
      ∀ token ∈ tokens, token.kind ≠ .mark .leftBrace := by
  induction chain generalizing look tokens with
  | nil =>
      obtain rfl := List.forall₂_nil_left_iff.mp are
      cases passed
      simp
  | @cons text rest head heads first chain ih =>
      obtain ⟨token, tokens, isHead, areHeads, rfl⟩ := List.forall₂_cons_left_iff.mp are
      rw [afterAll] at passed
      split at passed
      · next between step =>
          obtain ⟨goesOn, closed⟩ := ih areHeads passed
          have kind := isHead.kind
          rw [kind] at step
          refine ⟨fun found => (ends_iff_of_after first step).trans (goesOn found), ?_⟩
          exact List.forall_mem_cons.mpr ⟨kind ▸ (seen_of_passed step).2, closed⟩
      · cases passed

theorem ends_of_afterAll {source : List Char} {tokens : List Token}
    (chain : Heads text heads rest) (are : List.Forall₂ (Token.IsHead source) heads tokens)
    (stopped : look.afterAll tokens = .inr found) : look.Ends text found := by
  induction chain generalizing look tokens with
  | nil =>
      obtain rfl := List.forall₂_nil_left_iff.mp are
      cases stopped
  | cons first chain ih =>
      obtain ⟨token, tokens, isHead, areHeads, rfl⟩ := List.forall₂_cons_left_iff.mp are
      rw [afterAll] at stopped
      split at stopped
      · next step => exact .passes first (isHead.kind ▸ step) (ih areHeads stopped)
      · next step =>
          cases stopped
          exact .stops first (isHead.kind ▸ step)

end AngleLook

variable {strict : Prop} {source text mid rest : List Char} {head : Head} {budget rounds : Nat}

/-- Tokens are looked at until it is known whether type arguments open. -/
theorem lookFurther_leads {look : AngleLook} {added : Array Token} {reading : Reading}
    {taken : List Char} (located : reading.stream.Located source taken)
    (known : strict → ∃ found, look.Ends reading.stream.rest found) :
    match iterate lookFurther budget (look, added) reading with
    | .ok (found, tokens) after =>
        look.Ends reading.stream.rest found ∧ ∃ heads more, tokens.toList = added.toList ++ more ∧
          Heads reading.stream.rest heads after.stream.rest ∧
          List.Forall₂ (Token.IsHead source) heads more ∧ heads ≠ [] ∧
          (∀ head ∈ heads.dropLast, head.kind ≠ .mark .leftBrace) ∧
          after.lookahead = reading.lookahead ∧ (∃ taken, after.stream.Located source taken) ∧
          after.events.toList.filter (!·.isComment) =
            reading.events.toList.filter (!·.isComment)
    | .error failure _ => failure.IsExhaustion ∨ ¬ strict := by
  induction budget generalizing look added reading taken with
  | zero => exact .inl ⟨_, rfl⟩
  | succ budget ih =>
      rw [iterate]
      cases first : Head.of? reading.stream.rest with
      | none =>
          obtain ⟨failure, after, failed⟩ := pull_of_fault located first
          simp only [lookFurther, Bind.bind, EStateM.bind, failed]
          refine .inr fun isStrict => ?_
          obtain ⟨found, ends⟩ := known isStrict
          cases ends with
          | stops again => simp [first] at again
          | passes again => simp [first] at again
      | some head =>
          obtain ⟨token, stream, events, pulled, isHead, left, ⟨passed, later⟩, quiet⟩ :=
            pull_of_head located first
          cases step : look.after head.kind with
          | inr found =>
              simp only [lookFurther, Bind.bind, EStateM.bind, pulled, isHead.kind, step]
              refine ⟨.stops first step, [head], [token], by simp, ?_, .cons isHead .nil, by simp,
                by simp, rfl, ⟨passed, later⟩, quiet⟩
              exact left ▸ .single first
          | inl next =>
              simp only [lookFurther, Bind.bind, EStateM.bind, pulled, isHead.kind, step]
              have further := @ih next (added.push token)
                { reading with stream, events } passed later (fun isStrict => by
                  obtain ⟨found, ends⟩ := known isStrict
                  exact ⟨found, left.symm ▸ (AngleLook.ends_iff_of_after first step).mp ends⟩)
              change match iterate lookFurther budget (next, added.push token)
                  { reading with stream, events } with
                | .ok (found, tokens) after => _
                | .error failure _ => _
              generalize iterate lookFurther budget (next, added.push token)
                { reading with stream, events } = outcome at further ⊢
              cases outcome with
              | error failure after => exact further
              | ok value after =>
                  obtain ⟨found, tokens⟩ := value
                  obtain ⟨ends, heads, more, all, chain, are, some, closed, same, inSource,
                    silent⟩ := further
                  rw [left] at ends chain
                  refine ⟨.passes first step ends, head :: heads, token :: more, by simp [all],
                    .cons first chain, .cons isHead are, by simp, ?_, same, inSource,
                    silent.trans quiet⟩
                  rw [List.dropLast_cons_of_ne_nil some]
                  exact List.forall_mem_cons.mpr ⟨(AngleLook.seen_of_passed step).2, closed⟩

/-- The look at what an angle bracket opens ends as it does along the text. -/
theorem typeArgumentsAhead?_leads (known : strict → ∃ found, AngleLook.Ends {} text found) :
    Meets strict source (typeArgumentsAhead? budget) text (AngleLook.Ends {} text) text := by
  intro reading said stands
  have got (reading : Reading) : (get : ReadM Reading) reading = .ok reading reading := rfl
  obtain ⟨taken, located⟩ := stands.located
  obtain ⟨heads, chain, are⟩ := stands.ahead
  cases along : ({} : AngleLook).afterAll reading.lookahead with
  | inr found =>
      simp only [typeArgumentsAhead?, Bind.bind, EStateM.bind, got, along]
      exact ⟨text, [], ⟨AngleLook.ends_of_afterAll chain are along, rfl, rfl⟩,
        by rwa [List.append_nil]⟩
  | inl look =>
      obtain ⟨goesOn, closed⟩ := AngleLook.ends_iff_of_afterAll chain are along
      have further := @lookFurther_leads strict source budget look #[] reading taken located
        (fun isStrict => by
          obtain ⟨found, ends⟩ := known isStrict
          exact ⟨found, (goesOn found).mp ends⟩)
      simp only [typeArgumentsAhead?, Bind.bind, EStateM.bind, got, along]
      generalize iterate lookFurther budget (look, #[]) reading = outcome at further ⊢
      cases outcome with
      | error failure after => exact further
      | ok value after =>
          obtain ⟨found, added⟩ := value
          obtain ⟨ends, heads', more, all, chain', are', some, closed', same, inSource, quiet⟩ :=
            further
          rw [List.nil_append] at all
          refine ⟨text, [], ⟨(goesOn found).mpr ends, rfl, rfl⟩, stands.inside, inSource,
            ⟨heads ++ heads', chain.append chain', ?_⟩, ?_, fun _ token member => ?_⟩
          · simp only [all, same]
            exact List.rel_append are are'
          · rw [List.append_nil]
            exact quiet.trans stands.said
          · obtain ⟨front, last, rfl⟩ := (List.eq_nil_or_concat heads').resolve_left some
            rw [List.concat_eq_append] at are' closed'
            obtain ⟨before, token', rfl, areFront, -⟩ := forall₂_concat are'
            simp only [all, same, ← List.append_assoc, List.dropLast_concat] at member closed'
            rcases List.mem_append.mp member with earlier | later
            · exact closed token earlier
            · obtain ⟨place, inside, rfl⟩ := List.getElem_of_mem later
              have within : place < front.length := areFront.length_eq ▸ inside
              have same : Token.IsHead source front[place] before[place] :=
                areFront.get within inside
              rw [same.kind]
              exact closed' _ (List.getElem_mem within)

/-! ### Blocks -/

/-- A block is taken up to its closing brace, and nothing behind it is looked at. -/
theorem blockText_ran {said : List Event} {reading : Reading}
    (stands : reading.Stands strict source text said) (found : Head.of? text = some head)
    (brace : head.kind = .mark .leftBrace)
    (known : strict → ∃ rest, Block.blockEnd 0 head.rest = .closed rest) :
    match blockText reading with
    | .ok _ after => ∃ rest, Block.blockEnd 0 head.rest = .closed rest ∧
        after.stream.offset = offsetOf source rest ∧ after.Stands strict source rest said
    | .error failure _ => failure.IsExhaustion ∨ ¬ strict := by
  have got (reading : Reading) : (get : ReadM Reading) reading = .ok reading reading := rfl
  have asked := isNext_reads found (by simp [brace] : (head.kind == .mark .leftBrace) = true)
    reading said stands
  cases looked : isNext (.mark .leftBrace) reading with
  | error failure after =>
      rw [looked] at asked
      simp only [blockText, expectMark, expect, Bind.bind, EStateM.bind, looked]
      exact asked
  | ok answer between =>
      rw [looked] at asked
      obtain ⟨_, _, ⟨rfl, rfl, rfl⟩, standing⟩ := asked
      rw [List.append_nil] at standing
      obtain ⟨token, after, seen, taken, isHead, further, tidied, all⟩ :=
        take_ahead standing found
      simp only [blockText, expectMark, expect, Bind.bind, EStateM.bind, looked, if_true, taken,
        got]
      cases left : after.lookahead with
      | cons other others =>
          simp only [List.isEmpty_cons, Bool.false_eq_true, if_false]
          refine .inr fun isStrict => ?_
          refine tidied.tidy isStrict token ?_ (isHead.kind.trans brace)
          rw [all, left]
          exact List.mem_cons_self
      | nil =>
          simp only [List.isEmpty_nil, if_true]
          obtain ⟨passed, located⟩ := further.located
          obtain ⟨heads, chain, are⟩ := further.ahead
          obtain rfl := List.forall₂_nil_right_iff.mp (left ▸ are)
          have whole : after.stream.rest = head.rest := chain.eq_of_nil
          cases ends : Block.blockEnd 0 head.rest with
          | closed rest =>
              obtain ⟨body, split⟩ := Block.exists_body_of_closed ends
              obtain ⟨block, stream, answer, -, -, behind, later⟩ :=
                located.takeBlock_of_closed (whole ▸ split) (whole ▸ ends)
              rw [answer]
              refine ⟨rest, rfl, behind ▸ later.offset_eq, behind ▸ later.suffix, ⟨_, later⟩,
                ⟨[], behind ▸ .nil, .nil⟩, further.said, fun isStrict => ?_⟩
              simp [Tidy]
          | unclosedComment comment =>
              obtain ⟨front, split⟩ := Block.suffix_of_unclosedComment ends
              obtain ⟨failure, stream, answer, -⟩ :=
                located.takeBlock_of_unclosedComment (whole ▸ split.symm) (whole ▸ ends)
              rw [answer]
              refine .inr fun isStrict => ?_
              simp [ends] at known
              exact known isStrict
          | unclosed =>
              obtain ⟨failure, stream, answer, -⟩ :=
                located.takeBlock_of_unclosed (whole ▸ ends)
              rw [answer]
              refine .inr fun isStrict => ?_
              simp [ends] at known
              exact known isStrict

theorem blockText_leads (found : Head.of? text = some head) (brace : head.kind = .mark .leftBrace)
    (known : strict → ∃ rest, Block.blockEnd 0 head.rest = .closed rest) :
    Leads strict source blockText text fun _ rest told =>
      Block.blockEnd 0 head.rest = .closed rest ∧ told = [] := by
  intro reading said stands
  have ran := blockText_ran stands found brace known
  cases outcome : blockText reading with
  | error failure after => rwa [outcome] at ran
  | ok value after =>
      rw [outcome] at ran
      obtain ⟨rest, closed, -, further⟩ := ran
      exact ⟨rest, [], ⟨closed, rfl⟩, by rwa [List.append_nil]⟩

end ReadM

/-! ### Steps through an expression -/

open ReadM

/-- Whether a token ends an expression that is read up to one of some marks. -/
def TokenKind.endsExpression (terminators : List Mark) (depth : Nat) : TokenKind → Bool
  | .mark symbol => depth == 0 &&
      (terminators.contains symbol ||
        [Mark.rightParen, .rightBracket, .rightBrace].contains symbol)
  | _ => false

theorem TokenKind.depth_of_endsExpression {terminators : List Mark} {depth : Nat}
    {kind : TokenKind} (ends : kind.endsExpression terminators depth = true) : depth = 0 := by
  unfold endsExpression at ends
  split at ends
  · rw [Bool.and_eq_true, beq_iff_eq] at ends
    exact ends.1
  · cases ends

/-- The number of brackets that are open behind a token. -/
def TokenKind.depthBehind (depth : Nat) : TokenKind → Nat
  | .mark .leftParen | .mark .leftBracket => depth + 1
  | .mark .rightParen | .mark .rightBracket => depth - 1
  | _ => depth

/-- One step through an expression: a token, all of the type arguments that an angle bracket
opens, or a block. -/
inductive Passes (terminators : List Mark) (depth : Nat) (text : List Char) :
    Nat → List Char → Prop where
  | token {head : Head} : Head.of? text = some head → head.kind ≠ .endOfInput →
      head.kind ≠ .mark .leftBrace → head.kind.endsExpression terminators depth = false →
        (head.kind = .mark .less → AngleLook.Ends {} text none) →
          Passes terminators depth text (head.kind.depthBehind depth) head.rest
  | typeArguments {head : Head} {heads : List Head} {rest : List Char} :
      Head.of? text = some head → head.kind = .mark .less →
        head.kind.endsExpression terminators depth = false →
          AngleLook.Ends {} text (some heads.length) → Heads text heads rest →
            Passes terminators depth text depth rest
  | block {head : Head} {rest : List Char} :
      Head.of? text = some head → head.kind = .mark .leftBrace →
        head.kind.endsExpression terminators depth = false →
          Block.blockEnd 0 head.rest = .closed rest → Passes terminators depth text depth rest

/-- An expression extends through a text, with some brackets open in front of it. -/
inductive Extends (terminators : List Mark) : Nat → List Char → List Char → Prop where
  | ended {text : List Char} {head : Head} : Head.of? text = some head →
      head.kind.endsExpression terminators 0 = true → Extends terminators 0 text text
  | passes {depth behind : Nat} {text mid rest : List Char} :
      Passes terminators depth text behind mid → Extends terminators behind mid rest →
        Extends terminators depth text rest

variable {strict : Prop} {source text mid rest other : List Char} {head : Head}
  {terminators : List Mark} {depth behind further budget rounds : Nat} {heads others : List Head}

/-- The longer one of two lists of first tokens goes on where the other one ends. -/
theorem Heads.goesOn (one : Heads text heads rest) (two : Heads text others other)
    (short : heads.length ≤ others.length) :
    ∃ more, others = heads ++ more ∧ Heads rest more other := by
  rcases one.total two with ⟨more, rfl, further⟩ | ⟨more, rfl, further⟩
  · exact ⟨more, rfl, further⟩
  · rw [List.length_append] at short
    obtain rfl : more = [] := List.length_eq_zero_iff.mp (by omega)
    exact ⟨[], by simp, further.eq_of_nil ▸ .nil⟩

theorem Heads.unique (one : Heads text heads rest) (two : Heads text others other)
    (same : heads.length = others.length) : rest = other := by
  obtain ⟨more, rfl, further⟩ := one.goesOn two same.le
  obtain rfl : more = [] := List.length_eq_zero_iff.mp (by simpa using same)
  exact further.eq_of_nil.symm

namespace Passes

theorem exists_head (passes : Passes terminators depth text behind mid) :
    ∃ head, Head.of? text = some head ∧ head.kind ≠ .endOfInput ∧
      head.kind.endsExpression terminators depth = false := by
  cases passes with
  | token found inside _ goesOn => exact ⟨_, found, inside, goesOn⟩
  | typeArguments found angle goesOn => exact ⟨_, found, by simp [angle], goesOn⟩
  | block found brace goesOn => exact ⟨_, found, by simp [brace], goesOn⟩

theorem closed_of_brace (passes : Passes terminators depth text behind mid)
    (found : Head.of? text = some head) (brace : head.kind = .mark .leftBrace) :
    ∃ rest, Block.blockEnd 0 head.rest = .closed rest := by
  cases passes with
  | token found' _ noBrace =>
      obtain rfl := Option.some.inj (found.symm.trans found')
      exact absurd brace noBrace
  | typeArguments found' angle =>
      obtain rfl := Option.some.inj (found.symm.trans found')
      cases angle.symm.trans brace
  | block found' _ _ closed =>
      obtain rfl := Option.some.inj (found.symm.trans found')
      exact ⟨_, closed⟩

/-- Where an angle bracket comes first, the look at it ends. -/
theorem looks_of_angle (passes : Passes terminators depth text behind mid)
    (found : Head.of? text = some head) (angle : head.kind = .mark .less) :
    ∃ found, AngleLook.Ends {} text found := by
  cases passes with
  | token found' _ _ _ noArguments =>
      obtain rfl := Option.some.inj (found.symm.trans found')
      exact ⟨_, noArguments angle⟩
  | typeArguments _ _ _ ends => exact ⟨_, ends⟩
  | block found' brace =>
      obtain rfl := Option.some.inj (found.symm.trans found')
      cases angle.symm.trans brace

theorem suffix_rest (passes : Passes terminators depth text behind mid)
    (found : Head.of? text = some head) : mid <:+ head.rest := by
  cases passes with
  | token found' =>
      obtain rfl := Option.some.inj (found.symm.trans found')
      exact List.suffix_refl _
  | typeArguments _ _ _ ends chain =>
      cases chain with
      | nil => exact absurd ends.lt (Nat.lt_irrefl 0)
      | cons found' chain =>
          obtain rfl := Option.some.inj (found.symm.trans found')
          exact chain.suffix
  | block found' _ _ closed =>
      obtain rfl := Option.some.inj (found.symm.trans found')
      obtain ⟨body, split⟩ := Block.exists_body_of_closed closed
      exact (List.suffix_cons _ mid).trans ⟨body, split.symm⟩

theorem suffix (passes : Passes terminators depth text behind mid) : mid <:+ text := by
  obtain ⟨head, found, -⟩ := passes.exists_head
  exact (passes.suffix_rest found).trans (Head.suffix_rest found)

theorem unique (one : Passes terminators depth text behind mid)
    (two : Passes terminators depth text further other) : further = behind ∧ other = mid := by
  cases one with
  | token found _ noBrace _ noArguments =>
      cases two with
      | token found' =>
          obtain rfl := Option.some.inj (found.symm.trans found')
          exact ⟨rfl, rfl⟩
      | typeArguments found' angle _ ends =>
          obtain rfl := Option.some.inj (found.symm.trans found')
          cases (noArguments angle).unique ends
      | block found' brace =>
          obtain rfl := Option.some.inj (found.symm.trans found')
          exact absurd brace noBrace
  | typeArguments found angle _ ends chain =>
      cases two with
      | token found' _ _ _ noArguments =>
          obtain rfl := Option.some.inj (found.symm.trans found')
          cases (noArguments angle).unique ends
      | typeArguments _ _ _ ends' chain' =>
          exact ⟨rfl, (chain.unique chain' (Option.some.inj (ends.unique ends'))).symm⟩
      | block found' brace =>
          obtain rfl := Option.some.inj (found.symm.trans found')
          cases angle.symm.trans brace
  | block found brace _ closed =>
      cases two with
      | token found' _ noBrace =>
          obtain rfl := Option.some.inj (found.symm.trans found')
          exact absurd brace noBrace
      | typeArguments found' angle =>
          obtain rfl := Option.some.inj (found.symm.trans found')
          cases angle.symm.trans brace
      | block found' _ _ closed' =>
          obtain rfl := Option.some.inj (found.symm.trans found')
          exact ⟨rfl, by simpa using closed'.symm.trans closed⟩

end Passes

namespace Extends

theorem suffix (along : Extends terminators depth text rest) : rest <:+ text := by
  induction along with
  | ended => exact List.suffix_refl _
  | passes step _ ih => exact ih.trans step.suffix

theorem opening (along : Extends terminators depth text rest) :
    (∃ head, Head.of? text = some head ∧ head.kind.endsExpression terminators depth = true) ∨
      ∃ behind mid, Passes terminators depth text behind mid := by
  cases along with
  | ended found ends => exact .inl ⟨_, found, ends⟩
  | passes step _ => exact .inr ⟨_, _, step⟩

theorem after (along : Extends terminators depth text rest)
    (step : Passes terminators depth text further mid) : Extends terminators further mid rest := by
  cases along with
  | ended found ends =>
      obtain ⟨head, found', -, goesOn⟩ := step.exists_head
      obtain rfl := Option.some.inj (found.symm.trans found')
      cases ends.symm.trans goesOn
  | passes step' along =>
      obtain ⟨rfl, rfl⟩ := step.unique step'
      exact along

/-- The first token of an expression lies within it, and does not end it. -/
theorem opens {slice tail : List Char} (along : Extends terminators depth (slice ++ tail) tail)
    (content : slice ≠ []) (found : Head.of? (slice ++ tail) = some head) :
    head.kind ≠ .endOfInput ∧ head.kind.endsExpression terminators depth = false ∧
      tail <:+ head.rest := by
  generalize whole : slice ++ tail = text at along found
  cases along with
  | ended => exact absurd (by simpa using whole) content
  | passes step further =>
      obtain ⟨_, found', inside, goesOn⟩ := step.exists_head
      obtain rfl := Option.some.inj (found.symm.trans found')
      exact ⟨inside, goesOn, further.suffix.trans (step.suffix_rest found)⟩

theorem unique (one : Extends terminators depth text rest)
    (two : Extends terminators depth text other) : rest = other := by
  induction one with
  | ended found ends =>
      cases two with
      | ended => rfl
      | passes step _ =>
          obtain ⟨head, found', -, goesOn⟩ := step.exists_head
          obtain rfl := Option.some.inj (found.symm.trans found')
          cases ends.symm.trans goesOn
  | passes step _ ih => exact ih (two.after step)

end Extends

namespace ReadM

/-- How far an expression is read that was read up to a text. -/
def extentTo (source : List Char) (depth : Nat) (text : List Char) : Extent where
  depth := depth
  stop := offsetOf source text

theorem foldl_after {tokens : List Token} (chain : Heads text heads rest)
    (are : List.Forall₂ (Token.IsHead source) heads tokens) :
    tokens.foldl Extent.after (extentTo source depth text) = extentTo source depth rest := by
  induction chain generalizing tokens with
  | nil =>
      obtain rfl := List.forall₂_nil_left_iff.mp are
      rfl
  | cons _ _ ih =>
      obtain ⟨token, tokens, isHead, areHeads, rfl⟩ := List.forall₂_cons_left_iff.mp are
      rw [List.foldl_cons, Extent.after, isHead.stop]
      exact ih areHeads

theorem extend_leads (found : Head.of? text = some head) (depth stop : Nat) :
    Reads strict source (extend { depth, stop }) text (.inl (extentTo source depth head.rest))
      head.rest :=
  (take_leads found).meet fun _ isHead => .pure ⟨by rw [Extent.after, isHead.stop]; rfl, rfl, rfl⟩

def StepsTo (source : List Char) (terminators : List Mark) (depth : Nat) (text : List Char)
    (outcome : Extent ⊕ Nat) (rest : List Char) (told : List Event) : Prop :=
  told = [] ∧ match outcome with
    | .inr stop => stop = offsetOf source text ∧ rest = text ∧
        ∃ head, Head.of? text = some head ∧ head.kind.endsExpression terminators depth = true
    | .inl extent => ∃ behind, extent = extentTo source behind rest ∧
        Passes terminators depth text behind rest

theorem extend_steps (found : Head.of? text = some head) (inside : head.kind ≠ .endOfInput)
    (noBrace : head.kind ≠ .mark .leftBrace)
    (goesOn : head.kind.endsExpression terminators depth = false)
    (noArguments : head.kind = .mark .less → AngleLook.Ends {} text none) {stop : Nat}
    (behind : head.kind.depthBehind depth = further) :
    Leads strict source (extend { depth := further, stop }) text
      (StepsTo source terminators depth text) :=
  (extend_leads found further stop).mono fun _ _ _ ⟨is, left, quiet⟩ => by
    subst is left quiet behind
    exact ⟨rfl, _, rfl, .token found inside noBrace goesOn noArguments⟩

theorem extendOverBlock_steps (found : Head.of? text = some head)
    (brace : head.kind = .mark .leftBrace)
    (goesOn : head.kind.endsExpression terminators depth = false)
    (known : strict → ∃ rest, Block.blockEnd 0 head.rest = .closed rest) (stop : Nat) :
    Leads strict source (extendOverBlock { depth, stop }) text
      (StepsTo source terminators depth text) := by
  intro reading said stands
  have ran := blockText_ran stands found brace known
  simp only [extendOverBlock, Bind.bind, EStateM.bind]
  cases outcome : blockText reading with
  | error failure after => rwa [outcome] at ran
  | ok value after =>
      rw [outcome] at ran
      obtain ⟨rest, closed, offset, further⟩ := ran
      refine ⟨rest, [], ⟨rfl, depth, ?_, .block found brace goesOn closed⟩,
        by rwa [List.append_nil]⟩
      rw [extentTo, ← offset]

theorem extendOverAngle_steps (found : Head.of? text = some head)
    (angle : head.kind = .mark .less)
    (goesOn : head.kind.endsExpression terminators depth = false)
    (known : strict → ∃ found, AngleLook.Ends {} text found) :
    Leads strict source (extendOverAngle budget (extentTo source depth text)) text
      (StepsTo source terminators depth text) := by
  refine (typeArgumentsAhead?_leads known).meet fun count ends => ?_
  cases count with
  | none =>
      exact extend_steps found (by simp [angle]) (by simp [angle]) goesOn (fun _ => ends)
        (by rw [angle]; rfl)
  | some count =>
      obtain ⟨heads, rest, chain, rfl, -⟩ := ends.exists_heads
      rw [Nat.zero_add] at ends ⊢
      exact (takeMany_leads chain).meet fun tokens are =>
        .pure ⟨rfl, depth, foldl_after chain are, .typeArguments found angle goesOn ends chain⟩

/-- An expression goes on in one of two ways at most. -/
theorem passes_of_goesOn (known : (∃ head, Head.of? text = some head ∧
      head.kind.endsExpression terminators depth = true) ∨
        ∃ behind mid, Passes terminators depth text behind mid)
    (found : Head.of? text = some head)
    (goesOn : head.kind.endsExpression terminators depth = false) :
    ∃ behind mid, Passes terminators depth text behind mid := by
  refine known.resolve_left fun ⟨_, found', ends⟩ => ?_
  obtain rfl := Option.some.inj (found.symm.trans found')
  cases ends.symm.trans goesOn

/-- A step through an expression ends it, or passes what comes first. -/
theorem expressionStep_leads (known : strict → (∃ head, Head.of? text = some head ∧
      head.kind.endsExpression terminators depth = true) ∨
        ∃ behind mid, Passes terminators depth text behind mid) :
    Leads strict source (expressionStep budget terminators (extentTo source depth text)) text
      (StepsTo source terminators depth text) := by
  cases found : Head.of? text with
  | none =>
      obtain rfl : strict = False := eq_false fun isStrict => by
        obtain ⟨_, found', _⟩ | ⟨behind, mid, step⟩ := known isStrict
        · cases found.symm.trans found'
        · obtain ⟨_, found', _⟩ := step.exists_head
          cases found.symm.trans found'
      exact .failing (kindAt_fails found)
  | some head =>
      refine (kindAt_first found).andThen ?_
      split
      · next ended =>
          obtain rfl : strict = False := eq_false fun isStrict => by
            obtain ⟨_, _, step⟩ := passes_of_goesOn (known isStrict) found (by rw [ended]; rfl)
            obtain ⟨_, found', inside, -⟩ := step.exists_head
            obtain rfl := Option.some.inj (found.symm.trans found')
            exact inside ended
          exact refuse_fails
      · next symbol is =>
          dsimp only
          split
          · next stops => exact .pure ⟨rfl, rfl, rfl, head, found, by rw [is]; exact stops⟩
          · next stops =>
            have ends : ¬ head.kind.endsExpression terminators depth = true := by
              rw [is]
              exact stops
            have goesOn := eq_false_of_ne_true ends
            have plain (noBrace : symbol ≠ .leftBrace) (noAngle : symbol ≠ .less)
                {further stop : Nat} (behind : head.kind.depthBehind depth = further) :
                Leads strict source (extend { depth := further, stop }) text
                  (StepsTo source terminators depth text) :=
              extend_steps found (by simp [is]) (by simpa [is] using noBrace) goesOn
                (fun angle => absurd (is.symm.trans angle) (by simpa using noAngle)) behind
            split
            · exact plain nofun nofun (by rw [is]; rfl)
            · exact plain nofun nofun (by rw [is]; rfl)
            · exact plain nofun nofun (by rw [is]; rfl)
            · exact plain nofun nofun (by rw [is]; rfl)
            · refine extendOverBlock_steps found is goesOn (fun isStrict => ?_) _
              obtain ⟨_, _, step⟩ := passes_of_goesOn (known isStrict) found goesOn
              exact step.closed_of_brace found is
            · refine extendOverAngle_steps found is goesOn fun isStrict => ?_
              obtain ⟨_, _, step⟩ := passes_of_goesOn (known isStrict) found goesOn
              exact step.looks_of_angle found is
            · next noParen noBracket noParen' noBracket' noBrace noAngle =>
                refine plain (by simpa using noBrace) (by simpa using noAngle) ?_
                rw [is, TokenKind.depthBehind]
                all_goals simpa
      · next notEnd notMark =>
          refine extend_steps found (by simpa using notEnd) (fun brace => notMark _ brace) ?_
            (fun angle => absurd angle (notMark _)) ?_
          · unfold TokenKind.endsExpression
            split
            · next is => exact absurd is (notMark _)
            · rfl
          · unfold TokenKind.depthBehind
            split
            all_goals first
              | rfl
              | next is => exact absurd is (notMark _)

theorem expressionSteps_leads (known : strict → ∃ rest, Extends terminators depth text rest) :
    Leads strict source
      (iterate (expressionStep budget terminators) rounds (extentTo source depth text)) text
      fun stop rest told =>
        told = [] ∧ stop = offsetOf source rest ∧ Extends terminators depth text rest := by
  induction rounds generalizing depth text with
  | zero => exact .exhausted
  | succ rounds ih =>
      refine (expressionStep_leads fun isStrict => ?_).bind fun outcome mid told ⟨quiet, is⟩ => ?_
      · obtain ⟨rest, along⟩ := known isStrict
        exact along.opening
      · subst quiet
        cases outcome with
        | inr stop =>
            obtain ⟨rfl, rfl, head, found, ends⟩ := is
            obtain rfl := TokenKind.depth_of_endsExpression ends
            exact .pure ⟨rfl, rfl, .ended found ends⟩
        | inl extent =>
            obtain ⟨behind, rfl, step⟩ := is
            refine (ih fun isStrict => ?_).mono fun stop rest told ⟨quiet, is, along⟩ =>
              ⟨quiet, is, .passes step along⟩
            obtain ⟨rest, along⟩ := known isStrict
            exact ⟨rest, along.after step⟩

/-- The first token is looked at, and the layout in front of it is left behind. -/
theorem peek_slice (found : Head.of? text = some head) :
    Leads strict source (peek 0) text fun token behind told =>
      token.IsHead source head ∧ behind = head.slice ++ head.rest ∧ told = [] := by
  intro reading said stands
  obtain ⟨token, after, peeked, isHead, here, further⟩ :=
    peek_ahead [] stands (.single found) (by simp)
  rw [show peek 0 reading = _ from peeked]
  refine ⟨_, [], ⟨isHead, rfl, rfl⟩, isHead.inside, further.located, ?_, ?_, further.tidy⟩
  · obtain ⟨heads, chain, are⟩ := further.ahead
    refine ⟨heads, ?_, are⟩
    cases chain with
    | nil =>
        rw [List.forall₂_nil_left_iff.mp are] at here
        cases here
    | cons found' chain =>
        obtain rfl := Option.some.inj (found.symm.trans found')
        exact .cons (Head.of?_slice found) chain
  · rw [List.append_nil]
    exact further.said

/-- The text of an expression runs from its first token up to where it ends. -/
theorem expressionText_leads (found : strict → ∃ head slice rest, Head.of? text = some head ∧
      head.slice ++ head.rest = slice ++ rest ∧ slice ≠ [] ∧
        Extends terminators 0 (slice ++ rest) rest) :
    Leads strict source (expressionText budget terminators) text fun written rest told =>
      told = [] ∧ ∃ head slice, Head.of? text = some head ∧ written = String.ofList slice ∧
        head.slice ++ head.rest = slice ++ rest ∧ slice ≠ [] ∧
          Extends terminators 0 (slice ++ rest) rest := by
  cases first : Head.of? text with
  | none =>
      obtain rfl : strict = False := eq_false fun isStrict => by
        obtain ⟨_, _, _, found', -⟩ := found isStrict
        cases first.symm.trans found'
      exact .failing (peek_fails first)
  | some head =>
      refine (peek_slice first).bind fun token behind told ⟨isHead, left, quiet⟩ => ?_
      subst left quiet
      dsimp only
      rw [isHead.first]
      have known (isStrict : strict) : ∃ rest slice, head.slice ++ head.rest = slice ++ rest ∧
          slice ≠ [] ∧ Extends terminators 0 (head.slice ++ head.rest) rest := by
        obtain ⟨_, slice, rest, found', split, some, along⟩ := found isStrict
        obtain rfl := Option.some.inj (first.symm.trans found')
        exact ⟨rest, slice, split, some, split ▸ along⟩
      refine (expressionSteps_leads fun isStrict => ?_).bind
        fun stop rest told ⟨quiet, is, along⟩ => ?_
      · obtain ⟨rest, -, -, -, along⟩ := known isStrict
        exact ⟨rest, along⟩
      · subst quiet is
        obtain ⟨slice, split⟩ := along.suffix
        have inside := split ▸ isHead.inside
        rw [← split] at along
        rw [← split]
        split
        · next same =>
            obtain rfl := (offsetOf_eq_iff inside).mp same
            obtain rfl : strict = False := eq_false fun isStrict => by
              obtain ⟨rest', slice', split', some, along'⟩ := known isStrict
              rw [← split] at along' split'
              obtain rfl := along.unique along'
              exact some (List.append_cancel_right split').symm
            exact refuse_fails
        · next differ =>
            have some : slice ≠ [] := fun nothing => differ ((offsetOf_eq_iff inside).mpr nothing)
            intro reading said stands
            obtain ⟨taken, located⟩ := stands.located
            refine ⟨rest, [], ⟨rfl, head, slice, rfl, ?_, split.symm, some, along⟩,
              by rwa [List.append_nil]⟩
            rw [located.whole, slice?_offsetOf inside]
            rfl

theorem expressionText_reads {slice : List Char} (found : Head.of? text = some head)
    (split : head.slice ++ head.rest = slice ++ rest) (some : slice ≠ [])
    (along : Extends terminators 0 (slice ++ rest) rest) :
    Reads strict source (expressionText budget terminators) text (String.ofList slice) rest := by
  refine (expressionText_leads fun _ => ⟨head, slice, rest, found, split, some, along⟩).mono
    fun written behind told ⟨quiet, head', slice', found', is, split', _, along'⟩ => ?_
  obtain rfl := Option.some.inj (found.symm.trans found')
  rw [← split', split] at along'
  obtain rfl := along.unique along'
  obtain rfl := List.append_cancel_right (split.symm.trans split')
  exact ⟨is, rfl, quiet⟩

end ReadM

end JavaDecl
