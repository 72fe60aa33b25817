import JavaDecl.Proofs.DeclarationRules
import JavaDecl.Proofs.ExpressionExtents

/-!
# Events that fit their source

What holds of all events of field declarations, and of all that have no part in one, holds of
all events of an accepted source.  Every part of the grammar is read as if the source were
accepted: where it is not, nothing is said.
-/

namespace JavaDecl.ReadM

/-- Whatever is announced by a part of a reading fits, if the part does not fail. -/
def AllFit {α : Type} (fits : Event → Prop) (source : List Char) (part : ReadM α) : Prop :=
  ∀ text, Leads False source part text fun _ _ told => ∀ event ∈ told, fits event

variable {fits : Event → Prop} {source : List Char} {budget : Nat}

namespace AllFit

variable {α β : Type} {part : ReadM α} {next : α → ReadM β}

theorem ofQuiet (quiet : ∀ text, Leads False source part text fun _ _ told => told = []) :
    AllFit fits source part := by
  intro text
  refine (quiet text).mono fun _ _ told none event member => ?_
  rw [none] at member
  cases member

theorem pure (value : α) : AllFit fits source (Pure.pure value) := fun _ => .pure nofun

theorem fault {failure : ParseError} : AllFit fits source (throw failure : ReadM α) :=
  fun _ => .fault

theorem bind (first : AllFit fits source part) (second : ∀ value, AllFit fits source (next value)) :
    AllFit fits source (part >>= next) := by
  intro text
  refine (first text).bind fun value mid told one => (second value mid).mono
    fun _ _ more two event member => ?_
  exact (List.mem_append.mp member).elim (one event) (two event)

theorem get : AllFit fits source (MonadState.get : ReadM Reading) := fun text _ _ stands =>
  ⟨text, [], nofun, by rwa [List.append_nil]⟩

end AllFit

/-! ### Tokens -/

theorem heads_or_fill_fails (count : Nat) {reading : Reading} {taken : List Char}
    (located : reading.stream.Located source taken) :
    (∃ heads rest, Heads reading.stream.rest heads rest ∧ heads.length = count) ∨
      ∃ failure after, fill count reading = .error failure after := by
  induction count generalizing reading taken with
  | zero => exact .inl ⟨[], _, .nil, rfl⟩
  | succ count ih =>
      cases found : Head.of? reading.stream.rest with
      | none =>
          obtain ⟨failure, after, failed⟩ := pull_of_fault located found
          exact .inr ⟨failure, after, by simp only [fill, Bind.bind, EStateM.bind, failed]⟩
      | some head =>
          obtain ⟨token, stream, events, pulled, -, left, ⟨_, later⟩, -⟩ :=
            pull_of_head located found
          rcases @ih { stream, lookahead := reading.lookahead ++ [token], events } _ later with
            ⟨heads, rest, chain, length⟩ | ⟨failure, after, failed⟩
          · exact .inl ⟨head :: heads, rest, .cons found (left ▸ chain),
              by rw [List.length_cons, length]⟩
          · refine .inr ⟨failure, after, ?_⟩
            simp only [fill, Bind.bind, EStateM.bind, pulled]
            exact failed

/-- A look ahead finds a token, and stays where it is. -/
theorem peek_finds_heads (skipped : Nat) (text : List Char) :
    Leads False source (peek skipped) text fun token rest told => rest = text ∧ told = [] ∧
      ∃ front head behind, Heads text (front ++ [head]) behind ∧ front.length = skipped ∧
        token.IsHead source head := by
  intro reading said stands
  obtain ⟨taken, located⟩ := stands.located
  obtain ⟨heads, chain, are⟩ := stands.ahead
  have reaches : (∃ all behind, Heads text all behind ∧ all.length = skipped + 1) ∨
      ∃ failure after, peek skipped reading = .error failure after := by
    by_cases known : skipped < reading.lookahead.length
    · rw [← List.take_append_drop (skipped + 1) heads] at chain
      obtain ⟨behind, first, -⟩ := chain.split
      exact .inl ⟨_, behind, first, List.length_take_of_le (are.length_eq ▸ known)⟩
    · rcases heads_or_fill_fails (skipped + 1 - reading.lookahead.length) located with
        ⟨more, behind, further, length⟩ | ⟨failure, after, failed⟩
      · refine .inl ⟨_, behind, chain.append further, ?_⟩
        rw [List.length_append, length, are.length_eq]
        omega
      · refine .inr ⟨failure, after, ?_⟩
        have got (reading : Reading) : (get : ReadM Reading) reading = .ok reading reading := rfl
        simp only [peek, Bind.bind, EStateM.bind, got,
          List.getElem?_eq_none (Nat.le_of_not_lt known), failed]
  rcases reaches with ⟨all, behind, whole, length⟩ | ⟨failure, after, failed⟩
  · rcases List.eq_nil_or_concat all with rfl | ⟨front, head, rfl⟩
    · cases length
    · rw [List.concat_eq_append] at whole length
      obtain rfl : front.length = skipped := by simpa using length
      obtain ⟨token, after, peeked, isHead, -, further⟩ := peek_ahead front stands whole False.elim
      rw [peeked]
      exact ⟨text, [], ⟨rfl, rfl, front, head, behind, whole, rfl, isHead⟩,
        by rwa [List.append_nil]⟩
  · rw [failed]
    exact .inr not_false

theorem isNext_stays (kind : TokenKind) (text : List Char) :
    Leads False source (isNext kind) text fun _ rest told => rest = text ∧ told = [] := by
  cases found : Head.of? text with
  | none => exact isNext_fails found
  | some head => exact (isNext_reads found rfl).mono fun _ _ _ => And.right

theorem peek_fit (skipped : Nat) : AllFit fits source (peek skipped) :=
  .ofQuiet fun text => (peek_finds_heads skipped text).mono fun _ _ _ found => found.2.1

theorem take_fit : AllFit fits source take := by
  refine .ofQuiet fun text => ?_
  cases found : Head.of? text with
  | none => exact .failing (peek_fails found)
  | some head => exact (take_leads found).mono fun _ _ _ same => same.2.2

theorem blockText_fit : AllFit fits source blockText := by
  refine .ofQuiet fun text => ?_
  cases found : Head.of? text with
  | none => exact .failing (.failing (isNext_fails found))
  | some head =>
      by_cases brace : head.kind = .mark .leftBrace
      · exact (blockText_leads found brace nofun).mono fun _ _ _ => And.right
      · exact .failing (.no (isNext_reads found (by simpa using brace)) refuse_fails)

theorem expressionText_fit (budget : Nat) (terminators : List Mark) :
    AllFit fits source (expressionText budget terminators) :=
  .ofQuiet fun _ => (expressionText_leads nofun).mono fun _ _ _ => And.left

/-- All events of a phrase fit, since it announces none. -/
theorem allFit_phrases (fits : Event → Prop) (source : List Char) :
    PhraseRules fun _ part => AllFit fits source part where
  pure := .pure
  fault _ := .fault
  bind := .bind
  get := .get
  peek := peek_fit
  take := take_fit
  blockText := blockText_fit
  expressionText := expressionText_fit

end JavaDecl.ReadM
