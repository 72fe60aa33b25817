import JavaDecl.Proofs.ExpressionExtents

/-!
# Where angle brackets are closed

A look at type arguments depends on the kinds of the tokens alone.  An angle bracket that opens
inside of another one is closed inside of it.
-/

namespace JavaDecl.ReadM.AngleLook

/-- What a look ends with among some tokens.  It is nothing if the tokens end first. -/
def closes? (look : AngleLook) : List TokenKind → Option Nat
  | [] => none
  | kind :: kinds =>
      match look.after kind with
      | .inl next => next.closes? kinds
      | .inr found => found

variable {look inner outer next : AngleLook} {kind : TokenKind}
  {kinds behind front : List TokenKind} {count further : Nat} {found : Option Nat}

theorem closes?_of_passed (passed : look.after kind = .inl next) :
    look.closes? (kind :: kinds) = next.closes? kinds := by
  rw [closes?, passed]

theorem closes?_of_stopped (stopped : look.after kind = .inr found) :
    look.closes? (kind :: kinds) = found := by
  rw [closes?, stopped]

/-- The look at a text ends as it does among the tokens of the text, if a bracket comes behind
them. -/
theorem ends_of_heads {text rest : List Char} {heads : List Head} {last : Head}
    (chain : Heads text heads rest) (comes : Head.of? rest = some last)
    (closing : last.kind = .mark .rightParen) (look : AngleLook) :
    look.Ends text (look.closes? (heads.map Head.kind ++ [.mark .rightParen])) := by
  induction chain generalizing look with
  | nil => exact .stops comes (by rw [closing]; rfl)
  | @cons text rest head heads first _ ih =>
      rw [List.map_cons, List.cons_append]
      cases step : look.after head.kind with
      | inl next =>
          rw [closes?_of_passed step]
          exact .passes first step (ih comes next)
      | inr found =>
          rw [closes?_of_stopped step]
          exact .stops first step

theorem after_other (noLess : kind ≠ .mark .less) (noGreater : kind ≠ .mark .greater) :
    look.after kind =
      if mayBeTypeArgument kind then .inl { look with seen := look.seen + 1 } else .inr none := by
  unfold after
  split
  · exact absurd rfl noLess
  · exact absurd rfl noGreater
  · rfl

theorem after_greater (isOpen : look.depth ≠ 1) :
    look.after (.mark .greater) = .inl { seen := look.seen + 1, depth := look.depth - 1 } :=
  if_neg isOpen

theorem lt_of_closes? (closed : look.closes? kinds = some count) : look.seen < count := by
  induction kinds generalizing look with
  | nil => cases closed
  | cons kind kinds ih =>
      cases step : look.after kind with
      | inl next =>
          rw [closes?_of_passed step] at closed
          have passed := (seen_of_passed step).1
          have later := ih closed
          omega
      | inr found =>
          rw [closes?_of_stopped step] at closed
          subst closed
          have stopped := seen_of_stopped step
          omega

/-- A look sees no closing bracket. -/
theorem closes?_le (closed : look.closes? (kinds ++ [.mark .rightParen]) = some count) :
    count ≤ look.seen + kinds.length := by
  induction kinds generalizing look with
  | nil => cases closed
  | cons kind kinds ih =>
      rw [List.cons_append] at closed
      cases step : look.after kind with
      | inl next =>
          rw [closes?_of_passed step] at closed
          have passed := (seen_of_passed step).1
          have later := ih closed
          rw [List.length_cons]
          omega
      | inr found =>
          rw [closes?_of_stopped step] at closed
          subst closed
          have stopped := seen_of_stopped step
          rw [List.length_cons]
          omega

/-- Of two looks at the same tokens, the one with fewer brackets open ends first. -/
theorem closes?_lt (inside : 1 ≤ inner.depth) (deeper : inner.depth < outer.depth)
    (closed : inner.closes? kinds = some count) (closed' : outer.closes? kinds = some further) :
    count + outer.seen < further + inner.seen := by
  induction kinds generalizing inner outer with
  | nil => cases closed
  | cons kind kinds ih =>
      by_cases less : kind = .mark .less
      · subst less
        have later := ih (Nat.le_add_left 1 _) (Nat.add_lt_add_right deeper 1) closed closed'
        dsimp only at later
        omega
      · by_cases greater : kind = .mark .greater
        · subst greater
          rw [closes?_of_passed (after_greater (by omega))] at closed'
          by_cases last : inner.depth = 1
          · have stopped : inner.after (.mark .greater) = .inr (some (inner.seen + 1)) :=
              if_pos last
            rw [closes?_of_stopped stopped] at closed
            obtain rfl := Option.some.inj closed
            have later := lt_of_closes? closed'
            dsimp only at later
            omega
          · rw [closes?_of_passed (after_greater last)] at closed
            have later := ih (by dsimp only; omega) (by dsimp only; omega) closed closed'
            dsimp only at later
            omega
        · by_cases between : mayBeTypeArgument kind = true
          · have passed (look : AngleLook) :
                look.after kind = .inl { look with seen := look.seen + 1 } :=
              (after_other less greater).trans (if_pos between)
            rw [closes?_of_passed (passed _)] at closed closed'
            have later := @ih { inner with seen := inner.seen + 1 }
              { outer with seen := outer.seen + 1 } inside deeper closed closed'
            dsimp only at later
            omega
          · rw [closes?_of_stopped ((after_other less greater).trans (if_neg between))] at closed
            cases closed

/-- Whether an angle bracket among some tokens is closed among those behind them. -/
def closesBehind : List TokenKind → List TokenKind → Bool
  | [], _ => false
  | kind :: kinds, behind =>
      (kind == .mark .less &&
          (closes? {} (kind :: (kinds ++ behind))).any (kinds.length + 1 < ·)) ||
        closesBehind kinds behind

theorem closesBehind_cons : closesBehind (kind :: kinds) behind = false ↔
    (kind = .mark .less → ∀ count, closes? {} (kind :: (kinds ++ behind)) = some count →
      count ≤ kinds.length + 1) ∧ closesBehind kinds behind = false := by
  rw [closesBehind, Bool.or_eq_false_iff]
  refine and_congr_left fun _ => ?_
  by_cases less : kind = .mark .less
  · cases closes? {} (kind :: (kinds ++ behind)) <;> simp [less]
  · simp [less]

theorem closesBehind_of_lt (less : kind = .mark .less)
    (closed : closes? {} (kind :: (kinds ++ behind)) = some count)
    (further : kinds.length + 1 < count) : closesBehind (kind :: kinds) behind = true :=
  eq_true_of_ne_false fun within =>
    Nat.not_le.mpr further ((closesBehind_cons.mp within).1 less count closed)

/-- Brackets that are closed in front of some tokens make no difference. -/
theorem closesBehind_append (first : closesBehind front (kinds ++ behind) = false)
    (second : closesBehind kinds behind = false) :
    closesBehind (front ++ kinds) behind = false := by
  induction front with
  | nil => exact second
  | cons kind front ih =>
      obtain ⟨here, others⟩ := closesBehind_cons.mp first
      rw [List.cons_append, closesBehind_cons]
      refine ⟨fun less count closed => ?_, ih others⟩
      have inside := here less count (by rwa [List.append_assoc] at closed)
      rw [List.length_append]
      omega

theorem closesBehind_suffix (within : closesBehind (front ++ kinds) behind = false) :
    closesBehind kinds behind = false := by
  induction front with
  | nil => exact within
  | cons kind front ih => exact ih (closesBehind_cons.mp within).2

/-- The brackets in an open one are closed in front of what closes that one. -/
theorem closesBehind_inside (inside : 1 ≤ outer.depth)
    (closed : outer.closes? (front ++ behind) = some (outer.seen + front.length)) :
    closesBehind front behind = false := by
  induction front generalizing outer with
  | nil => rfl
  | cons kind front ih =>
      refine closesBehind_cons.mpr ⟨fun less count closed' => ?_, ?_⟩
      · subst less
        have ends := @closes?_lt { seen := 1, depth := 1 }
          { seen := outer.seen + 1, depth := outer.depth + 1 } _ _ _ (Nat.le_refl 1)
          (by dsimp only; omega) closed' closed
        dsimp only [List.length_cons] at ends
        omega
      · have goesOn (next : AngleLook) (passed : outer.after kind = .inl next)
            (further : 1 ≤ next.depth) : closesBehind front behind = false := by
          rw [List.cons_append, closes?_of_passed passed, List.length_cons] at closed
          refine ih further ?_
          rw [closed, (seen_of_passed passed).1]
          congr 1
          omega
        by_cases less : kind = .mark .less
        · subst less
          exact goesOn _ rfl (Nat.le_add_left 1 _)
        · by_cases greater : kind = .mark .greater
          · subst greater
            by_cases last : outer.depth = 1
            · have stopped : outer.after (.mark .greater) = .inr (some (outer.seen + 1)) :=
                if_pos last
              rw [List.cons_append, closes?_of_stopped stopped, List.length_cons] at closed
              have none : front.length = 0 := by
                have same := Option.some.inj closed
                omega
              rw [List.length_eq_zero_iff.mp none]
              rfl
            · exact goesOn _ (after_greater last) (by dsimp only; omega)
          · by_cases between : mayBeTypeArgument kind = true
            · exact goesOn _ ((after_other less greater).trans (if_pos between)) inside
            · rw [List.cons_append,
                closes?_of_stopped ((after_other less greater).trans (if_neg between))] at closed
              cases closed

/-- The same for the tokens that a look from an angle bracket on has seen. -/
theorem closesBehind_seen (less : kind = .mark .less)
    (closed : closes? {} (kind :: (front ++ behind)) = some (front.length + 1)) :
    closesBehind (kind :: front) behind = false := by
  subst less
  refine closesBehind_cons.mpr ⟨fun _ count closed' => ?_, ?_⟩
  · rw [closed] at closed'
    exact (Option.some.inj closed').symm.le
  · refine @closesBehind_inside { seen := 1, depth := 1 } _ _ (Nat.le_refl 1) ?_
    rw [Nat.add_comm] at closed
    exact closed

end JavaDecl.ReadM.AngleLook
