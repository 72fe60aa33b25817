import JavaDecl.Proofs.ExpressionExtents

/-!
# Expressions that are cut

An expression extends as far as before if its text is cut where it ends and a token that ends
it comes there.  What is behind the expression decides nothing about the looks at type
arguments in it: a look that goes on behind it finds none, and finds none at the new end.
-/

namespace JavaDecl

open ReadM

variable {tail other front back : List Char} {head last : Head} {heads : List Head}
  {look : AngleLook} {terminators : List Mark} {depth behind count : Nat}

/-- The tokens of a text lead to some text at its end, or to a brace in front of it. -/
inductive LeadsTo (tail : List Char) : List Char → Prop where
  | here : LeadsTo tail tail
  | brace {text : List Char} {head : Head} : Head.of? text = some head →
      head.kind = .mark .leftBrace → tail <:+ head.rest → LeadsTo tail text
  | token {text : List Char} {head : Head} : Head.of? text = some head →
      head.kind ≠ .endOfInput → tail <:+ head.rest → LeadsTo tail head.rest → LeadsTo tail text

/-- Type arguments lead on behind them. -/
theorem LeadsTo.ofEnds {text rest : List Char} (chain : Heads text heads rest)
    (ends : look.Ends text (some count)) (all : count = look.seen + heads.length)
    (within : tail <:+ rest) (further : LeadsTo tail rest) : LeadsTo tail text := by
  induction chain generalizing look with
  | nil => exact further
  | @cons text rest head heads found chain ih =>
      have within' := within.trans chain.suffix
      rw [List.length_cons] at all
      cases ends with
      | stops found' stopped =>
          obtain rfl := Option.some.inj (found.symm.trans found')
          have length := AngleLook.seen_of_stopped stopped
          obtain rfl : heads = [] := List.length_eq_zero_iff.mp (by omega)
          refine .token found (fun isEnd => ?_) within' (chain.eq_of_nil ▸ further)
          rw [isEnd] at stopped
          cases stopped
      | passes found' passed ends =>
          obtain rfl := Option.some.inj (found.symm.trans found')
          have seen := (AngleLook.seen_of_passed passed).1
          refine .token found (fun isEnd => ?_) within' (ih ends (by omega) within further)
          rw [isEnd] at passed
          cases passed

theorem Extends.leadsTo {text : List Char} (along : Extends terminators depth text tail) :
    LeadsTo tail text := by
  induction along with
  | ended => exact .here
  | passes step along ih =>
      have within := along.suffix
      cases step with
      | token found inside => exact .token found inside within ih
      | typeArguments found _ _ ends chain =>
          exact .ofEnds chain ends (Nat.zero_add _).symm within ih
      | block found brace _ closed =>
          obtain ⟨body, split⟩ := Block.exists_body_of_closed closed
          exact .brace found brace
            (within.trans ((List.suffix_cons _ _).trans ⟨body, split.symm⟩))

section Cut

variable (opens : Lexeme.OpensBreak other) (found : Head.of? other = some last)
  (stops : ∀ look : AngleLook, look.after last.kind = .inr none)

include opens found stops in
/-- A look that finds nothing finds nothing in the text that is cut. -/
theorem ReadM.AngleLook.Ends.cut (leads : LeadsTo tail (front ++ tail))
    (ends : look.Ends (front ++ tail) none) : look.Ends (front ++ other) none := by
  generalize whole : front ++ tail = text at leads ends
  induction leads generalizing front look with
  | here =>
      obtain rfl : front = [] := by simpa using whole
      exact .stops found (stops look)
  | brace first brace within =>
      subst whole
      obtain ⟨back, left⟩ := within
      refine .stops (Head.of?_cut first (by simp [brace]) left.symm opens) ?_
      rw [brace]
      rfl
  | token first inside within _ ih =>
      subst whole
      obtain ⟨back, left⟩ := within
      have again := Head.of?_cut first inside left.symm opens
      cases ends with
      | stops first' stopped =>
          obtain rfl := Option.some.inj (first.symm.trans first')
          exact .stops again stopped
      | passes first' passed ends =>
          obtain rfl := Option.some.inj (first.symm.trans first')
          exact .passes again passed (ih left ends)

include opens in
/-- A look that succeeds finds the same type arguments in the text that is cut behind them. -/
theorem ReadM.AngleLook.Ends.cut_behind (chain : Heads (front ++ tail) heads (back ++ tail))
    (ends : look.Ends (front ++ tail) (some count)) (all : count = look.seen + heads.length) :
    ∃ heads', Heads (front ++ other) heads' (back ++ other) ∧ heads'.length = heads.length ∧
      look.Ends (front ++ other) (some count) := by
  generalize whole : front ++ tail = text at chain ends
  generalize left : back ++ tail = rest at chain
  induction chain generalizing front look with
  | nil => exact absurd ends.lt (by simp [all])
  | @cons text rest head heads first chain ih =>
      subst whole left
      obtain ⟨between, within⟩ := (List.suffix_append back tail).trans chain.suffix
      rw [List.length_cons] at all
      cases ends with
      | stops first' stopped =>
          obtain rfl := Option.some.inj (first.symm.trans first')
          have length := AngleLook.seen_of_stopped stopped
          obtain rfl : heads = [] := List.length_eq_zero_iff.mp (by omega)
          have again := Head.of?_cut first (fun isEnd => by
            rw [isEnd] at stopped
            cases stopped) chain.eq_of_nil.symm opens
          exact ⟨[_], .single again, rfl, .stops again stopped⟩
      | passes first' passed ends =>
          obtain rfl := Option.some.inj (first.symm.trans first')
          have again := Head.of?_cut first (fun isEnd => by
            rw [isEnd] at passed
            cases passed) within.symm opens
          have seen := (AngleLook.seen_of_passed passed).1
          obtain ⟨heads', chain', length, ends'⟩ := ih (by omega) within ends rfl
          exact ⟨_ :: heads', .cons again chain', by simp [length], .passes again passed ends'⟩

include opens found stops in
/-- A step is the same in the text that is cut. -/
theorem Passes.cut (passes : Passes terminators depth (front ++ tail) behind (back ++ tail))
    (leads : LeadsTo tail (front ++ tail)) :
    Passes terminators depth (front ++ other) behind (back ++ other) := by
  generalize whole : front ++ tail = text at passes leads
  generalize left : back ++ tail = mid at passes
  cases passes with
  | token first inside noBrace goesOn noArguments =>
      subst whole
      exact .token (Head.of?_cut first inside left.symm opens) inside noBrace goesOn
        fun angle => (noArguments angle).cut opens found stops leads
  | typeArguments first angle goesOn ends chain =>
      subst whole left
      obtain ⟨heads', chain', length, ends'⟩ := ends.cut_behind opens chain (Nat.zero_add _).symm
      have within := (Passes.typeArguments first angle goesOn ends chain).suffix_rest first
      obtain ⟨between, left⟩ := (List.suffix_append back tail).trans within
      have again := Head.of?_cut first (by simp [angle]) left.symm opens
      exact .typeArguments again angle goesOn (length ▸ ends') chain'
  | @block head _ first brace goesOn closed =>
      subst whole left
      obtain ⟨body, split⟩ := Block.exists_body_of_closed closed
      have left : head.rest = (body ++ '\x7d' :: back) ++ tail := by simpa using split
      have again := Head.of?_cut first (by simp [brace]) left opens
      refine .block again brace goesOn ?_
      rw [split] at closed
      have same := Block.blockEnd_append closed (by decide : '\x7d' ∉ ['"', '/', '*']) 0
        (back ++ other)
      rw [List.append_assoc, List.cons_append]
      exact same.trans (TokenStream.blockEnd_brace _)

/-- An expression extends as far in the text that is cut where it ends. -/
theorem Extends.cut (along : Extends terminators depth (front ++ tail) tail)
    (opens : Lexeme.OpensBreak other) (found : Head.of? other = some last)
    (stops : ∀ look : AngleLook, look.after last.kind = .inr none)
    (ends : last.kind.endsExpression terminators 0 = true) :
    Extends terminators depth (front ++ other) other := by
  generalize whole : front ++ tail = text at along
  induction along generalizing front with
  | ended =>
      obtain rfl : front = [] := by simpa using whole
      exact .ended found ends
  | passes step further ih =>
      subst whole
      obtain ⟨back, left⟩ := further.suffix
      subst left
      exact .passes (step.cut opens found stops (Extends.passes step further).leadsTo) (ih rfl)

end Cut

end JavaDecl
