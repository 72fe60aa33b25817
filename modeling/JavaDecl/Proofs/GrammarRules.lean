import JavaDecl.Grammar.Unit

/-!
# Rules for the phrases of the grammar

A judgement about parts of a reading that holds of looking at tokens and taking them, of
blocks and expressions, and of one part after another, holds of every phrase that announces
nothing: of names, annotations, modifiers and types.
-/

namespace JavaDecl.ReadM

/-- A judgement holds of looking at tokens and taking them, and of one part after another. -/
structure TokenRules (keeps : ∀ α : Type, ReadM α → Prop) : Prop where
  pure : ∀ {α : Type} (value : α), keeps α (Pure.pure value)
  fault : ∀ {α : Type} (failure : ParseError), keeps α (throw failure)
  bind : ∀ {α β : Type} {part : ReadM α} {next : α → ReadM β}, keeps α part →
    (∀ value, keeps β (next value)) → keeps β (part >>= next)
  get : keeps Reading MonadState.get
  peek : ∀ skipped : Nat, keeps Token (peek skipped)
  take : keeps Token take

/-- A judgement holds of tokens, and of blocks and expressions besides. -/
structure PhraseRules (keeps : ∀ α : Type, ReadM α → Prop) : Prop extends TokenRules keeps where
  blockText : keeps String blockText
  expressionText : ∀ (budget : Nat) (terminators : List Mark),
    keeps String (expressionText budget terminators)

namespace TokenRules

variable {keeps : ∀ α : Type, ReadM α → Prop} (rules : TokenRules keeps) {α β σ : Type}
  {part other : ReadM α} {next : α → ReadM β}

/-! ### Choices -/

theorem ite {condition : Prop} [Decidable condition] (yes : keeps α part)
    (no : keeps α other) : keeps α (if condition then part else other) := by
  split
  · exact yes
  · exact no

theorem given {value : α} (rest : keeps β (next value)) :
    keeps β (Pure.pure value >>= next) := by
  rwa [pure_bind]

include rules

theorem map {change : α → β} (first : keeps α part) : keeps β (change <$> part) := by
  rw [map_eq_pure_bind]
  exact rules.bind first fun _ => rules.pure _

theorem both {one two : ReadM Bool} (first : keeps Bool one) (second : keeps Bool two) :
    keeps Bool (one <&&> two) :=
  rules.bind first fun answer => by
    cases answer
    · exact rules.pure false
    · exact second

theorem either {one two : ReadM Bool} (first : keeps Bool one) (second : keeps Bool two) :
    keeps Bool (one <||> two) :=
  rules.bind first fun answer => by
    cases answer
    · exact second
    · exact rules.pure true

/-! ### Tokens -/

section Tokens

variable (skipped : Nat) (kind : TokenKind) (word expected : String)

theorem kindAt : keeps TokenKind (ReadM.kindAt skipped) :=
  rules.bind (rules.peek skipped) fun _ => rules.pure _

theorem isAt : keeps Bool (ReadM.isAt skipped kind) :=
  rules.bind (rules.kindAt skipped) fun _ => rules.pure _

theorem isNext : keeps Bool (ReadM.isNext kind) :=
  rules.isAt 0 kind

theorem isWordAt : keeps Bool (ReadM.isWordAt skipped word) :=
  rules.bind (rules.peek skipped) fun _ => rules.pure _

theorem takeMany (count : Nat) : keeps (List Token) (ReadM.takeMany count) := by
  induction count with
  | zero => exact rules.pure _
  | succ count ih => exact rules.bind rules.take fun _ => rules.bind ih fun _ => rules.pure _

theorem refuse : keeps α (ReadM.refuse expected) :=
  rules.bind (rules.peek 0) fun _ => ite (rules.fault _) (rules.fault _)

theorem exhausted : keeps α ReadM.exhausted :=
  rules.bind rules.get fun _ => rules.fault _

theorem accept : keeps Bool (ReadM.accept kind) :=
  rules.bind (rules.isNext kind) fun _ =>
    ite (rules.bind rules.take fun _ => rules.pure _) (rules.pure _)

theorem expect : keeps Token (ReadM.expect kind expected) :=
  rules.bind (rules.isNext kind) fun _ => ite rules.take (rules.refuse expected)

theorem expectWord : keeps Token (ReadM.expectWord word) :=
  rules.bind (rules.isWordAt 0 word) fun _ => ite rules.take (rules.refuse _)

theorem nextLine : keeps Nat ReadM.nextLine :=
  rules.bind (rules.peek 0) fun _ => rules.pure _

theorem identifier : keeps String ReadM.identifier :=
  rules.bind (rules.expect .identifier _) fun _ => rules.pure _

end Tokens

/-! ### Repetition -/

theorem many {part : ReadM (Option α)} (once : keeps (Option α) part) (budget : Nat) :
    keeps (List α) (ReadM.many part budget) := by
  induction budget with
  | zero => exact rules.exhausted
  | succ budget ih =>
      refine rules.bind once fun found => ?_
      cases found with
      | none => exact rules.pure _
      | some _ => exact rules.bind ih fun _ => rules.pure _

theorem iterate {part : σ → ReadM (σ ⊕ α)} (once : ∀ value, keeps (σ ⊕ α) (part value))
    (budget : Nat) (value : σ) : keeps α (ReadM.iterate part budget value) := by
  induction budget generalizing value with
  | zero => exact rules.exhausted
  | succ budget ih =>
      refine rules.bind (once value) fun outcome => ?_
      cases outcome with
      | inl next => exact ih next
      | inr _ => exact rules.pure _

theorem separatedBy (symbol : Mark) (once : keeps α part) (budget : Nat) :
    keeps (List α) (ReadM.separatedBy symbol part budget) := by
  induction budget with
  | zero => exact rules.exhausted
  | succ budget ih =>
      exact rules.bind once fun _ => rules.bind (rules.accept _) fun _ =>
        ite (rules.bind ih fun _ => rules.pure _) (rules.pure _)

theorem listUntil (closing : Mark) (once : keeps α part) (budget : Nat) :
    keeps (List α) (ReadM.listUntil closing part budget) := by
  induction budget with
  | zero => exact rules.exhausted
  | succ budget ih =>
      exact rules.bind (rules.isNext _) fun _ => ite (rules.pure _) (rules.bind once fun _ =>
        rules.bind (rules.accept _) fun _ => ite (rules.bind ih fun _ => rules.pure _)
          (rules.pure _))

theorem qualifiedName (budget : Nat) : keeps String (ReadM.qualifiedName budget) := by
  refine rules.bind rules.identifier fun _ => rules.bind (rules.many ?_ budget) fun _ =>
    rules.pure _
  exact rules.bind (rules.both (rules.isNext _) (rules.isAt 1 _)) fun _ =>
    ite (rules.bind rules.take fun _ => rules.bind rules.identifier fun _ => rules.pure _)
      (rules.pure _)

/-- An expression, if all that is needed for it are blocks and looks at type arguments. -/
theorem expressionText (block : keeps String ReadM.blockText)
    (ahead : ∀ budget, keeps (Option Nat) (typeArgumentsAhead? budget)) (budget : Nat)
    (terminators : List Mark) : keeps String (ReadM.expressionText budget terminators) := by
  have extend (extent : Extent) : keeps (Extent ⊕ Nat) (ReadM.extend extent) :=
    rules.bind rules.take fun _ => rules.pure _
  have overBlock (extent : Extent) : keeps (Extent ⊕ Nat) (extendOverBlock extent) :=
    rules.bind block fun _ => rules.bind rules.get fun _ => rules.pure _
  have overAngle (extent : Extent) : keeps (Extent ⊕ Nat) (extendOverAngle budget extent) := by
    refine rules.bind (ahead budget) fun found => ?_
    cases found with
    | none => exact extend extent
    | some count => exact rules.bind (rules.takeMany count) fun _ => rules.pure _
  have step (extent : Extent) :
      keeps (Extent ⊕ Nat) (expressionStep budget terminators extent) := by
    refine rules.bind (rules.kindAt 0) fun kind => ?_
    split
    · exact rules.refuse _
    · refine ite (rules.pure _) ?_
      split
      · exact extend _
      · exact extend _
      · exact extend _
      · exact extend _
      · exact overBlock extent
      · exact overAngle extent
      · exact extend extent
    · exact extend extent
  exact rules.bind (rules.peek 0) fun _ => rules.bind (rules.iterate step budget _) fun _ =>
    ite (rules.refuse _) (rules.bind rules.get fun _ => rules.pure _)

end TokenRules

namespace PhraseRules

open TokenRules (ite given)

variable {keeps : ∀ α : Type, ReadM α → Prop} (rules : PhraseRules keeps)

include rules

/-! ### Annotations and modifiers -/

theorem endsValue (skipped : Nat) : keeps Bool (ReadM.endsValue skipped) :=
  rules.bind (rules.kindAt skipped) fun _ => rules.pure _

theorem classLiteral? (budget : Nat) :
    keeps (Option TypeExpr) (ReadM.classLiteral? budget) := by
  refine rules.bind (rules.kindAt 0) fun first => ite (rules.bind ?_ fun count =>
    rules.bind ?_ fun _ => ite (rules.bind (rules.takeMany count) fun _ =>
      rules.bind (rules.takeMany 2) fun _ => rules.pure _) (rules.pure _)) (rules.pure _)
  · exact rules.iterate (fun seen => rules.bind (rules.kindAt seen) fun _ =>
      rules.bind (rules.kindAt (seen + 1)) fun _ => rules.pure _) budget 1
  · exact rules.both (rules.isAt count _)
      (rules.both (rules.isAt (count + 1) _) (rules.endsValue (count + 2)))

theorem annotations (budget : Nat) :
    keeps (AnnotationUse TypeExpr) (ReadM.annotationUse budget) ∧
      keeps (List (String × ElementValue TypeExpr)) (ReadM.elementValues budget) ∧
      keeps (String × ElementValue TypeExpr) (ReadM.elementPair budget) ∧
      keeps (ElementValue TypeExpr) (ReadM.elementValue budget) := by
  induction budget with
  | zero => exact ⟨rules.exhausted, rules.exhausted, rules.exhausted, rules.exhausted⟩
  | succ budget ih =>
      obtain ⟨use, values, pair, value⟩ := ih
      refine ⟨?_, ?_, ?_, ?_⟩
      · rw [ReadM.annotationUse]
        exact rules.bind (rules.expect _ _) fun _ => rules.bind (rules.qualifiedName budget)
          fun _ => rules.bind (rules.accept _) fun _ =>
            ite (rules.bind values fun _ => rules.pure _) (given (rules.pure _))
      · rw [ReadM.elementValues]
        have closing (values : List (String × ElementValue TypeExpr)) : keeps _
            (expectMark .rightParen "')' after annotation values" >>= fun _ => Pure.pure values) :=
          rules.bind (rules.expect _ _) fun _ => rules.pure _
        exact rules.bind (rules.isNext _) fun _ => rules.bind
          (rules.both (rules.isNext _) (rules.isAt 1 _)) fun _ => ite (given (closing _))
            (ite (rules.bind (rules.separatedBy _ pair budget) closing)
              (rules.bind value fun _ => given (closing _)))
      · rw [ReadM.elementPair]
        exact rules.bind rules.identifier fun _ => rules.bind (rules.expect _ _) fun _ =>
          rules.bind value fun _ => rules.pure _
      · rw [ReadM.elementValue]
        refine rules.bind (rules.isNext _) fun _ => ite (rules.bind use fun _ => rules.pure _)
          (rules.bind (rules.accept _) fun _ => ite
            (rules.bind (rules.listUntil _ value budget) fun _ =>
              rules.bind (rules.expect _ _) fun _ => rules.pure _)
            (rules.bind (rules.classLiteral? budget) fun literal => ?_))
        cases literal with
        | some type => exact rules.pure _
        | none =>
            exact rules.bind (rules.both (rules.map (rules.kindAt 0)) (rules.endsValue 1))
              fun _ => ite (rules.bind rules.take fun _ => rules.pure _)
                (rules.bind (rules.expressionText budget _) fun _ => rules.pure _)

theorem annotationUse (budget : Nat) :
    keeps (AnnotationUse TypeExpr) (ReadM.annotationUse budget) :=
  (rules.annotations budget).1

theorem modifiers (budget : Nat) : keeps Modifiers (ReadM.modifiers budget) := by
  refine rules.bind (rules.many ?_ budget) fun _ => rules.pure _
  have taking : keeps (Option (AnnotationUse TypeExpr ⊕ String))
      (ReadM.take >>= fun token => Pure.pure (some (.inr token.text))) :=
    rules.bind rules.take fun _ => rules.pure _
  exact rules.bind (rules.kindAt 0) fun _ => ite
    (rules.bind (rules.isAt 1 _) fun _ => ite (rules.pure _)
      (rules.bind (rules.annotationUse budget) fun _ => rules.pure _))
    (ite taking
      (rules.bind (rules.both (rules.isWordAt 0 _) (rules.map (rules.kindAt 1))) fun _ =>
        ite taking
          (rules.bind (rules.both (rules.isWordAt 0 _)
              (rules.both (rules.isAt 1 _) (rules.isWordAt 2 _))) fun _ =>
            ite (rules.bind (rules.takeMany 3) fun _ => rules.pure _) (rules.pure _))))

/-! ### Types -/

theorem skipAnnotations (budget : Nat) : keeps Unit (ReadM.skipAnnotations budget) := by
  refine rules.bind (rules.many ?_ budget) fun _ => rules.pure _
  exact rules.bind (rules.both (rules.isNext _) (rules.map (rules.isAt 1 _))) fun _ =>
    ite (rules.bind (rules.annotationUse budget) fun _ => rules.pure _) (rules.pure _)

theorem dimensions (budget : Nat) : keeps Nat (ReadM.dimensions budget) := by
  refine rules.bind (rules.many ?_ budget) fun _ => rules.pure _
  exact rules.bind (rules.both (rules.isNext _) (rules.isAt 1 _)) fun _ =>
    ite (rules.bind (rules.takeMany 2) fun _ => rules.pure _) (rules.pure _)

theorem types (budget : Nat) :
    keeps TypeExpr (ReadM.typeExpr budget) ∧ keeps TypeExpr (ReadM.classType budget) ∧
      (∀ type, keeps (TypeExpr ⊕ TypeExpr) (ReadM.classTypePart budget type)) ∧
      keeps (List (TypeArgument TypeExpr)) (ReadM.optionalArguments budget) ∧
      keeps (TypeArgument TypeExpr) (ReadM.typeArgument budget) := by
  induction budget with
  | zero =>
      exact ⟨rules.exhausted, rules.exhausted, fun _ => rules.exhausted, rules.exhausted,
        rules.exhausted⟩
  | succ budget ih =>
      obtain ⟨type, classes, part, args, argument⟩ := ih
      refine ⟨?_, ?_, fun outer => ?_, ?_, ?_⟩
      · rw [ReadM.typeExpr]
        have dimensioned (type : TypeExpr) : keeps TypeExpr
            (ReadM.dimensions budget >>= fun count => Pure.pure (type.addDims count)) :=
          rules.bind (rules.dimensions budget) fun _ => rules.pure _
        exact rules.bind (rules.skipAnnotations budget) fun _ => rules.bind (rules.kindAt 0)
          fun _ => ite (rules.bind rules.take fun _ => given (dimensioned _))
            (rules.bind classes dimensioned)
      · rw [ReadM.classType]
        exact rules.bind rules.identifier fun _ => rules.bind args fun _ =>
          rules.iterate part budget _
      · rw [ReadM.classTypePart]
        exact rules.bind (rules.both (rules.isNext _) (rules.map (rules.kindAt 1))) fun _ =>
          ite (rules.bind rules.take fun _ => rules.bind (rules.skipAnnotations budget) fun _ =>
            rules.bind rules.identifier fun _ => rules.bind args fun _ => rules.pure _)
            (rules.pure _)
      · rw [ReadM.optionalArguments]
        exact rules.bind (rules.accept _) fun _ => ite (rules.bind (rules.accept _) fun _ =>
          ite (rules.pure _) (rules.bind (rules.separatedBy _ argument budget) fun _ =>
            rules.bind (rules.expect _ _) fun _ => rules.pure _)) (rules.pure _)
      · rw [ReadM.typeArgument]
        exact rules.bind (rules.skipAnnotations budget) fun _ => rules.bind (rules.accept _)
          fun _ => ite (rules.bind (rules.accept _) fun _ =>
            ite (rules.bind type fun _ => rules.pure _) (rules.bind (rules.accept _) fun _ =>
              ite (rules.bind type fun _ => rules.pure _) (rules.pure _)))
            (rules.bind type fun _ => rules.pure _)

theorem typeExpr (budget : Nat) : keeps TypeExpr (ReadM.typeExpr budget) :=
  (rules.types budget).1

theorem typeList (budget : Nat) : keeps (List TypeExpr) (ReadM.typeList budget) :=
  rules.separatedBy _ (rules.typeExpr budget) budget

theorem optionalParameters (budget : Nat) :
    keeps (List (TypeParameter TypeExpr)) (ReadM.optionalParameters budget) := by
  refine rules.bind (rules.accept _) fun _ => ite (rules.bind (rules.separatedBy _ ?_ budget)
    fun _ => rules.bind (rules.expect _ _) fun _ => rules.pure _) (rules.pure _)
  exact rules.bind (rules.skipAnnotations budget) fun _ => rules.bind rules.identifier fun _ =>
    rules.bind (rules.accept _) fun _ => ite
      (rules.bind (rules.separatedBy _ (rules.typeExpr budget) budget) fun _ => rules.pure _)
      (given (rules.pure _))

end PhraseRules

end JavaDecl.ReadM
