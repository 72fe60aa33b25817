import JavaDecl.Grammar.Types
import JavaDecl.Proofs.ParallelReading

/-!
# Expressions, annotations and types side by side

Corresponding tokens make up the same types and modifier words.  Expressions are cut out of
two sources at offsets that correspond, so their texts are restored from one another.
-/

namespace JavaDecl.ReadM

open Correspondence

variable {between : Correspondence} {budget larger : Nat}

/-! ### Expressions -/

theorem AngleLook.afterAll_eq {tokens others : List Token} (look : AngleLook)
    (same : List.Forall₂ between.Tokens tokens others) :
    look.afterAll tokens = look.afterAll others := by
  induction same generalizing look with
  | nil => rfl
  | cons first _ ih =>
      simp only [AngleLook.afterAll, first.kind]
      split
      · exact ih _
      · rfl

/-- Looks that have seen and added corresponding tokens. -/
structure LooksAlike {σ : Type} (between : Correspondence) (one other : σ × Array Token) :
    Prop where
  look : one.1 = other.1
  added : List.Forall₂ between.Tokens one.2.toList other.2.toList

/-- How far two readings have come in expressions that correspond. -/
structure ExtendsAlike (between : Correspondence) (one other : Extent) : Prop where
  depth : one.depth = other.depth
  stop : between.offsets one.stop other.stop

theorem ExtendsAlike.after {extent extent' : Extent} {token token' : Token}
    (alike : ExtendsAlike between extent extent') (tokens : between.Tokens token token') :
    ExtendsAlike between (extent.after token) (extent'.after token') :=
  ⟨alike.depth, tokens.stop⟩

theorem ExtendsAlike.afterAll {extent extent' : Extent} {tokens tokens' : List Token}
    (alike : ExtendsAlike between extent extent')
    (same : List.Forall₂ between.Tokens tokens tokens') :
    ExtendsAlike between (tokens.foldl Extent.after extent)
      (tokens'.foldl Extent.after extent') := by
  induction same generalizing extent extent' with
  | nil => exact alike
  | cons first _ ih => exact ih (alike.after first)

section Expressions

variable (lawful : between.Lawful)

include lawful

theorem lookFurther_parallel {value value' : AngleLook × Array Token}
    (alike : LooksAlike between value value') :
    Parallel between (Sum.LiftRel (LooksAlike between) (LooksAlike between)) (lookFurther value)
      (lookFurther value') := by
  obtain ⟨look, added⟩ := value
  obtain ⟨look', added'⟩ := value'
  obtain ⟨rfl, same⟩ := alike
  refine (pull_parallel lawful).bind fun token token' tokens => ?_
  have more :
      List.Forall₂ between.Tokens (added.push token).toList (added'.push token').toList := by
    simpa using List.rel_append same (.cons tokens .nil)
  dsimp only
  rw [tokens.kind]
  split
  · exact .pure (.inl ⟨rfl, more⟩)
  · exact .pure (.inr ⟨rfl, more⟩)

theorem typeArgumentsAhead?_parallel (le : budget ≤ larger) :
    Parallel between Eq (typeArgumentsAhead? budget) (typeArgumentsAhead? larger) := by
  refine .get fun left right alike => ?_
  rw [AngleLook.afterAll_eq _ alike.lookahead]
  cases AngleLook.afterAll {} right.lookahead with
  | inr found => exact .done rfl alike
  | inl look =>
      have looked := iterate_parallel (fun _ _ => lookFurther_parallel lawful) le
        (show LooksAlike between (look, #[]) (look, #[]) from ⟨rfl, .nil⟩)
      refine (looked.bind fun outcome outcome' known => .andThen (.update fun one other same => ?_)
        fun _ => .pure known.look) left right alike
      exact ⟨same.streams, List.rel_append same.lookahead known.added, same.tell⟩

theorem extend_parallel {extent extent' : Extent} (alike : ExtendsAlike between extent extent') :
    Parallel between (Sum.LiftRel (ExtendsAlike between) between.offsets) (extend extent)
      (extend extent') :=
  (take_parallel lawful).bind fun _ _ tokens => .pure (.inl (alike.after tokens))

theorem extendOverBlock_parallel {extent extent' : Extent}
    (alike : ExtendsAlike between extent extent') :
    Parallel between (Sum.LiftRel (ExtendsAlike between) between.offsets) (extendOverBlock extent)
      (extendOverBlock extent') :=
  (blockText_parallel lawful).bind fun _ _ _ => .get fun _ _ known =>
    .done (.inl ⟨alike.depth, lawful.offset known.streams⟩) known

theorem extendOverAngle_parallel (le : budget ≤ larger) {extent extent' : Extent}
    (alike : ExtendsAlike between extent extent') :
    Parallel between (Sum.LiftRel (ExtendsAlike between) between.offsets)
      (extendOverAngle budget extent) (extendOverAngle larger extent') := by
  refine (typeArgumentsAhead?_parallel lawful le).andThen fun found => ?_
  cases found with
  | none => exact extend_parallel lawful alike
  | some count =>
      exact (takeMany_parallel lawful count).bind fun _ _ tokens =>
        .pure (.inl (alike.afterAll tokens))

theorem expressionStep_parallel (terminators : List Mark) (le : budget ≤ larger)
    {extent extent' : Extent} (alike : ExtendsAlike between extent extent') :
    Parallel between (Sum.LiftRel (ExtendsAlike between) between.offsets)
      (expressionStep budget terminators extent) (expressionStep larger terminators extent') := by
  refine (kindAt_parallel lawful 0).andThen fun kind => ?_
  split
  · exact refuse_parallel lawful _
  · dsimp only
    rw [alike.depth]
    refine .ite (fun _ => .pure (.inr alike.stop)) fun _ => ?_
    split
    · exact extend_parallel lawful ⟨congrArg (· + 1) alike.depth, alike.stop⟩
    · exact extend_parallel lawful ⟨congrArg (· + 1) alike.depth, alike.stop⟩
    · exact extend_parallel lawful ⟨congrArg (· - 1) alike.depth, alike.stop⟩
    · exact extend_parallel lawful ⟨congrArg (· - 1) alike.depth, alike.stop⟩
    · exact extendOverBlock_parallel lawful alike
    · exact extendOverAngle_parallel lawful le alike
    · exact extend_parallel lawful alike
  · exact extend_parallel lawful alike

theorem expressionText_parallel (terminators : List Mark) (le : budget ≤ larger) :
    Parallel between (fun text text' => text = between.restore text')
      (expressionText budget terminators) (expressionText larger terminators) := by
  refine (peek_parallel lawful 0).bind fun first first' tokens => ?_
  have extents : ExtendsAlike between { depth := 0, stop := first.span.first }
      { depth := 0, stop := first'.span.first } := ⟨rfl, tokens.first⟩
  refine (iterate_parallel (fun _ _ => expressionStep_parallel lawful terminators le) le
    extents).bind fun stop stop' stops => ?_
  by_cases empty : stop = first.span.first
  · have empty' : stop' = first'.span.first := (lawful.equal tokens.first stops).mp empty
    simp only [empty, empty', if_true]
    exact refuse_parallel lawful _
  · have inside : stop' ≠ first'.span.first :=
      fun empty' => empty ((lawful.equal tokens.first stops).mpr empty')
    simp only [empty, inside, if_false]
    exact .get fun _ _ known => .done (lawful.slice known.streams tokens.first stops) known

/-! ### Annotations and modifiers -/

theorem endsValue_parallel (skipped : Nat) :
    Parallel between Eq (endsValue skipped) (endsValue skipped) :=
  (kindAt_parallel lawful skipped).andThen fun _ => .pure rfl

theorem classNameAhead_parallel (first : TokenKind) (le : budget ≤ larger) :
    Parallel between Eq (classNameAhead budget first) (classNameAhead larger first) := by
  refine iterate_parallel (fun seen seen' same => ?_) le rfl
  subst same
  refine (kindAt_parallel lawful seen).andThen fun kind =>
    (kindAt_parallel lawful (seen + 1)).andThen fun next => ?_
  dsimp only
  split
  · exact .pure (.inl rfl)
  · exact .pure (.inr rfl)

omit lawful in
theorem classLiteralType_eq {tokens others : List Token}
    (same : List.Forall₂ between.Tokens tokens others) :
    classLiteralType tokens = classLiteralType others := by
  have kept (test : TokenKind → Bool) :
      List.Forall₂ between.Tokens (tokens.filter (test ·.kind)) (others.filter (test ·.kind)) := by
    induction same with
    | nil => exact .nil
    | cons first _ ih =>
        rw [List.filter_cons, List.filter_cons, first.kind]
        split
        · exact .cons first ih
        · exact ih
  have texts {kept kept' : List Token} (alike : List.Forall₂ between.Tokens kept kept') :
      kept.map Token.text = kept'.map Token.text := by
    induction alike with
    | nil => rfl
    | cons first _ ih => rw [List.map_cons, List.map_cons, first.text, ih]
  unfold classLiteralType
  dsimp only
  rw [texts (kept fun kind => kind != .mark .leftBracket && kind != .mark .rightBracket),
    List.countP_eq_length_filter, List.countP_eq_length_filter,
    (kept (· == .mark .leftBracket)).length_eq]

theorem classLiteral?_parallel (le : budget ≤ larger) :
    Parallel between Eq (classLiteral? budget) (classLiteral? larger) := by
  refine (kindAt_parallel lawful 0).andThen fun first => .ite (fun _ => ?_) fun _ => .pure rfl
  refine (classNameAhead_parallel lawful first le).andThen fun count => ?_
  refine (Parallel.both (isAt_parallel lawful count _) (.both (isAt_parallel lawful (count + 1) _)
    (endsValue_parallel lawful (count + 2)))).andThen fun isLiteral =>
      .ite (fun _ => ?_) fun _ => .pure rfl
  exact (takeMany_parallel lawful count).bind fun _ _ tokens =>
    (takeMany_parallel lawful 2).bind fun _ _ _ => .pure (by rw [classLiteralType_eq tokens])

end Expressions

/-- The parts of annotations side by side, with a budget for the first reading. -/
structure AnnotationsParallel (between : Correspondence) (budget : Nat) : Prop where
  annotationUse : ∀ larger, budget ≤ larger →
    Parallel between (fun use use' => use = use'.mapVerbatim between.restore)
      (annotationUse budget) (annotationUse larger)
  elementValue : ∀ larger, budget ≤ larger →
    Parallel between (fun value value' => value = value'.mapVerbatim between.restore)
      (elementValue budget) (elementValue larger)
  elementPair : ∀ larger, budget ≤ larger →
    Parallel between
      (fun pair pair' => pair = pair'.map id (ElementValue.mapVerbatim between.restore))
      (elementPair budget) (elementPair larger)
  elementValues : ∀ larger, budget ≤ larger →
    Parallel between
      (fun pairs pairs' =>
        pairs = pairs'.map (Prod.map id (ElementValue.mapVerbatim between.restore)))
      (elementValues budget) (elementValues larger)

section Annotations

variable (lawful : between.Lawful)

include lawful

theorem annotationUse_succ_parallel (inner : AnnotationsParallel between budget)
    (le : budget ≤ larger) :
    Parallel between (fun use use' => use = use'.mapVerbatim between.restore)
      (annotationUse (budget + 1)) (annotationUse (larger + 1)) := by
  rw [annotationUse, annotationUse]
  refine (expectMark_parallel lawful .atSign _).bind fun sign sign' tokens =>
    (qualifiedName_parallel lawful le).andThen fun name =>
      (acceptMark_parallel lawful .leftParen).andThen fun bracket => ?_
  have line : sign.line = sign'.line := lawful.line tokens.place
  have closing {values values' : List (String × ElementValue TypeExpr)}
      (same : values = values'.map (Prod.map id (ElementValue.mapVerbatim between.restore))) :
      ({ type := { name }, values := elementsOfList values, line := sign.line } :
        AnnotationUse TypeExpr) =
        AnnotationUse.mapVerbatim between.restore
          { type := { name }, values := elementsOfList values', line := sign'.line } := by
    rw [same, elementsOfList_map, AnnotationUse.mapVerbatim, mapVerbatimOfPairs_eq_map, line]
  cases bracket with
  | false => exact .pure (closing rfl)
  | true =>
      exact (inner.elementValues larger le).bind fun values values' same => .pure (closing same)

theorem elementValue_succ_parallel (inner : AnnotationsParallel between budget)
    (le : budget ≤ larger) :
    Parallel between (fun value value' => value = value'.mapVerbatim between.restore)
      (elementValue (budget + 1)) (elementValue (larger + 1)) := by
  rw [elementValue, elementValue]
  refine (isMark_parallel lawful .atSign).andThen fun nested => .ite (fun _ => ?_) fun _ => ?_
  · refine (inner.annotationUse larger le).bind fun use use' same => .pure ?_
    rw [same, ElementValue.mapVerbatim]
  refine (acceptMark_parallel lawful .leftBrace).andThen fun array =>
    .ite (fun _ => ?_) fun _ => ?_
  · refine (listUntil_parallel _ lawful (inner.elementValue larger le) le).bind
      fun items items' same => (expectMark_parallel lawful .rightBrace _).bind fun _ _ _ => .pure ?_
    rw [same, ElementValue.mapVerbatim, mapVerbatimOfItems_eq_map]
  refine (classLiteral?_parallel lawful le).andThen fun literal => ?_
  cases literal with
  | some type => exact .pure (by simp only [ElementValue.mapVerbatim])
  | none =>
      have literally : Parallel between Eq (TokenKind.isLiteral <$> kindAt 0)
          (TokenKind.isLiteral <$> kindAt 0) :=
        (kindAt_parallel lawful 0).map fun _ _ same => congrArg _ same
      refine (Parallel.both literally (endsValue_parallel lawful 1)).andThen fun single =>
        .ite (fun _ => ?_) fun _ => ?_
      · refine (take_parallel lawful).bind fun _ _ tokens => .pure ?_
        simp only [tokens.text, ElementValue.mapVerbatim]
      · refine (expressionText_parallel lawful _ le).bind fun text text' same => .pure ?_
        rw [same, ElementValue.mapVerbatim]

theorem elementPair_succ_parallel (inner : AnnotationsParallel between budget)
    (le : budget ≤ larger) :
    Parallel between
      (fun pair pair' => pair = pair'.map id (ElementValue.mapVerbatim between.restore))
      (elementPair (budget + 1)) (elementPair (larger + 1)) := by
  rw [elementPair, elementPair]
  refine (identifier_parallel lawful).andThen fun element =>
    (expectMark_parallel lawful .assign _).bind fun _ _ _ =>
      (inner.elementValue larger le).bind fun value value' same => .pure ?_
  rw [same, Prod.map, id]

theorem elementValues_succ_parallel (inner : AnnotationsParallel between budget)
    (le : budget ≤ larger) :
    Parallel between
      (fun pairs pairs' =>
        pairs = pairs'.map (Prod.map id (ElementValue.mapVerbatim between.restore)))
      (elementValues (budget + 1)) (elementValues (larger + 1)) := by
  have closing {values values' : List (String × ElementValue TypeExpr)}
      (same : values = values'.map (Prod.map id (ElementValue.mapVerbatim between.restore))) :
      Parallel between
        (fun pairs pairs' =>
          pairs = pairs'.map (Prod.map id (ElementValue.mapVerbatim between.restore)))
        (expectMark .rightParen "')' after annotation values" >>= fun _ => pure values)
        (expectMark .rightParen "')' after annotation values" >>= fun _ => pure values') :=
    (expectMark_parallel lawful .rightParen _).bind fun _ _ _ => .pure same
  rw [elementValues, elementValues]
  refine (isMark_parallel lawful .rightParen).andThen fun none =>
    (Parallel.both (isNext_parallel lawful .identifier) (isAt_parallel lawful 1 _)).andThen
      fun paired => ?_
  dsimp only
  refine .ite (fun _ => closing rfl) fun _ => .ite (fun _ => ?_) fun _ => ?_
  · exact (separatedBy_parallel _ lawful (inner.elementPair larger le) le).bind
      fun values values' same => closing same
  · refine (inner.elementValue larger le).bind fun value value' same => closing ?_
    rw [same, List.map_cons, List.map_nil, Prod.map, id]

theorem annotationsParallel (budget : Nat) : AnnotationsParallel between budget := by
  induction budget with
  | zero =>
      refine ⟨?_, ?_, ?_, ?_⟩ <;> intro larger _
      · rw [annotationUse]; exact .exhausted
      · rw [elementValue]; exact .exhausted
      · rw [elementPair]; exact .exhausted
      · rw [elementValues]; exact .exhausted
  | succ budget ih =>
      exact ⟨forall_larger fun _ => annotationUse_succ_parallel lawful ih,
        forall_larger fun _ => elementValue_succ_parallel lawful ih,
        forall_larger fun _ => elementPair_succ_parallel lawful ih,
        forall_larger fun _ => elementValues_succ_parallel lawful ih⟩

theorem annotationUse_parallel (le : budget ≤ larger) :
    Parallel between (fun use use' => use = use'.mapVerbatim between.restore)
      (annotationUse budget) (annotationUse larger) :=
  (annotationsParallel lawful budget).annotationUse larger le

/-- Annotations and modifier words with verbatim texts changed. -/
def Modifiers.mapVerbatim (change : String → String) (modifiers : Modifiers) : Modifiers :=
  { modifiers with uses := modifiers.uses.map (AnnotationUse.mapVerbatim change) }

omit lawful in
@[simp] theorem Modifiers.isEmpty_mapVerbatim (change : String → String) (modifiers : Modifiers) :
    (modifiers.mapVerbatim change).isEmpty = modifiers.isEmpty := by
  simp [mapVerbatim, Modifiers.isEmpty]

theorem modifier?_parallel (le : budget ≤ larger) :
    Parallel between
      (fun found found' =>
        found = found'.map (Sum.map (AnnotationUse.mapVerbatim between.restore) id))
      (modifier? budget) (modifier? larger) := by
  have taking : Parallel between
      (fun found found' =>
        found = found'.map (Sum.map (AnnotationUse.mapVerbatim between.restore) id))
      (take >>= fun token => pure (some (.inr token.text)))
      (take >>= fun token => pure (some (.inr token.text))) :=
    (take_parallel lawful).bind fun _ _ tokens => .pure (by rw [tokens.text]; rfl)
  refine (kindAt_parallel lawful 0).andThen fun kind => .ite (fun _ => ?_) fun _ => ?_
  · refine (isAt_parallel lawful 1 _).andThen fun typed => .ite (fun _ => .pure rfl) fun _ => ?_
    exact (annotationUse_parallel lawful le).bind fun _ _ same => .pure (by rw [same]; rfl)
  refine .ite (fun _ => taking) fun _ => ?_
  have starts : Parallel between Eq (startsDeclaration <$> kindAt 1)
      (startsDeclaration <$> kindAt 1) :=
    (kindAt_parallel lawful 1).map fun _ _ same => congrArg _ same
  refine (Parallel.both (isWordAt_parallel lawful 0 _) starts).andThen fun isSealed =>
    .ite (fun _ => taking) fun _ => ?_
  refine (Parallel.both (isWordAt_parallel lawful 0 _) (.both (isAt_parallel lawful 1 _)
    (isWordAt_parallel lawful 2 _))).andThen fun isOpen => .ite (fun _ => ?_) fun _ => .pure rfl
  exact (takeMany_parallel lawful 3).bind fun _ _ _ => .pure rfl

theorem modifiers_parallel (le : budget ≤ larger) :
    Parallel between (fun found found' => found = found'.mapVerbatim between.restore)
      (modifiers budget) (modifiers larger) := by
  refine (many_parallel _ (modifier?_parallel lawful le) le).bind fun found found' same =>
    .pure ?_
  rw [same, Modifiers.mapVerbatim]
  congr 1
  · rw [List.filterMap_map]
    congr 1
    funext item
    cases item <;> rfl
  · rw [List.filterMap_map, List.map_filterMap]
    congr 1
    funext item
    cases item <;> rfl

/-! ### Types -/

theorem skipAnnotations_parallel (le : budget ≤ larger) :
    Parallel between Eq (skipAnnotations budget) (skipAnnotations larger) := by
  have other : Parallel between Eq (not <$> isAt 1 (.keyword .interfaceKw))
      (not <$> isAt 1 (.keyword .interfaceKw)) :=
    (isAt_parallel lawful 1 _).map fun _ _ same => congrArg _ same
  refine (many_parallel_eq ?_ le).andThen fun _ => .pure rfl
  refine (Parallel.both (isMark_parallel lawful .atSign) other).andThen fun annotated =>
    .ite (fun _ => ?_) fun _ => .pure rfl
  exact (annotationUse_parallel lawful le).bind fun _ _ _ => .pure rfl

theorem dimensions_parallel (le : budget ≤ larger) :
    Parallel between Eq (dimensions budget) (dimensions larger) := by
  refine (many_parallel_eq ?_ le).andThen fun _ => .pure rfl
  refine (Parallel.both (isMark_parallel lawful .leftBracket) (isAt_parallel lawful 1 _)).andThen
    fun paired => .ite (fun _ => ?_) fun _ => .pure rfl
  exact (takeMany_parallel lawful 2).bind fun _ _ _ => .pure rfl

end Annotations

/-- The parts of types side by side, with a budget for the first reading. -/
structure TypesParallel (between : Correspondence) (budget : Nat) : Prop where
  typeExpr : ∀ larger, budget ≤ larger →
    Parallel between Eq (typeExpr budget) (typeExpr larger)
  classType : ∀ larger, budget ≤ larger →
    Parallel between Eq (classType budget) (classType larger)
  classTypePart : ∀ type larger, budget ≤ larger →
    Parallel between Eq (classTypePart budget type) (classTypePart larger type)
  optionalArguments : ∀ larger, budget ≤ larger →
    Parallel between Eq (optionalArguments budget) (optionalArguments larger)
  typeArgument : ∀ larger, budget ≤ larger →
    Parallel between Eq (typeArgument budget) (typeArgument larger)

section Types

variable (lawful : between.Lawful)

include lawful

theorem typeExpr_succ_parallel (inner : TypesParallel between budget) (le : budget ≤ larger) :
    Parallel between Eq (typeExpr (budget + 1)) (typeExpr (larger + 1)) := by
  have sized (type : TypeExpr) : Parallel between Eq
      (dimensions budget >>= fun more => pure (type.addDims more))
      (dimensions larger >>= fun more => pure (type.addDims more)) :=
    (dimensions_parallel lawful le).andThen fun _ => .pure rfl
  rw [typeExpr, typeExpr]
  refine (skipAnnotations_parallel lawful le).andThen fun _ =>
    (kindAt_parallel lawful 0).andThen fun kind => ?_
  dsimp only
  refine .ite (fun _ => ?_) fun _ => (inner.classType larger le).andThen sized
  refine (take_parallel lawful).bind fun token token' tokens => ?_
  rw [tokens.text]
  exact sized _

theorem classType_succ_parallel (inner : TypesParallel between budget) (le : budget ≤ larger) :
    Parallel between Eq (classType (budget + 1)) (classType (larger + 1)) := by
  rw [classType, classType]
  refine (identifier_parallel lawful).andThen fun name =>
    (inner.optionalArguments larger le).andThen fun args =>
      iterate_parallel (fun type type' same => ?_) le rfl
  subst same
  refine (inner.classTypePart type larger le).weaken fun outcome outcome' same => ?_
  subst same
  cases outcome with
  | inl next => exact .inl rfl
  | inr result => exact .inr rfl

theorem classTypePart_succ_parallel (inner : TypesParallel between budget) (type : TypeExpr)
    (le : budget ≤ larger) :
    Parallel between Eq (classTypePart (budget + 1) type) (classTypePart (larger + 1) type) := by
  have isName : Parallel between Eq
      ((fun kind => kind == .identifier || kind == .mark .atSign) <$> kindAt 1)
      ((fun kind => kind == .identifier || kind == .mark .atSign) <$> kindAt 1) :=
    (kindAt_parallel lawful 1).map fun _ _ same => by rw [same]
  rw [classTypePart, classTypePart]
  refine (Parallel.both (isMark_parallel lawful .dot) isName).andThen fun continues =>
    .ite (fun _ => ?_) fun _ => .pure rfl
  exact (take_parallel lawful).bind fun _ _ _ => (skipAnnotations_parallel lawful le).andThen
    fun _ => (identifier_parallel lawful).andThen fun _ =>
      (inner.optionalArguments larger le).andThen fun _ => .pure rfl

theorem optionalArguments_succ_parallel (inner : TypesParallel between budget)
    (le : budget ≤ larger) :
    Parallel between Eq (optionalArguments (budget + 1)) (optionalArguments (larger + 1)) := by
  rw [optionalArguments, optionalArguments]
  refine (acceptMark_parallel lawful .less).andThen fun opens =>
    .ite (fun _ => ?_) fun _ => .pure rfl
  refine (acceptMark_parallel lawful .greater).andThen fun closes =>
    .ite (fun _ => .pure rfl) fun _ => ?_
  exact (separatedBy_parallel_eq lawful (inner.typeArgument larger le) le).andThen fun _ =>
    (expectMark_parallel lawful .greater _).bind fun _ _ _ => .pure rfl

theorem typeArgument_succ_parallel (inner : TypesParallel between budget) (le : budget ≤ larger) :
    Parallel between Eq (typeArgument (budget + 1)) (typeArgument (larger + 1)) := by
  have typed (wrap : TypeExpr → TypeArgument TypeExpr) : Parallel between Eq
      (typeExpr budget >>= fun type => pure (wrap type))
      (typeExpr larger >>= fun type => pure (wrap type)) :=
    (inner.typeExpr larger le).andThen fun _ => .pure rfl
  rw [typeArgument, typeArgument]
  refine (skipAnnotations_parallel lawful le).andThen fun _ =>
    (acceptMark_parallel lawful .question).andThen fun wildcard =>
      .ite (fun _ => ?_) fun _ => typed _
  refine (acceptKeyword_parallel lawful .extendsKw).andThen fun upper =>
    .ite (fun _ => typed _) fun _ => ?_
  exact (acceptKeyword_parallel lawful .superKw).andThen fun lower =>
    .ite (fun _ => typed _) fun _ => .pure rfl

theorem typesParallel (budget : Nat) : TypesParallel between budget := by
  induction budget with
  | zero =>
      constructor <;> intros
      · rw [typeExpr]; exact .exhausted
      · rw [classType]; exact .exhausted
      · rw [classTypePart]; exact .exhausted
      · rw [optionalArguments]; exact .exhausted
      · rw [typeArgument]; exact .exhausted
  | succ budget ih =>
      exact ⟨forall_larger fun _ => typeExpr_succ_parallel lawful ih,
        forall_larger fun _ => classType_succ_parallel lawful ih,
        fun type => forall_larger fun _ => classTypePart_succ_parallel lawful ih type,
        forall_larger fun _ => optionalArguments_succ_parallel lawful ih,
        forall_larger fun _ => typeArgument_succ_parallel lawful ih⟩

theorem typeExpr_parallel (le : budget ≤ larger) :
    Parallel between Eq (typeExpr budget) (typeExpr larger) :=
  (typesParallel lawful budget).typeExpr larger le

theorem typeList_parallel (le : budget ≤ larger) :
    Parallel between Eq (typeList budget) (typeList larger) :=
  separatedBy_parallel_eq lawful (typeExpr_parallel lawful le) le

theorem typeParameter_parallel (le : budget ≤ larger) :
    Parallel between Eq (typeParameter budget) (typeParameter larger) := by
  refine (skipAnnotations_parallel lawful le).andThen fun _ =>
    (identifier_parallel lawful).andThen fun name =>
      (acceptKeyword_parallel lawful .extendsKw).andThen fun bounded => ?_
  dsimp only
  refine .ite (fun _ => ?_) fun _ => .pure rfl
  exact (separatedBy_parallel_eq lawful (typeExpr_parallel lawful le) le).andThen fun _ =>
    .pure rfl

theorem optionalParameters_parallel (le : budget ≤ larger) :
    Parallel between Eq (optionalParameters budget) (optionalParameters larger) := by
  refine (acceptMark_parallel lawful .less).andThen fun opens =>
    .ite (fun _ => ?_) fun _ => .pure rfl
  exact (separatedBy_parallel_eq lawful (typeParameter_parallel lawful le) le).andThen fun _ =>
    (expectMark_parallel lawful .greater _).bind fun _ _ _ => .pure rfl

end Types

end JavaDecl.ReadM
