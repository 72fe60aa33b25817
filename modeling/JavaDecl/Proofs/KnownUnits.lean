import JavaDecl.Proofs.KnownTypes
import JavaDecl.Proofs.UnitReading

/-!
# Reading known units

What comes first in a unit is no modifier, no package declaration and no import, and a source of
one line is read as the tokens that it opens with.
-/

namespace JavaDecl

namespace ReadM

variable {ι : Type} [TokenView ι] {signs rest : List ι} {budget : Nat}

/-! ### Modifiers that are not there -/

/-- Both answers are no if the second one is. -/
theorem Finds.neither {one other : ReadM Bool} {answer : Bool}
    (first : Gives one signs answer signs) (second : Gives other signs false signs) :
    Gives (one <&&> other) signs false signs := by
  cases answer with
  | true => exact first.both second
  | false => exact first.notBoth

/-- No annotation and no modifier word comes first.  Some names are modifier words if certain
tokens come behind them. -/
structure Unmodified (signs : List ι) : Prop where
  first : ∃ item, signs[0]? = some item ∧ (TokenView.sign item).kind ≠ .mark .atSign ∧
    (TokenView.sign item).kind.isModifier = false ∧
    (TokenView.sign item).kind ≠ .keyword .defaultKw ∧
    ((TokenView.sign item).kind = .identifier → ∃ next, signs[1]? = some next ∧
      startsDeclaration (TokenView.sign next).kind = false ∧
        (TokenView.sign next).kind ≠ .mark .minus)

theorem unmodified_of_other {first : ι}
    (other : (TokenView.sign first).kind ≠ .mark .atSign ∧
      (TokenView.sign first).kind.isModifier = false ∧
      (TokenView.sign first).kind ≠ .keyword .defaultKw ∧
        (TokenView.sign first).kind ≠ .identifier) :
    Unmodified (first :: rest) := by
  obtain ⟨notAt, notModifier, notDefault, notName⟩ := other
  exact ⟨first, rfl, notAt, notModifier, notDefault, fun isName => absurd isName notName⟩

theorem modifier_gives_nothing (unmodified : Unmodified signs) :
    Gives (modifier? budget) signs none signs := by
  obtain ⟨item, here, notAt, notModifier, notDefault, behind⟩ := unmodified.first
  refine (kindAt_gives here).andThen ?_
  rw [if_neg (by simpa using notAt), if_neg (by simp [notModifier, notDefault])]
  by_cases isName : (TokenView.sign item).kind = .identifier
  · obtain ⟨next, there, notDeclaration, notMinus⟩ := behind isName
    refine Finds.no ((isWordAt_gives here rfl).neither ?_) ?_
    · exact .map (kindAt_gives there) notDeclaration
    · refine Finds.no ((isWordAt_gives here rfl).neither ?_) (.pure rfl)
      exact .notBoth (isAt_gives there (by simpa using notMinus))
  · have noWord {word : String} : ((TokenView.sign item).kind == .identifier &&
        (TokenView.sign item).text == word) = false := by
      simp [isName]
    refine Finds.no (.notBoth (isWordAt_gives here noWord)) ?_
    exact Finds.no (.notBoth (isWordAt_gives here noWord)) (.pure rfl)

theorem modifiers_give_nothing (unmodified : Unmodified signs) :
    Gives (modifiers budget) signs {} signs :=
  (many_gives_nil (modifier_gives_nothing unmodified)).andThen (.pure rfl)

def preambleKinds : List TokenKind :=
  [.keyword .packageKw, .keyword .importKw, .mark .semicolon]

/-- A unit that starts with its module or its first class. -/
theorem preamble_gives_nothing (unmodified : Unmodified signs) (lacks : Lacks preambleKinds signs) :
    Gives (preamble budget) signs {} signs := by
  have noImport : Gives (import? budget) signs none signs :=
    Finds.no (isNext_no (lacks.mono (by simp [preambleKinds])))
      (Finds.no (accept_leaves (lacks.mono (by simp [preambleKinds]))) (.pure rfl))
  refine (modifiers_give_nothing unmodified).andThen ?_
  refine Finds.no (isNext_no (lacks.mono (by simp [preambleKinds]))) ((Finds.pure rfl).andThen ?_)
  exact (many_gives_nil noImport).andThen (modifiers_give_nothing unmodified)

/-! ### Single classes -/

theorem emitAnnotations_finds (uses : List (AnnotationUse TypeExpr)) :
    Finds (emitAnnotations uses) signs (· = ⟨⟩) (uses.map .annotated) signs := by
  induction uses with
  | nil => exact .pure rfl
  | cons use uses ih => exact .say ih

/-- The events of a class that annotations stand in front of. -/
def classTold (uses : List (AnnotationUse TypeExpr)) (declared : ClassDecl)
    (inside : List Event) : List Event :=
  uses.map .annotated ++ .beginClass declared :: (inside ++ [.endClass])

/-- The tokens of a class up to its brace are read as its header. -/
structure ClassOpening (signs : List ι) (declared : ClassDecl) (body : List ι) : Prop where
  starts : Lacks [.endOfInput, .mark .semicolon, .identifier] signs
  noConstants : declared.kind ≠ .enumeration
  header : ∃ brace, (TokenView.sign brace).kind = .mark .leftBrace ∧
    ∀ budget, Gives (classHeader budget []) signs declared (brace :: body)

section Class

variable {first second third last : ι} {name : String} {declared : ClassDecl}
  {inside : List Event} {body left : List ι} {uses : List (AnnotationUse TypeExpr)}

/-- No types that permit a class or are permitted stand in front of its brace. -/
theorem skipPermitted_gives (isBrace : (TokenView.sign third).kind = .mark .leftBrace) :
    Gives (skipPermitted budget) (third :: rest) ⟨⟩ (third :: rest) :=
  Finds.no (isWordAt_gives rfl (by simp [isBrace])) (.pure rfl)

theorem classOpening_of_class (isClass : TokenView.sign first = .keyword .classKw)
    (named : TokenView.sign second = ⟨.identifier, name⟩)
    (opens : TokenView.sign third = .mark .leftBrace) :
    ClassOpening (first :: second :: third :: rest) { name, kind := .ordinary, line := 1 }
      rest := by
  have isBrace : (TokenView.sign third).kind = .mark .leftBrace := by rw [opens]; rfl
  refine ⟨.cons (by rw [isClass]; decide), by simp, third, isBrace, fun budget => ?_⟩
  have kind : Gives classKind? (first :: second :: third :: rest) (some .ordinary)
      (first :: second :: third :: rest) := by
    refine (kindAt_gives rfl).andThen ?_
    rw [isClass]
    exact .pure rfl
  have lacks {kinds : List TokenKind} (others : .mark .leftBrace ∉ kinds) :
      Lacks kinds (third :: rest) :=
    .cons (isBrace ▸ others)
  have isName : (TokenView.sign second).kind = .identifier := by rw [named]
  refine kind.andThen (take_finds.bind fun token shows => ?_)
  refine (identifier_gives isName).andThen ?_
  refine (optionalParameters_gives_nil (lacks (by decide))).andThen ?_
  refine Finds.no (accept_leaves (lacks (by decide))) ((Finds.pure rfl).andThen ?_)
  refine Finds.no (accept_leaves (lacks (by decide))) ((Finds.pure rfl).andThen ?_)
  rw [shows.line, named]
  exact (skipPermitted_gives isBrace).andThen (.pure rfl)

theorem members_end_finds (isBrace : (TokenView.sign first).kind = .mark .rightBrace) :
    Finds (members budget) (first :: rest) (· = ⟨⟩) [] rest := by
  cases budget with
  | zero => exact .exhausted
  | succ budget => exact Finds.yes (accept_takes isBrace) (.pure rfl)

section Opening

variable (opening : ClassOpening signs declared body)

include opening

theorem classDeclaration_finds
    (members : ∀ budget, Finds (members budget) body (· = ⟨⟩) inside left) :
    Finds (classDeclaration budget { uses }) signs (· = ⟨⟩) (classTold uses declared inside)
      left := by
  obtain ⟨brace, isBrace, header⟩ := opening.header
  cases budget with
  | zero => exact .exhausted
  | succ budget =>
      refine (header budget).andThen ?_
      refine (emitAnnotations_finds uses).append fun _ _ => ?_
      cases budget with
      | zero => exact .exhausted
      | succ budget =>
          refine .say ((expect_finds isBrace).bind fun _ _ => ?_)
          rw [if_neg opening.noConstants]
          exact (members budget).append fun _ _ => emit_finds _

theorem classDeclarations_find
    (members : ∀ budget, Finds (members budget) body (· = ⟨⟩) inside [last])
    (ends : (TokenView.sign last).kind = .endOfInput) :
    Finds (classDeclarations budget { uses }) signs (· = ⟨⟩) (classTold uses declared inside)
      [last] := by
  have start {part : ReadM Bool} (no : Gives part signs false signs) :
      Gives (pure (Modifiers.isEmpty { uses }) <&&> part) signs false signs :=
    Finds.neither (.pure rfl) no
  cases budget with
  | zero => exact .exhausted
  | succ budget =>
      refine Finds.no (start (isNext_no (opening.starts.mono (by simp)))) ?_
      refine Finds.no (start (accept_leaves (opening.starts.mono (by simp)))) ?_
      rw [← List.append_nil (classTold uses declared inside)]
      refine (classDeclaration_finds opening members).append fun _ _ => ?_
      have ended : Unmodified [last] :=
        unmodified_of_other (by simp [ends, TokenKind.isModifier])
      refine (modifiers_give_nothing ended).andThen ?_
      cases budget with
      | zero => exact .exhausted
      | succ budget =>
          exact Finds.yes (.both (.pure rfl) (isNext_gives (by simp [ends]))) (.pure rfl)

/-- A unit that is a class behind annotations or a package declaration. -/
theorem compilationUnit_finds {whole : List ι} {told : List Event}
    (leading : Finds (preamble budget) whole (· = { uses }) told signs)
    (members : ∀ budget, Finds (members budget) body (· = ⟨⟩) inside [last])
    (ends : (TokenView.sign last).kind = .endOfInput) :
    Finds (compilationUnit budget) whole (· = ⟨⟩) (told ++ classTold uses declared inside)
      [last] := by
  have noWord {word : String} : Gives (isWordAt 0 word) signs false signs := by
    obtain ⟨item, others, rfl, other⟩ := opening.starts
    exact isWordAt_gives rfl (by simp_all)
  refine leading.append fun value same => ?_
  subst same
  refine Finds.no ?_ (classDeclarations_find opening members ends)
  exact .both (.pure rfl) (Finds.no noWord (.notBoth noWord))

end Opening

end Class

end ReadM

/-! ### Units -/

/-- The reading of a source faces the tokens that the source gives. -/
theorem faces_ofSource {ι : Type} [TokenView ι] {source : List Char} {tokens : List Token}
    {items : List ι} (shown : TokenView.ShowAll source tokens items)
    (comes : (TokenStream.ofSource source).Comes tokens) :
    (Reading.ofSource source).Faces items := by
  have same : (Reading.ofSource source).stream.source = source :=
    (TokenStream.Located.ofSource source).whole
  exact ⟨tokens, by rwa [same], comes⟩

theorem readUnit_of_faces {ι : Type} [TokenView ι] {source : List Char} {items left : List ι}
    {told : List Event} (faces : (Reading.ofSource source).Faces items)
    (finds : ReadM.Finds (ReadM.compilationUnit (readingBudget source)) items (· = ⟨⟩) told left) :
    readUnit source = (told, none) := by
  have ran := finds (.ofSource source) faces
  cases ended : ReadM.compilationUnit (readingBudget source) (.ofSource source) with
  | ok value after =>
      rw [ended] at ran
      rw [readUnit_of_ok ended]
      exact congrArg (·, none) ran.2.2
  | error failure after =>
      rw [ended] at ran
      exact absurd ran (not_isExhaustion_of_error ended)

theorem rest_ofSource {source : List Char}
    (noMark : source.head? ≠ some TokenStream.byteOrderMark) :
    (TokenStream.ofSource source).rest = source := by
  cases source with
  | nil => rfl
  | cons c rest =>
      have other : c ≠ TokenStream.byteOrderMark := by simpa using noMark
      rw [TokenStream.ofSource, if_neg other]

/-- A source of one line is read as the tokens that it opens with. -/
theorem readUnit_of_finds {source : List Char} {signs left : List Sign} {told : List Event}
    (noMark : source.head? ≠ some TokenStream.byteOrderMark) (inLine : '\n' ∉ source)
    (opens : OpensWith source signs)
    (finds : ReadM.Finds (ReadM.compilationUnit (readingBudget source)) signs (· = ⟨⟩) told left) :
    readUnit source = (told, none) := by
  have located := TokenStream.Located.ofSource source
  obtain ⟨tokens, shown, comes⟩ :=
    OpensWith.comes inLine located ((rest_ofSource noMark).symm ▸ opens)
  exact readUnit_of_faces (faces_ofSource shown comes) finds

end JavaDecl
