import JavaDecl.Proofs.FieldDeclarations

/-!
# Variables that share a declaration

The variables of one field declaration have the same annotations, the same modifier words and
the same type, up to dimensions.  The comma between two of them is told from a comma in an
initial value by the brackets around the latter.
-/

namespace JavaDecl

/-- Whether brackets are paired among tokens, some being open in front of them, and no comma or
semicolon stands outside of brackets. -/
def pairsBrackets : Nat → List TokenKind → Bool
  | depth, [] => depth == 0
  | depth, kind :: kinds =>
      !kind.endsExpression declaratorEnds depth && pairsBrackets (kind.depthBehind depth) kinds

/-- A value of tokens with paired brackets, none of them an angle bracket or a brace. -/
def RunsPlainly (text rest : List Char) : Prop :=
  ∃ heads, Heads text heads rest ∧
    (∀ head ∈ heads,
      head.kind ∉ [.mark .less, .mark .leftBrace, .mark .rightBrace, TokenKind.endOfInput]) ∧
    pairsBrackets 0 (heads.map Head.kind) = true

open ReadM

variable {source text rest : List Char} {all : List Declarator} {last : Head}

theorem Heads.extends {heads : List Head} {depth : Nat} (chain : Heads text heads rest)
    (plain : ∀ head ∈ heads,
      head.kind ∉ [.mark .less, .mark .leftBrace, .mark .rightBrace, TokenKind.endOfInput])
    (paired : pairsBrackets depth (heads.map Head.kind) = true) (found : Head.of? rest = some last)
    (ends : last.kind.endsExpression declaratorEnds 0 = true) :
    Extends declaratorEnds depth text rest := by
  induction chain generalizing depth with
  | nil =>
      obtain rfl := eq_of_beq paired
      exact .ended found ends
  | cons first _ ih =>
      obtain ⟨here, others⟩ := List.forall_mem_cons.mp plain
      simp only [List.mem_cons, List.not_mem_nil, or_false, not_or] at here
      rw [List.map_cons, pairsBrackets, Bool.and_eq_true, Bool.not_eq_true'] at paired
      exact .passes (.token first here.2.2.2 here.2.1 paired.1 (fun angle => absurd angle here.1))
        (ih others paired.2 found)

theorem RunsPlainly.extends (plainly : RunsPlainly text rest) (found : Head.of? rest = some last)
    (ends : last.kind = .mark .comma ∨ last.kind = .mark .semicolon) :
    RunsAsExpression text rest := by
  obtain ⟨heads, chain, plain, paired⟩ := plainly
  refine chain.extends plain paired found ?_
  rcases ends with is | is <;> rw [is] <;> rfl

theorem Declarator.At.runsAsExpression {declared : Declarator}
    (stands : declared.At RunsPlainly text rest) : declared.At RunsAsExpression text rest := by
  obtain ⟨⟨named, isName, pairs, initialized⟩, last, found, ends⟩ := stands
  refine ⟨.intro named isName pairs ?_, last, found, ends⟩
  cases initialized with
  | without => exact .without
  | value equals assign first split content plainly =>
      exact .value equals assign first split content (plainly.extends found ends)

theorem Declarators.runAsExpression (chain : Declarators RunsPlainly all text rest) :
    Declarators RunsAsExpression all text rest := by
  induction chain with
  | last stands found semicolon => exact .last stands.runsAsExpression found semicolon
  | more stands found comma _ ih => exact .more stands.runsAsExpression found comma ih

/-- A class with a field declaration is accepted, and the variables of the declaration are
announced one after the other: each has all of the annotations in front of it, all of the
modifier words, its own initial value, and the type with its own dimensions. -/
theorem variables_share_declaration {source body typed named declared rest : List Char}
    {name : String} {pieces : List (AnnotationUse TypeExpr ⊕ String)} {type : TypeExpr}
    {count : Nat} {all : List Declarator} {brace last : Head}
    (opens : OpensClass .ordinary name (TokenStream.ofSource source).rest body)
    (leading : Leading source pieces body typed)
    (base : TypeText source (.base type) typed named) (pairs : BracketPairs count named declared)
    (chain : Declarators RunsPlainly all declared rest) (found : Head.of? rest = some brace)
    (closes : brace.kind = .mark .rightBrace) (ended : Head.of? brace.rest = some last)
    (isEnd : last.kind = .endOfInput) :
    (readUnit source).2 = none ∧ (readUnit source).1.filter (!·.isComment) =
      .beginClass
          { name, kind := .ordinary,
            line := firstLine source (TokenStream.ofSource source).rest } ::
        (all.flatMap (fun shared =>
            (pieces.filterMap Sum.getLeft?).map .annotated ++
              [.beginField
                { name := shared.name, type := type.addDims (count + shared.pairs),
                  modifiers := pieces.filterMap Sum.getRight?,
                  initializer := shared.initializer.map String.ofList,
                  line := firstLine source typed },
                .endField]) ++
          [.endClass]) := by
  have read := readUnit_of_fields opens leading base pairs chain.runAsExpression found closes ended
    isEnd
  have dims (more : Nat) : (type.addDims count).addDims more = type.addDims (count + more) := by
    simp only [TypeExpr.addDims, Nat.add_assoc]
  simpa only [Declarator.events, Declarator.decl, annotating, Modifiers.ofPieces, dims] using read

/-- An annotation and a modifier word in front of an array type, brackets behind a name, and a
comma in the brackets of a value. -/
theorem annotated_arrays_share_declaration :
    let source := "class A\x7b@B final int[]a=f(x,y),b[];\x7d".toList
    let used : Event := .annotated { type := { name := "B" }, values := [], line := 1 }
    let shared (name : String) (dims : Nat) (initializer : Option String) : Event :=
      .beginField { name, type := { name := "int", dims }, modifiers := ["final"], initializer,
                    line := 1 }
    (readUnit source).2 = none ∧ (readUnit source).1.filter (!·.isComment) =
      [.beginClass { name := "A", kind := .ordinary, line := 1 },
        used, shared "a" 1 (some "f(x,y)"), .endField, used, shared "b" 2 none, .endField,
        .endClass] := by
  intro source used shared
  have word : Head.Stands source 0 5 (.keyword .classKw) "class" := by decide +kernel
  have name : Head.Stands source 5 7 .identifier "A" := by decide +kernel
  have brace : Head.Stands source 7 8 (.mark .leftBrace) "\x7b" := by decide +kernel
  have sign : Head.Stands source 8 9 (.mark .atSign) "@" := by decide +kernel
  have used : Head.Stands source 9 10 .identifier "B" := by decide +kernel
  have modifier : Head.Stands source 10 16 (.keyword .finalKw) "final" := by decide +kernel
  have type : Head.Stands source 16 20 (.keyword .intKw) "int" := by decide +kernel
  have opening : Head.Stands source 20 21 (.mark .leftBracket) "[" := by decide +kernel
  have closing : Head.Stands source 21 22 (.mark .rightBracket) "]" := by decide +kernel
  have first : Head.Stands source 22 23 .identifier "a" := by decide +kernel
  have equals : Head.Stands source 23 24 (.mark .assign) "=" := by decide +kernel
  have called : Head.Stands source 24 25 .identifier "f" := by decide +kernel
  have paren : Head.Stands source 25 26 (.mark .leftParen) "(" := by decide +kernel
  have x : Head.Stands source 26 27 .identifier "x" := by decide +kernel
  have inner : Head.Stands source 27 28 (.mark .comma) "," := by decide +kernel
  have y : Head.Stands source 28 29 .identifier "y" := by decide +kernel
  have ends : Head.Stands source 29 30 (.mark .rightParen) ")" := by decide +kernel
  have comma : Head.Stands source 30 31 (.mark .comma) "," := by decide +kernel
  have second : Head.Stands source 31 32 .identifier "b" := by decide +kernel
  have opening' : Head.Stands source 32 33 (.mark .leftBracket) "[" := by decide +kernel
  have closing' : Head.Stands source 33 34 (.mark .rightBracket) "]" := by decide +kernel
  have semicolon : Head.Stands source 34 35 (.mark .semicolon) ";" := by decide +kernel
  have last : Head.Stands source 35 36 (.mark .rightBrace) "\x7d" := by decide +kernel
  have ended : Head.of? (source.drop 36) = some .ended := by decide +kernel
  have front : (TokenStream.ofSource source).rest = source := by decide +kernel
  have opens : OpensClass .ordinary "A" source (source.drop 8) :=
    .intro word .ordinary name rfl brace rfl
  have line : ∀ start ∈ [0, 8, 16], firstLine source (source.drop start) = 1 := by decide +kernel
  have leading : Leading source [.inl (useOf ["B"] [] 1), .inr "final"] (source.drop 8)
      (source.drop 16) := by
    refine .use ?_ (.word modifier (.inl rfl) .none)
    rw [← line 8 (by decide)]
    exact .marker sign rfl (.last used rfl modifier nofun) modifier nofun
  have base : TypeText source (.base { name := "int" }) (source.drop 16) (source.drop 20) :=
    .primitive type rfl
  have call : Initialized RunsPlainly (some "f(x,y)".toList) (source.drop 23) (source.drop 30) := by
    refine .value equals rfl called rfl nofun ⟨_, .cons called (.cons paren (.cons x (.cons inner
      (.cons y (.cons ends .nil))))), ?_, ?_⟩
    · decide
    · decide
  have chain : Declarators RunsPlainly [⟨"a", 0, some "f(x,y)".toList⟩, ⟨"b", 1, none⟩]
      (source.drop 22) (source.drop 35) :=
    .more ⟨.intro first rfl .none call, _, comma, .inl rfl⟩ comma rfl
      (.last ⟨.intro second rfl (.pair opening' rfl closing' rfl .none) .without, _, semicolon,
        .inr rfl⟩ semicolon rfl)
  have read := variables_share_declaration (front ▸ opens) leading base
    (.pair opening rfl closing rfl .none) chain last rfl ended rfl
  rw [front, show firstLine source source = 1 from line 0 (by decide), line 16 (by decide)] at read
  exact read

end JavaDecl
