import JavaDecl.Proofs.ComparedArguments
import JavaDecl.Proofs.FieldDeclarations

/-!
# Enum constants with arguments

A constant of an enumeration is announced with the texts of its arguments.  If the arguments are
comparisons, these are their texts as they are written, or fewer: an angle bracket in one of them
that is closed in a later one takes the comma between them for one between type arguments.
-/

namespace JavaDecl

open ReadM

/-- A constant of an enumeration as it is written. -/
structure EnumConstant where
  pieces : List (AnnotationUse TypeExpr ⊕ String)
  name : String
  arguments : List Argument
  line : Nat

inductive EnumConstant.At (source : List Char) : EnumConstant → List Char → List Char → Prop where
  | bare {text named : List Char} {name : Head} {pieces : List (AnnotationUse TypeExpr ⊕ String)} :
      Leading source pieces text named → Head.of? named = some name → name.kind = .identifier →
        EnumConstant.At source { pieces, name := name.text, arguments := [],
                                 line := firstLine source named } text name.rest
  | withArguments {text named mid : List Char} {name opening closing : Head}
      {pieces : List (AnnotationUse TypeExpr ⊕ String)} {arguments : List Argument} :
        Leading source pieces text named → Head.of? named = some name → name.kind = .identifier →
          Head.of? name.rest = some opening → opening.kind = .mark .leftParen →
            Arguments arguments opening.rest mid → Head.of? mid = some closing →
              closing.kind = .mark .rightParen →
                EnumConstant.At source { pieces, name := name.text, arguments,
                                         line := firstLine source named } text closing.rest

/-- The constants end in front of a closing brace, or behind a semicolon. -/
inductive ConstantsEnd : List Char → List Char → Prop where
  | brace {text : List Char} {brace : Head} : Head.of? text = some brace →
      brace.kind = .mark .rightBrace → ConstantsEnd text text
  | semicolon {text : List Char} {semicolon : Head} : Head.of? text = some semicolon →
      semicolon.kind = .mark .semicolon → ConstantsEnd text semicolon.rest

/-- Constants with commas between them, perhaps with one behind the last of them. -/
inductive Constants (source : List Char) : List EnumConstant → List Char → List Char → Prop where
  | none {text rest : List Char} : ConstantsEnd text rest → Constants source [] text rest
  | last {text mid rest : List Char} {constant : EnumConstant} : constant.At source text mid →
      ConstantsEnd mid rest → Constants source [constant] text rest
  | more {text mid rest : List Char} {constant : EnumConstant} {others : List EnumConstant}
      {comma : Head} : constant.At source text mid → Head.of? mid = some comma →
        comma.kind = .mark .comma → Constants source others comma.rest rest →
          Constants source (constant :: others) text rest

namespace EnumConstant

/-- The events of a constant whose arguments are read as some texts. -/
def events (constant : EnumConstant) (owner : String) (args : List String) : List Event :=
  annotating (Modifiers.ofPieces constant.pieces).uses ++
    [.beginField
      { name := constant.name, type := { name := owner }, isConstant := true, args,
        line := constant.line },
      .endField]

/-- What texts the arguments of a constant come to. -/
def IsToldWith (constant : EnumConstant) (args : List String) : Prop :=
  ∃ slices, AreRead constant.arguments slices ∧ args = slices.map String.ofList

end EnumConstant

namespace ReadM

variable {source text mid rest : List Char} {head next : Head} {budget : Nat} {owner : String}
  {written : EnumConstant} {others : List EnumConstant}

theorem constantArguments_read {all : List Argument} {opening closing : Head}
    (found : Head.of? text = some opening) (opens : opening.kind = .mark .leftParen)
    (arguments : Arguments all opening.rest mid) (behind : Head.of? mid = some closing)
    (closes : closing.kind = .mark .rightParen) :
    ∃ slices, AreRead all slices ∧
      Takes source constantArguments text (slices.map String.ofList) closing.rest := by
  obtain ⟨stands, compared, others⟩ := arguments
  obtain ⟨slice, slices, stop, here, listed, read⟩ := others.exists_expression stands compared
    fun _ _ _ left => left.exists_expressions
  refine ⟨slice :: slices, read, fun budget => ?_⟩
  exact .yes (accept_takes_head found opens) ((expressions_read here listed).andThen
    ((expect_leads behind closes).meet fun _ _ => .pure ⟨rfl, rfl, rfl⟩))

/-- What may come behind a constant. -/
def followsConstant (kind : TokenKind) : Bool :=
  [TokenKind.mark .comma, .mark .semicolon, .mark .rightBrace].contains kind

theorem followsConstant_ne {kind other : TokenKind} (follows : followsConstant kind = true)
    (apart : followsConstant other = false) : kind ≠ other := by
  rintro rfl
  cases follows.symm.trans apart

/-- A constant without a body is announced once it is known what its arguments come to. -/
theorem constant_announced {pieces : List (AnnotationUse TypeExpr ⊕ String)} {named : List Char}
    {name behind : Head} {arguments : List Argument} {args : List String}
    (leading : Leading source pieces text named) (found : Head.of? named = some name)
    (isName : name.kind = .identifier) (further : Head.of? name.rest = some behind)
    (noWord : startsDeclaration behind.kind = false) (noMinus : behind.kind ≠ .mark .minus)
    (taken : Takes source constantArguments name.rest args rest) (next : Head.of? rest = some head)
    (noBody : head.kind ≠ .mark .leftBrace) (budget : Nat) :
    Delivers True source (constant budget owner) text ⟨⟩ rest
      (EnumConstant.events ⟨pieces, name.text, arguments, firstLine source named⟩ owner args) := by
  cases budget with
  | zero => exact .exhausted
  | succ budget =>
      rw [ReadM.constant]
      refine (modifiers_take leading (.name found isName further noWord noMinus) budget).andThen ?_
      refine (expect_leads found isName).meet fun token isHead => ?_
      refine (taken budget).andThen (Leads.append (emitAnnotations_delivers _) ?_)
      have isLine : token.line = firstLine source named := by
        rw [isHead.line, firstLine_eq source found]
      rw [isHead.text, isLine]
      have ends : Delivers True source (isMark .leftBrace >>= fun opens => if opens then
          classBody budget (constantBody owner name.text (firstLine source named)) >>= fun _ =>
            emit .endField else emit .endField) rest ⟨⟩ rest [.endField] :=
        .no (isNext_reads next (by simpa using noBody)) (emit_delivers rfl)
      exact Leads.append (emit_delivers rfl) ends

theorem startsDeclaration_of_followsConstant {kind : TokenKind}
    (follows : followsConstant kind = true) : startsDeclaration kind = false := by
  simp only [followsConstant, List.contains_cons, List.contains_nil, Bool.or_false, Bool.or_eq_true,
    beq_iff_eq] at follows
  rcases follows with rfl | rfl | rfl <;> rfl

variable (owner) in
theorem constant_delivers (stands : written.At source text rest) (found : Head.of? rest = some head)
    (follows : followsConstant head.kind = true) :
    ∃ args, written.IsToldWith args ∧
      ∀ budget, Delivers True source (constant budget owner) text ⟨⟩ rest
        (written.events owner args) := by
  have ne (other : TokenKind) (apart : followsConstant other = false) : head.kind ≠ other :=
    followsConstant_ne follows apart
  cases stands with
  | bare leading named isName =>
      have none : Takes source constantArguments _ [] _ := fun _ =>
        .no (accept_leaves_head found (ne (.mark .leftParen) rfl)) (.pure ⟨rfl, rfl, rfl⟩)
      exact ⟨[], ⟨[], rfl, rfl⟩, constant_announced leading named isName found
        (startsDeclaration_of_followsConstant follows) (ne _ rfl) none found (ne _ rfl)⟩
  | withArguments leading named isName further opens arguments behind closes =>
      obtain ⟨slices, read, taken⟩ := constantArguments_read further opens arguments behind closes
      exact ⟨_, ⟨slices, read, rfl⟩, constant_announced leading named isName further
        (by rw [opens]; rfl) (by rw [opens]; nofun) taken found (ne _ rfl)⟩

theorem constant_opens (stands : written.At source text rest) :
    ∃ head, Head.of? text = some head ∧ opensMember head.kind = true := by
  cases stands with
  | bare leading named isName => exact leading.exists_head ⟨_, named, by simp [opensMember, isName]⟩
  | withArguments leading named isName =>
      exact leading.exists_head ⟨_, named, by simp [opensMember, isName]⟩

theorem constantsEnd_reads (ends : ConstantsEnd text rest) :
    Reads True source (acceptMark .semicolon <||> isMark .rightBrace) text true rest := by
  cases ends with
  | brace found closes =>
      exact (accept_leaves_head found (by simp [closes])).either
        (isNext_reads found (by simp [closes]))
  | semicolon found isSemicolon =>
      exact (accept_takes_head found isSemicolon).andThen (.pure ⟨rfl, rfl, rfl⟩)

theorem constantsEnd_opens (ends : ConstantsEnd text rest) :
    ∃ head, Head.of? text = some head ∧ followsConstant head.kind = true ∧
      head.kind ≠ .mark .comma := by
  cases ends with
  | brace found closes => exact ⟨_, found, by rw [closes]; rfl, by simp [closes]⟩
  | semicolon found isSemicolon =>
      exact ⟨_, found, by rw [isSemicolon]; rfl, by simp [isSemicolon]⟩

/-- What comes behind a constant: others behind a comma, or the end. -/
def constantsBehind (budget : Nat) (owner : String) : ReadM Unit := do
  if ← acceptMark .comma then constants budget owner
  else if ← acceptMark .semicolon <||> isMark .rightBrace then return ()
  else refuse "',' or ';' after enum constant"

theorem constants_goOn {told more : List Event} (found : Head.of? text = some head)
    (opens : opensMember head.kind = true)
    (first : ∀ budget, Delivers True source (constant budget owner) text ⟨⟩ mid told)
    (others : ∀ budget, Delivers True source (constantsBehind budget owner) mid ⟨⟩ rest more) :
    Delivers True source (constants budget owner) text ⟨⟩ rest (told ++ more) := by
  cases budget with
  | zero => exact .exhausted
  | succ budget =>
      have ne (other : TokenKind) (apart : opensMember other = false) : head.kind ≠ other :=
        opensMember_ne opens apart
      have goesOn : Reads True source (acceptMark .semicolon <||> isMark .rightBrace) text false
          text :=
        (accept_leaves_head found (ne _ rfl)).either
          (isNext_reads found (beq_false_of_ne (ne _ rfl)))
      rw [constants]
      exact .no goesOn ((first budget).append (others budget))

variable (owner) in
theorem constants_deliver {all : List EnumConstant} (stand : Constants source all text rest) :
    ∃ reported, List.Forall₂ EnumConstant.IsToldWith all reported ∧
      ∀ budget, Delivers True source (constants budget owner) text ⟨⟩ rest
        (List.zipWith (·.events owner) all reported).flatten := by
  induction stand with
  | none ends =>
      refine ⟨[], .nil, fun budget => ?_⟩
      cases budget with
      | zero => exact .exhausted
      | succ budget =>
          rw [constants]
          exact .yes (constantsEnd_reads ends) (.pure ⟨rfl, rfl, rfl⟩)
  | last stands ends =>
      obtain ⟨next, found, follows, noComma⟩ := constantsEnd_opens ends
      obtain ⟨args, told, first⟩ := constant_delivers owner stands found follows
      obtain ⟨head, here, opens⟩ := constant_opens stands
      refine ⟨[args], .cons told .nil,
        fun budget => constants_goOn here opens first fun budget => ?_⟩
      exact .no (accept_leaves_head found noComma)
        (.yes (constantsEnd_reads ends) (.pure ⟨rfl, rfl, rfl⟩))
  | more stands found comma _ ih =>
      obtain ⟨reported, told, others⟩ := ih
      obtain ⟨args, told', first⟩ := constant_delivers owner stands found
        (by rw [comma]; rfl)
      obtain ⟨head, here, opens⟩ := constant_opens stands
      exact ⟨args :: reported, .cons told' told, fun budget => constants_goOn here opens first
        fun budget => .yes (accept_takes_head found comma) (others budget)⟩

end ReadM

/-- A unit of one enumeration is accepted if its constants have comparisons as arguments.  Each
constant is announced.  It has the arguments as they are written if no angle bracket of an argument
is closed in a later one, and fewer of them otherwise. -/
theorem comparisons_merge_across_commas {source body rest : List Char} {name : String}
    {all : List EnumConstant} {brace last : Head}
    (opens : OpensClass .enumeration name (TokenStream.ofSource source).rest body)
    (stand : Constants source all body rest) (found : Head.of? rest = some brace)
    (closes : brace.kind = .mark .rightBrace) (ended : Head.of? brace.rest = some last)
    (isEnd : last.kind = .endOfInput) :
    (readUnit source).2 = none ∧ ∃ reported : List (List String),
      (readUnit source).1.filter (!·.isComment) =
        .beginClass
            { name, kind := .enumeration,
              line := firstLine source (TokenStream.ofSource source).rest } ::
          ((List.zipWith (fun constant args =>
              (constant.pieces.filterMap Sum.getLeft?).map .annotated ++
                [.beginField
                  { name := constant.name, type := { name }, isConstant := true, args,
                    line := constant.line },
                  .endField]) all reported).flatten ++ [.endClass]) ∧
      List.Forall₂ (fun constant args =>
        if areMerged constant.arguments then args.length < constant.arguments.length
        else args = constant.arguments.map (String.ofList ·.text)) all reported := by
  obtain ⟨reported, told, read⟩ := constants_deliver name stand
  have inside (budget : Nat) : Delivers True source (if ClassKind.enumeration = .enumeration then
      constants budget name >>= fun _ => members budget else members budget) body ⟨⟩ brace.rest
      ((List.zipWith (·.events name) all reported).flatten ++ []) := by
    rw [if_pos rfl]
    exact (read budget).append (members_end found closes)
  obtain ⟨accepted, events⟩ := readUnit_of_class opens inside ended isEnd
  refine ⟨accepted, reported, ?_, told.imp fun constant args ⟨slices, read, is⟩ => ?_⟩
  · rw [events, List.append_nil]
    rfl
  · unfold AreRead at read
    split at read
    · next merged => rwa [if_pos merged, is, List.length_map]
    · next apart =>
        rw [if_neg apart, is, read, List.map_map]
        rfl

/-- Two comparisons that open no angle bracket for each other. -/
theorem comparisons_stay_apart :
    let source := "enum E\x7bA(x<y,z<w)\x7d".toList
    (readUnit source).2 = none ∧ (readUnit source).1.filter (!·.isComment) =
      [.beginClass { name := "E", kind := .enumeration, line := 1 },
        .beginField
          { name := "A", type := { name := "E" }, isConstant := true, args := ["x<y", "z<w"],
            line := 1 },
        .endField, .endClass] := by
  intro source
  have word : Head.Stands source 0 4 (.keyword .enumKw) "enum" := by decide +kernel
  have name : Head.Stands source 4 6 .identifier "E" := by decide +kernel
  have brace : Head.Stands source 6 7 (.mark .leftBrace) "\x7b" := by decide +kernel
  have constant : Head.Stands source 7 8 .identifier "A" := by decide +kernel
  have opening : Head.Stands source 8 9 (.mark .leftParen) "(" := by decide +kernel
  have x : Head.Stands source 9 10 .identifier "x" := by decide +kernel
  have less : Head.Stands source 10 11 (.mark .less) "<" := by decide +kernel
  have y : Head.Stands source 11 12 .identifier "y" := by decide +kernel
  have comma : Head.Stands source 12 13 (.mark .comma) "," := by decide +kernel
  have z : Head.Stands source 13 14 .identifier "z" := by decide +kernel
  have less' : Head.Stands source 14 15 (.mark .less) "<" := by decide +kernel
  have w : Head.Stands source 15 16 .identifier "w" := by decide +kernel
  have closing : Head.Stands source 16 17 (.mark .rightParen) ")" := by decide +kernel
  have last : Head.Stands source 17 18 (.mark .rightBrace) "\x7d" := by decide +kernel
  have ended : Head.of? (source.drop 18) = some .ended := by decide +kernel
  have front : (TokenStream.ofSource source).rest = source := by decide +kernel
  have line : ∀ start ∈ [0, 7], firstLine source (source.drop start) = 1 := by decide +kernel
  let compared (text : String) : Argument :=
    ⟨text.toList, [.identifier, .mark .less, .identifier]⟩
  have chained {kinds : List TokenKind} (same : kinds = [.identifier, .mark .less, .identifier]) :
      IsComparison kinds := same ▸ .joined rfl (by decide) (.operand rfl)
  have first : (compared "x<y").At (source.drop 9) (source.drop 12) :=
    @Argument.At.intro _ "x<y".toList _ _ _ x rfl (.cons x (.cons less (.cons y .nil)))
  have second : (compared "z<w").At (source.drop 13) (source.drop 16) :=
    @Argument.At.intro _ "z<w".toList _ _ _ z rfl (.cons z (.cons less' (.cons w .nil)))
  have arguments : Arguments [compared "x<y", compared "z<w"] (source.drop 9) (source.drop 16) :=
    .intro first (chained rfl) (.more comma rfl second (chained rfl) (.ended closing rfl))
  have stand : Constants source [⟨[], "A", [compared "x<y", compared "z<w"], 1⟩] (source.drop 7)
      (source.drop 17) := by
    rw [← line 7 (by decide)]
    exact .last (.withArguments .none constant rfl opening rfl arguments closing rfl)
      (.brace last rfl)
  have opens : OpensClass .enumeration "E" source (source.drop 7) :=
    .intro word .enumeration name rfl brace rfl
  have read := comparisons_merge_across_commas (front ▸ opens) stand last rfl ended rfl
  obtain ⟨accepted, reported, events, told⟩ := read
  obtain ⟨args, none, is, others, rfl⟩ := List.forall₂_cons_left_iff.mp told
  obtain rfl := List.forall₂_nil_left_iff.mp others
  have apart : areMerged [compared "x<y", compared "z<w"] = false := by decide
  rw [apart] at is
  obtain rfl : args = ["x<y", "z<w"] := by simpa [compared] using is
  refine ⟨accepted, events.trans ?_⟩
  rw [front, show firstLine source source = 1 from line 0 (by decide)]
  rfl

/-- Two comparisons, and a comma between them that is taken for one between type arguments. -/
theorem comparison_takes_comma :
    let source := "enum E\x7bA(x<y,z>w)\x7d".toList
    let less : Argument := ⟨"x<y".toList, [.identifier, .mark .less, .identifier]⟩
    let greater : Argument := ⟨"z>w".toList, [.identifier, .mark .greater, .identifier]⟩
    Arguments [less, greater] (source.drop 9) (source.drop 16) ∧
      ((readUnit source).1.filterMap fun
        | .beginField declared => some declared.args
        | _ => none) = [["x<y,z>w"]] := by
  intro source one other
  have x : Head.Stands source 9 10 .identifier "x" := by decide +kernel
  have less : Head.Stands source 10 11 (.mark .less) "<" := by decide +kernel
  have y : Head.Stands source 11 12 .identifier "y" := by decide +kernel
  have comma : Head.Stands source 12 13 (.mark .comma) "," := by decide +kernel
  have z : Head.Stands source 13 14 .identifier "z" := by decide +kernel
  have greater : Head.Stands source 14 15 (.mark .greater) ">" := by decide +kernel
  have w : Head.Stands source 15 16 .identifier "w" := by decide +kernel
  have closing : Head.Stands source 16 17 (.mark .rightParen) ")" := by decide +kernel
  have first : one.At (source.drop 9) (source.drop 12) :=
    @Argument.At.intro _ "x<y".toList _ _ _ x rfl (.cons x (.cons less (.cons y .nil)))
  have second : other.At (source.drop 13) (source.drop 16) :=
    @Argument.At.intro _ "z>w".toList _ _ _ z rfl (.cons z (.cons greater (.cons w .nil)))
  refine ⟨?_, by decide +kernel⟩
  exact .intro first (.joined rfl (by decide) (.operand rfl))
    (.more comma rfl second (.joined rfl (by decide) (.operand rfl)) (.ended closing rfl))

end JavaDecl
