import JavaDecl.Proofs.KnownUnits

/-!
# Types are read back

A class with one field, the type of which is written as a plain type prints, is read as such:
the field has its name and the type.
-/

namespace JavaDecl

open Lexeme

namespace ReadM

variable {signs left rest : List Sign} {sign : Sign} {budget : Nat}

/-! ### Fields -/

/-- Two tokens that a field may start with. -/
structure OpensField (signs : List Sign) : Prop where
  two : ∃ first next more, signs = first :: next :: more ∧
    (first.kind = .identifier ∨ first.kind.isPrimitiveType = true) ∧
    next.kind ∈ [.identifier, .mark .dot, .mark .less, .mark .leftBracket]

section Fields

variable {type : TypeExpr} {name : List Char}

theorem OpensField.lacks {kinds : List TokenKind} (opens : OpensField signs)
    (others : ∀ kind ∈ kinds, kind ≠ .identifier ∧ kind.isPrimitiveType = false) :
    Lacks kinds signs := by
  obtain ⟨first, next, more, rfl, known, -⟩ := opens.two
  refine .cons fun member => ?_
  obtain ⟨noName, noPrimitive⟩ := others _ member
  rcases known with isName | isPrimitive
  · exact noName isName
  · exact absurd isPrimitive (Bool.eq_false_iff.mp noPrimitive)

theorem OpensField.unmodified (opens : OpensField signs) : Unmodified signs := by
  have noMark : Lacks [.mark .atSign, .keyword .defaultKw] signs := opens.lacks (by decide)
  obtain ⟨first, next, more, rfl, known, second⟩ := opens.two
  obtain ⟨_, _, same, other⟩ := noMark
  obtain ⟨rfl, rfl⟩ := List.cons.inj same
  obtain ⟨notAt, notDefault⟩ : first.kind ≠ .mark .atSign ∧ first.kind ≠ .keyword .defaultKw := by
    simpa using other
  have plain : first.kind.isModifier = false := by
    rcases known with isName | isPrimitive
    · rw [isName]
      rfl
    · cases kind : first.kind with
      | keyword word =>
          rw [kind] at isPrimitive
          revert isPrimitive
          cases word <;> decide
      | _ => rfl
  have next_ok : startsDeclaration next.kind = false ∧ next.kind ≠ .mark .minus := by
    have all : ∀ kind ∈ ([.identifier, .mark .dot, .mark .less, .mark .leftBracket] :
        List TokenKind), startsDeclaration kind = false ∧ kind ≠ .mark .minus := by
      decide
    exact all _ second
  exact ⟨first, rfl, notAt, plain, notDefault, fun _ => ⟨next, rfl, next_ok⟩⟩

theorem opensField_of_plain (plain : type.IsPlain) (isName : IsPlainWord name) :
    OpensField (type.signs ++ .word name :: rest) := by
  have starts {written : String} {words : List (List Char)} (dims : Nat)
      (args : List (TypeArgument TypeExpr)) (spells : Spells written words)
      (known : ∀ word ∈ words, (Sign.word word).kind = .identifier ∨
        (Sign.word word).kind.isPrimitiveType = true) :
      OpensField (TypeExpr.signs { name := written, dims, args } ++ .word name :: rest) := by
    rw [signs_eq, spells.splitOn]
    cases words with
    | nil => exact absurd rfl spells.1
    | cons word words =>
        rw [nameSigns, List.append_assoc, List.cons_append]
        have first := known word (by simp)
        cases words with
        | cons => exact ⟨_, _, _, rfl, first, by simp [Sign.mark]⟩
        | nil =>
            cases args with
            | cons => exact ⟨_, _, _, rfl, first, by simp [Sign.mark]⟩
            | nil =>
                cases dims with
                | succ => exact ⟨_, _, _, rfl, first, by simp [Sign.mark]⟩
                | zero => exact ⟨_, _, _, rfl, first, by simp [kind_of_plain isName]⟩
  cases plain with
  | primitive primitive =>
      obtain ⟨spells, kind⟩ := spells_of_primitive primitive
      exact starts _ _ spells (by simp [kind])
  | named plainName =>
      obtain ⟨words, spells, plainWords⟩ := plainName.spells
      exact starts _ _ spells fun word member => .inl (kind_of_plain (plainWords word member))

theorem isClassStart_no (opens : OpensField signs) : Gives isClassStart signs false signs := by
  obtain ⟨first, next, more, rfl, known, -⟩ := opens.two
  refine (kindAt_gives rfl).andThen ?_
  rcases known with isName | isPrimitive
  · rw [TokenView.sign_eq, isName]
    exact .pure rfl
  · rw [TokenView.sign_eq]
    cases kind : first.kind with
    | keyword word =>
        rw [kind] at isPrimitive
        cases word <;> first | exact .pure rfl | cases isPrimitive
    | _ =>
        rw [kind] at isPrimitive
        cases isPrimitive

def fieldEvents (type : TypeExpr) (name : String) : List Event :=
  [.beginField { name, type, line := 1 }, .endField]

theorem declarator_finds (name : String) :
    Finds (declarator budget {} type 1 name) (.mark .semicolon :: rest) (· = ⟨⟩)
      (fieldEvents type name) (.mark .semicolon :: rest) := by
  have none : Gives (dimensions budget) (.mark .semicolon :: rest) 0 (.mark .semicolon :: rest) :=
    dimensions_gives 0 (.cons (by decide))
  have same : type.addDims 0 = type := by cases type; rfl
  refine none.andThen ?_
  rw [same]
  refine Finds.no (accept_leaves (.cons (by decide))) ?_
  exact (Finds.pure rfl).andThen (emitAnnotations_nil.andThen (.say (emit_finds _)))

theorem fieldRest_finds (name : String) :
    Finds (fieldRest budget {} type 1 name) (.mark .semicolon :: rest) (· = ⟨⟩)
      (fieldEvents type name) rest := by
  have none : Gives (fieldRest.part budget {} type 1) (.mark .semicolon :: rest) none
      (.mark .semicolon :: rest) :=
    Finds.no (accept_leaves (.cons (by decide))) (.pure rfl)
  exact (declarator_finds name).append fun _ _ =>
    (many_gives_nil none).andThen ((expect_finds rfl).bind fun _ _ => .pure rfl)

theorem member_finds (plain : type.IsPlain) (isName : IsPlainWord name) :
    Finds (member budget) (type.signs ++ .word name :: .mark .semicolon :: rest) (· = ⟨⟩)
      (fieldEvents type (String.ofList name)) rest := by
  have opens : OpensField (type.signs ++ .word name :: .mark .semicolon :: rest) :=
    opensField_of_plain plain isName
  cases budget with
  | zero => exact .exhausted
  | succ budget =>
      refine Finds.no (isNext_no (opens.lacks (by decide))) ?_
      refine Finds.no (.notBoth (isNext_no (opens.lacks (by decide)))) ?_
      refine (modifiers_give_nothing opens.unmodified).andThen ?_
      refine Finds.no (isClassStart_no opens) ?_
      have noMethod : Gives (isNext .identifier <&&> isAt 1 (.mark .leftParen))
          (type.signs ++ .word name :: .mark .semicolon :: rest) false
          (type.signs ++ .word name :: .mark .semicolon :: rest) := by
        obtain ⟨first, next, more, same, -, second⟩ := opens.two
        rw [same]
        refine (isNext_gives rfl).neither (isAt_gives rfl ?_)
        rw [beq_eq_false_iff_ne]
        intro paren
        rw [TokenView.sign_eq] at paren
        rw [paren] at second
        revert second
        decide
      have start : Lacks [.mark .less] (type.signs ++ .word name :: .mark .semicolon :: rest) :=
        opens.lacks (by decide)
      obtain ⟨_, _, _, same, -⟩ := opens.two
      refine (same ▸ nextLine_gives).andThen ?_
      refine (optionalParameters_gives_nil start).andThen (Finds.no noMethod ?_)
      refine (typeExpr_gives budget type plain _ (.cons ?_)).andThen ?_
      · simp [kind_of_plain isName, typeMarks]
      refine (identifier_gives (kind_of_plain isName)).andThen ?_
      exact Finds.no (isNext_no (.cons (by decide))) (fieldRest_finds _)

end Fields

/-! ### Classes -/

section Classes

variable {type : TypeExpr} {name className : List Char}

def classSigns (className : List Char) (type : TypeExpr) (name : List Char) : List Sign :=
  .keyword .classKw :: .word className :: .mark .leftBrace ::
    (type.signs ++ [.word name, .mark .semicolon, .mark .rightBrace])

theorem members_find (plain : type.IsPlain) (isName : IsPlainWord name) :
    Finds (members budget)
      (type.signs ++ .word name :: .mark .semicolon :: .mark .rightBrace :: rest) (· = ⟨⟩)
      (fieldEvents type (String.ofList name)) rest := by
  have opens : OpensField
      (type.signs ++ .word name :: .mark .semicolon :: .mark .rightBrace :: rest) :=
    opensField_of_plain plain isName
  cases budget with
  | zero => exact .exhausted
  | succ budget =>
      refine Finds.no (accept_leaves (opens.lacks (by decide))) ?_
      refine Finds.no (accept_leaves (opens.lacks (by decide))) ?_
      refine Finds.no (isNext_no (opens.lacks (by decide))) ?_
      refine (member_finds plain isName).append fun _ _ => ?_
      exact members_end_finds rfl

theorem classUnit_finds (isClass : IsPlainWord className) (plain : type.IsPlain)
    (isName : IsPlainWord name) :
    Finds (compilationUnit budget) (classSigns className type name ++ [.ended]) (· = ⟨⟩)
      (classTold [] { name := String.ofList className, kind := .ordinary, line := 1 }
        (fieldEvents type (String.ofList name))) [.ended] := by
  have split : classSigns className type name ++ [.ended] =
      .keyword .classKw :: .word className :: .mark .leftBrace ::
        (type.signs ++ .word name :: .mark .semicolon :: .mark .rightBrace :: [.ended]) := by
    simp [classSigns]
  have leading : Gives (preamble budget) (classSigns className type name ++ [.ended]) {}
      (classSigns className type name ++ [.ended]) :=
    preamble_gives_nothing (unmodified_of_other (by decide)) (.cons (by decide))
  rw [split] at leading ⊢
  exact compilationUnit_finds (classOpening_of_class rfl (word_of_plain isClass) rfl) leading
    (fun _ => members_find plain isName) rfl

end Classes

end ReadM

/-! ### Types and their texts -/

section Texts

variable {known : Known} {ref : TypeRef} {name : String}

theorem TypeRef.text_eq_printed (unresolved : ∀ path, known { ref.site with path } = none) :
    ref.text known = ref.type.printed ref.site.path := by
  unfold TypeRef.text TypeRef.knownName?
  simp only [unresolved, Option.getD_none]

/-- The source of a class with one field opens with its tokens. -/
theorem opensWith_class {text : String} {type : TypeExpr} (prints : PrintsAs text type.signs)
    {name : List Char} (isName : isWord name = true) :
    OpensWith ("class X \x7b ".toList ++ (text.toList ++ ' ' :: (name ++ [';', ' ', '\x7d'])))
      (ReadM.classSigns ['X'] type name ++ [.ended]) := by
  have space : isSpace ' ' = true := by decide
  have brace : OpensWith ['\x7d'] [.mark .rightBrace, .ended] :=
    .lone rfl (by decide) (fun _ => rfl) (by decide) .ended
  have closing : OpensWith [';', ' ', '\x7d'] [.mark .semicolon, .mark .rightBrace, .ended] :=
    .lone rfl (by decide) (fun _ => rfl) (by decide) (.blank space brace)
  have field := OpensWith.blank space (.word isName (.cons (by decide) (by decide)) closing)
  have members := prints.opens _ _ (.cons (by decide) (by decide)) field
  have spelled : Mark.leftBrace.spelling.toList = ['\x7b'] := rfl
  have body := OpensWith.lone spelled (by decide) (fun _ => rfl) (by decide) (.blank space members)
  have header := OpensWith.word (by decide : isWord ['X'] = true) (.cons (by decide) (by decide))
    (.blank space body)
  have all := OpensWith.word (by decide : isWord "class".toList = true)
    (.cons (by decide) (by decide)) (.blank space header)
  have isKeyword : Sign.word "class".toList = .keyword .classKw := by decide
  rw [isKeyword] at all
  simpa [ReadM.classSigns] using all

/-- The text of a type of which nothing is known, and the names of which are plain, is read back
as the type of a field. -/
theorem types_are_read_back (plain : ref.type.IsPlain)
    (unresolved : ∀ path, known { ref.site with path } = none)
    (isName : IsPlainWord name.toList) :
    readUnit ("class X \x7b " ++ ref.text known ++ " " ++ name ++ "; \x7d").toList =
      ([.beginClass { name := "X", kind := .ordinary, line := 1 },
        .beginField { name, type := ref.type, line := 1 }, .endField, .endClass], none) := by
  have prints := plain.prints.gives ref.site.path
  have isClass : IsPlainWord ['X'] := by decide
  have inLine : '\n' ∉ name.toList := notMem_of_isWord isName.1 (by decide)
  have source : ("class X \x7b " ++ ref.text known ++ " " ++ name ++ "; \x7d").toList =
      "class X \x7b ".toList ++ ((ref.type.printed ref.site.path).toList ++
        ' ' :: (name.toList ++ [';', ' ', '\x7d'])) := by
    simp [TypeRef.text_eq_printed unresolved]
  rw [source, readUnit_of_finds (by simp [TokenStream.byteOrderMark])
    (by simp [prints.inLine, inLine]) (opensWith_class prints isName.1)
    (ReadM.classUnit_finds isClass plain isName)]
  simp [ReadM.classTold, ReadM.fieldEvents]

/-- A dotted name, a wildcard, brackets that close together, and dimensions at several levels. -/
theorem nested_type_is_read_back :
    readUnit "class X \x7b a.Map<? extends B<int[]>>[][] n; \x7d".toList =
      ([.beginClass { name := "X", kind := .ordinary, line := 1 },
        .beginField
          { name := "n"
            type :=
              { name := "a.Map"
                args := [.extending
                  { name := "B", args := [.type { name := "int", dims := 1 }] }]
                dims := 2 }
            line := 1 },
        .endField, .endClass], none) := by
  let ref : TypeRef :=
    { type :=
        { name := "a.Map"
          args := [.extending { name := "B", args := [.type { name := "int", dims := 1 }] }]
          dims := 2 }
      scope := { unit := ⟨0⟩ }
      site := { holder := .ofField ⟨0⟩, role := .variableType } }
  have plain : ref.type.IsPlain := by
    refine .named ⟨["a".toList, "Map".toList], by decide, by decide, by decide⟩ ?_
    rintro _ (_ | ⟨_, ⟨⟩⟩) _ ⟨⟩
    refine .named ⟨["B".toList], by decide, by decide, by decide⟩ ?_
    rintro _ (_ | ⟨_, ⟨⟩⟩) _ ⟨⟩
    exact .primitive (by decide)
  have isName : IsPlainWord "n".toList := by decide
  let known : Known := fun _ => none
  have shown : ref.text known = "a.Map<? extends B<int[]>>[][]" := by decide
  have unresolved : ∀ path, known { ref.site with path } = none := fun _ => rfl
  have read := types_are_read_back plain unresolved isName
  rw [shown] at read
  exact read

end Texts

end JavaDecl
