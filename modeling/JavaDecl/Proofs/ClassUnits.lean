import JavaDecl.Proofs.Declarators

/-!
# Units of one class

A unit that is a single class without type parameters and supertypes is accepted if its members
are read one after the other, and its events are the class around theirs.
-/

namespace JavaDecl

/-- No annotation and no modifier word comes first.  Some names are modifier words if certain
tokens come behind them. -/
inductive NoModifier (text : List Char) : Prop where
  | other {head : Head} : Head.of? text = some head → head.kind ≠ .identifier →
      head.kind ≠ .mark .atSign → head.kind.isModifier = false →
        head.kind ≠ .keyword .defaultKw → NoModifier text
  | name {head next : Head} : Head.of? text = some head → head.kind = .identifier →
      Head.of? head.rest = some next → ReadM.startsDeclaration next.kind = false →
        next.kind ≠ .mark .minus → NoModifier text

def firstLine (source text : List Char) : Nat :=
  match Head.of? text with
  | some head => lineOf source (head.slice ++ head.rest)
  | none => 0

/-- The token that opens a class of some kind. -/
inductive ClassKind.IsOpenedBy : ClassKind → TokenKind → Prop where
  | ordinary : IsOpenedBy .ordinary (.keyword .classKw)
  | interface : IsOpenedBy .interface (.keyword .interfaceKw)
  | enumeration : IsOpenedBy .enumeration (.keyword .enumKw)

theorem ClassKind.IsOpenedBy.isModifier {kind : ClassKind} {opening : TokenKind}
    (opens : kind.IsOpenedBy opening) :
    opening.isModifier = false := by
  cases opens <;> rfl

/-- A class of some kind and name opens at the front of a text. -/
inductive OpensClass (kind : ClassKind) : String → List Char → List Char → Prop where
  | intro {word name brace : Head} {text : List Char} : Head.of? text = some word →
      kind.IsOpenedBy word.kind → Head.of? word.rest = some name → name.kind = .identifier →
        Head.of? name.rest = some brace → brace.kind = .mark .leftBrace →
          OpensClass kind name.text text brace.rest

namespace ReadM

variable {strict : Prop} {source text body mid rest : List Char} {head last : Head}
  {budget : Nat} {kind : ClassKind} {name : String} {told more : List Event}

theorem firstLine_eq (source : List Char) (found : Head.of? text = some head) :
    firstLine source text = lineOf source (head.slice ++ head.rest) := by
  rw [firstLine, found]

theorem nextLine_reads_first (found : Head.of? text = some head) :
    Reads strict source nextLine text (firstLine source text) text :=
  firstLine_eq source found ▸ nextLine_reads found

/-! ### Modifiers that are not there -/

theorem modifier?_leaves (none : NoModifier text) :
    Reads strict source (modifier? budget) text .none text := by
  cases none with
  | @other head found noName noSign noWord noDefault =>
      have unlike {word : String} : Reads strict source (isWordAt 0 word) text false text :=
        isWordAt_reads [] (.single found) (by simp) (by simp [noName])
      refine (kindAt_first found).andThen ?_
      rw [if_neg (by simpa using noSign), if_neg (by simp [noWord, noDefault])]
      exact .no (.notBoth unlike) (.no (.notBoth unlike) (.pure ⟨rfl, rfl, rfl⟩))
  | @name head next found isName further noDeclaration noMinus =>
      have closed : head.kind ≠ .mark .leftBrace := by simp [isName]
      have spelled (word : String) : Reads strict source (isWordAt 0 word) text
          (head.text == word) text :=
        isWordAt_reads [] (.single found) (by simp) (by simp [isName])
      have declares : Reads strict source (startsDeclaration <$> kindAt 1) text false text :=
        .map (kindAt_second found further closed) noDeclaration
      have subtracts : Reads strict source (isAt 1 (.mark .minus)) text false text :=
        isSecond_reads found further closed (by simpa using noMinus)
      refine (kindAt_first found).andThen ?_
      rw [if_neg (by simp [isName]), if_neg (by simp [isName, TokenKind.isModifier])]
      exact .no ((spelled _).neither declares) (.no ((spelled _).neither subtracts.notBoth)
        (.pure ⟨rfl, rfl, rfl⟩))

theorem modifiers_leave (none : NoModifier text) :
    Reads strict source (modifiers budget) text {} text :=
  (many_ends (modifier?_leaves none)).andThen (.pure ⟨rfl, rfl, rfl⟩)

/-! ### Classes -/

section Class

variable {word name brace : Head}

theorem classKind?_reads (found : Head.of? text = some word) (opens : kind.IsOpenedBy word.kind) :
    Reads strict source classKind? text (some kind) text := by
  refine (kindAt_first found).andThen ?_
  generalize word.kind = opening at opens
  cases opens
  · exact .pure ⟨rfl, rfl, rfl⟩
  · exact .pure ⟨rfl, rfl, rfl⟩
  · exact .pure ⟨rfl, rfl, rfl⟩

theorem classHeader_reads (found : Head.of? text = some word) (opens : kind.IsOpenedBy word.kind)
    (named : Head.of? word.rest = some name) (isName : name.kind = .identifier)
    (further : Head.of? name.rest = some brace) (isBrace : brace.kind = .mark .leftBrace)
    (words : List String) :
    Reads strict source (classHeader budget words) text
      { name := name.text, kind, modifiers := words, line := firstLine source text } name.rest := by
  have skips (keyword : TokenKind) (other : keyword ≠ .mark .leftBrace) :
      Reads strict source (accept keyword) name.rest false name.rest :=
    accept_leaves_head further (isBrace ▸ other.symm)
  have noPermits : Reads strict source (skipPermitted budget) name.rest ⟨⟩ name.rest :=
    .no (isWordAt_reads [] (.single further) (by simp) (by simp [isBrace])) (.pure ⟨rfl, rfl, rfl⟩)
  have noParameters : Reads strict source (optionalParameters budget) name.rest [] name.rest :=
    .no (skips _ nofun) (.pure ⟨rfl, rfl, rfl⟩)
  refine (classKind?_reads found opens).andThen ((take_leads found).meet fun token isHead => ?_)
  refine (identifier_reads named isName).andThen (noParameters.andThen ?_)
  refine .no (skips (.keyword .extendsKw) nofun) ?_
  refine .no (skips (.keyword .implementsKw) nofun) (noPermits.andThen (.pure ⟨?_, rfl, rfl⟩))
  rw [isHead.line, firstLine_eq source found]

end Class

/-- A class without annotations and modifiers is read if its body is. -/
theorem classDeclaration_delivers {declared : String} (opens : OpensClass kind declared text body)
    (inside : ∀ budget, Delivers strict source
      (if kind = .enumeration then constants budget declared >>= fun _ => members budget
        else members budget) body ⟨⟩ rest told) :
    Delivers strict source (classDeclaration budget {}) text ⟨⟩ rest
      (.beginClass { name := declared, kind, line := firstLine source text } ::
        (told ++ [.endClass])) := by
  obtain @⟨word, name, brace, _, found, isWord, named, isName, further, isBrace⟩ := opens
  cases budget with
  | zero => exact .exhausted
  | succ budget =>
      rw [classDeclaration]
      refine (classHeader_reads found isWord named isName further isBrace []).andThen ?_
      refine Leads.andThen (emitAnnotations_delivers []) ?_
      cases budget with
      | zero => exact .exhausted
      | succ budget =>
          rw [classBody]
          refine Leads.append (emit_delivers rfl)
            ((expect_leads further isBrace).meet fun _ _ => ?_)
          have closing (part : ReadM Unit)
              (reads : Delivers strict source part brace.rest ⟨⟩ rest told) :
              Delivers strict source (part >>= fun _ => emit .endClass) brace.rest ⟨⟩ rest
                (told ++ [.endClass]) :=
            reads.append (emit_delivers rfl)
          have ran := closing _ (inside budget)
          split at ran
          · next isEnum =>
            rw [bind_assoc] at ran
            rwa [if_pos isEnum]
          · next noEnum => rwa [if_neg noEnum]

/-! ### Members -/

theorem members_end (found : Head.of? text = some head) (closes : head.kind = .mark .rightBrace) :
    Reads strict source (members budget) text ⟨⟩ head.rest := by
  cases budget with
  | zero => exact .exhausted
  | succ budget => exact .yes (accept_takes_head found closes) (.pure ⟨rfl, rfl, rfl⟩)

theorem members_goOn (found : Head.of? text = some head) (noBrace : head.kind ≠ .mark .rightBrace)
    (noSemicolon : head.kind ≠ .mark .semicolon) (inside : head.kind ≠ .endOfInput)
    (first : ∀ budget, Delivers strict source (member budget) text ⟨⟩ mid told)
    (others : ∀ budget, Delivers strict source (members budget) mid ⟨⟩ rest more) :
    Delivers strict source (members budget) text ⟨⟩ rest (told ++ more) := by
  cases budget with
  | zero => exact .exhausted
  | succ budget =>
      rw [members]
      refine .no (accept_leaves_head found noBrace) (.no (accept_leaves_head found noSemicolon) ?_)
      exact .no (isNext_reads found (by simpa using inside)) ((first budget).append (others budget))

/-! ### Units -/

section Unit

variable (found : Head.of? text = some head) (opens : kind.IsOpenedBy head.kind)

include found opens

theorem noModifier_of_class : NoModifier text := by
  have other (apart : TokenKind) (unlike : ∀ kind : ClassKind, ¬ kind.IsOpenedBy apart) :
      head.kind ≠ apart := fun same => unlike kind (same ▸ opens)
  exact .other found (other _ nofun) (other _ nofun) opens.isModifier (other _ nofun)

theorem accept_leaves_class (apart : TokenKind)
    (unlike : ∀ kind : ClassKind, ¬ kind.IsOpenedBy apart) :
    Reads strict source (accept apart) text false text :=
  accept_leaves_head found fun same => unlike kind (same ▸ opens)

theorem isNext_no_class (apart : TokenKind) (unlike : ∀ kind : ClassKind, ¬ kind.IsOpenedBy apart) :
    Reads strict source (isNext apart) text false text :=
  isNext_reads found (beq_false_of_ne fun same => unlike kind (same ▸ opens))

/-- There is nothing in front of a unit's class. -/
theorem preamble_reads : Reads strict source (preamble budget) text {} text := by
  have noImport : Reads strict source (import? budget) text .none text :=
    .no (isNext_no_class found opens (.keyword .importKw) nofun)
      (.no (accept_leaves_class found opens (.mark .semicolon) nofun) (.pure ⟨rfl, rfl, rfl⟩))
  refine (modifiers_leave (noModifier_of_class found opens)).andThen ?_
  refine .no (isNext_no_class found opens (.keyword .packageKw) nofun) ?_
  exact (many_ends noImport).andThen (modifiers_leave (noModifier_of_class found opens))

/-- A unit of one class is read if the class is. -/
theorem compilationUnit_delivers
    (inside : ∀ budget, Delivers strict source (classDeclaration budget {}) text ⟨⟩ rest told)
    (ended : Head.of? rest = some last) (isEnd : last.kind = .endOfInput) :
    Delivers strict source (compilationUnit budget) text ⟨⟩ rest told := by
  have noName : head.kind ≠ .identifier := fun same => by
    rw [same] at opens
    cases opens
  have unlike {word : String} : Reads strict source (isWordAt 0 word) text false text :=
    isWordAt_reads [] (.single found) (by simp) (by simp [noName])
  refine (preamble_reads found opens).andThen ?_
  refine .no (.both (.pure ⟨rfl, rfl, rfl⟩) (.no unlike (.notBoth unlike))) ?_
  cases budget with
  | zero => exact .exhausted
  | succ budget =>
      rw [classDeclarations]
      refine .no (.both (.pure ⟨rfl, rfl, rfl⟩)
        (isNext_no_class found opens .endOfInput fun _ opened => by cases opened)) ?_
      refine .no (.both (.pure ⟨rfl, rfl, rfl⟩)
        (accept_leaves_class found opens (.mark .semicolon) fun _ opened => by cases opened)) ?_
      have ending : Reads strict source (modifiers budget >>= fun leading =>
          classDeclarations budget leading) rest ⟨⟩ rest := by
        refine (modifiers_leave (.other ended (by simp [isEnd]) (by simp [isEnd])
          (by simp [isEnd, TokenKind.isModifier]) (by simp [isEnd]))).andThen ?_
        cases budget with
        | zero => exact .exhausted
        | succ budget =>
            rw [classDeclarations]
            exact .yes (.both (.pure ⟨rfl, rfl, rfl⟩) (isNext_reads ended (by simp [isEnd])))
              (.pure ⟨rfl, rfl, rfl⟩)
      have whole : Delivers strict source (classDeclaration budget {} >>= fun _ =>
          modifiers budget >>= fun leading => classDeclarations budget leading) text ⟨⟩ rest
          (told ++ []) := Leads.append (inside budget) ending
      rwa [List.append_nil] at whole

end Unit

end ReadM

/-- A source that is one class is accepted, and its events are the class around those of its
contents. -/
theorem readUnit_of_class {kind : ClassKind} {name : String} {source body rest : List Char}
    {last : Head} {told : List Event}
    (opens : OpensClass kind name (TokenStream.ofSource source).rest body)
    (inside : ∀ budget, ReadM.Delivers True source
      (if kind = .enumeration then ReadM.constants budget name >>= fun _ => ReadM.members budget
        else ReadM.members budget) body ⟨⟩ rest told)
    (ended : Head.of? rest = some last) (isEnd : last.kind = .endOfInput) :
    (readUnit source).2 = none ∧ (readUnit source).1.filter (!·.isComment) =
      .beginClass { name, kind, line := firstLine source (TokenStream.ofSource source).rest } ::
        (told ++ [.endClass]) :=
  readUnit_of_delivers fun _ => by
    have declared (budget : Nat) : ReadM.Delivers True source (ReadM.classDeclaration budget {})
      (TokenStream.ofSource source).rest ⟨⟩ rest _ := ReadM.classDeclaration_delivers opens inside
    obtain ⟨found, isWord, -⟩ := opens
    exact ReadM.compilationUnit_delivers found isWord declared ended isEnd

end JavaDecl
