import JavaDecl.Proofs.KnownUnits
import JavaDecl.Proofs.ModuleTexts

/-!
# Modules are read back

The text of a module descriptor is read as the header of the module and its directives in their
order, whichever names stand in it.
-/

namespace JavaDecl

open Lexeme

namespace ReadM

variable {signs rest : List Sign} {budget : Nat} {name : String} {names : List String}

/-! ### Names -/

/-- A plain name starts with a word, which a dot or the tokens behind the name follow. -/
theorem exists_signsOf (plain : IsPlainName name) :
    ∃ word more, signsOf name = ⟨.identifier, String.ofList word⟩ :: more ∧
      (more = [] ∨ more.head? = some (.mark .dot)) := by
  obtain ⟨words, spells, plainWords⟩ := plain.spells
  have split := spells.signsOf
  obtain ⟨some, -, -⟩ := spells
  cases words with
  | nil => exact absurd rfl some
  | cons word words =>
      rw [split, nameSigns, word_of_plain (plainWords word (by simp))]
      exact ⟨word, _, rfl, by cases words <;> simp⟩

theorem name_gives (plain : IsPlainName name) (ends : Lacks [.mark .dot] rest) :
    Gives (qualifiedName budget) (signsOf name ++ rest) name rest := by
  exact qualifiedName_gives plain (List.map_id' _) ends

theorem nameType_gives (plain : IsPlainName name) (ends : Lacks typeMarks rest) :
    Gives (typeExpr budget) (signsOf name ++ rest) { name } rest := by
  have read := typeExpr_gives budget { name } (.named plain (by simp)) rest ends
  simpa [signs_eq, bracketSigns, dimSigns] using read

theorem names_give (plain : ∀ name ∈ names, IsPlainName name) (some : names ≠ [])
    (ends : Lacks [.mark .comma, .mark .dot] rest) :
    Gives (separatedBy .comma (qualifiedName budget) budget)
      ((Phrase.commas (names.map .ofName)).signs ++ rest) names rest := by
  have split : (Phrase.commas (names.map .ofName)).signs =
      [Sign.mark .comma].intercalate (names.map signsOf) := by
    simp [Phrase.commas, Phrase.ofName, Function.comp_def]
  have whole : Gives (separatedBy .comma (qualifiedName budget) budget)
      ([Sign.mark .comma].intercalate (names.map signsOf) ++ rest) (names.map id) rest :=
    separatedBy_gives rfl (fun _ _ _ => Lacks.cons (by decide))
      (fun name member _ => name_gives (plain name member)) (ends.mono (by simp))
      (ends.mono (by simp)) some
  rw [List.map_id] at whole
  rwa [split]

theorem typeList_gives (plain : ∀ name ∈ names, IsPlainName name) (some : names ≠ [])
    (ends : Lacks (.mark .comma :: typeMarks) rest) :
    Gives (typeList budget) ((Phrase.commas (names.map .ofName)).signs ++ rest)
      (names.map fun name => { name }) rest := by
  have split : (Phrase.commas (names.map .ofName)).signs =
      [Sign.mark .comma].intercalate (names.map signsOf) := by
    simp [Phrase.commas, Phrase.ofName, Function.comp_def]
  rw [split]
  exact separatedBy_gives rfl (fun _ _ _ => Lacks.cons (by decide))
    (fun name member _ => nameType_gives (plain name member)) (ends.mono (by simp))
    (ends.mono (by simp)) some

/-! ### Directives -/

theorem Finds.either {one other : ReadM Bool} {first second : Bool}
    (asked : Gives one signs first signs) (again : Gives other signs second signs) :
    Gives (one <||> other) signs (first || second) signs := by
  cases first with
  | true => exact asked.andThen (.pure rfl)
  | false => exact asked.andThen again

def requiredSigns (modifiers : List RequiresModifier) (name : String) : List Sign :=
  modifiers.map (fun modifier => .word modifier.text.toList) ++ signsOf name

theorem lacks_of_required {kinds : List TokenKind} (modifiers : List RequiresModifier)
    (plain : IsPlainName name) (others : .identifier ∉ kinds ∧ .keyword .staticKw ∉ kinds) :
    Lacks kinds (requiredSigns modifiers name ++ rest) := by
  cases modifiers with
  | nil =>
      obtain ⟨word, more, split, -⟩ := exists_signsOf plain
      rw [requiredSigns, List.map_nil, List.nil_append, split]
      exact .cons others.1
  | cons modifier modifiers =>
      refine .cons ?_
      cases modifier with
      | static => exact others.2
      | transitive => exact others.1

/-- The word `transitive` is a modifier in front of another one and of a name. -/
theorem requiresModifier_gives (modifier : RequiresModifier) (modifiers : List RequiresModifier)
    (plain : IsPlainName name) :
    Gives requiresModifier? (requiredSigns (modifier :: modifiers) name ++ rest)
      (some modifier.text) (requiredSigns modifiers name ++ rest) := by
  cases modifier with
  | static =>
      refine Finds.yes (isNext_gives (by decide)) ?_
      exact take_finds.bind fun token shows => .pure (by rw [shows.text]; rfl)
  | transitive =>
      have lacks : Lacks [.mark .semicolon, .mark .dot] (requiredSigns modifiers name ++ rest) :=
        lacks_of_required modifiers plain (by decide)
      obtain ⟨next, more, split, other⟩ := lacks
      simp only [List.mem_cons, List.not_mem_nil, or_false, not_or] at other
      have whole : requiredSigns (.transitive :: modifiers) name ++ rest =
          .word "transitive".toList :: next :: more := by
        rw [← split]
        rfl
      rw [whole, split]
      have behind {symbol : Mark} (differs : (TokenView.sign next).kind ≠ .mark symbol) :
          Gives (isAt 1 (.mark symbol)) (.word "transitive".toList :: next :: more) false
            (.word "transitive".toList :: next :: more) :=
        isAt_gives rfl (by simpa using differs)
      have isModifier : Gives (isWordAt 0 "transitive" <&&>
          (not <$> (isAt 1 (.mark .semicolon) <||> isAt 1 (.mark .dot))))
          (.word "transitive".toList :: next :: more) true
          (.word "transitive".toList :: next :: more) :=
        .both (isWordAt_gives rfl (by decide))
          (.map (.either (behind other.1) (behind other.2)) rfl)
      refine Finds.no (isNext_gives (by decide)) (Finds.yes isModifier ?_)
      exact take_finds.bind fun token shows => .pure (by rw [shows.text]; rfl)

/-- The word `transitive` is no modifier where it is the name or its first part. -/
theorem requiresModifier_gives_none (plain : IsPlainName name) :
    Gives requiresModifier? (signsOf name ++ .mark .semicolon :: rest) none
      (signsOf name ++ .mark .semicolon :: rest) := by
  obtain ⟨word, more, split, behind⟩ := exists_signsOf plain
  have next : ∃ symbol further, more ++ .mark .semicolon :: rest = .mark symbol :: further ∧
      (symbol = .semicolon ∨ symbol = .dot) := by
    rcases behind with rfl | dot
    · exact ⟨.semicolon, rest, rfl, .inl rfl⟩
    · obtain ⟨further, rfl⟩ := List.head?_eq_some_iff.mp dot
      exact ⟨.dot, _, rfl, .inr rfl⟩
  obtain ⟨symbol, further, follows, ends⟩ := next
  rw [split, List.cons_append, follows]
  have notStatic : Gives (isNext (.keyword .staticKw))
      (⟨.identifier, String.ofList word⟩ :: Sign.mark symbol :: further) false
      (⟨.identifier, String.ofList word⟩ :: Sign.mark symbol :: further) :=
    isNext_gives rfl
  refine Finds.no notStatic (Finds.no ((isWordAt_gives rfl rfl).neither ?_) (.pure rfl))
  refine .map (.either (isAt_gives rfl rfl) (isAt_gives rfl rfl)) ?_
  rcases ends with rfl | rfl <;> rfl

theorem requiresModifiers_give (plain : IsPlainName name) (modifiers : List RequiresModifier)
    (budget : Nat) :
    Gives (many requiresModifier? budget)
      (requiredSigns modifiers name ++ .mark .semicolon :: rest)
      (modifiers.map RequiresModifier.text) (signsOf name ++ .mark .semicolon :: rest) := by
  induction modifiers generalizing budget with
  | nil => exact many_gives_nil (requiresModifier_gives_none plain)
  | cons modifier modifiers ih =>
      exact many_gives_cons (requiresModifier_gives modifier modifiers plain) ih

theorem targets_give (plain : ∀ name ∈ names, IsPlainName name) :
    Gives (targets budget)
      ((targetPhrases names).flatMap Phrase.signs ++ .mark .semicolon :: rest) names
      (.mark .semicolon :: rest) := by
  cases names with
  | nil => exact Finds.no (isWordAt_gives rfl rfl) (.pure rfl)
  | cons target targets =>
      have split : (targetPhrases (target :: targets)).flatMap Phrase.signs =
          .word "to".toList :: (Phrase.commas ((target :: targets).map .ofName)).signs := by
        simp [targetPhrases, Phrase.ofWord]
      rw [split, List.cons_append]
      refine Finds.yes (isWordAt_gives rfl (by decide)) (take_finds.bind fun _ _ => ?_)
      exact names_give plain (by simp) (.cons (by decide))

theorem packageDirective_gives {line : Nat} (plain : IsPlainName name)
    (plainTargets : ∀ name ∈ names, IsPlainName name) :
    Gives (packageDirective budget line)
      (signsOf name ++ ((targetPhrases names).flatMap Phrase.signs ++ .mark .semicolon :: rest))
      { package := name, targets := names, line } (.mark .semicolon :: rest) := by
  have ends : Lacks [.mark .dot]
      ((targetPhrases names).flatMap Phrase.signs ++ .mark .semicolon :: rest) := by
    cases names with
    | nil => exact .cons (by decide)
    | cons => exact .cons (by decide)
  exact (name_gives plain ends).andThen ((targets_give plainTargets).andThen (.pure rfl))

/-- The event of a directive whose first word is taken. -/
theorem directive_gives {line : ModuleLine} {opening : Token}
    (plain : ∀ name ∈ line.names, IsPlainName name) (text : opening.text = line.opening)
    (first : opening.line = 1) :
    Gives (directive budget opening)
      (line.inside.flatMap Phrase.signs ++ .mark .semicolon :: rest) line.event
      (.mark .semicolon :: rest) := by
  unfold directive
  rw [text, first]
  cases line with
  | requires modifiers name =>
      have isName : IsPlainName name := plain name (by simp [ModuleLine.names])
      have split : (ModuleLine.requires modifiers name).inside.flatMap Phrase.signs =
          requiredSigns modifiers name := by
        rw [ModuleLine.inside, requiredSigns, List.flatMap_append, List.flatMap_map,
          List.map_eq_flatMap, List.flatMap_singleton]
        rfl
      rw [split]
      refine (requiresModifiers_give isName modifiers budget).andThen ?_
      exact (name_gives isName (.cons (by decide))).andThen (.pure rfl)
  | exports package targets | opens package targets =>
      obtain ⟨isPackage, others⟩ := List.forall_mem_cons.mp plain
      rw [ModuleLine.inside, List.flatMap_cons, List.append_assoc]
      exact (packageDirective_gives isPackage others).andThen (.pure rfl)
  | uses service =>
      have isService : IsPlainName service := plain service (by simp [ModuleLine.names])
      rw [ModuleLine.inside, List.flatMap_singleton]
      exact (nameType_gives isService (.cons (by decide))).andThen (.pure rfl)
  | provides service implementing others =>
      obtain ⟨isService, implementations⟩ := List.forall_mem_cons.mp plain
      have split : (ModuleLine.provides service implementing others).inside.flatMap Phrase.signs ++
          .mark .semicolon :: rest = signsOf service ++ .word "with".toList ::
            ((Phrase.commas ((implementing :: others).map .ofName)).signs ++
              .mark .semicolon :: rest) := by
        simp [ModuleLine.inside, Phrase.ofName, Phrase.ofWord]
      rw [split]
      refine (nameType_gives isService (.cons (by decide))).andThen ?_
      have isWith : Gives (isWordAt 0 "with") (.word "with".toList ::
          ((Phrase.commas ((implementing :: others).map .ofName)).signs ++
            .mark .semicolon :: rest)) true _ :=
        isWordAt_gives rfl (by decide)
      refine (Finds.yes isWith take_finds).bind fun _ _ => ?_
      refine (typeList_gives implementations (by simp) (.cons (by decide))).andThen (.pure rfl)

theorem directive_finds {line : ModuleLine} (plain : ∀ name ∈ line.names, IsPlainName name) :
    Finds (directive? budget) (line.phrase.signs ++ rest) (· = some ⟨⟩) [line.event] rest := by
  have split : line.phrase.signs ++ rest = .word line.opening.toList ::
      (line.inside.flatMap Phrase.signs ++ .mark .semicolon :: rest) := by
    simp [ModuleLine.phrase, Phrase.closed, Phrase.spaced, Phrase.ofWord]
  have first : Sign.word line.opening.toList = ⟨.identifier, line.opening⟩ := by
    have known : ∀ word ∈ ["requires", "exports", "opens", "uses", "provides"],
        Sign.word word.toList = ⟨.identifier, word⟩ := by
      decide
    exact known _ (by cases line <;> simp [ModuleLine.opening])
  rw [split, first]
  refine Finds.no (accept_leaves (.cons (by simp))) ?_
  refine (expect_finds rfl).bind fun opening shows => ?_
  refine (directive_gives plain shows.text shows.line).andThen (.say ?_)
  exact (expect_finds rfl).bind fun _ _ => .pure rfl

theorem directives_find {lines : List ModuleLine}
    (plain : ∀ line ∈ lines, ∀ name ∈ line.names, IsPlainName name) (rounds : Nat) :
    Finds (many (directive? budget) rounds)
      ((lines.map ModuleLine.phrase).flatMap Phrase.signs ++ .mark .rightBrace :: rest)
      (fun _ => True) (lines.map ModuleLine.event) rest := by
  induction lines generalizing rounds with
  | nil =>
      have ended : Gives (directive? budget) (.mark .rightBrace :: rest) none rest :=
        Finds.yes (accept_takes rfl) (.pure rfl)
      cases rounds with
      | zero => exact .exhausted
      | succ rounds => exact ended.andThen (.pure trivial)
  | cons line lines ih =>
      have others : ∀ line ∈ lines, ∀ name ∈ line.names, IsPlainName name :=
        fun other member => plain other (List.mem_cons_of_mem line member)
      rw [List.map_cons, List.flatMap_cons, List.append_assoc, List.map_cons,
        ← List.singleton_append]
      cases rounds with
      | zero => exact .exhausted
      | succ rounds =>
          refine (directive_finds (plain line (by simp))).append fun found same => ?_
          subst same
          exact (ih others rounds).changed fun _ _ => trivial

/-! ### Modules -/

variable {module : ModuleText}

def namedSigns (module : ModuleText) : List Sign :=
  signsOf module.name ++ .mark .leftBrace ::
    ((module.lines.map ModuleLine.phrase).flatMap Phrase.signs ++ [.mark .rightBrace, .ended])

theorem signs_module (module : ModuleText) :
    module.phrase.signs ++ [.ended] =
      (if module.isOpen then [.word "open".toList] else []) ++
        .word "module".toList :: namedSigns module := by
  cases isOpen : module.isOpen <;>
    simp [ModuleText.phrase, ModuleText.opening, Phrase.spaced, Phrase.ofWord, Phrase.ofName,
      Phrase.ofMark, namedSigns, isOpen]

theorem namedModule_finds (plain : module.IsPlain) (isOpen : Bool) (same : module.isOpen = isOpen) :
    Finds
      (do
        let _ ← expectWord "module"
        let name ← qualifiedName budget
        let _ ← expectMark .leftBrace "'\x7b' opening module body"
        emit (.moduleHeader { name, isOpen, line := 1 })
        let _ ← many (directive? budget) budget)
      (.word "module".toList :: namedSigns module) (· = ⟨⟩) module.events [.ended] := by
  have isModule : Gives (isWordAt 0 "module") (.word "module".toList :: namedSigns module) true
      (.word "module".toList :: namedSigns module) :=
    isWordAt_gives rfl (by decide)
  refine (Finds.yes isModule take_finds).bind fun _ _ => ?_
  refine (name_gives plain.name (.cons (by decide))).andThen ?_
  refine (expect_finds rfl).bind fun _ _ => ?_
  rw [← same]
  exact .say ((directives_find plain.lines budget).changed fun _ _ => rfl)

theorem moduleDeclaration_finds (plain : module.IsPlain) :
    Finds (moduleDeclaration budget) (module.phrase.signs ++ [.ended]) (· = ⟨⟩) module.events
      [.ended] := by
  rw [signs_module]
  cases isOpen : module.isOpen with
  | true =>
      have first : Gives (isWordAt 0 "open")
          (.word "open".toList :: .word "module".toList :: namedSigns module) true
          (.word "open".toList :: .word "module".toList :: namedSigns module) :=
        isWordAt_gives rfl (by decide)
      refine nextLine_gives.andThen (first.andThen ?_)
      exact take_finds.bind fun _ _ => namedModule_finds plain true isOpen
  | false =>
      have first : Gives (isWordAt 0 "open") (.word "module".toList :: namedSigns module) false
          (.word "module".toList :: namedSigns module) :=
        isWordAt_gives rfl (by decide)
      exact nextLine_gives.andThen (first.andThen (namedModule_finds plain false isOpen))

/-- A module starts with two words, the first of which is no modifier. -/
theorem exists_words (plain : module.IsPlain) :
    ∃ first second more, module.phrase.signs ++ [.ended] =
      ⟨.identifier, first⟩ :: ⟨.identifier, second⟩ :: more := by
  obtain ⟨word, more, split, -⟩ := exists_signsOf plain.name
  rw [signs_module, namedSigns, split]
  cases module.isOpen with
  | true => exact ⟨"open", "module", _, rfl⟩
  | false => exact ⟨"module", _, _, rfl⟩

theorem compilationUnit_finds_module (plain : module.IsPlain) :
    Finds (compilationUnit budget) (module.phrase.signs ++ [.ended]) (· = ⟨⟩) module.events
      [.ended] := by
  have leading : Gives (preamble budget) (module.phrase.signs ++ [.ended]) {}
      (module.phrase.signs ++ [.ended]) := by
    obtain ⟨first, second, more, split⟩ := exists_words plain
    rw [split]
    refine preamble_gives_nothing ⟨_, rfl, by simp, rfl, by simp, fun _ => ⟨_, rfl, rfl, ?_⟩⟩
      (.cons (by simp [preambleKinds]))
    simp
  have isModule : Gives isModuleStart (module.phrase.signs ++ [.ended]) true
      (module.phrase.signs ++ [.ended]) := by
    obtain ⟨word, more, split, -⟩ := exists_signsOf plain.name
    rw [signs_module, namedSigns, split]
    cases module.isOpen with
    | true =>
        refine Finds.no (isWordAt_gives rfl (by decide)) ?_
        exact .both (isWordAt_gives rfl (by decide)) (isWordAt_gives rfl (by decide))
    | false => exact Finds.yes (isWordAt_gives rfl (by decide)) (isAt_gives rfl rfl)
  refine leading.andThen (Finds.yes (.both (.pure rfl) isModule) (emitAnnotations_nil.andThen ?_))
  rw [← List.append_nil module.events]
  refine (moduleDeclaration_finds plain).append fun _ _ => ?_
  exact Finds.yes (isNext_gives rfl) (.pure rfl)

end ReadM

/-- The text of a module opens with one of its first words. -/
theorem ModuleText.head_text (module : ModuleText) :
    module.phrase.text.toList.head? = some 'o' ∨ module.phrase.text.toList.head? = some 'm' := by
  unfold ModuleText.phrase ModuleText.opening
  cases module.isOpen with
  | true => exact .inl (by simp [Phrase.spaced, Phrase.ofWord, String.toList_intercalate])
  | false => exact .inr (by simp [Phrase.spaced, Phrase.ofWord, String.toList_intercalate])

/-- A module descriptor is read back from its text. -/
theorem modules_are_read_back {module : ModuleText} (plain : module.IsPlain) :
    readUnit module.phrase.text.toList =
      (.moduleHeader { name := module.name, isOpen := module.isOpen, line := 1 } ::
        module.lines.map ModuleLine.event, none) := by
  have opens := plain.prints.opens [] [.ended] (by simp [EndsWord]) .ended
  rw [List.append_nil] at opens
  refine readUnit_of_finds ?_ plain.prints.inLine opens (ReadM.compilationUnit_finds_module plain)
  rcases module.head_text with first | first <;> simp [first, TokenStream.byteOrderMark]

/-- A module whose names are words that have a meaning in directives. -/
def contextualModule : ModuleText where
  isOpen := true
  name := "open.to"
  lines :=
    [.requires [.static, .transitive] "transitive", .requires [.transitive] "transitive.with",
      .exports "to" ["to", "with"], .opens "module" [], .uses "transitive",
      .provides "with" "requires" ["opens.exports"]]

/-- Words that have a meaning in directives are names here. -/
theorem contextual_words_are_read_back :
    readUnit ("open module open.to \x7b requires static transitive transitive; " ++
      "requires transitive transitive.with; exports to to to, with; opens module; " ++
        "uses transitive; provides with with requires, opens.exports; \x7d").toList =
      ([.moduleHeader { name := "open.to", isOpen := true, line := 1 },
        .requires { name := "transitive", modifiers := ["static", "transitive"], line := 1 },
        .requires { name := "transitive.with", modifiers := ["transitive"], line := 1 },
        .exported { package := "to", targets := ["to", "with"], line := 1 },
        .opened { package := "module", targets := [], line := 1 },
        .uses { service := { name := "transitive" }, line := 1 },
        .provides
          { service := { name := "with" }
            implementations := [{ name := "requires" }, { name := "opens.exports" }]
            line := 1 }], none) := by
  have plain : contextualModule.IsPlain := ⟨by decide, by decide⟩
  have text : contextualModule.phrase.text =
      "open module open.to \x7b requires static transitive transitive; " ++
        "requires transitive transitive.with; exports to to to, with; opens module; " ++
          "uses transitive; provides with with requires, opens.exports; \x7d" := by
    decide +kernel
  rw [← text]
  exact modules_are_read_back plain

end JavaDecl
