import JavaDecl.Proofs.DeclarationReading

/-!
# Reading a compilation unit

The reading of every source text ends before its budget is used up, and the events that
it announces nest.  After a fault they are the front of events that nest.
-/

namespace JavaDecl

/-! ### Parts of a unit -/

def Event.isImport : Event → Bool
  | imported _ => true
  | _ => false

def EventLanguage.imports : EventLanguage :=
  ofTest (fun event => event.isImport ∨ event.isComment) fun _ => .inr

/-- The package declaration of a unit with its annotations. -/
def AnnotatedPackage (events : List Event) : Prop :=
  ∃ uses gap declared, EventLanguage.comments.Holds gap ∧
    events = annotating uses ++ (gap ++ [.package declared])

/-- The imports of a unit, after its package declaration if it has one. -/
def PackageAndImports (events : List Event) : Prop :=
  ∃ front back, (front = [] ∨ AnnotatedPackage front) ∧ EventLanguage.imports.Holds back ∧
    events = front ++ back

/-- The events of a module: its header and its directives. -/
def ModuleEnd (events : List Event) : Prop :=
  ∃ declared directives, EventLanguage.directives.Holds directives ∧
    events = .moduleHeader declared :: directives

/-- The module declaration of a unit with its annotations. -/
def AnnotatedModule (events : List Event) : Prop :=
  ∃ uses gap back, EventLanguage.comments.Holds gap ∧ ModuleEnd back ∧
    events = annotating uses ++ (gap ++ back)

theorem AnnotatedModule.comments {front back : List Event} (known : AnnotatedModule front)
    (comments : EventLanguage.comments.Holds back) : AnnotatedModule (front ++ back) := by
  obtain ⟨uses, gap, _, between, ⟨declared, directives, holds, rfl⟩, rfl⟩ := known
  refine ⟨uses, gap, .moduleHeader declared :: (directives ++ back), between,
    ⟨declared, directives ++ back, ?_, rfl⟩, by simp⟩
  exact EventLanguage.directives.concat holds fun event member => .inr (comments event member)

/-- The classes of a unit or its module. -/
def ClassesOrModule (languages : Surrounding → EventLanguage) (events : List Event) : Prop :=
  (languages .unit).Holds events ∨ AnnotatedModule events

/-- The events of a unit.  What is announced before its classes or its module has its
package declaration and imports. -/
def UnitEvents (languages : Surrounding → EventLanguage) (events : List Event) : Prop :=
  ∃ front back, EventLanguage.comments.EndingIn PackageAndImports front ∧
    EventLanguage.comments.EndingIn (ClassesOrModule languages) back ∧ events = front ++ back

namespace ReadM

open Reading

variable {language : EventLanguage} {before : Reading} {budget : Nat}
  {languages : Surrounding → EventLanguage}

/-! ### Packages and imports -/

theorem packageDeclaration_announces (enough : before.size ≤ budget) :
    Announces (EventLanguage.comments.EndingIn fun back => ∃ declared, back = [.package declared])
      (packageDeclaration budget) before fun _ _ => True := by
  have possible : ∃ back : List Event, ∃ declared, back = [.package declared] :=
    ⟨_, default, rfl⟩
  apply Announces.lead possible (expect_announces _ (by simp) _ before)
  intro opening one follows _
  have := follows.size_le
  apply Announces.lead possible (qualifiedName_announces _ (by omega))
  intro name two _ _
  apply Announces.lead possible (expectMark_announces _ .semicolon _ two)
  intro _ last _ _
  exact .finish (emit_announces_of ⟨_, rfl⟩ last)

theorem annotatedPackage_announces (uses : List (AnnotationUse TypeExpr))
    (enough : before.size ≤ budget) :
    Announces AnnotatedPackage (emitAnnotations uses >>= fun _ => packageDeclaration budget) before
      fun _ _ => True := by
  refine .told (emitAnnotations_adds uses before)
    ((packageDeclaration_announces (by simpa using enough)).widen ?_)
  rintro _ ⟨gap, _, comments, ⟨declared, rfl⟩, rfl⟩
  exact ⟨uses, gap, declared, comments, rfl⟩

theorem importDeclaration_announces (enough : before.size ≤ budget) :
    Announces EventLanguage.imports.Holds (importDeclaration budget) before fun _ after =>
      after.size < before.size := by
  let language := EventLanguage.imports
  apply Announces.bind (expect_announces language (by simp) _ before)
  intro opening one _ opened
  apply Announces.bind (acceptKeyword_announces language .staticKw one)
  intro isStatic two follows _
  have := follows.size_le
  apply Announces.bind (qualifiedName_announces language (by omega))
  intro name three _ _
  apply Announces.bind (acceptMark_announces language .dot three)
  intro isWildcard four follows _
  have := follows.size_le
  have rest (start : Reading) (bound : start.size < before.size) (declared : ImportDecl) :
      Announces language.Holds
        (expectMark .semicolon "';' after import" >>= fun _ => emit (.imported declared)) start
          fun _ after => after.size < before.size := by
    apply Announces.bind (expectMark_announces language .semicolon _ start)
    intro _ last _ _
    refine (emit_announces ?_ last).weaken fun _ _ follows _ => ?_
    · simp [language, EventLanguage.imports, EventLanguage.ofTest, Event.isImport]
    · have := follows.size_le
      omega
  dsimp only
  split
  · exact .bind (expectMark_announces language .star _ four) fun _ five _ _ =>
      rest five (by omega) _
  · exact rest four (by omega) _

theorem import?_announces (enough : before.size ≤ budget) :
    Announces EventLanguage.imports.Holds (import? budget) before fun found after =>
      found.isSome → after.size < before.size := by
  let language := EventLanguage.imports
  apply Announces.bind (isNext_announces language _ before)
  intro imports one follows _
  have := follows.size_le
  split
  · exact .bind (importDeclaration_announces (by omega)) fun _ last _ shorter =>
      .pure fun _ => by omega
  apply Announces.bind (acceptMark_announces language .semicolon one)
  intro stray two follows taken
  split
  · next stray =>
      have := taken stray
      exact .pure fun _ => by omega
  · exact .pure (by simp)

theorem preamble_announces (enough : 8 * before.size + 1 ≤ budget) :
    Announces (EventLanguage.comments.EndingIn PackageAndImports) (preamble budget) before
      fun _ _ => True := by
  have imports (leading : Modifiers) (start : Reading) (bound : start.size ≤ before.size) :
      Announces EventLanguage.imports.Holds
        (if leading.isEmpty then many (import? budget) budget >>= fun _ => modifiers budget
          else pure leading) start fun _ _ => True := by
    split
    · refine .bind (many_announces (fun _ _ => import?_announces (by omega)) (by omega))
        fun _ last follows _ => ?_
      have := follows.size_le
      exact modifiers_announces _ (by omega)
    · exact .pure trivial
  have possible : ∃ back, PackageAndImports back :=
    ⟨[], [], [], .inl rfl, EventLanguage.imports.nothing, rfl⟩
  apply Announces.lead possible (modifiers_announces _ enough)
  intro leading one follows _
  have := follows.size_le
  apply Announces.lead possible (isNext_announces _ _ one)
  intro packaged two follows _
  have := follows.size_le
  refine .finish ?_
  split
  · rw [← bind_assoc]
    refine .chain (fun front back known holds => ⟨front, back, .inr known, holds, rfl⟩)
      ⟨[], EventLanguage.imports.nothing⟩ (annotatedPackage_announces _ (by omega))
      fun _ last follows _ => ?_
    have := follows.size_le
    exact imports {} last (by omega)
  · exact (imports leading two (by omega)).widen fun back holds =>
      ⟨[], back, .inl rfl, holds, rfl⟩

/-! ### Modules -/

theorem isModuleStart_announces (language : EventLanguage) (before : Reading) :
    Announces language.Holds isModuleStart before fun _ _ => True := by
  apply Announces.bind (isWordAt_announces language 0 _ before)
  intro plain one _ _
  split
  · exact (isAt_announces language 1 _ one).forget
  · exact .both (isWordAt_announces language 0 _ one) fun mid =>
      (isWordAt_announces language 1 _ mid).forget

theorem targets_announces (language : EventLanguage) (enough : before.size < budget) :
    Announces language.Holds (targets budget) before fun _ _ => True := by
  apply Announces.bind (isWordAt_announces language 0 _ before)
  intro more one follows _
  have := follows.size_le
  split
  · apply Announces.bind (take_announces language one)
    intro _ two follows _
    have := follows.size_le
    exact separatedBy_announces
      (fun start _ => (qualifiedName_announces language (by omega)).forget) (by omega)
  · exact .pure trivial

theorem requiresModifier?_announces (language : EventLanguage) (before : Reading) :
    Announces language.Holds requiresModifier? before fun found after =>
      found.isSome → after.size < before.size := by
  have taking (start : Reading) (follows : before.Follows language.Holds start)
      (inside : start.IsInside) :
      Announces language.Holds (take >>= fun token => pure (some token.text)) start
        fun found after => found.isSome → after.size < before.size :=
    .bind (take_announces language start) fun _ last _ taken => .pure fun _ =>
      Nat.lt_of_lt_of_le (taken inside) follows.size_le
  dsimp only [requiresModifier?]
  apply Announces.bind (isNext_announces language _ before)
  intro isStatic one follows looked
  split
  · next isStatic =>
      exact taking one follows (isInside_of_kindAt? (looked.2 isStatic) (by simp))
  have isName (start : Reading) :
      Announces language.Holds
        (isAt 1 (.mark .semicolon) <||> isAt 1 (.mark .dot)) start fun _ => start.LooksOn := by
    apply Announces.bind (isAt_announces language 1 _ start)
    intro ends mid _ looked
    cases ends with
    | true => exact .pure looked.1
    | false =>
        exact (isAt_announces language 1 _ mid).weaken fun _ _ _ further =>
          looked.1.trans further.1
  have transitive : Announces language.Holds
      (isWordAt 0 "transitive" <&&>
        (not <$> (isAt 1 (.mark .semicolon) <||> isAt 1 (.mark .dot)))) one
      fun here after => here → after.IsInside :=
    .andM (isWordAt_announces language 0 _ one) fun mid _ looked =>
      (Announces.map (isName mid)).weaken fun _ _ _ further _ =>
        further.isInside (isInside_of_kindAt? (looked.2 rfl) (by simp))
  apply Announces.bind transitive
  intro isTransitive two further inside
  split
  · next isTransitive => exact taking two (follows.trans further) (inside isTransitive)
  · exact .pure (by simp)

theorem packageDirective_announces (language : EventLanguage) (line : Nat)
    (enough : before.size < budget) :
    Announces language.Holds (packageDirective budget line) before fun _ _ => True := by
  apply Announces.bind (qualifiedName_announces language (by omega))
  intro package one follows _
  have := follows.size_le
  exact .bind (targets_announces language (by omega)) fun _ _ _ _ => .pure trivial

theorem directive_announces (language : EventLanguage) (opening : Token)
    (enough : 8 * before.size + 3 ≤ budget) :
    Announces language.Holds (directive budget opening) before fun event _ =>
      event.isDirective := by
  unfold directive
  dsimp only
  split
  · refine .bind (many_announces (fun start _ => requiresModifier?_announces language start)
      (by omega)) fun modifiers one follows _ => ?_
    have := follows.size_le
    exact .bind (qualifiedName_announces language (by omega)) fun _ _ _ _ => .pure rfl
  · exact .bind (packageDirective_announces language _ (by omega)) fun _ _ _ _ => .pure rfl
  · exact .bind (packageDirective_announces language _ (by omega)) fun _ _ _ _ => .pure rfl
  · exact .bind (typeExpr_announces language (by omega)) fun _ _ _ _ => .pure rfl
  · apply Announces.bind (typeExpr_announces language (by omega))
    intro service one follows _
    have := follows.size_le
    apply Announces.bind (expectWord_announces language _ one)
    intro _ two follows _
    have := follows.size_le
    exact .bind (typeList_announces language (by omega)) fun _ _ _ _ => .pure rfl
  · exact .fault ParseError.not_isExhaustion_of_token

theorem directive?_announces (enough : 8 * before.size + 3 ≤ budget) :
    Announces EventLanguage.directives.Holds (directive? budget) before fun found after =>
      found.isSome → after.size < before.size := by
  let language := EventLanguage.directives
  apply Announces.bind (acceptMark_announces language .rightBrace before)
  intro closes one follows _
  have := follows.size_le
  split
  · exact .pure (by simp)
  apply Announces.bind (expect_announces language (by simp) _ one)
  intro opening two _ _
  apply Announces.bind (directive_announces language opening (by omega))
  intro event three follows known
  have := follows.size_le
  have single : language.Holds [event] := by
    intro other member
    rw [List.mem_singleton.mp member]
    exact .inl known
  apply Announces.bind (emit_announces single three)
  intro _ four follows _
  have := follows.size_le
  exact .bind (expectMark_announces language .semicolon _ four) fun _ _ follows _ =>
    .pure fun _ => by have := follows.size_le; omega

theorem moduleDeclaration_announces (enough : 8 * before.size + 3 ≤ budget) :
    Announces (EventLanguage.comments.EndingIn ModuleEnd) (moduleDeclaration budget) before
      fun _ _ => True := by
  have possible : ∃ back, ModuleEnd back :=
    ⟨[.moduleHeader default], default, [], EventLanguage.directives.nothing, rfl⟩
  apply Announces.lead possible (nextLine_announces _ before)
  intro line one follows _
  have := follows.size_le
  apply Announces.lead possible (isWordAt_announces _ 0 _ one)
  intro isOpen two follows _
  have := follows.size_le
  have rest (start : Reading) (bound : start.size ≤ before.size) :
      Announces (EventLanguage.comments.EndingIn ModuleEnd)
        (do
          let _ ← expectWord "module"
          let name ← qualifiedName budget
          let _ ← expectMark .leftBrace "'\x7b' opening module body"
          emit (.moduleHeader { name, isOpen, line })
          let _ ← many (directive? budget) budget) start fun _ _ => True := by
    apply Announces.lead possible (expectWord_announces _ _ start)
    intro _ three follows _
    have := follows.size_le
    apply Announces.lead possible (qualifiedName_announces _ (by omega))
    intro name four follows _
    have := follows.size_le
    apply Announces.lead possible (expectMark_announces _ .leftBrace _ four)
    intro _ last follows _
    have := follows.size_le
    have directives : Announces EventLanguage.directives.Holds
        (many (directive? budget) budget >>= fun _ => pure PUnit.unit)
        (last.announce [.moduleHeader { name, isOpen, line }]) fun _ _ => True := by
      refine .bind (many_announces (fun _ bound => ?_) ?_) fun _ _ _ _ => .pure trivial
      · simp only [size_announce] at bound
        exact directive?_announces (by omega)
      · simp only [size_announce]
        omega
    refine .finish (.told (emit_adds _ last) (directives.widen fun events holds => ?_))
    exact ⟨{ name, isOpen, line }, events, holds, rfl⟩
  split
  · apply Announces.lead possible (take_announces _ two)
    intro _ last follows _
    have := follows.size_le
    exact rest last (by omega)
  · exact rest two (by omega)

theorem annotatedModule_announces (uses : List (AnnotationUse TypeExpr))
    (enough : 8 * before.size + 3 ≤ budget) :
    Announces AnnotatedModule (emitAnnotations uses >>= fun _ => moduleDeclaration budget) before
      fun _ _ => True := by
  refine .told (emitAnnotations_adds uses before)
    ((moduleDeclaration_announces (by simpa using enough)).widen ?_)
  rintro _ ⟨gap, back, comments, known, rfl⟩
  exact ⟨uses, gap, back, comments, known, rfl⟩

/-! ### Units -/

theorem classDeclarations_announces (forms : EventLanguage.Forms languages) (leading : Modifiers)
    (enough : 8 * before.size + 7 ≤ budget) :
    Announces (languages .unit).Holds (classDeclarations budget leading) before
      fun _ _ => True := by
  let language := languages .unit
  induction budget generalizing before leading with
  | zero => omega
  | succ budget ih =>
      have next (start : Reading) (bound : start.size < before.size) :
          Announces language.Holds
            (modifiers budget >>= fun leading => classDeclarations budget leading) start
              fun _ _ => True := by
        apply Announces.bind (modifiers_announces language (by omega))
        intro leading last follows _
        have := follows.size_le
        exact ih leading (by omega)
      rw [classDeclarations]
      have ended : Announces language.Holds
          (pure leading.isEmpty <&&> isNext .endOfInput) before fun _ _ => True := by
        cases leading.isEmpty with
        | true => exact (isNext_announces language _ before).forget
        | false => exact .pure trivial
      apply Announces.bind ended
      intro ended one follows _
      have := follows.size_le
      split
      · exact .pure trivial
      have stray : Announces language.Holds
          (pure leading.isEmpty <&&> acceptMark .semicolon) one
            fun taken after => taken → after.size < one.size := by
        cases leading.isEmpty with
        | true => exact acceptMark_announces language .semicolon one
        | false => exact .pure (by simp)
      apply Announces.bind stray
      intro stray two follows taken
      have := follows.size_le
      dsimp only
      split
      · next stray =>
          have := taken stray
          exact next two (by omega)
      · refine .bind (classDeclaration_announces forms leading ?_ (by omega))
          fun _ last _ shorter => next last (by omega)
        exact fun _ plain => plain

theorem compilationUnit_announces (forms : EventLanguage.Forms languages)
    (enough : 8 * before.size + 7 ≤ budget) :
    Announces (UnitEvents languages) (compilationUnit budget) before fun _ _ => True := by
  have possible : ∃ back, ClassesOrModule languages back :=
    ⟨[], .inl (languages .unit).nothing⟩
  have anything : ∃ back, EventLanguage.comments.EndingIn (ClassesOrModule languages) back :=
    possible.imp fun back known => ⟨[], back, EventLanguage.comments.nothing, known, rfl⟩
  refine .chain (fun front back opens closes => ⟨front, back, opens, closes, rfl⟩) anything
    (preamble_announces (by omega)) fun leading one follows _ => ?_
  have := follows.size_le
  have isModule : Announces EventLanguage.comments.Holds
      (pure leading.words.isEmpty <&&> isModuleStart) one fun _ _ => True := by
    cases leading.words.isEmpty with
    | true => exact isModuleStart_announces _ one
    | false => exact .pure trivial
  apply Announces.lead possible isModule
  intro modular two follows _
  have := follows.size_le
  refine .finish ?_
  split
  · rw [← bind_assoc]
    refine .chain (fun front back known comments => .inr (known.comments comments))
      ⟨[], EventLanguage.comments.nothing⟩ (annotatedModule_announces _ (by omega))
      fun _ three _ _ => ?_
    apply Announces.bind (isNext_announces EventLanguage.comments _ three)
    intro ended last _ _
    split
    · exact .pure trivial
    · exact refuse_announces EventLanguage.comments _ last _
  · exact (classDeclarations_announces forms leading (by omega)).widen fun _ => .inl

end ReadM

theorem Reading.size_ofSource_le (source : List Char) :
    (Reading.ofSource source).size ≤ source.length := by
  cases source with
  | nil => exact Nat.le_refl 0
  | cons c rest =>
      simp only [Reading.size, Reading.ofSource, TokenStream.ofSource]
      split <;> simp

/-- The reading of a source text does not run out of budget, and its events are those of a
unit if the ones that a fault has kept back come after them. -/
theorem readUnit_announces_unit {languages : Surrounding → EventLanguage}
    (forms : EventLanguage.Forms languages) (source : List Char) :
    ∃ missing, UnitEvents languages ((readUnit source).1 ++ missing) ∧
      ((readUnit source).2 = none → missing = []) ∧
        ∀ failure, (readUnit source).2 = some failure → ¬ failure.IsExhaustion := by
  have start := Reading.size_ofSource_le source
  have announces : ReadM.Announces (UnitEvents languages)
      (ReadM.compilationUnit (readingBudget source)) (.ofSource source) fun _ _ => True :=
    ReadM.compilationUnit_announces forms (by unfold readingBudget; omega)
  unfold ReadM.Announces at announces
  unfold readUnit
  cases ran : ReadM.compilationUnit (readingBudget source) (.ofSource source) with
  | ok value after =>
      rw [ran] at announces
      obtain ⟨events, told, holds⟩ := announces.1.told
      have all : after.events.toList = events := told
      exact ⟨[], by simpa [all] using holds, fun _ => rfl, by simp⟩
  | error failure after =>
      rw [ran] at announces
      obtain ⟨⟨events, missing, told, holds⟩, known⟩ := announces
      have all : after.events.toList = events := told
      exact ⟨missing, by simpa [all] using holds, by simp, by simpa using known⟩

/-! ### Units that nest -/

theorem Nested.ofImports {events : List Event} (imports : EventLanguage.imports.Holds events) :
    Nested .unit events := by
  induction events with
  | nil => exact .nothing
  | cons event rest ih =>
      have further := ih fun other member => imports other (List.mem_cons_of_mem _ member)
      rcases imports event List.mem_cons_self with isImport | isComment
      · cases event with
        | imported declared => exact .imported further
        | _ => cases isImport
      · exact .comment isComment further

theorem Nested.ofUnitEvents {events : List Event}
    (unit : UnitEvents EventLanguage.nested events) : Nested .unit events := by
  obtain ⟨_, _, ⟨leading, _, comments, ⟨package, imports, packaged, imported, rfl⟩, rfl⟩,
    ⟨between, body, gap, classesOrModule, rfl⟩, rfl⟩ := unit
  have opens : Nested .unit (package ++ imports) := by
    rcases packaged with rfl | ⟨uses, gap, declared, comments, rfl⟩
    · exact .ofImports imported
    · simpa using Nested.package comments (.ofImports imported)
  have closes : Nested .unit body := by
    rcases classesOrModule with nested | ⟨uses, gap, _, comments, ⟨declared, directives, known,
      rfl⟩, rfl⟩
    · exact nested
    · simpa using Nested.moduleHeader comments known .nothing
  exact .append (.append (.ofComments comments) opens) (.append (.ofComments gap) closes)

/-- The reading of a source text does not run out of budget, and its events nest if the
ones that a fault has kept back come after them. -/
theorem readUnit_announces (source : List Char) :
    ∃ missing, Nested .unit ((readUnit source).1 ++ missing) ∧
      ((readUnit source).2 = none → missing = []) ∧
        ∀ failure, (readUnit source).2 = some failure → ¬ failure.IsExhaustion := by
  obtain ⟨missing, unit, known⟩ := readUnit_announces_unit EventLanguage.forms_nested source
  exact ⟨missing, .ofUnitEvents unit, known⟩

theorem readUnit_of_ok {source : List Char} {value : Unit} {after : Reading}
    (ended : ReadM.compilationUnit (readingBudget source) (.ofSource source) = .ok value after) :
    readUnit source = (after.events.toList, none) := by
  unfold readUnit
  rw [ended]

/-- The fault that ends the reading of a source text is never that the budget is spent. -/
theorem not_isExhaustion_of_error {source : List Char} {failure : ParseError} {after : Reading}
    (ended : ReadM.compilationUnit (readingBudget source) (.ofSource source) =
      .error failure after) : ¬ failure.IsExhaustion := by
  obtain ⟨-, -, -, known⟩ := readUnit_announces source
  refine known failure ?_
  unfold readUnit
  rw [ended]

end JavaDecl
