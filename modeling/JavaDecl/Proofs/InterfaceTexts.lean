import JavaDecl.Proofs.ModulesReadBack

/-!
# Interfaces without members are read back

A unit that is one interface without members is printed within one line, behind the declaration
of its package.  It is read as such: the interface has its name and extends the types that are
listed.
-/

namespace JavaDecl

open Lexeme

/-- A unit of one interface without members. -/
structure InterfaceText where
  package : Option String := none
  name : String
  extended : List String := []

namespace InterfaceText

/-- All names are plain words, with dots between them but for that of the interface. -/
structure IsPlain (unit : InterfaceText) : Prop where
  package : ∀ name ∈ unit.package, IsPlainName name
  name : IsPlainWord unit.name.toList
  extended : ∀ name ∈ unit.extended, IsPlainName name

def declared (unit : InterfaceText) : ClassDecl where
  name := unit.name
  kind := .interface
  extending := unit.extended.map fun name => { name }
  line := 1

def packageEvents (unit : InterfaceText) : List Event :=
  (unit.package.map fun name => .package { name, line := 1 }).toList

def packagePhrases (unit : InterfaceText) : List Phrase :=
  match unit.package with
  | some name => [.ofWord "package", (Phrase.ofName name).closed .semicolon]
  | none => []

def extendedPhrases (unit : InterfaceText) : List Phrase :=
  match unit.extended with
  | [] => []
  | names => [.ofWord "extends", .commas (names.map .ofName)]

def phrase (unit : InterfaceText) : Phrase :=
  .spaced (unit.packagePhrases ++ .ofWord "interface" :: .ofWord unit.name ::
    (unit.extendedPhrases ++ [.ofMark .leftBrace, .ofMark .rightBrace]))

variable {unit : InterfaceText}

open Phrase in
theorem IsPlain.prints (plain : unit.IsPlain) : unit.phrase.Prints := by
  have starts : (ofMark .leftBrace).Prints :=
    prints_mark rfl (by decide) (fun _ => rfl) (by decide) (by decide)
  have ends : (ofMark .rightBrace).Prints :=
    prints_mark rfl (by decide) (fun _ => rfl) (by decide) (by decide)
  have package : ∀ phrase ∈ unit.packagePhrases, phrase.Prints := by
    unfold packagePhrases
    cases found : unit.package with
    | none => simp
    | some name =>
        have named : ((ofName name).closed .semicolon).Prints :=
          (prints_name (plain.package name found)).closed rfl (by decide) (fun _ => rfl)
            (by decide) (by decide) (by decide) (by decide)
        simp only [List.forall_mem_cons]
        exact ⟨prints_word (by decide), named, by simp⟩
  have extended : ∀ phrase ∈ unit.extendedPhrases, phrase.Prints := by
    unfold extendedPhrases
    split
    · simp
    · simp only [List.forall_mem_cons]
      exact ⟨prints_word (by decide), prints_names plain.extended, by simp⟩
  refine prints_spaced (List.forall_mem_append.mpr ⟨package, ?_⟩)
  simp only [List.forall_mem_cons]
  refine ⟨prints_word (by decide), prints_word plain.name.1, ?_⟩
  exact List.forall_mem_append.mpr ⟨extended, by simp [starts, ends]⟩

end InterfaceText

namespace ReadM

variable {unit : InterfaceText} {rest : List Sign} {budget : Nat}

def interfaceSigns (unit : InterfaceText) : List Sign :=
  .keyword .interfaceKw :: .word unit.name.toList ::
    (unit.extendedPhrases.flatMap Phrase.signs ++
      [.mark .leftBrace, .mark .rightBrace, .ended])

theorem extended_signs (some : unit.extended ≠ []) :
    unit.extendedPhrases.flatMap Phrase.signs =
      .keyword .extendsKw :: (Phrase.commas (unit.extended.map .ofName)).signs := by
  have isExtends : (Phrase.ofWord "extends").signs = [.keyword .extendsKw] := by decide
  unfold InterfaceText.extendedPhrases
  split
  · next none => exact absurd none some
  · rw [List.flatMap_cons, isExtends, List.flatMap_singleton]
    rfl

theorem classOpening_of_interface (plain : unit.IsPlain) :
    ClassOpening (interfaceSigns unit) unit.declared [.mark .rightBrace, .ended] := by
  refine ⟨.cons (by decide), by simp [InterfaceText.declared], .mark .leftBrace, rfl,
    fun budget => ?_⟩
  have kind : Gives classKind? (interfaceSigns unit) (some .interface) (interfaceSigns unit) :=
    (kindAt_gives rfl).andThen (.pure rfl)
  have noMore {kinds : List TokenKind} (others : .mark .leftBrace ∉ kinds) :
      Lacks kinds [Sign.mark .leftBrace, .mark .rightBrace, .ended] :=
    .cons others
  have ending (types : List TypeExpr) (same : types = unit.declared.extending) (line : Nat)
      (first : line = 1) :
      Gives (do
          let implementing ← if ← acceptKeyword .implementsKw then typeList budget else pure []
          skipPermitted budget
          return ({ name := unit.name, kind := .interface, modifiers := [], extending := types,
                    implementing, typeParameters := [], line } : ClassDecl))
        [Sign.mark .leftBrace, .mark .rightBrace, .ended] unit.declared _ :=
    Finds.no (accept_leaves (noMore (by decide))) ((Finds.pure rfl).andThen
      ((skipPermitted_gives rfl).andThen (.pure (by rw [same, first]; rfl))))
  have named : (Sign.word unit.name.toList).text = unit.name := String.ofList_toList
  refine kind.andThen (take_finds.bind fun token shows => ?_)
  refine (identifier_gives (kind_of_plain plain.name)).andThen ?_
  rw [TokenView.sign_eq, named]
  by_cases none : unit.extended = []
  · have noPhrases : unit.extendedPhrases = [] := by rw [InterfaceText.extendedPhrases, none]
    rw [noPhrases]
    refine (optionalParameters_gives_nil (noMore (by decide))).andThen ?_
    refine Finds.no (accept_leaves (noMore (by decide))) ((Finds.pure rfl).andThen ?_)
    exact ending [] (by rw [InterfaceText.declared, none]; rfl) _ shows.line
  · rw [extended_signs none]
    refine (optionalParameters_gives_nil (.cons (by decide))).andThen ?_
    refine Finds.yes (accept_takes rfl) ?_
    refine (typeList_gives plain.extended none (noMore (by decide))).andThen ?_
    exact ending _ rfl _ shows.line

theorem signs_interface (unit : InterfaceText) :
    unit.phrase.signs ++ [.ended] =
      unit.packagePhrases.flatMap Phrase.signs ++ interfaceSigns unit := by
  have isInterface : Sign.word "interface".toList = .keyword .interfaceKw := by decide
  unfold InterfaceText.phrase interfaceSigns
  simp only [Phrase.spaced, Phrase.ofWord, Phrase.ofMark, isInterface, List.flatMap_append,
    List.flatMap_cons, List.flatMap_nil, List.append_assoc, List.cons_append, List.nil_append]

theorem packageDeclaration_finds {name : String} (plain : IsPlainName name) (budget : Nat)
    (rest : List Sign) :
    Finds (packageDeclaration budget)
      (.keyword .packageKw :: (signsOf name ++ .mark .semicolon :: rest)) (· = ⟨⟩)
      [.package { name, line := 1 }] rest := by
  refine (expect_finds rfl).bind fun token shows => ?_
  refine (name_gives plain (.cons (by decide))).andThen ?_
  rw [shows.line]
  exact (expect_finds rfl).bind fun _ _ => emit_finds _

/-- What stands in front of an interface is the declaration of its package. -/
theorem preamble_finds (plain : unit.IsPlain) :
    Finds (preamble budget) (unit.phrase.signs ++ [.ended]) (· = { uses := [] })
      unit.packageEvents (interfaceSigns unit) := by
  have unmodified : Unmodified (interfaceSigns unit) := unmodified_of_other (by decide)
  have lacks : Lacks preambleKinds (interfaceSigns unit) := .cons (by decide)
  rw [signs_interface, InterfaceText.packagePhrases, InterfaceText.packageEvents]
  cases package : unit.package with
  | none => exact preamble_gives_nothing unmodified lacks
  | some name =>
      have isPackage : Sign.word "package".toList = .keyword .packageKw := by decide
      have split : [Phrase.ofWord "package", (Phrase.ofName name).closed .semicolon].flatMap
          Phrase.signs ++ interfaceSigns unit =
            .keyword .packageKw :: (signsOf name ++ .mark .semicolon :: interfaceSigns unit) := by
        simp [Phrase.ofWord, Phrase.closed, Phrase.ofName, signsOf, ← isPackage]
      rw [split]
      refine (modifiers_give_nothing (unmodified_of_other (by decide))).andThen ?_
      refine Finds.yes (isNext_gives rfl) (emitAnnotations_nil.andThen ?_)
      have declared := packageDeclaration_finds (plain.package name package) budget
        (interfaceSigns unit)
      have noImport : Gives (import? budget) (interfaceSigns unit) none (interfaceSigns unit) :=
        Finds.no (isNext_no (lacks.mono (by simp [preambleKinds])))
          (Finds.no (accept_leaves (lacks.mono (by simp [preambleKinds]))) (.pure rfl))
      rw [← List.append_nil (Option.toList _)]
      refine declared.append fun _ _ => (Finds.pure rfl).andThen ?_
      exact (many_gives_nil noImport).andThen (modifiers_give_nothing unmodified)

end ReadM

namespace InterfaceText

variable {unit : InterfaceText}

def events (unit : InterfaceText) : List Event :=
  unit.packageEvents ++ [.beginClass unit.declared, .endClass]

/-- The text of an interface without members is read back. -/
theorem IsPlain.readUnit_eq (plain : unit.IsPlain) :
    readUnit unit.phrase.text.toList = (unit.events, none) := by
  have opens := plain.prints.opens [] [.ended] (by simp [EndsWord]) .ended
  rw [List.append_nil] at opens
  have finds : ReadM.Finds (ReadM.compilationUnit (readingBudget unit.phrase.text.toList))
      (unit.phrase.signs ++ [.ended]) (· = ⟨⟩) unit.events [.ended] :=
    ReadM.compilationUnit_finds (ReadM.classOpening_of_interface plain)
      (ReadM.preamble_finds plain) (fun _ => ReadM.members_end_finds rfl) rfl
  refine readUnit_of_finds ?_ plain.prints.inLine opens finds
  unfold phrase packagePhrases
  cases unit.package <;>
    simp [Phrase.spaced, Phrase.ofWord, String.toList_intercalate, TokenStream.byteOrderMark]

end InterfaceText

end JavaDecl
