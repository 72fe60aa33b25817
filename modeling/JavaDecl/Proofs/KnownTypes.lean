import JavaDecl.Grammar.Types
import JavaDecl.Proofs.KnownTokens
import JavaDecl.Proofs.PlainTypes

/-!
# Reading known types

A plain type is read from its tokens, up to a token that does not go on with it.
-/

namespace JavaDecl

namespace ReadM

variable {α : Type} {signs left rest : List Sign} {sign : Sign}

def typeMarks : List TokenKind := [.mark .less, .mark .dot, .mark .leftBracket]

/-! ### Parts that are not there -/

section Absent

variable {ι : Type} [TokenView ι] {signs : List ι}

theorem skipAnnotations_gives {budget : Nat} (lacks : Lacks [.mark .atSign] signs) :
    Gives (skipAnnotations budget) signs ⟨⟩ signs := by
  have none : Gives (skipAnnotations.part budget) signs none signs :=
    Finds.no (.notBoth (isNext_no lacks)) (.pure rfl)
  exact (many_gives_nil none).andThen (.pure rfl)

theorem optionalArguments_gives_nil {budget : Nat} (lacks : Lacks [.mark .less] signs) :
    Gives (optionalArguments budget) signs [] signs := by
  cases budget with
  | zero => exact .exhausted
  | succ budget => exact Finds.no (accept_leaves lacks) (.pure rfl)

theorem optionalParameters_gives_nil {budget : Nat} (lacks : Lacks [.mark .less] signs) :
    Gives (optionalParameters budget) signs [] signs :=
  Finds.no (accept_leaves lacks) (.pure rfl)

end Absent

/-! ### Types -/

theorem dimensions_gives {budget : Nat} (dims : Nat) (lacks : Lacks [.mark .leftBracket] rest) :
    Gives (dimensions budget) (dimSigns dims ++ rest) dims rest := by
  have pairs (budget : Nat) :
      Gives (many dimensions.part budget) (dimSigns dims ++ rest) (List.replicate dims ⟨⟩)
        rest := by
    induction dims generalizing budget with
    | zero => exact many_gives_nil (Finds.no (.notBoth (isNext_no lacks)) (.pure rfl))
    | succ dims ih =>
        refine many_gives_cons ?_ ih
        refine Finds.yes (.both (isNext_gives rfl) (isAt_gives rfl rfl)) ?_
        exact (takeMany_finds [Sign.mark .leftBracket, .mark .rightBracket] _).bind
          fun _ _ => .pure rfl
  refine (pairs budget).andThen (.pure ?_)
  simp

/-- Plain types are read up to a token that does not go on with them. -/
def ReadsTypes (budget : Nat) : Prop :=
  ∀ type : TypeExpr, type.IsPlain → ∀ rest, Lacks typeMarks rest →
    Gives (typeExpr budget) (type.signs ++ rest) type rest

/-- The tokens of type arguments in their brackets, none if there are none. -/
def bracketSigns : List (TypeArgument TypeExpr) → List Sign
  | [] => []
  | arg :: args => .mark .less :: (argsSigns (arg :: args) ++ [.mark .greater])

theorem signs_eq (name : String) (dims : Nat) (args : List (TypeArgument TypeExpr)) :
    TypeExpr.signs { name, dims, args } =
      nameSigns (name.toList.splitOn '.') ++ (bracketSigns args ++ dimSigns dims) := by
  cases args with
  | nil => rw [TypeExpr.signs, bracketSigns, List.nil_append]
  | cons arg args => simp [TypeExpr.signs, bracketSigns]

theorem lacks_of_word {kinds : List TokenKind} {word : List Char}
    (marks : ∀ kind ∈ kinds, ∃ symbol, kind = .mark symbol) :
    Lacks kinds (.word word :: rest) := by
  refine .cons fun member => ?_
  obtain ⟨symbol, same⟩ := marks _ member
  rcases Sign.kind_word word with kind | ⟨keyword, kind⟩ <;> simp [kind] at same

theorem exists_word {type : TypeExpr} (plain : type.IsPlain) :
    ∃ word more, type.signs = .word word :: more := by
  have starts {name : String} {words : List (List Char)} (dims : Nat)
      (args : List (TypeArgument TypeExpr)) (spells : Spells name words) :
      ∃ word more, TypeExpr.signs { name, dims, args } = .word word :: more := by
    rw [signs_eq, spells.splitOn]
    cases words with
    | nil => exact absurd rfl spells.1
    | cons word words => exact ⟨word, _, rfl⟩
  cases plain with
  | primitive primitive => exact starts _ _ (spells_of_primitive primitive).1
  | named plain =>
      obtain ⟨words, spells, -⟩ := plain.spells
      exact starts _ _ spells

theorem lacks_of_plain {kinds : List TokenKind} {type : TypeExpr} (plain : type.IsPlain)
    (marks : ∀ kind ∈ kinds, ∃ symbol, kind = .mark symbol) :
    Lacks kinds (type.signs ++ rest) := by
  obtain ⟨word, more, opens⟩ := exists_word plain
  rw [opens]
  exact lacks_of_word marks

section Arguments

variable {budget : Nat} {arg : TypeArgument TypeExpr} {args : List (TypeArgument TypeExpr)}

/-- What goes on with a type or a wildcard. -/
def argumentMarks : List TokenKind := .keyword .extendsKw :: .keyword .superKw :: typeMarks

theorem typeArgument_gives (types : ∀ smaller < budget, ReadsTypes smaller)
    (plain : ∀ type ∈ arg.type?, type.IsPlain) (ends : Lacks argumentMarks rest) :
    Gives (typeArgument budget) (argSigns arg ++ rest) arg rest := by
  cases budget with
  | zero => exact .exhausted
  | succ budget =>
      have type := types budget (Nat.lt_succ_self budget)
      have endsType : Lacks typeMarks rest := ends.mono (by simp [argumentMarks])
      cases arg with
      | type written =>
          rw [argSigns]
          have isPlain := plain written rfl
          refine (skipAnnotations_gives (lacks_of_plain isPlain (by simp))).andThen ?_
          refine Finds.no (accept_leaves (lacks_of_plain isPlain (by simp))) ?_
          exact (type written isPlain rest endsType).andThen (.pure rfl)
      | unbounded =>
          rw [argSigns]
          refine (skipAnnotations_gives (.cons (by decide))).andThen ?_
          refine Finds.yes (accept_takes rfl) ?_
          refine Finds.no (accept_leaves (ends.mono (by simp [argumentMarks]))) ?_
          exact Finds.no (accept_leaves (ends.mono (by simp [argumentMarks]))) (.pure rfl)
      | extending bound =>
          rw [argSigns]
          refine (skipAnnotations_gives (.cons (by decide))).andThen ?_
          refine Finds.yes (accept_takes rfl) (Finds.yes (accept_takes (by decide)) ?_)
          exact (type bound (plain bound rfl) rest endsType).andThen (.pure rfl)
      | above bound =>
          rw [argSigns]
          refine (skipAnnotations_gives (.cons (by decide))).andThen ?_
          refine Finds.yes (accept_takes rfl) (Finds.no (accept_leaves (.cons (by decide))) ?_)
          refine Finds.yes (accept_takes (by decide)) ?_
          exact (type bound (plain bound rfl) rest endsType).andThen (.pure rfl)

theorem argsSigns_eq (args : List (TypeArgument TypeExpr)) :
    argsSigns args = [Sign.mark .comma].intercalate (args.map argSigns) := by
  induction args with
  | nil => rfl
  | cons arg args ih =>
      cases args with
      | nil => simp [argsSigns]
      | cons next args =>
          simp only [List.map_cons, List.intercalate_cons_cons, List.append_assoc,
            List.singleton_append] at ih ⊢
          rw [argsSigns, ih]

theorem typeArguments_give {count : Nat} (types : ∀ smaller < budget, ReadsTypes smaller)
    (plain : ∀ other ∈ arg :: args, ∀ type ∈ other.type?, type.IsPlain) :
    Gives (separatedBy .comma (typeArgument budget) count)
      (argsSigns (arg :: args) ++ .mark .greater :: rest) (arg :: args)
      (.mark .greater :: rest) := by
  have isComma : (TokenView.sign (Sign.mark .comma)).kind = .mark .comma := rfl
  have goesOn (behind : List Sign) : Lacks argumentMarks (.mark .comma :: behind) :=
    .cons (by decide)
  have read : Gives (separatedBy .comma (typeArgument budget) count)
      ([Sign.mark .comma].intercalate ((arg :: args).map argSigns) ++ .mark .greater :: rest)
      ((arg :: args).map id) (.mark .greater :: rest) :=
    separatedBy_gives isComma (fun _ _ _ => goesOn _)
      (fun other member _ => typeArgument_gives types (plain other member)) (.cons (by decide))
      (.cons (by decide)) (by simp)
  rwa [List.map_id, ← argsSigns_eq] at read

theorem lacks_of_args (plain : ∀ type ∈ arg.type?, type.IsPlain) :
    Lacks [.mark .greater] (argsSigns (arg :: args) ++ rest) := by
  have first (more : List Sign) : Lacks [.mark .greater] (argSigns arg ++ more) := by
    cases arg with
    | type type =>
        rw [argSigns]
        exact lacks_of_plain (plain type rfl) (by simp)
    | unbounded | extending bound | above bound =>
        rw [argSigns]
        exact .cons (by decide)
  cases args with
  | nil =>
      rw [argsSigns]
      exact first rest
  | cons next args =>
      rw [argsSigns, List.append_assoc]
      exact first _

theorem optionalArguments_gives (types : ∀ smaller < budget, ReadsTypes smaller)
    (plain : ∀ other ∈ args, ∀ type ∈ other.type?, type.IsPlain)
    (ends : Lacks [.mark .less] rest) :
    Gives (optionalArguments budget) (bracketSigns args ++ rest) args rest := by
  cases args with
  | nil => exact optionalArguments_gives_nil ends
  | cons arg args =>
      cases budget with
      | zero => exact .exhausted
      | succ budget =>
          have smaller : ∀ smaller < budget, ReadsTypes smaller := fun smaller less =>
            types smaller (Nat.lt_succ_of_lt less)
          rw [bracketSigns, List.cons_append, List.append_assoc]
          refine Finds.yes (accept_takes rfl) (Finds.no (accept_leaves ?_) ?_)
          · exact lacks_of_args (plain arg (by simp))
          · refine (typeArguments_give smaller plain).andThen ?_
            exact (expect_finds rfl).bind fun _ _ => .pure rfl

end Arguments

section Names

variable {bound budget : Nat} {args : List (TypeArgument TypeExpr)} {word : List Char}
  {more : List (List Char)}

theorem word_of_plain (plain : IsPlainWord word) :
    Sign.word word = ⟨.identifier, String.ofList word⟩ := by
  rw [Sign.word, plain.2]
  rfl

theorem kind_of_plain (plain : IsPlainWord word) : (Sign.word word).kind = .identifier := by
  rw [word_of_plain plain]

/-- The tokens of further words of a name, each behind a dot. -/
def furtherSigns (more : List (List Char)) : List Sign :=
  more.flatMap fun word => [.mark .dot, .word word]

/-- What is left of the tokens of a name once the arguments behind a word are read. -/
def afterWord (left rest : List Sign) : List (List Char) → List Sign
  | [] => rest
  | word :: more => .mark .dot :: .word word :: (furtherSigns more ++ left)

/-- The arguments behind a word of a name; only the last word has any. -/
def argsOfWord (args : List (TypeArgument TypeExpr)) :
    List (List Char) → List (TypeArgument TypeExpr)
  | [] => args
  | _ :: _ => []

/-- The arguments behind the last word of a name are read with every smaller budget. -/
def ReadsArguments (bound : Nat) (left : List Sign) (args : List (TypeArgument TypeExpr))
    (rest : List Sign) : Prop :=
  ∀ budget ≤ bound, Gives (optionalArguments budget) left args rest

theorem argumentsOfWord_give (behind : ReadsArguments bound left args rest)
    (small : budget ≤ bound) :
    Gives (optionalArguments budget) (furtherSigns more ++ left) (argsOfWord args more)
      (afterWord left rest more) := by
  cases more with
  | nil => exact behind budget small
  | cons word more => exact optionalArguments_gives_nil (.cons (by decide))

theorem classTypePart_gives (behind : ReadsArguments bound left args rest)
    (small : budget ≤ bound) (plain : IsPlainWord word) (type : TypeExpr) :
    Gives (classTypePart budget type) (.mark .dot :: .word word :: (furtherSigns more ++ left))
      (.inl { type with
        name := type.name ++ "." ++ String.ofList word, args := argsOfWord args more })
      (afterWord left rest more) := by
  cases budget with
  | zero => exact .exhausted
  | succ budget =>
      have kind := kind_of_plain plain
      have second : (Sign.mark .dot :: .word word :: (furtherSigns more ++ left))[1]? =
          some (.word word) := rfl
      refine Finds.yes (.both (isNext_gives rfl) (.map (kindAt_gives second) (by simp [kind]))) ?_
      refine take_finds.bind fun _ _ => ?_
      refine (skipAnnotations_gives (.cons (by simp [kind]))).andThen ?_
      refine (identifier_gives kind).andThen ?_
      exact (argumentsOfWord_give behind (Nat.le_of_succ_le small)).andThen (.pure rfl)

theorem classTypePart_ends (lacks : Lacks [.mark .dot] rest) (type : TypeExpr) :
    Gives (classTypePart budget type) rest (.inr type) rest := by
  cases budget with
  | zero => exact .exhausted
  | succ budget => exact Finds.no (.notBoth (isNext_no lacks)) (.pure rfl)

theorem classTypeParts_give (behind : ReadsArguments bound left args rest)
    (small : budget ≤ bound) (plain : ∀ word ∈ more, IsPlainWord word)
    (ends : Lacks [.mark .dot] rest) (rounds : Nat) (name : String) :
    Gives (iterate (classTypePart budget) rounds { name, args := argsOfWord args more })
      (afterWord left rest more)
      { name := name ++ String.ofList (more.flatMap ('.' :: ·)), args } rest := by
  induction more generalizing name rounds with
  | nil =>
      cases rounds with
      | zero => exact .exhausted
      | succ rounds =>
          have whole : name ++ String.ofList [] = name := String.append_empty
          exact (classTypePart_ends ends _).andThen (.pure (by rw [List.flatMap_nil, whole]; rfl))
  | cons word more ih =>
      cases rounds with
      | zero => exact .exhausted
      | succ rounds =>
          have others : ∀ word ∈ more, IsPlainWord word := fun other member =>
            plain other (List.mem_cons_of_mem word member)
          have whole : name ++ "." ++ String.ofList word ++
              String.ofList (more.flatMap ('.' :: ·)) =
                name ++ String.ofList ((word :: more).flatMap ('.' :: ·)) := by
            rw [← String.toList_inj]
            simp
          rw [← whole]
          exact (classTypePart_gives behind small (plain word (by simp)) _).andThen
            (ih others rounds _)

theorem classType_gives {name : String} {words : List (List Char)}
    (types : ∀ smaller < budget, ReadsTypes smaller) (spells : Spells name words)
    (plainWords : ∀ word ∈ words, IsPlainWord word)
    (plain : ∀ arg ∈ args, ∀ type ∈ arg.type?, type.IsPlain)
    (ends : Lacks [.mark .less, .mark .dot] rest) :
    Gives (classType budget) (nameSigns words ++ (bracketSigns args ++ rest)) { name, args }
      rest := by
  obtain ⟨some, -, split⟩ := spells
  cases words with
  | nil => exact absurd rfl some
  | cons word more =>
      have whole : String.ofList word ++ String.ofList (more.flatMap ('.' :: ·)) = name := by
        rw [← String.toList_inj, split, intercalate_cons]
        simp
      rw [nameSigns, List.cons_append, ← whole]
      cases budget with
      | zero => exact .exhausted
      | succ budget =>
          have behind : ReadsArguments budget (bracketSigns args ++ rest) args rest :=
            fun smaller le => optionalArguments_gives
              (fun other less => types other (by omega)) plain (ends.mono (by simp))
          have others : ∀ word ∈ more, IsPlainWord word := fun other member =>
            plainWords other (List.mem_cons_of_mem word member)
          refine (identifier_gives (kind_of_plain (plainWords word (by simp)))).andThen ?_
          refine (argumentsOfWord_give behind (Nat.le_refl budget)).andThen ?_
          exact classTypeParts_give behind (Nat.le_refl budget) others (ends.mono (by simp)) _ _

end Names

theorem typeExpr_gives (budget : Nat) : ReadsTypes budget := by
  induction budget using Nat.strongRecOn with
  | ind budget ih =>
      intro type plain rest ends
      cases budget with
      | zero => exact .exhausted
      | succ budget =>
          refine (skipAnnotations_gives (lacks_of_plain plain (by simp))).andThen ?_
          have smaller : ∀ smaller < budget, ReadsTypes smaller := fun other less =>
            ih other (Nat.lt_succ_of_lt less)
          have brackets : Lacks [.mark .leftBracket] rest := ends.mono (by simp [typeMarks])
          cases plain with
          | @primitive name dims primitive =>
              obtain ⟨spells, kind⟩ := spells_of_primitive primitive
              have text : (Sign.word name.toList).text = name := String.ofList_toList
              rw [signs_eq, spells.splitOn]
              refine (kindAt_gives rfl).andThen ?_
              rw [TokenView.sign_eq, kind]
              refine take_finds.bind fun token shows => ?_
              rw [shows.text, TokenView.sign_eq, text]
              refine (Finds.pure rfl).andThen ((dimensions_gives dims brackets).andThen (.pure ?_))
              simp [TypeExpr.addDims]
          | @named name dims args plainName plain =>
              obtain ⟨words, spells, plainWords⟩ := plainName.spells
              have first : Lacks [.mark .less, .mark .dot] (dimSigns dims ++ rest) := by
                cases dims with
                | zero => exact ends.mono (by simp [typeMarks])
                | succ dims => exact .cons (by decide)
              rw [signs_eq, spells.splitOn, List.append_assoc, List.append_assoc]
              have ran := classType_gives smaller spells plainWords plain first
              cases words with
              | nil => exact absurd rfl spells.1
              | cons word words =>
                  refine (kindAt_gives rfl).andThen ?_
                  rw [TokenView.sign_eq, kind_of_plain (plainWords word (by simp))]
                  refine ran.andThen ((dimensions_gives dims brackets).andThen (.pure ?_))
                  simp [TypeExpr.addDims]

/-! ### Qualified names -/

section Qualified

variable {ι : Type} [TokenView ι] {items rest : List ι} {budget : Nat} {words : List (List Char)}

theorem namePart_gives_none (ends : Lacks [.mark .dot] rest) :
    Gives qualifiedName.part rest none rest :=
  Finds.no (.notBoth (isNext_no ends)) (.pure rfl)

theorem nameParts_give (plain : ∀ word ∈ words, IsPlainWord word)
    (spelled : items.map TokenView.sign = furtherSigns words) (ends : Lacks [.mark .dot] rest)
    (budget : Nat) :
    Gives (many qualifiedName.part budget) (items ++ rest) (words.map String.ofList) rest := by
  induction words generalizing items budget with
  | nil =>
      obtain rfl : items = [] := List.map_eq_nil_iff.mp spelled
      exact many_gives_nil (namePart_gives_none ends)
  | cons word words ih =>
      obtain ⟨dot, more, rfl, isDot, spelled⟩ := List.map_eq_cons_iff.mp spelled
      obtain ⟨name, more, rfl, isName, spelled⟩ := List.map_eq_cons_iff.mp spelled
      have named : TokenView.sign name = ⟨.identifier, String.ofList word⟩ := by
        rw [isName, word_of_plain (plain word (by simp))]
      have others : ∀ word ∈ words, IsPlainWord word := fun other member =>
        plain other (List.mem_cons_of_mem word member)
      refine many_gives_cons ?_ (ih others spelled)
      have second : (dot :: name :: (more ++ rest))[1]? = some name := rfl
      refine Finds.yes (.both (isNext_gives (by rw [isDot]; rfl))
        (isAt_gives second (by rw [named]; rfl))) ?_
      refine take_finds.bind fun _ _ => ?_
      have text : (TokenView.sign name).text = String.ofList word := by rw [named]
      exact (text ▸ identifier_gives (by rw [named])).andThen (.pure rfl)

/-- A dotted name is read from its tokens. -/
theorem qualifiedName_gives {name : String} (plain : IsPlainName name)
    (spelled : items.map TokenView.sign = signsOf name) (ends : Lacks [.mark .dot] rest) :
    Gives (qualifiedName budget) (items ++ rest) name rest := by
  obtain ⟨words, some, plain, whole⟩ := plain
  have spells : Spells name words := ⟨some, fun word member => (plain word member).1, whole⟩
  rw [spells.signsOf] at spelled
  cases words with
  | nil => exact absurd rfl some
  | cons word words =>
      obtain ⟨first, more, rfl, isFirst, spelled⟩ := List.map_eq_cons_iff.mp spelled
      have named : TokenView.sign first = ⟨.identifier, String.ofList word⟩ := by
        rw [isFirst, word_of_plain (plain word (by simp))]
      have text : (TokenView.sign first).text = String.ofList word := by rw [named]
      have others : ∀ word ∈ words, IsPlainWord word := fun other member =>
        plain other (List.mem_cons_of_mem word member)
      refine (text ▸ identifier_gives (by rw [named])).andThen ?_
      refine (nameParts_give others spelled ends budget).andThen (.pure ?_)
      rw [← String.toList_inj, String.toList_intercalate, whole]
      simp [Function.comp_def]

end Qualified

end ReadM

end JavaDecl
