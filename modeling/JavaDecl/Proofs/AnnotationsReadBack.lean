import JavaDecl.Grammar.Unit
import JavaDecl.Proofs.AnnotationTexts

/-!
# Annotations and their texts

An annotation in front of a class is read back from its text, whatever values are nested in it.
-/

namespace JavaDecl

/-! ### Elements -/

theorem setElement_of_notMem {υ : Type} {pairs : List (String × υ)} {key : String}
    (absent : key ∉ pairs.map Prod.fst) (value : υ) :
    setElement pairs key value = pairs ++ [(key, value)] := by
  induction pairs with
  | nil => rfl
  | cons pair pairs ih =>
      obtain ⟨other, further⟩ := not_or.mp (mt List.mem_cons.mpr absent)
      rw [setElement, if_neg (Ne.symm other), ih further, List.cons_append]

/-- Elements that are given once stay as they are given. -/
theorem elementsOfList_of_nodup {υ : Type} {pairs : List (String × υ)}
    (distinct : (pairs.map Prod.fst).Nodup) : elementsOfList pairs = pairs := by
  have further (known pairs : List (String × υ))
      (distinct : ((known ++ pairs).map Prod.fst).Nodup) :
      pairs.foldl (fun known pair => setElement known pair.1 pair.2) known = known ++ pairs := by
    induction pairs generalizing known with
    | nil => exact (List.append_nil known).symm
    | cons pair pairs ih =>
        have absent : pair.1 ∉ known.map Prod.fst := by
          intro member
          rw [List.map_append] at distinct
          exact List.disjoint_of_nodup_append distinct member (by simp)
        rw [List.foldl_cons, setElement_of_notMem absent, ih _ (by simpa using distinct),
          List.append_assoc, List.singleton_append]
  exact further [] pairs distinct

namespace ReadM

open Chunk

variable {source : List Char} {rest : List (Chunk source)} {budget : Nat}

/-- What stands behind a value of an element, with one more token. -/
def EndsValue (items : List (Chunk source)) : Prop :=
  ∃ first second more, items = first :: second :: more ∧ first.sign.kind ∈ expressionEnds

theorem endsValue_gives {items : List (Chunk source)} {skipped : Nat} {item : Chunk source}
    {answer : Bool} (here : items[skipped]? = some item)
    (is : expressionEnds.contains item.sign.kind = answer) :
    Gives (endsValue skipped) items answer items :=
  (kindAt_gives here).andThen (.pure is)

/-! ### Class literals -/

def goesOnWith (first kind next : TokenKind) : Bool :=
  (kind == .mark .dot && next == .identifier && first == .identifier) ||
    (kind == .mark .leftBracket && next == .mark .rightBracket)

/-- Tokens that go on with the name of a class two by two. -/
inductive GoesOn (first : TokenKind) : List Sign → Prop where
  | nil : GoesOn first []
  | pair {one other : Sign} {more : List Sign} : goesOnWith first one.kind other.kind = true →
      GoesOn first more → GoesOn first (one :: other :: more)

theorem GoesOn.dims (first : TokenKind) (dims : Nat) : GoesOn first (dimSigns dims) := by
  induction dims with
  | zero => exact .nil
  | succ dims ih => exact .pair (by simp [goesOnWith, Sign.mark]) ih

theorem GoesOn.words {words : List (List Char)} {more : List Sign}
    (plain : ∀ word ∈ words, IsPlainWord word) (goesOn : GoesOn .identifier more) :
    GoesOn .identifier ((words.flatMap fun word => [Sign.mark .dot, .word word]) ++ more) := by
  induction words with
  | nil => exact goesOn
  | cons word words ih =>
      obtain ⟨isPlain, others⟩ := List.forall_mem_cons.mp plain
      exact .pair (by simp [goesOnWith, Sign.mark, kind_of_plain isPlain]) (ih others)

theorem classNameSteps_give {first : TokenKind} {items : List (Chunk source)} {signs : List Sign}
    {one other : Chunk source} (goesOn : GoesOn first signs)
    (stops : goesOnWith first one.sign.kind other.sign.kind = false) (front : List (Chunk source))
    (split : items = front ++ (tight signs ++ one :: other :: rest)) (rounds : Nat) :
    Gives (iterate (classNameAhead.step first) rounds front.length) items
      (front.length + signs.length) items := by
  induction goesOn generalizing front rounds with
  | nil =>
      cases rounds with
      | zero => exact .exhausted
      | succ rounds =>
          have here : items[front.length]? = some one := by simp [split]
          have next : items[front.length + 1]? = some other := by simp [split]
          have stopped : Gives (classNameAhead.step first front.length) items
              (.inr front.length) items := by
            refine (kindAt_gives here).andThen ((kindAt_gives next).andThen ?_)
            exact .pure (if_neg (by simpa [goesOnWith] using stops))
          exact stopped.andThen (.pure rfl)
  | @pair second third more continues _ ih =>
      cases rounds with
      | zero => exact .exhausted
      | succ rounds =>
          have here : items[front.length]? = some { sign := second } := by simp [split]
          have next : items[front.length + 1]? = some { sign := third } := by simp [split]
          have stepped : Gives (classNameAhead.step first front.length) items
              (.inl (front.length + 2)) items := by
            refine (kindAt_gives here).andThen ((kindAt_gives next).andThen ?_)
            exact .pure (if_pos (by simpa [goesOnWith] using continues))
          have further := ih (front ++ [{ sign := second }, { sign := third }]) (by simp [split])
            rounds
          rw [List.length_append] at further
          have count : front.length + (second :: third :: more).length =
              front.length + 2 + more.length := by
            simp only [List.length_cons]
            omega
          rw [count]
          exact stepped.andThen further

section ClassLiterals

variable {name : String} {dims : Nat}

theorem exists_signs (isName : IsClassName name) :
    ∃ first more, signsOf name = first :: more ∧
      (first.kind = .identifier ∨ first.kind.isPrimitiveType = true) ∧
        ∀ dims, GoesOn first.kind (more ++ dimSigns dims) := by
  rcases isName with plain | primitive
  · obtain ⟨words, spells, plainWords⟩ := plain.spells
    rw [spells.signsOf]
    cases words with
    | nil => exact absurd rfl spells.1
    | cons word words =>
        obtain ⟨isFirst, others⟩ := List.forall_mem_cons.mp plainWords
        have kind := kind_of_plain isFirst
        refine ⟨.word word, _, rfl, .inl kind, fun dims => ?_⟩
        rw [kind]
        exact .words others (.dims _ dims)
  · obtain ⟨spells, kind⟩ := spells_of_primitive primitive
    rw [spells.signsOf]
    exact ⟨.word name.toList, [], rfl, .inr kind, .dims _⟩

theorem classNameAhead_gives {first : Sign} {more : List Sign} {one other : Chunk source}
    (goesOn : GoesOn first.kind more)
    (stops : goesOnWith first.kind one.sign.kind other.sign.kind = false) :
    Gives (classNameAhead budget first.kind) (tight (first :: more) ++ one :: other :: rest)
      (tight (first :: more) : List (Chunk source)).length
      (tight (first :: more) ++ one :: other :: rest) := by
  have counted := classNameSteps_give goesOn stops [{ sign := first }]
    (rfl : tight (first :: more) ++ one :: other :: rest = _) budget
  have length : (tight (first :: more) : List (Chunk source)).length =
      [({ sign := first } : Chunk source)].length + more.length := by
    simp [tight, Nat.add_comm]
  rw [length]
  exact counted

def signOf (token : Token) : Sign := ⟨token.kind, token.text⟩

theorem map_signOf {tokens : List Token} {items : List (Chunk source)}
    (shows : List.Forall₂ (fun token item => token.Shows (TokenView.sign item)) tokens items) :
    tokens.map signOf = items.map Chunk.sign := by
  induction shows with
  | nil => rfl
  | cons first _ ih => rw [List.map_cons, List.map_cons, ih, signOf, first.kind, first.text]; rfl

theorem mem_nameSigns {words : List (List Char)} {sign : Sign} (member : sign ∈ nameSigns words) :
    sign = .mark .dot ∨ ∃ word ∈ words, sign = .word word := by
  cases words with
  | nil => cases member
  | cons word words =>
      simp only [nameSigns, List.mem_cons, List.mem_flatMap, List.not_mem_nil, or_false] at member
      rcases member with rfl | ⟨next, among, rfl | rfl⟩
      · exact .inr ⟨word, by simp, rfl⟩
      · exact .inl rfl
      · exact .inr ⟨next, by simp [among], rfl⟩

theorem kind_of_mem_nameSigns {words : List (List Char)} {sign : Sign}
    (member : sign ∈ nameSigns words) (symbol : Mark) (other : symbol ≠ .dot) :
    sign.kind ≠ .mark symbol := by
  rcases mem_nameSigns member with rfl | ⟨word, -, rfl⟩
  · simpa [Sign.mark] using other.symm
  · rcases Sign.kind_word word with kind | ⟨keyword, kind⟩ <;> simp [kind]

theorem classLiteralType_of_signs {tokens : List Token}
    (same : tokens.map signOf = signsOf name ++ dimSigns dims) :
    classLiteralType tokens = { name, dims } := by
  have named : (tokens.map signOf).filter (fun sign =>
      sign.kind != .mark .leftBracket && sign.kind != .mark .rightBracket) =
        signsOf name := by
    have words : (signsOf name).filter (fun sign =>
        sign.kind != .mark .leftBracket && sign.kind != .mark .rightBracket) =
          signsOf name := by
      refine List.filter_eq_self.mpr fun sign member => ?_
      have kind := kind_of_mem_nameSigns member
      simp [kind]
    have none : (dimSigns dims).filter (fun sign =>
        sign.kind != .mark .leftBracket && sign.kind != .mark .rightBracket) = [] := by
      simp [dimSigns, Sign.mark]
    rw [same, List.filter_append, words, none, List.append_nil]
  have counted : (tokens.map signOf).countP (·.kind == .mark .leftBracket) = dims := by
    have none : (signsOf name).countP (·.kind == .mark .leftBracket) = 0 := by
      refine List.countP_eq_zero.mpr fun sign member => ?_
      simp [kind_of_mem_nameSigns member]
    have all : (dimSigns dims).countP (·.kind == .mark .leftBracket) = dims := by
      simp [dimSigns, Sign.mark, List.countP_flatten]
    rw [same, List.countP_append, none, all, Nat.zero_add]
  have text : String.join ((signsOf name).map Sign.text) = name := by
    rw [← String.toList_inj, String.toList_join, List.flatMap_map, signsOf,
      flatMap_nameSigns, List.intercalate_splitOn]
  rw [List.filter_map] at named
  rw [List.countP_map] at counted
  rw [← named, List.map_map] at text
  exact congrArg₂ (fun name dims => ({ name, dims } : TypeExpr)) text counted

theorem classLiteral?_gives (isName : IsClassName name) (ends : EndsValue rest) :
    Gives (classLiteral? budget)
      (tight (signsOf name ++ dimSigns dims) ++ (tight ElementText.classSigns ++ rest))
      (some { name, dims }) rest := by
  obtain ⟨first, more, signs, kind, goesOn⟩ := exists_signs isName
  have whole : signsOf name ++ dimSigns dims = first :: (more ++ dimSigns dims) := by
    rw [signs, List.cons_append]
  have stops : goesOnWith first.kind (.mark .dot) (.keyword .classKw) = false := by
    simp [goesOnWith]
  obtain ⟨last, second, others, rfl, closing⟩ := ends
  let front : List (Chunk source) := tight (first :: (more ++ dimSigns dims))
  let items := front ++ { sign := .mark .dot } :: { sign := .keyword .classKw } ::
    last :: second :: others
  have counted : Gives (classNameAhead budget first.kind) items front.length items :=
    classNameAhead_gives (goesOn dims) stops
  have isLiteral : Gives (isAt front.length (.mark .dot) <&&>
      isAt (front.length + 1) (.keyword .classKw) <&&> endsValue (front.length + 2)) items true
        items := by
    have isDot : items[front.length]? = some { sign := .mark .dot } := by simp [items]
    have isClass : items[front.length + 1]? = some { sign := .keyword .classKw } := by
      simp [items]
    have isLast : items[front.length + 2]? = some last := by simp [items]
    refine .both (isAt_gives isDot rfl) (.both (isAt_gives isClass rfl) ?_)
    exact endsValue_gives isLast (List.contains_iff_mem.mpr closing)
  rw [whole]
  refine (kindAt_gives rfl).andThen ?_
  rw [if_pos (by simpa using kind)]
  refine counted.andThen (Finds.yes isLiteral ?_)
  refine (takeMany_finds front _).bind fun tokens shows => ?_
  refine (takeMany_finds (tight ElementText.classSigns) (last :: second :: others)).bind
    fun _ _ => .pure ?_
  refine congrArg some (classLiteralType_of_signs ?_)
  rw [map_signOf shows, whole]
  exact map_sign_tight _

/-- A dotted name in front of what ends a value is no class literal. -/
theorem classLiteral?_gives_none (plain : IsPlainName name) (ends : EndsValue rest) :
    Gives (classLiteral? budget) (tight (signsOf name) ++ rest) none
      (tight (signsOf name) ++ rest) := by
  obtain ⟨first, more, signs, kind, goesOn⟩ := exists_signs (.inl plain)
  have dimless : more ++ dimSigns 0 = more := by simp [dimSigns]
  have goesOn := dimless ▸ goesOn 0
  obtain ⟨last, second, others, rfl, closing⟩ := ends
  have other : last.sign.kind ≠ .mark .dot ∧ last.sign.kind ≠ .mark .leftBracket := by
    have known : ∀ kind ∈ expressionEnds, kind ≠ .mark .dot ∧ kind ≠ .mark .leftBracket := by
      decide
    exact known _ closing
  have stops : goesOnWith first.kind last.sign.kind second.sign.kind = false := by
    simp [goesOnWith, other]
  let front : List (Chunk source) := tight (first :: more)
  have counted : Gives (classNameAhead budget first.kind) (front ++ last :: second :: others)
      front.length (front ++ last :: second :: others) :=
    classNameAhead_gives goesOn stops
  have here : (front ++ last :: second :: others)[front.length]? = some last := by simp
  rw [signs]
  refine (kindAt_gives rfl).andThen ?_
  rw [if_pos (by simpa using kind)]
  refine counted.andThen (Finds.no (.notBoth (isAt_gives here (by simp [other]))) (.pure rfl))

end ClassLiterals

/-- What the name of a class starts with is no literal. -/
theorem isLiteral_of_className {kind : TokenKind}
    (known : kind = .identifier ∨ kind.isPrimitiveType = true) : kind.isLiteral = false := by
  rcases known with rfl | isPrimitive
  · rfl
  · cases kind with
    | keyword word =>
        revert isPrimitive
        cases word <;> decide
    | _ => cases isPrimitive

theorem classLiteral?_of_literal {chunk : Chunk source}
    (isLiteral : chunk.sign.kind.isLiteral = true) :
    Gives (classLiteral? budget) (chunk :: rest) none (chunk :: rest) := by
  have other : ¬ (chunk.sign.kind == .identifier || chunk.sign.kind.isPrimitiveType) = true := by
    intro known
    rw [isLiteral_of_className (by simpa using known)] at isLiteral
    cases isLiteral
  refine (kindAt_gives rfl).andThen ?_
  rw [TokenView.sign_chunk, if_neg other]
  exact .pure rfl

/-! ### Values -/

/-- The text of a value is read back in front of what ends it. -/
def ReadsBack (source : List Char) (item : ElementText) : Prop :=
  ∀ (budget : Nat) {rest : List (Chunk source)}, EndsValue rest →
    Gives (elementValue budget) (item.chunks ++ rest) item.value rest

theorem lacks_of_literal {chunk : Chunk source} (isLiteral : chunk.sign.kind.isLiteral = true)
    (symbol : Mark) : Lacks [.mark symbol] (chunk :: rest) := by
  refine .cons fun member => ?_
  rw [TokenView.sign_chunk, List.mem_singleton] at member
  rw [member] at isLiteral
  cases isLiteral

theorem literal_readsBack {text : String} (is : IsLiteral text) :
    ReadsBack source (.literal text) := by
  intro budget rest ends
  cases budget with
  | zero => exact .exhausted
  | succ budget =>
      obtain ⟨last, second, others, rfl, closing⟩ := ends
      have isLiteral := is.kind_literalSign
      refine Finds.no (isNext_no (lacks_of_literal isLiteral _)) ?_
      refine Finds.no (accept_leaves (lacks_of_literal isLiteral _)) ?_
      refine (classLiteral?_of_literal isLiteral).andThen ?_
      have asked : Gives ((TokenKind.isLiteral <$> kindAt 0) <&&> endsValue 1)
          ((ElementText.literal text).chunks ++ last :: second :: others) true
          ((ElementText.literal text).chunks ++ last :: second :: others) :=
        .both (.map (kindAt_gives rfl) isLiteral)
          (endsValue_gives rfl (List.contains_iff_mem.mpr closing))
      refine Finds.yes asked (take_finds.bind fun token shows => .pure ?_)
      rw [shows.text]
      exact congrArg ElementValue.constant is.text_literalSign

theorem lacks_of_className {name : String} (isName : IsClassName name) (symbol : Mark) :
    Lacks [.mark symbol] (tight (signsOf name) ++ rest) := by
  obtain ⟨first, others, signs, kind, -⟩ := exists_signs isName
  rw [signs]
  refine .cons fun member => ?_
  have same : first.kind = .mark symbol := List.mem_singleton.mp member
  rw [same] at kind
  rcases kind with isName | isPrimitive
  · cases isName
  · cases isPrimitive

theorem classLiteral_readsBack {name : String} (isName : IsClassName name) (dims : Nat) :
    ReadsBack source (.classLiteral name dims) := by
  intro budget rest ends
  cases budget with
  | zero => exact .exhausted
  | succ budget =>
      rw [ElementText.chunks_classLiteral, List.append_assoc]
      have lacks (symbol : Mark) : Lacks [.mark symbol] (tight (signsOf name ++ dimSigns dims) ++
          (tight ElementText.classSigns ++ rest)) := by
        rw [tight_append, List.append_assoc]
        exact lacks_of_className isName symbol
      refine Finds.no (isNext_no (lacks _)) (Finds.no (accept_leaves (lacks _)) ?_)
      exact (classLiteral?_gives isName ends).andThen (.pure rfl)

/-- The dotted name of a constant is captured as it is written. -/
theorem constantText_gives {name : String} (plain : IsPlainName name) (ends : EndsValue rest) :
    Gives (expressionText budget [.comma]) (tight (signsOf name) ++ rest) name
      rest := by
  obtain ⟨last, second, others, rfl, closing⟩ := ends
  obtain ⟨words, spells, plainWords⟩ := plain.spells
  have some : textOf (tight (signsOf name) : List (Chunk source)) ≠ [] := by
    obtain ⟨c, more, written, -⟩ := spells.starts
    simp [ElementText.textOf_signsOf, written]
  have known : ∀ sign ∈ signsOf name,
      sign.kind = .identifier ∨ sign.kind = .mark .dot := by
    intro sign member
    rw [spells.signsOf] at member
    rcases mem_nameSigns member with rfl | ⟨word, among, rfl⟩
    · exact .inr rfl
    · exact .inl (kind_of_plain (plainWords word among))
  have whole : String.ofList (textOf (tight (signsOf name) : List (Chunk source))) = name := by
    rw [ElementText.textOf_signsOf, String.ofList_toList]
  refine (expressionText_gives some known ⟨last, second :: others, rfl, closing⟩).mono ?_
  rintro _ rfl
  exact whole

theorem constant_readsBack {name : String} (plain : IsPlainName name) :
    ReadsBack source (.constant name) := by
  intro budget rest ends
  cases budget with
  | zero => exact .exhausted
  | succ budget =>
      have chunks : ((ElementText.constant name).chunks : List (Chunk source)) =
          tight (signsOf name) := rfl
      have lacks (symbol : Mark) : Lacks [.mark symbol] (tight (signsOf name) ++ rest) :=
        lacks_of_className (.inl plain) symbol
      have asked : Gives ((TokenKind.isLiteral <$> kindAt 0) <&&> endsValue 1)
          (tight (signsOf name) ++ rest) false
          (tight (signsOf name) ++ rest) := by
        obtain ⟨first, others, signs, kind, -⟩ := exists_signs (.inl plain)
        rw [signs]
        exact .notBoth (.map (kindAt_gives rfl) (isLiteral_of_className kind))
      rw [chunks]
      refine Finds.no (isNext_no (lacks _)) (Finds.no (accept_leaves (lacks _)) ?_)
      refine (classLiteral?_gives_none plain ends).andThen (Finds.no asked ?_)
      exact (constantText_gives plain ends).andThen (.pure rfl)

/-! ### Annotations -/

section Annotations

variable {name : String} {pairs : List (String × ElementText)} {final : Chunk source}

theorem elementPair_gives {pair : String × ElementText} (isKey : IsPlainWord pair.1.toList)
    (value : ReadsBack source pair.2) (ends : EndsValue rest) :
    Gives (elementPair budget) (ElementText.elementChunks pair ++ rest) (ElementText.element pair)
      rest := by
  cases budget with
  | zero => exact .exhausted
  | succ budget =>
      have text : (Sign.word pair.1.toList).text = pair.1 := String.ofList_toList
      refine (identifier_gives (kind_of_plain isKey)).andThen ?_
      refine (expect_finds rfl).bind fun _ _ => ?_
      refine (value budget ends).andThen (.pure ?_)
      exact congrArg (·, pair.2.value) text

/-- The tokens of elements start with a key and the mark behind it. -/
theorem exists_key {pair : String × ElementText} (isKey : IsPlainWord pair.1.toList)
    (pairs : List (String × ElementText)) (rest : List (Chunk source)) :
    ∃ key assign more,
      [ElementText.comma].intercalate ((pair :: pairs).map ElementText.elementChunks) ++ rest =
        key :: assign :: more ∧
      key.sign.kind = .identifier ∧ assign.sign.kind = .mark .assign := by
  have kind := kind_of_plain isKey
  cases pairs with
  | nil => exact ⟨_, _, _, rfl, kind, rfl⟩
  | cons next pairs =>
      rw [List.map_cons, List.map_cons, List.intercalate_cons_cons]
      exact ⟨_, _, _, rfl, kind, rfl⟩

theorem elementPairs_give (keys : ∀ pair ∈ pairs, IsPlainWord pair.1.toList)
    (values : ∀ pair ∈ pairs, ReadsBack source pair.2) (some : pairs ≠ []) (ends : EndsValue rest)
    (lacks : Lacks [.mark .comma] rest) (budget : Nat) :
    Gives (separatedBy .comma (elementPair budget) budget)
      ([ElementText.comma].intercalate (pairs.map ElementText.elementChunks) ++ rest)
      (pairs.map ElementText.element) rest := by
  have goesOn (pair : String × ElementText) (behind : List (Chunk source)) :
      EndsValue (ElementText.comma :: (ElementText.elementChunks pair ++ behind)) :=
    ⟨_, _, _, rfl, by simp [ElementText.comma, Sign.mark, expressionEnds]⟩
  have isComma : (TokenView.sign (ElementText.comma : Chunk source)).kind = .mark .comma := rfl
  refine separatedBy_gives isComma (fun pair _ => goesOn pair) (fun pair member behind ends => ?_)
    ends lacks some
  exact elementPair_gives (keys pair member) (values pair member) ends

theorem elementValues_gives (keys : ∀ pair ∈ pairs, IsPlainWord pair.1.toList)
    (values : ∀ pair ∈ pairs, ReadsBack source pair.2)
    (closes : final.sign.kind = .mark .rightParen) (more : rest ≠ []) :
    Gives (elementValues budget)
      ([ElementText.comma].intercalate (pairs.map ElementText.elementChunks) ++ final :: rest)
      (pairs.map ElementText.element) rest := by
  have closed : Finds (expectMark .rightParen "')' after annotation values") (final :: rest)
      (·.Shows final.sign) [] rest :=
    expect_finds closes
  cases budget with
  | zero => exact .exhausted
  | succ budget =>
      cases pairs with
      | nil =>
          have none : Gives (isMark .rightParen) (final :: rest) true (final :: rest) :=
            isNext_gives (by simp [closes])
          have noKey : Gives (isNext .identifier <&&> isAt 1 (.mark .assign)) (final :: rest) false
              (final :: rest) :=
            .notBoth (isNext_gives (by simp [closes]))
          exact none.andThen (noKey.andThen ((Finds.pure rfl).andThen
            (closed.bind fun _ _ => .pure rfl)))
      | cons pair pairs =>
          have ends : EndsValue (final :: rest) := by
            obtain ⟨second, others, rfl⟩ := List.exists_cons_of_ne_nil more
            exact ⟨final, second, others, rfl, by simp [closes, expressionEnds]⟩
          have lacks : Lacks [.mark .comma] (final :: rest) := .cons (by simp [closes])
          have read (budget : Nat) := elementPairs_give keys values (by simp) ends lacks budget
          obtain ⟨key, assign, behind, opens, isKey, isAssign⟩ :=
            exists_key (keys pair (by simp)) pairs (final :: rest)
          rw [opens] at read ⊢
          have some : Gives (isMark .rightParen) (key :: assign :: behind) false
              (key :: assign :: behind) :=
            isNext_gives (by simp [isKey])
          have key : Gives (isNext .identifier <&&> isAt 1 (.mark .assign))
              (key :: assign :: behind) true (key :: assign :: behind) :=
            .both (isNext_gives (by simp [isKey])) (isAt_gives rfl (by simp [isAssign]))
          refine some.andThen (key.andThen ((read budget).andThen ?_))
          exact closed.bind fun _ _ => .pure rfl

/-- An annotation is read back up to its closing bracket. -/
theorem annotationUse_gives (isName : IsPlainName name)
    (keys : ∀ pair ∈ pairs, IsPlainWord pair.1.toList) (distinct : (pairs.map Prod.fst).Nodup)
    (values : ∀ pair ∈ pairs, ReadsBack source pair.2)
    (closes : final.sign.kind = .mark .rightParen) (more : rest ≠ []) :
    Gives (annotationUse budget)
      (ElementText.openChunks name (pairs.map ElementText.elementChunks) ++ final :: rest)
      (ElementText.useOf name (pairs.map ElementText.element)) rest := by
  cases budget with
  | zero => exact .exhausted
  | succ budget =>
      let behind : List (Chunk source) := { sign := .mark .leftParen } ::
        ([ElementText.comma].intercalate (pairs.map ElementText.elementChunks) ++ final :: rest)
      have ends : Lacks [.mark .dot] behind := .cons (by simp [Sign.mark])
      have distinct : ((pairs.map ElementText.element).map Prod.fst).Nodup := by
        simpa [Function.comp_def, ElementText.element] using distinct
      rw [ElementText.openChunks, List.cons_append, List.append_assoc, List.cons_append]
      refine (expect_finds rfl).bind fun token shows => ?_
      refine (qualifiedName_gives isName (map_sign_tight (signsOf name)) ends).andThen ?_
      refine Finds.yes (accept_takes rfl) ?_
      refine (elementValues_gives keys values closes more).andThen (.pure ?_)
      rw [shows.line, elementsOfList_of_nodup distinct, ElementText.useOf]

theorem nested_readsBack (isName : IsPlainName name)
    (keys : ∀ pair ∈ pairs, IsPlainWord pair.1.toList) (distinct : (pairs.map Prod.fst).Nodup)
    (values : ∀ pair ∈ pairs, ReadsBack source pair.2) : ReadsBack source (.nested name pairs) := by
  intro budget rest ends
  cases budget with
  | zero => exact .exhausted
  | succ budget =>
      obtain ⟨first, second, others, rfl, -⟩ := ends
      rw [ElementText.chunks_nested, ElementText.value_nested, List.append_assoc]
      refine Finds.yes (isNext_gives rfl) ?_
      have more : first :: second :: others ≠ [] := by simp
      exact (annotationUse_gives isName keys distinct values rfl more).andThen (.pure rfl)

end Annotations

theorem lacks_of_isPlain {item : ElementText} (plain : item.IsPlain) :
    Lacks [.mark .rightBrace] (item.chunks ++ rest) := by
  cases plain with
  | literal is => exact lacks_of_literal is.kind_literalSign _
  | classLiteral isName =>
      rw [ElementText.chunks_classLiteral, tight_append, List.append_assoc, List.append_assoc]
      exact lacks_of_className isName _
  | nested => exact .cons (by simp [Sign.mark])
  | array => exact .cons (by simp [Sign.mark])
  | constant isName => exact lacks_of_className (.inl isName) _

section Arrays

variable {items : List ElementText} {trailing : Bool} {brace : Chunk source}

theorem kind_of_comma {item : Chunk source}
    (member : item ∈ ElementText.comma :: ElementText.trailingChunks trailing) :
    item.sign.kind = .mark .comma := by
  rcases List.mem_cons.mp member with rfl | among
  · rfl
  · cases trailing with
    | false => cases among
    | true => exact List.mem_singleton.mp among ▸ rfl

/-- The values of an array are read up to its closing brace. -/
theorem arrayItems_give (some : trailing = true → items ≠ [])
    (plain : ∀ item ∈ items, item.IsPlain) (values : ∀ item ∈ items, ReadsBack source item)
    (closes : brace.sign.kind = .mark .rightBrace) (more : rest ≠ []) (smaller : Nat) :
    Gives (listUntil .rightBrace (elementValue budget) smaller)
      ([ElementText.comma].intercalate (items.map ElementText.chunks) ++
        (ElementText.trailingChunks trailing ++ brace :: rest))
      (items.map ElementText.value) (brace :: rest) := by
  have ends {item : Chunk source} {behind : List (Chunk source)} (more : behind ≠ [])
      (kind : item.sign.kind ∈ expressionEnds) : EndsValue (item :: behind) := by
    obtain ⟨second, others, rfl⟩ := List.exists_cons_of_ne_nil more
    exact ⟨item, second, others, rfl, kind⟩
  have afterLast : ElementText.trailingChunks trailing = ([] : List (Chunk source)) ∨
      items ≠ [] ∧ ∃ item, ElementText.trailingChunks trailing = [item] ∧
        (TokenView.sign (item : Chunk source)).kind = .mark .comma := by
    cases trailing with
    | false => exact .inl rfl
    | true => exact .inr ⟨some rfl, _, rfl, rfl⟩
  have isComma : (TokenView.sign (ElementText.comma : Chunk source)).kind = .mark .comma := rfl
  refine listUntil_gives isComma ?_
    (fun item member behind => lacks_of_isPlain (plain item member))
    (fun item member behind => values item member budget)
    (ends more (by simp [closes, expressionEnds])) closes (by decide) afterLast
  exact fun item member behind more =>
    ends more (by simp [kind_of_comma member, expressionEnds])

theorem array_readsBack (some : trailing = true → items ≠ [])
    (plain : ∀ item ∈ items, item.IsPlain) (values : ∀ item ∈ items, ReadsBack source item) :
    ReadsBack source (.array items trailing) := by
  intro budget rest ends
  cases budget with
  | zero => exact .exhausted
  | succ budget =>
      obtain ⟨first, second, others, rfl, -⟩ := ends
      have more : first :: second :: others ≠ [] := by simp
      rw [ElementText.chunks_array, ElementText.value_array, List.cons_append, List.append_assoc,
        List.append_assoc]
      refine Finds.no (isNext_gives rfl) (Finds.yes (accept_takes rfl) ?_)
      refine (arrayItems_give some plain values rfl more budget).andThen ?_
      exact (expect_finds rfl).bind fun _ _ => .pure rfl

end Arrays

theorem readsBack_of_isPlain {item : ElementText} (plain : item.IsPlain) :
    ReadsBack source item := by
  induction plain with
  | literal is => exact literal_readsBack is
  | classLiteral isName => exact classLiteral_readsBack isName _
  | nested isName keys distinct _ ih => exact nested_readsBack isName keys distinct ih
  | array some plain ih => exact array_readsBack some plain ih
  | constant isName => exact constant_readsBack isName

/-! ### Annotated classes -/

section Classes

variable {name className : String} {pairs : List (String × ElementText)} {final : Chunk source}

theorem modifier_gives_use (plain : (ElementText.nested name pairs).IsPlain)
    (closes : final.sign.kind = .mark .rightParen) (more : rest ≠ []) :
    Gives (modifier? budget)
      (ElementText.openChunks name (pairs.map ElementText.elementChunks) ++ final :: rest)
      (some (.inl (ElementText.useOf name (pairs.map ElementText.element)))) rest := by
  cases plain with
  | nested isName keys distinct values =>
      obtain ⟨first, others, signs, kind, -⟩ := exists_signs (.inl isName)
      have other : first.kind ≠ .keyword .interfaceKw := by
        intro same
        rw [same] at kind
        rcases kind with kind | kind <;> cases kind
      have here : (ElementText.openChunks name (pairs.map ElementText.elementChunks) ++
          final :: rest)[1]? = some { sign := first } := by
        simp [ElementText.openChunks, signs]
      have noInterface : Gives (isAt 1 (.keyword .interfaceKw))
          (ElementText.openChunks name (pairs.map ElementText.elementChunks) ++ final :: rest) false
          (ElementText.openChunks name (pairs.map ElementText.elementChunks) ++ final :: rest) :=
        isAt_gives here (by simpa using other)
      refine (kindAt_gives rfl).andThen (noInterface.andThen ?_)
      refine (annotationUse_gives isName keys distinct ?_ closes more).andThen (.pure rfl)
      exact fun pair member => readsBack_of_isPlain (values pair member)

theorem preamble_gives_use (plain : (ElementText.nested name pairs).IsPlain)
    (closes : final.sign.kind = .mark .rightParen) (unmodified : Unmodified rest)
    (lacks : Lacks preambleKinds rest) :
    Gives (preamble budget)
      (ElementText.openChunks name (pairs.map ElementText.elementChunks) ++ final :: rest)
      { uses := [ElementText.useOf name (pairs.map ElementText.element)] } rest := by
  have more : rest ≠ [] := by
    obtain ⟨item, later, rfl, -⟩ := lacks
    simp
  have found : Gives (modifiers budget)
      (ElementText.openChunks name (pairs.map ElementText.elementChunks) ++ final :: rest)
      { uses := [ElementText.useOf name (pairs.map ElementText.element)] } rest := by
    have last (rounds : Nat) : Gives (many (modifier? budget) rounds) rest [] rest :=
      many_gives_nil (modifier_gives_nothing unmodified)
    exact (many_gives_cons (modifier_gives_use plain closes more) last).andThen (.pure rfl)
  refine found.andThen (Finds.no (isNext_no (lacks.mono (by simp [preambleKinds]))) ?_)
  exact (Finds.pure rfl).andThen (.pure rfl)

def emptyClass (className : String) : List (Chunk source) :=
  [{ sign := .keyword .classKw, spaced := true },
    { sign := .word className.toList, spaced := true },
    { sign := .mark .leftBrace, spaced := true }, { sign := .mark .rightBrace }, { sign := .ended }]

def annotatedClass (name : String) (pairs : List (String × ElementText)) (className : String) :
    List (Chunk source) :=
  ElementText.openChunks name (pairs.map ElementText.elementChunks) ++
    { sign := .mark .rightParen, spaced := true } :: emptyClass className

theorem annotatedClass_finds (plain : (ElementText.nested name pairs).IsPlain)
    (isClass : IsPlainWord className.toList) (budget : Nat) :
    Finds (compilationUnit budget) (annotatedClass name pairs className : List (Chunk source))
      (· = ⟨⟩) (classTold [ElementText.useOf name (pairs.map ElementText.element)]
        { name := className, kind := .ordinary, line := 1 } []) [{ sign := .ended }] := by
  have opening : ClassOpening (emptyClass className : List (Chunk source))
      { name := className, kind := .ordinary, line := 1 }
      [{ sign := .mark .rightBrace }, { sign := .ended }] := by
    refine classOpening_of_class rfl ?_ rfl
    rw [TokenView.sign_chunk, word_of_plain isClass, String.ofList_toList]
  refine compilationUnit_finds opening (preamble_gives_use plain rfl ?_ ?_)
    (fun _ => members_end_finds rfl) rfl
  · exact unmodified_of_other ⟨by simp [Sign.keyword], rfl, by simp [Sign.keyword],
      by simp [Sign.keyword]⟩
  · exact .cons (by simp [Sign.keyword, preambleKinds])

end Classes

end ReadM

/-! ### Texts -/

section Texts

variable {name className : String} {pairs : List (String × ElementText)} {source : List Char}

open Chunk ReadM

theorem textOf_annotatedClass (plain : (ElementText.nested name pairs).IsPlain) :
    textOf (annotatedClass name pairs className : List (Chunk source)) =
      ((ElementText.nested name pairs).text ++ " class " ++ className ++ " \x7b \x7d").toList := by
  have last : textOf (({ sign := .mark .rightParen, spaced := true } : Chunk source) ::
      emptyClass className) = [')'] ++ (" class " ++ className ++ " \x7b \x7d").toList := by
    simp [emptyClass, textOf_cons, Sign.mark, Mark.spelling, Sign.keyword, Keyword.spelling,
      Sign.toList_word, Sign.ended]
  cases plain with
  | nested _ _ _ values =>
      have each : ∀ pair ∈ pairs,
          textOf (pair.2.chunks : List (Chunk source)) = pair.2.text.toList :=
        fun pair member => (values pair member).textOf_chunks
      have opened := ElementText.textOf_openChunks name each
      rw [annotatedClass, textOf_append, last, ← List.append_assoc, opened, ElementText.text_nested]
      simp [String.toList_append]

theorem laid_emptyClass (isClass : IsPlainWord className.toList) :
    Laid (emptyClass className : List (Chunk source)) := by
  have isWord : Lexeme.isWord "class".toList = true := by decide
  have same : Sign.word "class".toList = .keyword .classKw := by decide
  have body : Laid [({ sign := .mark .leftBrace, spaced := true } : Chunk source),
      { sign := .mark .rightBrace }, { sign := .ended }] :=
    ElementText.laid_mark true (by decide) (ElementText.laid_mark false (by decide) .ended)
  have named := Laid.word true isClass.1 (.cons (by decide) (by decide)) body
  have whole := Laid.word true isWord (.cons (by decide) (by decide)) named
  rwa [same] at whole

theorem laid_annotatedClass (plain : (ElementText.nested name pairs).IsPlain)
    (isClass : IsPlainWord className.toList) :
    Laid (annotatedClass name pairs className : List (Chunk source)) := by
  cases plain with
  | nested isName keys _ values =>
      refine ElementText.laid_openChunks isName keys (fun pair member => (values pair member).laid)
        (ElementText.closesValue_mark true _ (by decide)) ?_
      exact ElementText.laid_mark true (by decide) (laid_emptyClass isClass)

/-- An annotation is read back from its text in front of a class, with a comma behind the last
value of an array or without. -/
theorem annotations_are_read_back (plain : (ElementText.nested name pairs).IsPlain)
    (isClass : IsPlainWord className.toList) :
    readUnit
        ((ElementText.nested name pairs).text ++ " class " ++ className ++ " \x7b \x7d").toList =
      ([.annotated { type := { name }, values := pairs.map ElementText.element, line := 1 },
        .beginClass { name := className, kind := .ordinary, line := 1 }, .endClass], none) := by
  refine readUnit_of_laid ?_ (laid_annotatedClass plain isClass)
    (textOf_annotatedClass plain) (annotatedClass_finds plain isClass _)
  simp [ElementText.text_nested, ElementText.annotationText, TokenStream.byteOrderMark]

/-- Elements with values of all kinds. -/
def ofAllKinds : List (String × ElementText) :=
  [("text", .literal "\", )\""),
    ("some", .array [.literal "true", .literal "'\x7d'", .array [] false] true),
    ("type", .classLiteral "int" 2), ("entry", .classLiteral "Map.Entry" 0),
    ("mode", .constant "Mode.all"), ("inner", .nested "b.Use" [("use", .nested "Use" [])])]

theorem ofAllKinds_isPlain : (ElementText.nested "a.Use" ofAllKinds).IsPlain := by
  refine .nested (by decide) (by decide) (by decide) ?_
  simp only [ofAllKinds, List.forall_mem_cons, List.not_mem_nil, IsEmpty.forall_iff, implies_true,
    and_true]
  refine ⟨.literal (by decide +kernel), .array (by simp) ?_, .classLiteral (by decide),
    .classLiteral (by decide), .constant (by decide),
    .nested (by decide) (by decide) (by decide) ?_⟩
  · simp only [List.forall_mem_cons, List.not_mem_nil, IsEmpty.forall_iff, implies_true, and_true]
    exact ⟨.literal (by decide +kernel), .literal (by decide +kernel), .array (by simp) (by simp)⟩
  · simpa using .nested (by decide) (by simp) (by simp) (by simp)

/-- Values of all kinds, with a comma behind the last value of an array. -/
theorem nested_annotation_is_read_back :
    readUnit ("@a.Use(text = \", )\", some = \x7btrue, '\x7d', \x7b\x7d,\x7d, " ++
      "type = int[][].class, entry = Map.Entry.class, mode = Mode.all, " ++
        "inner = @b.Use(use = @Use())) class C \x7b \x7d").toList =
      ([.annotated
          { type := { name := "a.Use" }
            values :=
              [("text", .constant "\", )\""),
                ("some", .array [.constant "true", .constant "'\x7d'", .array []]),
                ("type", .classLiteral { name := "int", dims := 2 }),
                ("entry", .classLiteral { name := "Map.Entry" }),
                ("mode", .expression "Mode.all"),
                ("inner", .nested
                  { type := { name := "b.Use" }
                    values :=
                      [("use", .nested { type := { name := "Use" }, values := [], line := 1 })]
                    line := 1 })]
            line := 1 },
        .beginClass { name := "C", kind := .ordinary, line := 1 }, .endClass], none) := by
  have text : (ElementText.nested "a.Use" ofAllKinds).text ++ " class " ++ "C" ++ " \x7b \x7d" =
      "@a.Use(text = \", )\", some = \x7btrue, '\x7d', \x7b\x7d,\x7d, " ++
        "type = int[][].class, entry = Map.Entry.class, mode = Mode.all, " ++
          "inner = @b.Use(use = @Use())) class C \x7b \x7d" := by
    rfl
  have isClass : IsPlainWord "C".toList := by decide
  rw [← text]
  exact annotations_are_read_back ofAllKinds_isPlain isClass

end Texts

end JavaDecl
