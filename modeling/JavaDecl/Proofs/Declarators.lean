import JavaDecl.Proofs.FittingDeclarations

/-!
# Declarators

A declarator is a name, pairs of brackets and perhaps an initial value.  A field declaration
ends in declarators with commas between them, and each of them is announced as a field of its
own, with all the annotations in front of it.
-/

namespace JavaDecl

/-- Pairs of brackets one after the other. -/
inductive BracketPairs : Nat → List Char → List Char → Prop where
  | none {text : List Char} : BracketPairs 0 text text
  | pair {count : Nat} {text rest : List Char} {opening closing : Head} :
      Head.of? text = some opening → opening.kind = .mark .leftBracket →
        Head.of? opening.rest = some closing → closing.kind = .mark .rightBracket →
          BracketPairs count closing.rest rest → BracketPairs (count + 1) text rest

abbrev declaratorEnds : List Mark := [.comma, .semicolon]

/-- An initial value runs as far as an expression. -/
abbrev RunsAsExpression : List Char → List Char → Prop := Extends declaratorEnds 0

/-- The initial value of a variable, up to where its declarator ends.  What the value runs
through is a relation between the text that starts with it and what is behind it. -/
inductive Initialized (runs : List Char → List Char → Prop) :
    Option (List Char) → List Char → List Char → Prop where
  | without {text : List Char} : Initialized runs none text text
  /-- The value runs from the first token behind the equals sign up to the end of the
  expression. -/
  | value {text slice rest : List Char} {equals first : Head} :
      Head.of? text = some equals → equals.kind = .mark .assign →
        Head.of? equals.rest = some first → first.slice ++ first.rest = slice ++ rest →
          slice ≠ [] → runs (slice ++ rest) rest → Initialized runs (some slice) text rest

/-- A variable as it is declared in a list of them. -/
structure Declarator where
  name : String
  /-- The number of pairs of brackets behind the name. -/
  pairs : Nat
  /-- The initial value as it is written. -/
  initializer : Option (List Char)

namespace Declarator

variable {runs : List Char → List Char → Prop}

/-- A declarator spans the front of a text. -/
inductive Spans (runs : List Char → List Char → Prop) :
    Declarator → List Char → List Char → Prop where
  | intro {name : Head} {pairs : Nat} {initializer : Option (List Char)}
      {text mid rest : List Char} : Head.of? text = some name → name.kind = .identifier →
        BracketPairs pairs name.rest mid → Initialized runs initializer mid rest →
          Spans runs { name := name.text, pairs, initializer } text rest

theorem Spans.initialized {declared : Declarator} {text rest : List Char}
    (spans : Spans runs declared text rest) :
    ∃ mid, Initialized runs declared.initializer mid rest := by
  cases spans with
  | intro _ _ _ initialized => exact ⟨_, initialized⟩

/-- A declarator stands in a text, up to the comma or semicolon that ends it. -/
structure At (runs : List Char → List Char → Prop) (declared : Declarator)
    (text rest : List Char) : Prop where
  spans : Spans runs declared text rest
  ends : ∃ last, Head.of? rest = some last ∧
    (last.kind = .mark .comma ∨ last.kind = .mark .semicolon)

/-- The variable that is declared, of some type and with some modifier words. -/
def decl (declared : Declarator) (words : List String) (type : TypeExpr) (line : Nat) :
    VariableDecl where
  name := declared.name
  type := type.addDims declared.pairs
  modifiers := words
  initializer := declared.initializer.map String.ofList
  line := line

def events (declared : Declarator) (modifiers : ReadM.Modifiers) (type : TypeExpr) (line : Nat) :
    List Event :=
  annotating modifiers.uses ++
    [.beginField (declared.decl modifiers.words type line), .endField]

end Declarator

/-- Declarators with commas between them, and the semicolon behind them. -/
inductive Declarators (runs : List Char → List Char → Prop) :
    List Declarator → List Char → List Char → Prop where
  | last {declared : Declarator} {text rest : List Char} {semicolon : Head} :
      declared.At runs text rest → Head.of? rest = some semicolon →
        semicolon.kind = .mark .semicolon → Declarators runs [declared] text semicolon.rest
  | more {declared : Declarator} {others : List Declarator} {text mid rest : List Char}
      {comma : Head} : declared.At runs text mid → Head.of? mid = some comma →
        comma.kind = .mark .comma → Declarators runs others comma.rest rest →
          Declarators runs (declared :: others) text rest

theorem Declarators.first_at {runs : List Char → List Char → Prop} {declared : Declarator}
    {others : List Declarator} {text rest : List Char}
    (chain : Declarators runs (declared :: others) text rest) :
    ∃ mid, declared.At runs text mid := by
  cases chain with
  | last stands => exact ⟨_, stands⟩
  | more stands => exact ⟨_, stands⟩

/-- The event of a variable whose initial value stands in a declarator of the source. -/
def Event.IsInitialized (source : List Char) (event : Event) : Prop :=
  ∀ declared text, event = .beginField declared → declared.initializer = some text →
    ∃ (declarator : Declarator) (place rest : List Char), place <:+ source ∧
      declarator.At RunsAsExpression place rest ∧ declarator.name = declared.name ∧
        declarator.initializer.map String.ofList = some text

namespace ReadM

variable {strict : Prop} {source text mid rest : List Char} {head next last : Head}
  {budget rounds count line : Nat} {modifiers : Modifiers} {type : TypeExpr} {name : String}
  {declared : Declarator} {others : List Declarator}

/-! ### Pairs of brackets -/

theorem dimensionsPart_takes (found : Head.of? text = some head)
    (opens : head.kind = .mark .leftBracket) (further : Head.of? head.rest = some next)
    (closes : next.kind = .mark .rightBracket) :
    Reads strict source dimensions.part text (some ⟨⟩) next.rest :=
  .yes (.both (isNext_reads found (by simp [opens]))
      (isSecond_reads found further (by simp [opens]) (by simp [closes])))
    ((takeMany_leads (.cons found (.single further))).meet fun _ _ => .pure ⟨rfl, rfl, rfl⟩)

theorem dimensionsPart_leaves (found : Head.of? text = some head)
    (other : head.kind ≠ .mark .leftBracket) :
    Reads strict source dimensions.part text none text :=
  .no (.notBoth (isNext_reads found (by simpa using other))) (.pure ⟨rfl, rfl, rfl⟩)

theorem dimensions_reads (pairs : BracketPairs count text rest) (found : Head.of? rest = some head)
    (other : head.kind ≠ .mark .leftBracket) :
    Reads strict source (dimensions budget) text count rest := by
  suffices all : ∀ budget,
      Reads strict source (many dimensions.part budget) text (.replicate count ⟨⟩) rest from
    (all budget).andThen (.pure ⟨List.length_replicate, rfl, rfl⟩)
  induction pairs with
  | none => exact fun budget => many_ends (dimensionsPart_leaves found other)
  | pair opening opens closing closes _ ih =>
      exact fun budget => many_goesOn (dimensionsPart_takes opening opens closing closes) (ih found)

theorem isSecond_fails {kind : TokenKind} {post : Bool → List Char → List Event → Prop}
    (found : Head.of? text = some head) (none : Head.of? head.rest = none) :
    Leads False source (isAt 1 kind) text post := by
  refine .failing ((peek_finds_heads 1 text).bind
    fun _ _ _ ⟨_, _, front, second, _, chain, one, _⟩ => ?_)
  obtain ⟨first, rfl⟩ := List.length_eq_one_iff.mp one
  cases chain with
  | cons found' chain =>
      obtain rfl := Option.some.inj (found.symm.trans found')
      cases chain with
      | cons further _ => cases none.symm.trans further

theorem dimensions_finds :
    Leads False source (dimensions budget) text fun count rest told =>
      told = [] ∧ BracketPairs count text rest := by
  suffices all : Leads False source (many dimensions.part budget) text fun found rest told =>
      told = [] ∧ BracketPairs found.length text rest from
    all.bind fun found rest told ⟨quiet, pairs⟩ => by
      subst quiet
      exact .pure ⟨rfl, pairs⟩
  induction budget generalizing text with
  | zero => exact .exhausted
  | succ budget ih =>
      have ends (found : Reads False source dimensions.part text none text) :
          Leads False source (many dimensions.part (budget + 1)) text fun found rest told =>
            told = [] ∧ BracketPairs found.length text rest :=
        found.andThen (.pure ⟨rfl, .none⟩)
      cases found : Head.of? text with
      | none => exact .failing (.failing (.failing (isNext_fails found)))
      | some head =>
          by_cases opens : head.kind = .mark .leftBracket
          · cases further : Head.of? head.rest with
            | none =>
                have asked : Reads False source (isNext (.mark .leftBracket)) text true text :=
                  isNext_reads found (by simp [opens])
                exact .failing (.failing (asked.andThen (isSecond_fails found further)))
            | some next =>
                by_cases closes : next.kind = .mark .rightBracket
                · refine (dimensionsPart_takes found opens further closes).andThen ?_
                  refine ih.bind fun found rest told ⟨quiet, pairs⟩ => ?_
                  subst quiet
                  exact .pure ⟨rfl, .pair ‹_› opens further closes pairs⟩
                · exact ends (.no (.both (isNext_reads found (by simp [opens]))
                    (isSecond_reads found further (by simp [opens]) (by simpa using closes)))
                    (.pure ⟨rfl, rfl, rfl⟩))
          · exact ends (dimensionsPart_leaves found opens)

/-! ### Declarators -/

theorem announced_delivers (declared : Declarator) :
    Delivers strict source (emitAnnotations modifiers.uses >>= fun _ =>
      emit (.beginField (declared.decl modifiers.words type line)) >>= fun _ => emit .endField)
      text ⟨⟩ text (declared.events modifiers type line) :=
  (emitAnnotations_delivers _).append ((emit_delivers rfl).append (emit_delivers rfl))

theorem declarator_delivers (stands : declared.At RunsAsExpression text rest)
    (found : Head.of? text = some head) :
    Delivers strict source (declarator budget modifiers type line head.text) head.rest ⟨⟩ rest
      (declared.events modifiers type line) := by
  obtain ⟨⟨found', isName, pairs, initialized⟩, last, ended, ends⟩ := stands
  obtain rfl := Option.some.inj (found.symm.trans found')
  cases initialized with
  | without =>
      have other (kind : TokenKind) (isComma : kind ≠ .mark .comma)
          (isSemicolon : kind ≠ .mark .semicolon) : last.kind ≠ kind := by
        rintro rfl
        exact ends.elim isComma isSemicolon
      exact (dimensions_reads pairs ended (other (.mark .leftBracket) nofun nofun)).andThen
        ((accept_leaves_head ended (other (.mark .assign) nofun nofun)).andThen
          (announced_delivers _))
  | value found assign first split content along =>
      exact (dimensions_reads pairs found (by simp [assign])).andThen
        ((accept_takes_head found assign).andThen
          (((expressionText_reads first split content along).map rfl).andThen
            (announced_delivers _)))

/-- What is announced of a declarator is what stands there. -/
theorem declarator_spans (found : Head.of? text = some head) (isName : head.kind = .identifier) :
    Leads False source (declarator budget modifiers type line head.text) head.rest
      fun _ rest told => ∃ declared : Declarator, declared.Spans RunsAsExpression text rest ∧
        told = declared.events modifiers type line := by
  refine dimensions_finds.bind fun count mid told ⟨quiet, pairs⟩ => ?_
  subst quiet
  refine (accept_finds (.mark .assign)).bind
    fun answer behind told ⟨quiet, equals, found', is⟩ => ?_
  subst quiet
  rcases is with ⟨rfl, assign, rfl⟩ | ⟨rfl, -, rfl⟩
  · have valued : Leads False source (some <$> expressionText budget declaratorEnds) equals.rest
        fun value rest told => told = [] ∧ ∃ slice, value = some (String.ofList slice) ∧
          Initialized RunsAsExpression (some slice) mid rest := by
      rw [map_eq_pure_bind]
      refine (expressionText_leads nofun).bind fun written rest told
        ⟨quiet, first, slice, further, is, split, content, along⟩ => ?_
      subst quiet is
      exact .pure ⟨rfl, slice, rfl, .value found' assign further split content along⟩
    refine valued.bind fun value rest told ⟨quiet, slice, is, initialized⟩ => ?_
    subst quiet is
    exact (announced_delivers { name := head.text, pairs := count, initializer := slice }).mono
      fun _ _ _ ⟨_, left, said⟩ => ⟨_, left ▸ .intro found isName pairs initialized, said⟩
  · exact (announced_delivers { name := head.text, pairs := count, initializer := none }).mono
      fun _ _ _ ⟨_, left, said⟩ => ⟨_, left ▸ .intro found isName pairs .without, said⟩

/-! ### Field declarations -/

theorem fieldPart_delivers (found : Head.of? text = some head) (comma : head.kind = .mark .comma)
    (stands : declared.At RunsAsExpression head.rest rest) :
    Delivers strict source (fieldRest.part budget modifiers type line) text (some ⟨⟩) rest
      (declared.events modifiers type line) := by
  cases stands.spans with
  | intro named isName =>
      exact Leads.andThen (accept_takes_head found comma) ((identifier_reads named isName).andThen
        ((declarator_delivers stands named).changed fun _ => some ()))

theorem fieldPart_leaves (found : Head.of? text = some head) (other : head.kind ≠ .mark .comma) :
    Reads strict source (fieldRest.part budget modifiers type line) text none text :=
  .no (accept_leaves_head found other) (.pure ⟨rfl, rfl, rfl⟩)

/-- The declarators behind the first one are announced one after the other. -/
theorem fieldParts_deliver (strict : Prop) (source : List Char) (modifiers : Modifiers)
    (type : TypeExpr) (line : Nat) {all : List Declarator}
    (chain : Declarators RunsAsExpression all text rest) :
    ∃ declared others mid last semicolon, all = declared :: others ∧
      declared.At RunsAsExpression text mid ∧ Head.of? last = some semicolon ∧
        semicolon.kind = .mark .semicolon ∧ rest = semicolon.rest ∧
        ∀ budget rounds, Delivers strict source (many (fieldRest.part budget modifiers type line)
          rounds) mid (.replicate others.length ⟨⟩) last
            (others.flatMap (·.events modifiers type line)) := by
  induction chain with
  | last stands found semicolon =>
      exact ⟨_, [], _, _, _, rfl, stands, found, semicolon, rfl, fun budget rounds =>
        many_ends (fieldPart_leaves found (by simp [semicolon]))⟩
  | more stands found comma _ ih =>
      obtain ⟨declared, others, mid, last, semicolon, rfl, next, found', ends, left, parts⟩ := ih
      exact ⟨_, _, _, _, _, rfl, stands, found', ends, left, fun budget rounds =>
        many_goesOn (fieldPart_delivers found comma next) (parts budget)⟩

/-- A field declaration is announced declarator by declarator. -/
theorem fieldRest_delivers {all : List Declarator}
    (chain : Declarators RunsAsExpression all text rest) (found : Head.of? text = some head) :
    Delivers strict source (fieldRest budget modifiers type line head.text) head.rest ⟨⟩ rest
      (all.flatMap (·.events modifiers type line)) := by
  obtain ⟨declared, others, mid, last, semicolon, rfl, stands, found', ends, rfl, parts⟩ :=
    fieldParts_deliver strict source modifiers type line chain
  have closing : Reads strict source (expectMark .semicolon "';' after field declaration" >>=
      fun _ => pure ()) last () semicolon.rest :=
    (expect_leads found' ends).meet fun _ _ => .pure ⟨rfl, rfl, rfl⟩
  have further : Delivers strict source (many (fieldRest.part budget modifiers type line) budget >>=
      fun _ => expectMark .semicolon "';' after field declaration" >>= fun _ => pure ()) mid ()
      semicolon.rest (others.flatMap (·.events modifiers type line) ++ []) :=
    Leads.append (parts budget budget) closing
  rw [List.append_nil] at further
  exact (declarator_delivers stands found).append further

/-- The events of a declarator that stands in the source fit. -/
theorem isInitialized_of_mem_events (inside : text <:+ source)
    (stands : declared.At RunsAsExpression text rest)
    {event : Event} (member : event ∈ declared.events modifiers type line) :
    event.IsInitialized source := by
  intro field value is valued
  subst is
  obtain ⟨use, -, is⟩ | rfl : (∃ use ∈ modifiers.uses, Event.annotated use = .beginField field) ∨
      field = declared.decl modifiers.words type line := by
    simpa [Declarator.events, annotating] using member
  · cases is
  · exact ⟨declared, text, rest, inside, stands, rfl, valued⟩

theorem fieldPart_finds :
    Leads False source (fieldRest.part budget modifiers type line) text fun found rest told =>
      found = none ∧ rest = text ∧ told = [] ∨ found = some () ∧
        ∃ comma, ∃ declared : Declarator, Head.of? text = some comma ∧
          comma.kind = .mark .comma ∧ declared.Spans RunsAsExpression comma.rest rest ∧
            told = declared.events modifiers type line := by
  refine (accept_finds _).bind fun answer mid told ⟨quiet, comma, found, is⟩ => ?_
  subst quiet
  rcases is with ⟨rfl, isComma, rfl⟩ | ⟨rfl, -, rfl⟩
  · refine identifier_finds.bind fun name mid told ⟨quiet, head, named, isName, same, left⟩ => ?_
    subst quiet same left
    refine (declarator_spans named isName).bind fun _ rest told ⟨declared, spans, said⟩ => ?_
    exact .pure (.inr ⟨rfl, comma, declared, found, isComma, spans, by simp [said]⟩)
  · exact .pure (.inl ⟨rfl, rfl, rfl⟩)

theorem fieldParts_find {message : String} :
    Leads False source (many (fieldRest.part budget modifiers type line) rounds >>=
      fun _ => expectMark .semicolon message >>= fun _ => pure ()) text fun _ rest told =>
        ∃ others : List Declarator, told = others.flatMap (·.events modifiers type line) ∧
          (∀ declared start, declared.Spans RunsAsExpression start text →
            Declarators RunsAsExpression (declared :: others) start rest) ∧
          ∀ declared ∈ others, ∃ place behind, place <:+ source ∧
            declared.At RunsAsExpression place behind := by
  induction rounds generalizing text with
  | zero => exact .failing .exhausted
  | succ rounds ih =>
      rw [many, bind_assoc]
      refine Leads.within fun inside => fieldPart_finds.bind fun found mid told is => ?_
      rcases is with ⟨rfl, rfl, rfl⟩ | ⟨rfl, comma, declared, found, isComma, spans, rfl⟩
      · refine (expect_finds_head _ _).bind fun _ _ told ⟨quiet, head, found, isEnd, _, left⟩ => ?_
        subst quiet left
        exact .pure ⟨[], rfl, fun declared start spans =>
          .last ⟨spans, head, found, .inr isEnd⟩ found isEnd, nofun⟩
      · have further : Leads False source (many (fieldRest.part budget modifiers type line)
            rounds >>= fun others => pure (() :: others) >>= fun _ =>
              expectMark .semicolon message >>= fun _ => pure ()) mid _ := ih
        rw [bind_assoc]
        refine further.mono fun _ rest told ⟨others, is, chain, places⟩ => ?_
        have behind := chain declared comma.rest spans
        refine ⟨declared :: others, by rw [is, List.flatMap_cons], fun first start one =>
          .more ⟨one, comma, found, .inl isComma⟩ found isComma behind, ?_⟩
        obtain ⟨place, stands⟩ := behind.first_at
        exact List.forall_mem_cons.mpr
          ⟨⟨comma.rest, place, (Head.suffix_rest found).trans inside, stands⟩, places⟩

/-- What is announced of a field declaration are its declarators, one after the other. -/
theorem fieldRest_reads_declarators (inside : text <:+ source) (found : Head.of? text = some head)
    (isName : head.kind = .identifier) :
    Leads False source (fieldRest budget modifiers type line head.text) head.rest
      fun _ rest told => ∃ all : List Declarator, Declarators RunsAsExpression all text rest ∧
        told = all.flatMap (·.events modifiers type line) ∧
        ∀ declared ∈ all, ∃ place behind, place <:+ source ∧
          declared.At RunsAsExpression place behind := by
  refine (declarator_spans found isName).bind fun _ mid told ⟨declared, spans, said⟩ => ?_
  refine fieldParts_find.mono fun _ rest more ⟨others, is, chain, places⟩ => ?_
  have whole := chain declared text spans
  obtain ⟨place, stands⟩ := whole.first_at
  exact ⟨declared :: others, whole, by rw [said, is, List.flatMap_cons],
    List.forall_mem_cons.mpr ⟨⟨text, place, inside, stands⟩, places⟩⟩

/-- The initial values of fields stand in their declarators. -/
theorem fieldsFit (source : List Char) : FieldsFit (Event.IsInitialized source) source where
  plain event plain declared text is valued := by
    rw [is, Event.isValued, valued] at plain
    cases plain
  fieldRest inside found isName := by
    refine (fieldRest_reads_declarators inside found isName).mono ?_
    rintro _ _ _ ⟨all, -, rfl, places⟩ event member
    obtain ⟨declared, inside, told⟩ := List.mem_flatMap.mp member
    obtain ⟨place, behind, within, stands⟩ := places declared inside
    exact isInitialized_of_mem_events within stands told

end ReadM

end JavaDecl
