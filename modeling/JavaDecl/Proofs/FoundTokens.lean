import JavaDecl.Proofs.FieldDeclarations

/-!
# What is found in a text

A part of the grammar that is read without a fault has found something in front of the text that
it leaves.  The rules here are about looking at tokens and taking them: they say which tokens the
text has where the reading goes on.
-/

namespace JavaDecl.ReadM

variable {α β : Type} {source text mid : List Char} {head : Head} {kind other : TokenKind}
  {last : β → List Char → List Event → Prop} {budget : Nat}

theorem ite_bind {condition : Prop} [Decidable condition] (yes no : ReadM α) (next : α → ReadM β) :
    (if condition then yes else no) >>= next =
      if condition then yes >>= next else no >>= next := by
  split <;> rfl

/-- What a part that announces nothing finds, if it does not fail. -/
abbrev Detects (source : List Char) (part : ReadM α) (text : List Char)
    (post : α → List Char → Prop) : Prop :=
  Leads False source part text fun value rest told => told = [] ∧ post value rest

namespace Leads

theorem find {part : ReadM α} {next : α → ReadM β} {post : α → List Char → Prop}
    (first : Detects source part text post)
    (second : ∀ value mid, post value mid → Leads False source (next value) mid last) :
    Leads False source (part >>= next) text last :=
  first.bind fun value mid told ⟨quiet, holds⟩ => by
    subst quiet
    exact second value mid holds

theorem give {value : α} {post : α → List Char → Prop} (holds : post value text) :
    Detects source (Pure.pure value) text post :=
  .pure ⟨rfl, holds⟩

theorem imp {part : ReadM α} {post other : α → List Char → Prop}
    (first : Detects source part text post)
    (holds : ∀ value rest, post value rest → other value rest) :
    Detects source part text other :=
  first.mono fun value rest _ found => ⟨found.1, holds value rest found.2⟩

/-! ### Looking at tokens -/

theorem peekBehind {front : List Head} (chain : Heads text front mid) {next : Token → ReadM β}
    (rest : ∀ token head, Head.of? mid = some head → token.IsHead source head →
      Leads False source (next token) text last) :
    Leads False source (peek front.length >>= next) text last := by
  refine (peek_finds_heads front.length text).bind fun token rest told ⟨left, quiet, others, head,
    _, whole, same, isHead⟩ => ?_
  subst left quiet
  obtain ⟨behind, one, single⟩ := whole.split
  obtain rfl := one.unique chain same
  cases single with
  | cons found _ => exact rest token head found isHead

theorem lookBehind {front : List Head} (chain : Heads text front mid) {next : TokenKind → ReadM β}
    (rest : ∀ head, Head.of? mid = some head → Leads False source (next head.kind) text last) :
    Leads False source (kindAt front.length >>= next) text last := by
  rw [kindAt, bind_assoc]
  refine peekBehind chain fun token head found isHead => ?_
  rw [pure_bind, isHead.kind]
  exact rest head found

theorem askWord {front : List Head} (chain : Heads text front mid) (word : String)
    {next : Bool → ReadM β} (rest : ∀ head, Head.of? mid = some head →
      Leads False source (next (head.kind == .identifier && head.text == word)) text last) :
    Leads False source (isWordAt front.length word >>= next) text last := by
  rw [isWordAt, bind_assoc]
  refine peekBehind chain fun token head found isHead => ?_
  rw [pure_bind, isHead.kind, isHead.text]
  exact rest head found

theorem look {next : TokenKind → ReadM β}
    (rest : ∀ head, Head.of? text = some head → Leads False source (next head.kind) text last) :
    Leads False source (kindAt 0 >>= next) text last :=
  lookBehind .nil rest

theorem lookSecond (found : Head.of? text = some head) {next : TokenKind → ReadM β}
    (rest : ∀ second, Head.of? head.rest = some second →
      Leads False source (next second.kind) text last) :
    Leads False source (kindAt 1 >>= next) text last :=
  lookBehind (.single found) rest

theorem line {next : Nat → ReadM β}
    (rest : ∀ head, Head.of? text = some head →
      Leads False source (next (firstLine source text)) text last) :
    Leads False source (nextLine >>= next) text last := by
  cases found : Head.of? text with
  | none => exact .failing (.failing (peek_fails found))
  | some head => exact (nextLine_reads_first found).andThen (rest head found)

theorem ask (kind : TokenKind) {next : Bool → ReadM β}
    (rest : ∀ head, Head.of? text = some head →
      Leads False source (next (head.kind == kind)) text last) :
    Leads False source (isNext kind >>= next) text last := by
  rw [isNext, isAt, bind_assoc]
  exact look fun head found => by simpa only [pure_bind] using rest head found

theorem ifNext {yes no : ReadM β}
    (held : ∀ head, Head.of? text = some head → head.kind = kind → Leads False source yes text last)
    (failed : ∀ head, Head.of? text = some head → head.kind ≠ kind →
      Leads False source no text last) :
    Leads False source (isNext kind >>= fun answer => if answer then yes else no) text last := by
  refine ask kind fun head found => ?_
  split
  · next same => exact held head found (eq_of_beq same)
  · next differ => exact failed head found (by simpa using differ)

theorem and_eq (one two : ReadM Bool) :
    (one <&&> two) = one >>= fun answer => if answer then two else Pure.pure false :=
  bind_congr fun answer => by cases answer <;> rfl

theorem askBoth {next : Bool → ReadM β}
    (held : ∀ head second, Head.of? text = some head → head.kind = kind →
      Head.of? head.rest = some second → second.kind = other →
        Leads False source (next true) text last)
    (failed : ∀ head, Head.of? text = some head → (head.kind = kind →
      ∃ second, Head.of? head.rest = some second ∧ second.kind ≠ other) →
        Leads False source (next false) text last) :
    Leads False source ((isNext kind <&&> isAt 1 other) >>= next) text last := by
  rw [and_eq, bind_assoc]
  refine ask kind fun head found => ?_
  cases same : head.kind == kind with
  | true =>
      rw [if_pos rfl, isAt, bind_assoc]
      refine lookSecond found fun second further => ?_
      rw [pure_bind]
      cases is : second.kind == other with
      | true => exact held head second found (eq_of_beq same) further (eq_of_beq is)
      | false => exact failed head found fun _ => ⟨second, further, by simpa using is⟩
  | false =>
      rw [if_neg Bool.false_ne_true, pure_bind]
      exact failed head found fun is => absurd is (by simpa using same)

theorem ifBoth {yes no : ReadM β}
    (held : ∀ head second, Head.of? text = some head → head.kind = kind →
      Head.of? head.rest = some second → second.kind = other → Leads False source yes text last)
    (failed : ∀ head, Head.of? text = some head → (head.kind = kind →
      ∃ second, Head.of? head.rest = some second ∧ second.kind ≠ other) →
        Leads False source no text last) :
    Leads False source ((isNext kind <&&> isAt 1 other) >>= fun answer =>
      if answer then yes else no) text last :=
  askBoth held failed

/-! ### Taking tokens -/

theorem takeHead (found : Head.of? text = some head) {next : Token → ReadM β}
    (rest : ∀ token : Token, token.IsHead source head →
      Leads False source (next token) head.rest last) :
    Leads False source (take >>= next) text last :=
  (take_leads found).meet rest

theorem ifAccepted {yes no : ReadM β}
    (taken : ∀ head, Head.of? text = some head → head.kind = kind →
      Leads False source yes head.rest last)
    (left : ∀ head, Head.of? text = some head → head.kind ≠ kind →
      Leads False source no text last) :
    Leads False source (accept kind >>= fun answer => if answer then yes else no) text last := by
  refine find (accept_finds kind) ?_
  rintro _ _ ⟨head, found, ⟨rfl, same, rfl⟩ | ⟨rfl, differ, rfl⟩⟩
  · exact taken head found same
  · exact left head found differ

theorem expect {expected : String} {next : Token → ReadM β}
    (rest : ∀ token head, Head.of? text = some head → head.kind = kind →
      token.IsHead source head → Leads False source (next token) head.rest last) :
    Leads False source (ReadM.expect kind expected >>= next) text last :=
  find (expect_finds_head kind expected) fun token _ ⟨head, found, same, isHead, left⟩ => by
    subst left
    exact rest token head found same isHead

theorem name {next : String → ReadM β}
    (rest : ∀ name, Head.of? text = some name → name.kind = .identifier →
      Leads False source (next name.text) name.rest last) :
    Leads False source (identifier >>= next) text last :=
  find identifier_finds fun _ _ ⟨name, found, isName, same, left⟩ => by
    subst same left
    exact rest name found isName

end Leads

/-! ### Names -/

theorem qualifiedNamePart_detects (found : Head.of? text = some head)
    (isName : head.kind = .identifier) :
    Detects source qualifiedName.part head.rest fun part rest =>
      part = none ∧ rest = head.rest ∧ NameText [head.text] text head.rest ∨
        ∃ dot name, Head.of? head.rest = some dot ∧ dot.kind = .mark .dot ∧
          Head.of? dot.rest = some name ∧ name.kind = .identifier ∧ part = some name.text ∧
            rest = name.rest := by
  rw [qualifiedName.part]
  refine .ifBoth (fun dot _ further isDot _ _ => ?_) fun next further ends => ?_
  · exact .takeHead further fun _ _ => .name fun name behind isName' =>
      .give (.inr ⟨dot, name, further, isDot, behind, isName', rfl, rfl⟩)
  · exact .give (.inl ⟨rfl, rfl, .last found isName further ends⟩)

/-- A dotted name is read as far as it goes. -/
theorem qualifiedName_detects : Detects source (qualifiedName budget) text fun name rest =>
    ∃ names, NameText names text rest ∧ name = ".".intercalate names := by
  have parts (rounds : Nat) {text : List Char} {name : Head} (found : Head.of? text = some name)
      (isName : name.kind = .identifier) :
      Detects source (many qualifiedName.part rounds) name.rest fun names rest =>
        NameText (name.text :: names) text rest := by
    induction rounds generalizing text name with
    | zero => exact .exhausted
    | succ rounds ih =>
        refine (qualifiedNamePart_detects found isName).find ?_
        rintro _ _ (⟨rfl, rfl, ended⟩ | ⟨dot, next, further, isDot, behind, isName', rfl, rfl⟩)
        · exact .give ended
        · exact (ih behind isName').find fun names rest named =>
            .give (.more found isName further isDot named)
  exact .name fun name found isName => (parts budget found isName).find
    fun names rest named => .give ⟨_, named, rfl⟩

end JavaDecl.ReadM
