import JavaDecl.Proofs.ClosedAngles

/-!
# Arguments that are comparisons

Arguments that are made of operands and binary operators have commas between them.  A comma ends
an argument, unless it stands between angle brackets that are read as those of type arguments.
-/

namespace JavaDecl

open ReadM AngleLook

/-- Plain names and literals. -/
def TokenKind.isOperand (kind : TokenKind) : Bool :=
  kind == .identifier || kind.isLiteral

/-- The binary operators of a single token. -/
def Mark.operators : List Mark :=
  [.plus, .minus, .star, .slash, .percent, .equal, .notEqual, .less, .greater, .lessEqual,
    .logicalAnd, .logicalOr]

/-- Operands with binary operators between them. -/
inductive IsComparison : List TokenKind → Prop where
  | operand {kind : TokenKind} : kind.isOperand = true → IsComparison [kind]
  | joined {kind : TokenKind} {symbol : Mark} {kinds : List TokenKind} : kind.isOperand = true →
      symbol ∈ Mark.operators → IsComparison kinds → IsComparison (kind :: .mark symbol :: kinds)
  /-- There is no token for "greater or equal". -/
  | atLeast {kind : TokenKind} {kinds : List TokenKind} : kind.isOperand = true →
      IsComparison kinds → IsComparison (kind :: .mark .greater :: .mark .assign :: kinds)

/-- The tokens that comparisons are made of. -/
def TokenKind.mayBeCompared : TokenKind → Bool
  | .mark symbol => symbol == .assign || Mark.operators.contains symbol
  | kind => kind.isOperand

theorem TokenKind.mayBeCompared_of_isOperand {kind : TokenKind} (operand : kind.isOperand = true) :
    kind.mayBeCompared = true := by
  cases kind with
  | mark => cases operand
  | _ => exact operand

theorem IsComparison.mayBeCompared {kinds : List TokenKind} (compared : IsComparison kinds) :
    ∀ kind ∈ kinds, kind.mayBeCompared = true := by
  induction compared with
  | operand isOperand => simpa using TokenKind.mayBeCompared_of_isOperand isOperand
  | joined isOperand among _ ih =>
      refine List.forall_mem_cons.mpr ⟨TokenKind.mayBeCompared_of_isOperand isOperand,
        List.forall_mem_cons.mpr ⟨?_, ih⟩⟩
      simpa [TokenKind.mayBeCompared] using .inr among
  | atLeast isOperand _ ih =>
      exact List.forall_mem_cons.mpr ⟨TokenKind.mayBeCompared_of_isOperand isOperand,
        List.forall_mem_cons.mpr ⟨rfl, List.forall_mem_cons.mpr ⟨rfl, ih⟩⟩⟩

theorem IsComparison.ne_nil {kinds : List TokenKind} (compared : IsComparison kinds) :
    kinds ≠ [] := by
  cases compared <;> nofun

namespace TokenKind

variable {kind other : TokenKind}

theorem ne_of_mayBeCompared (compared : kind.mayBeCompared = true)
    (apart : other.mayBeCompared = false) : kind ≠ other := by
  rintro rfl
  cases compared.symm.trans apart

/-- No token of a comparison ends it, or opens or closes a bracket. -/
theorem goesOn_of_mayBeCompared (compared : kind.mayBeCompared = true) :
    kind.endsExpression [.comma] 0 = false ∧ kind.depthBehind 0 = 0 := by
  cases kind with
  | mark symbol => cases symbol <;> first | exact ⟨rfl, rfl⟩ | cases compared
  | _ => exact ⟨rfl, rfl⟩

end TokenKind

/-! ### Arguments -/

/-- An argument as it is written. -/
structure Argument where
  text : List Char
  /-- The kinds of its tokens. -/
  kinds : List TokenKind

inductive Argument.At : Argument → List Char → List Char → Prop where
  | intro {text slice rest : List Char} {first : Head} {heads : List Head} :
      Head.of? text = some first → first.slice ++ first.rest = slice ++ rest →
        Heads (slice ++ rest) heads rest →
          Argument.At { text := slice, kinds := heads.map Head.kind } text rest

/-- What comes behind an argument: other arguments, with commas in front of them, up to a closing
bracket. -/
inductive ArgumentsBehind : List Argument → List Char → List Char → Prop where
  | ended {text : List Char} {closing : Head} : Head.of? text = some closing →
      closing.kind = .mark .rightParen → ArgumentsBehind [] text text
  | more {text mid rest : List Char} {comma : Head} {argument : Argument}
      {others : List Argument} : Head.of? text = some comma → comma.kind = .mark .comma →
        argument.At comma.rest mid → IsComparison argument.kinds →
          ArgumentsBehind others mid rest → ArgumentsBehind (argument :: others) text rest

/-- Arguments with commas between them, up to a closing bracket. -/
inductive Arguments : List Argument → List Char → List Char → Prop where
  | intro {text mid rest : List Char} {argument : Argument} {others : List Argument} :
      argument.At text mid → IsComparison argument.kinds → ArgumentsBehind others mid rest →
        Arguments (argument :: others) text rest

def kindsBehind : List Argument → List TokenKind
  | [] => [.mark .rightParen]
  | argument :: others => .mark .comma :: (argument.kinds ++ kindsBehind others)

/-- Whether an angle bracket of some argument is closed in one behind it. -/
def areMerged : List Argument → Bool
  | [] => false
  | argument :: others => closesBehind argument.kinds (kindsBehind others) || areMerged others

/-- An expression stands in front of a comma or a bracket. -/
inductive ExpressionAt : List Char → List Char → List Char → Prop where
  | intro {text slice rest : List Char} {first : Head} : Head.of? text = some first →
      first.slice ++ first.rest = slice ++ rest → slice ≠ [] →
        Extends [.comma] 0 (slice ++ rest) rest → ExpressionAt slice text rest

/-- What comes behind an expression: other expressions, with commas in front of them, up to a
closing bracket. -/
inductive ExpressionsBehind : List (List Char) → List Char → List Char → Prop where
  | ended {text : List Char} {closing : Head} : Head.of? text = some closing →
      closing.kind = .mark .rightParen → ExpressionsBehind [] text text
  | more {text slice mid rest : List Char} {comma : Head} {slices : List (List Char)} :
      Head.of? text = some comma → comma.kind = .mark .comma → ExpressionAt slice comma.rest mid →
        ExpressionsBehind slices mid rest → ExpressionsBehind (slice :: slices) text rest

/-- What texts arguments come to: their own if no angle bracket makes one of several. -/
def AreRead (all : List Argument) (slices : List (List Char)) : Prop :=
  if areMerged all then slices.length < all.length else slices = all.map Argument.text

theorem AreRead.length_le {all : List Argument} {slices : List (List Char)}
    (read : AreRead all slices) : slices.length ≤ all.length := by
  unfold AreRead at read
  split at read
  · exact read.le
  · rw [read, List.length_map]

variable {text mid rest : List Char} {heads taken : List Head} {argument : Argument}
  {others : List Argument} {kinds : List TokenKind}

theorem Argument.At.exists_heads (stands : argument.At text rest)
    (compared : IsComparison argument.kinds) :
    ∃ heads, Heads text heads rest ∧ heads.map Head.kind = argument.kinds := by
  cases stands with
  | @intro _ slice _ first heads found split chain =>
      refine ⟨heads, ?_, rfl⟩
      rw [← split] at chain
      generalize whole : first.slice ++ first.rest = text at chain
      cases chain with
      | nil => exact absurd rfl compared.ne_nil
      | cons here chain =>
          rw [← whole, Head.of?_slice found] at here
          obtain rfl := Option.some.inj here
          exact .cons found chain

namespace ArgumentsBehind

theorem exists_heads (behind : ArgumentsBehind others mid rest) :
    ∃ heads closing, Heads mid heads rest ∧ Head.of? rest = some closing ∧
      closing.kind = .mark .rightParen ∧
      kindsBehind others = heads.map Head.kind ++ [.mark .rightParen] := by
  induction behind with
  | ended found closes => exact ⟨[], _, .nil, found, closes, rfl⟩
  | more found comma stands compared _ ih =>
      obtain ⟨heads, closing, chain, last, closes, kinds⟩ := ih
      obtain ⟨heads', chain', same⟩ := stands.exists_heads compared
      refine ⟨_ :: (heads' ++ heads), closing, .cons found (chain'.append chain), last, closes, ?_⟩
      rw [kindsBehind, kinds, ← same, List.map_cons, List.map_append, comma, List.cons_append,
        List.append_assoc]

theorem ends (behind : ArgumentsBehind others mid rest) :
    ∃ head, Head.of? mid = some head ∧ head.kind.endsExpression [.comma] 0 = true := by
  cases behind with
  | ended found closes => exact ⟨_, found, by rw [closes]; rfl⟩
  | more found comma => exact ⟨_, found, by rw [comma]; rfl⟩

/-- Tokens behind an argument end within one of the others. -/
theorem skip (behind : ArgumentsBehind others mid rest) (chain : Heads mid taken text)
    (some : taken ≠ []) (short : taken.length < (kindsBehind others).length) :
    ∃ skipped left heads stop, others = skipped ++ left ∧ skipped ≠ [] ∧ Heads text heads stop ∧
      (∀ head ∈ heads, head.kind.mayBeCompared = true) ∧ ArgumentsBehind left stop rest := by
  induction behind generalizing taken with
  | ended => exact absurd (List.length_eq_zero_iff.mp (Nat.lt_one_iff.mp short)) some
  | @more place mid' rest comma argument others found isComma stands compared behind ih =>
      cases chain with
      | nil => exact absurd rfl some
      | @cons _ _ first taken found' chain =>
          obtain rfl := Option.some.inj (found.symm.trans found')
          obtain ⟨heads, chain', same⟩ := stands.exists_heads compared
          have plain : ∀ head ∈ heads, head.kind.mayBeCompared = true := fun head member =>
            compared.mayBeCompared _ (same ▸ List.mem_map_of_mem member)
          rcases chain.total chain' with ⟨more, rfl, further⟩ | ⟨more, rfl, further⟩
          · exact ⟨[argument], others, more, mid', rfl, by simp, further,
              fun head member => plain head (List.mem_append_right _ member), behind⟩
          · rcases List.eq_nil_or_concat more with rfl | ⟨front, last, rfl⟩
            · exact ⟨[argument], others, [], mid', rfl, by simp, further.eq_of_nil ▸ .nil, by simp,
                behind⟩
            · obtain ⟨skipped, left, heads', stop, rfl, -, landed, plain', behind'⟩ :=
                ih further (by simp) (by
                  rw [kindsBehind, ← same] at short
                  simp only [List.length_cons, List.length_append, List.length_map] at short ⊢
                  omega)
              exact ⟨argument :: skipped, left, heads', stop, rfl, by simp, landed, plain', behind'⟩

end ArgumentsBehind

/-- An expression extends through some tokens of an argument to its end, or on to the end of one of
the others behind it.  It is the latter if an angle bracket is closed there. -/
def ExtendsAmong (kinds : List TokenKind) (others : List Argument) (text mid rest : List Char) :
    Prop :=
  ∃ skipped left stop, others = skipped ++ left ∧ ArgumentsBehind left stop rest ∧
    Extends [.comma] 0 text stop ∧ (skipped = [] → stop = mid) ∧
      (skipped = [] ↔ closesBehind kinds (kindsBehind others) = false)

namespace ExtendsAmong

variable {head : Head} {place : List Char} {front : List TokenKind}

theorem token (along : ExtendsAmong kinds others head.rest mid rest)
    (found : Head.of? text = some head) (compared : head.kind.mayBeCompared = true)
    (noLook : head.kind = .mark .less → AngleLook.Ends {} text none ∧
      closes? {} (head.kind :: (kinds ++ kindsBehind others)) = none) :
    ExtendsAmong (head.kind :: kinds) others text mid rest := by
  obtain ⟨skipped, left, stop, split, behind, along, last, iff⟩ := along
  obtain ⟨goesOn, same⟩ := TokenKind.goesOn_of_mayBeCompared compared
  have step : Passes [.comma] 0 text (head.kind.depthBehind 0) head.rest :=
    .token found (TokenKind.ne_of_mayBeCompared compared rfl)
      (TokenKind.ne_of_mayBeCompared compared rfl) goesOn fun less => (noLook less).1
  refine ⟨skipped, left, stop, split, behind, .passes step (same.symm ▸ along), last, iff.trans ?_⟩
  rw [closesBehind_cons]
  exact ⟨fun none => ⟨fun less count closed => by simp [noLook less] at closed, none⟩, And.right⟩

theorem within (along : ExtendsAmong kinds others place mid rest)
    (step : Passes [.comma] 0 text 0 place)
    (seen : closesBehind front (kinds ++ kindsBehind others) = false) :
    ExtendsAmong (front ++ kinds) others text mid rest := by
  obtain ⟨skipped, left, stop, split, behind, along, last, iff⟩ := along
  exact ⟨skipped, left, stop, split, behind, .passes step along, last,
    iff.trans ⟨closesBehind_append seen, closesBehind_suffix⟩⟩

/-- Type arguments that end in an argument behind. -/
theorem across {skipped left : List Argument} {stop : List Char} {all : List TokenKind}
    (along : ExtendsAmong kinds left place stop rest) (step : Passes [.comma] 0 text 0 place)
    (some : skipped ≠ []) (closed : closesBehind all (kindsBehind (skipped ++ left)) = true) :
    ExtendsAmong all (skipped ++ left) text mid rest := by
  obtain ⟨skipped', left, stop, rfl, behind, along, -⟩ := along
  have more : skipped ++ skipped' ≠ [] := fun none => some (List.append_eq_nil_iff.mp none).1
  exact ⟨skipped ++ skipped', left, stop, (List.append_assoc ..).symm, behind, .passes step along,
    fun none => absurd none more, fun none => absurd none more,
    fun apart => by cases closed.symm.trans apart⟩

end ExtendsAmong

namespace ArgumentsBehind

/-- From every token of an argument on there is an expression. -/
theorem extendsAmong (behind : ArgumentsBehind others mid rest) (chain : Heads text heads mid)
    (plain : ∀ head ∈ heads, head.kind.mayBeCompared = true) :
    ExtendsAmong (heads.map Head.kind) others text mid rest := by
  -- A look may take many tokens at once, so the induction is on the length of the text.
  generalize size : text.length = length
  induction length using Nat.strongRecOn generalizing text heads mid others with
  | ind length ih =>
      subst size
      cases chain with
      | nil =>
          obtain ⟨head, found, ends⟩ := behind.ends
          exact ⟨[], others, text, rfl, behind, .ended found ends, fun _ => rfl,
            by simp [closesBehind]⟩
      | @cons _ _ head heads found chain =>
          obtain ⟨compared, plain'⟩ := List.forall_mem_cons.mp plain
          have shorter := Head.length_rest_lt found (TokenKind.ne_of_mayBeCompared compared rfl)
          have token := (ih _ shorter behind chain plain' rfl).token found compared
          by_cases less : head.kind = .mark .less
          · obtain ⟨more, closing, chain', comes, closes, kinds⟩ := behind.exists_heads
            have ends := ends_of_heads ((Heads.cons found chain).append chain') comes closes {}
            rw [List.map_append, List.append_assoc, ← kinds, List.map_cons,
              List.cons_append] at ends
            cases closed : closes? {}
              (head.kind :: (heads.map Head.kind ++ kindsBehind others)) with
            | none => exact token fun _ => ⟨closed ▸ ends, closed⟩
            | some count =>
                rw [closed] at ends
                obtain ⟨taken, place, seen, size, -⟩ := ends.exists_heads
                obtain rfl : count = taken.length := by simpa using size
                have step : Passes [.comma] 0 text 0 place := .typeArguments found less
                  (TokenKind.goesOn_of_mayBeCompared compared).1 ends seen
                have shorter := (step.suffix_rest found).length_le.trans_lt shorter
                by_cases inside : taken.length ≤ (head :: heads).length
                · obtain ⟨left, split, further⟩ := seen.goesOn (.cons found chain) inside
                  have along := ih _ shorter behind further
                    (fun head member => plain head (split ▸ List.mem_append_right _ member)) rfl
                  rw [split, List.map_append]
                  refine along.within step ?_
                  cases taken with
                  | nil => rfl
                  | cons first front =>
                      obtain ⟨rfl, rfl⟩ := List.cons.inj split
                      exact closesBehind_seen less (by simpa using closed)
                · obtain ⟨left, rfl, further⟩ :=
                    (Heads.cons found chain).goesOn seen (Nat.le_of_not_le inside)
                  have short : left.length < (kindsBehind others).length := by
                    rw [kinds, ← List.append_assoc, ← List.cons_append] at closed
                    have bound := closes?_le closed
                    rw [kinds]
                    simp only [List.length_append, List.length_cons, List.length_map,
                      List.length_nil] at bound ⊢
                    omega
                  rw [List.length_append, Nat.not_le] at inside
                  obtain ⟨skipped, others', heads', stop, rfl, some, landed, plain', behind'⟩ :=
                    behind.skip further (List.length_pos_iff.mp (by omega)) short
                  refine (ih _ shorter behind' landed plain' rfl).across step some ?_
                  refine closesBehind_of_lt less closed ?_
                  simpa only [List.length_map, List.length_append, List.length_cons] using inside
          · exact token fun is => absurd is less

/-- An argument is read as one expression, perhaps together with some of those behind it. -/
theorem exists_expression (behind : ArgumentsBehind others mid rest) (stands : argument.At text mid)
    (compared : IsComparison argument.kinds)
    (others_read : ∀ left stop, left.length ≤ others.length → ArgumentsBehind left stop rest →
      ∃ slices, ExpressionsBehind slices stop rest ∧ AreRead left slices) :
    ∃ slice slices stop, ExpressionAt slice text stop ∧ ExpressionsBehind slices stop rest ∧
      AreRead (argument :: others) (slice :: slices) := by
  obtain @⟨_, slice, _, first, heads, found, split, chain⟩ := stands
  have plain : ∀ head ∈ heads, head.kind.mayBeCompared = true := fun head member =>
    compared.mayBeCompared _ (List.mem_map_of_mem member)
  obtain ⟨skipped, left, stop, rfl, behind', along, last, iff⟩ := behind.extendsAmong chain plain
  obtain ⟨slices, listed, read⟩ := others_read left stop (by simp) behind'
  obtain ⟨slice', split'⟩ := along.suffix
  have content : slice' ≠ [] := by
    rintro rfl
    obtain ⟨head, ended, ends⟩ := behind'.ends
    rw [List.nil_append] at split'
    rw [split'] at ended
    generalize slice ++ mid = whole at chain ended
    cases chain with
    | nil => exact compared.ne_nil rfl
    | cons here =>
        obtain rfl := Option.some.inj (ended.symm.trans here)
        have goesOn := (TokenKind.goesOn_of_mayBeCompared (plain _ List.mem_cons_self)).1
        cases ends.symm.trans goesOn
  refine ⟨slice', slices, stop, .intro found (split.trans split'.symm) content (split' ▸ along),
    listed, ?_⟩
  by_cases none : skipped = []
  · obtain rfl := last none
    obtain rfl := List.append_cancel_right split'
    subst none
    rw [AreRead, areMerged, iff.mp rfl, Bool.false_or]
    unfold AreRead at read
    split at read
    · next merged =>
        rw [List.nil_append, if_pos merged]
        exact Nat.succ_lt_succ read
    · next apart => rw [List.nil_append, if_neg apart, read, List.map_cons]
  · have merged := eq_true_of_ne_false fun apart => none (iff.mpr apart)
    have some := List.length_pos_iff.mpr none
    have short := read.length_le
    rw [AreRead, areMerged, merged, Bool.true_or, if_pos rfl]
    simp only [List.length_cons, List.length_append]
    omega

theorem exists_expressions (behind : ArgumentsBehind others mid rest) :
    ∃ slices, ExpressionsBehind slices mid rest ∧ AreRead others slices := by
  generalize size : others.length = length
  induction length using Nat.strongRecOn generalizing mid others with
  | ind length ih =>
      subst size
      cases behind with
      | ended found closes => exact ⟨[], .ended found closes, rfl⟩
      | more found comma stands compared behind =>
          obtain ⟨slice, slices, stop, here, listed, read⟩ :=
            behind.exists_expression stands compared fun left stop short behind' =>
              ih left.length (Nat.lt_succ_of_le short) behind' rfl
          exact ⟨slice :: slices, .more found comma here listed, read⟩

end ArgumentsBehind

namespace ReadM

variable {source : List Char} {slice : List Char} {slices : List (List Char)} {budget : Nat}

theorem expressionAt_reads (stands : ExpressionAt slice text rest) :
    Reads True source (expressionText budget [.comma]) text (String.ofList slice) rest := by
  cases stands with
  | intro found split content along => exact expressionText_reads found split content along

/-- No expression opens with a closing bracket. -/
theorem expressionAt_opens (stands : ExpressionAt slice text rest) :
    ∃ head, Head.of? text = some head ∧ head.kind ≠ .mark .rightParen := by
  cases stands with
  | @intro _ _ _ first found split content along =>
      refine ⟨first, found, fun closes => ?_⟩
      obtain ⟨-, goesOn, -⟩ := along.opens content (split ▸ Head.of?_slice found)
      rw [closes] at goesOn
      cases goesOn

theorem expressions_read (stands : ExpressionAt slice text mid)
    (behind : ExpressionsBehind slices mid rest) :
    Reads True source (listUntil .rightParen (expressionText budget [.comma]) budget) text
      ((slice :: slices).map String.ofList) rest := by
  suffices all : ∀ rounds, Reads True source
      (listUntil .rightParen (expressionText budget [.comma]) rounds) text
        ((slice :: slices).map String.ofList) rest from all budget
  induction behind generalizing text slice with
  | ended found closes =>
      obtain ⟨head, first, isOpen⟩ := expressionAt_opens stands
      exact fun rounds => listUntil_last first isOpen (expressionAt_reads stands) found
        (by simp [closes])
  | more found comma further _ ih =>
      obtain ⟨head, first, isOpen⟩ := expressionAt_opens stands
      exact fun rounds => listUntil_more first isOpen (expressionAt_reads stands) found comma
        (ih further)

end ReadM

end JavaDecl
