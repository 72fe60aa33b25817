import JavaDecl.Proofs.SetOutTokens

/-!
# First tokens of texts

The first token of a text that is no doc comment is found from the text alone.  It is found
again if the text is cut behind it, or later, and something comes there that no token goes on
with.
-/

namespace JavaDecl

namespace Lexeme

variable {text tail other front back : List Char} {offset : Nat} {cut : Cut}

/-- A lexeme is found from its text.  Only its place depends on where the text starts. -/
theorem next?_shift (start offset : Nat) (text : List Char) :
    next? (start + offset) text =
      (next? offset text).map fun cut => { cut with first := start + cut.first } := by
  fun_induction next? offset text with
  | case1 => rw [next?, Option.map_none]
  | case2 offset c rest reach taken layout ih =>
      rw [next?, if_pos layout, Nat.add_assoc]
      exact ih
  | case3 offset c rest reach taken content =>
      rw [next?, if_neg content]
      rfl

theorem next?_of_start (found : next? 0 text = some cut) (offset : Nat) :
    next? offset text = some { cut with first := offset + cut.first } := by
  have shifted := next?_shift offset 0 text
  rwa [found] at shifted

theorem next?_none_of_start (none : next? 0 text = none) (offset : Nat) :
    next? offset text = .none := by
  have shifted := next?_shift offset 0 text
  rwa [none] at shifted

/-- Layout depends on the character behind it alone. -/
theorem Layout.ofHead {after gap : List Char} (layout : Layout after gap)
    (same : other.head? = after.head?) : Layout other gap := by
  induction layout with
  | nil => exact .nil
  | blank space _ ih => exact .blank space ih
  | lineComment inLine ends _ ih =>
      refine .lineComment inLine ?_ ih
      rwa [List.head?_append, same, ← List.head?_append]
  | comment noDoc first _ ih => exact .comment noDoc first ih

/-- The next lexeme is the same if the text is cut behind it, or later. -/
theorem next?_of_cut (found : next? offset (front ++ tail) = some cut)
    (isToken : cut.shape.isToken = true) (left : cut.rest = back ++ tail)
    (opens : OpensBreak other) :
    next? offset (front ++ other) = some { cut with rest := back ++ other } := by
  obtain ⟨gap, split, layout, place⟩ := layout_of_next? found
  obtain ⟨_, first, rest, -, -, starts⟩ := exists_front_of_next? found
  rw [starts.shape] at isToken
  obtain ⟨within, same⟩ := scan_isCutOut isToken opens
  have inside : front = gap ++ (cut.text ++ back) := by
    rw [left, ← List.append_assoc, ← List.append_assoc, List.append_cancel_right_eq] at split
    rw [split, List.append_assoc]
  have whole : cut.text ++ (back ++ other) =
      first :: (rest.take ((scan first rest).following + back.length) ++ other) := by
    rw [List.take_add, ← starts.rest, left, List.take_left, starts.text]
    simp
  have again : Layout (cut.text ++ (back ++ other)) gap :=
    layout.ofHead (by simp [starts.text])
  have reach := same (Nat.le_add_right (scan first rest).following back.length)
  rw [inside, List.append_assoc, List.append_assoc, again.next?, whole, next?_cons]
  simp only [opening, reach, isLayout_of_isToken isToken, Bool.false_eq_true, if_false]
  rw [← starts.shape, ← place, List.take_append_of_le_length (by rw [List.length_take]; omega),
    List.take_take, Nat.min_eq_left (Nat.le_add_right _ _), ← starts.text,
    drop_take_append (Nat.le_add_right _ _) within, ← starts.rest, left, Nat.add_sub_cancel_left,
    List.take_left]

end Lexeme

/-- A token at the start of a text, with what is left behind it. -/
structure Head where
  kind : TokenKind
  text : String
  /-- The token as it stands in the text. -/
  slice : List Char
  /-- The text behind the token. -/
  rest : List Char
deriving DecidableEq, Repr

namespace Head

def ended : Head where
  kind := .endOfInput
  text := ""
  slice := []
  rest := []

/-- The first token of a text that is no doc comment, if no fault comes before it. -/
def of? (text : List Char) : Option Head :=
  match _found : Lexeme.next? 0 text with
  | none => some ended
  | some cut =>
      match cut.token? with
      | .error _ => none
      | .ok (kind, written) =>
          if kind = .docComment then of? cut.rest
          else some { kind, text := written, slice := cut.text, rest := cut.rest }
termination_by text.length
decreasing_by exact TokenStream.length_rest_lt_of_cut _found

variable {text tail other front back : List Char} {head : Head} {cut : Lexeme.Cut}
  {kind : TokenKind} {written : String} {offset : Nat}

theorem of?_of_none (none : Lexeme.next? offset text = none) : of? text = some ended := by
  have first : Lexeme.next? 0 text = .none := by
    have shifted := Lexeme.next?_shift offset 0 text
    rw [Nat.add_zero, none] at shifted
    exact Option.map_eq_none_iff.mp shifted.symm
  rw [of?]
  split
  · rfl
  · next found => simp [first] at found

/-- What the first token is, by the first lexeme of its text. -/
theorem of?_of_some (found : Lexeme.next? offset text = some cut) :
    of? text = match cut.token? with
      | .error _ => none
      | .ok (kind, written) =>
          if kind = .docComment then of? cut.rest
          else some { kind, text := written, slice := cut.text, rest := cut.rest } := by
  obtain ⟨first, here, rfl⟩ : ∃ first, Lexeme.next? 0 text = some first ∧
      { first with first := offset + first.first } = cut := by
    have shifted := Lexeme.next?_shift offset 0 text
    rw [Nat.add_zero, found] at shifted
    exact Option.map_eq_some_iff.mp shifted.symm
  conv => lhs; rw [of?]
  split
  · next none => simp [here] at none
  · next other again =>
      obtain rfl := Option.some.inj (here.symm.trans again)
      rfl

theorem of?_of_token (found : Lexeme.next? offset text = some cut)
    (read : cut.token? = .ok (kind, written)) (notComment : kind ≠ .docComment) :
    of? text = some { kind, text := written, slice := cut.text, rest := cut.rest } := by
  rw [of?_of_some found, read]
  exact if_neg notComment

theorem of?_of_comment (found : Lexeme.next? offset text = some cut)
    (read : cut.token? = .ok (.docComment, written)) : of? text = of? cut.rest := by
  rw [of?_of_some found, read]
  exact if_pos rfl

/-- Where a first token is found: at the end of the text, as the first lexeme, or behind a doc
comment. -/
inductive Comes : List Char → Head → Prop where
  | atEnd {text : List Char} : Lexeme.next? 0 text = none → Comes text ended
  | token {text : List Char} {cut : Lexeme.Cut} {kind : TokenKind} {written : String} :
      Lexeme.next? 0 text = some cut → cut.token? = .ok (kind, written) → kind ≠ .docComment →
        Comes text { kind, text := written, slice := cut.text, rest := cut.rest }
  | comment {text : List Char} {cut : Lexeme.Cut} {written : String} {head : Head} :
      Lexeme.next? 0 text = some cut → cut.token? = .ok (.docComment, written) →
        Comes cut.rest head → Comes text head

theorem comes_of_found (found : of? text = some head) : Comes text head := by
  fun_induction of? text with
  | case1 text none =>
      obtain rfl := Option.some.inj found
      exact .atEnd none
  | case2 => cases found
  | case3 text cut first written read ih => exact .comment first read (ih found)
  | case4 text cut first kind written read notComment =>
      obtain rfl := Option.some.inj found
      exact .token first read notComment

theorem Comes.found (comes : Comes text head) : of? text = some head := by
  induction comes with
  | atEnd none => exact of?_of_none none
  | token first read notComment => exact of?_of_token first read notComment
  | comment first read _ ih => rw [of?_of_comment first read, ih]

/-- A token that is not the end of input takes some characters. -/
theorem exists_gap (found : of? text = some head) (inside : head.kind ≠ .endOfInput) :
    ∃ gap, text = gap ++ (head.slice ++ head.rest) ∧ head.slice ≠ [] := by
  replace found := comes_of_found found
  induction found with
  | atEnd => exact absurd rfl inside
  | token first =>
      obtain ⟨gap, split, -⟩ := Lexeme.layout_of_next? first
      obtain ⟨_, c, rest, -, -, opens⟩ := Lexeme.exists_front_of_next? first
      exact ⟨gap, split, by simp [opens.text]⟩
  | @comment text cut written head first _ _ ih =>
      obtain ⟨gap, split, -⟩ := Lexeme.layout_of_next? first
      obtain ⟨further, behind, some⟩ := ih inside
      exact ⟨gap ++ (cut.text ++ further), by rw [split, behind]; simp, some⟩

theorem eq_ended (found : of? text = some head) (isEnd : head.kind = .endOfInput) :
    head = ended := by
  replace found := comes_of_found found
  induction found with
  | atEnd => rfl
  | @token text cut kind written first read =>
      have other : cut.token? ≠ .ok (.endOfInput, written) := by
        unfold Lexeme.Cut.token?
        cases cut.shape <;> simp [Option.getD_eq_iff]
      exact absurd (isEnd ▸ read) other
  | comment first _ _ ih => exact ih isEnd

theorem length_rest_lt (found : of? text = some head) (inside : head.kind ≠ .endOfInput) :
    head.rest.length < text.length := by
  obtain ⟨gap, split, some⟩ := exists_gap found inside
  have := List.length_pos_iff.mpr some
  rw [split]
  simp only [List.length_append]
  omega

theorem suffix_rest (found : of? text = some head) : head.rest <:+ text := by
  by_cases isEnd : head.kind = .endOfInput
  · rw [eq_ended found isEnd]
    exact List.nil_suffix
  · obtain ⟨gap, split, -⟩ := exists_gap found isEnd
    exact ⟨gap ++ head.slice, by rw [split, List.append_assoc]⟩

theorem of?_slice (found : of? text = some head) : of? (head.slice ++ head.rest) = some head := by
  replace found := comes_of_found found
  induction found with
  | atEnd => exact of?_of_none (show Lexeme.next? 0 [] = none by rw [Lexeme.next?])
  | token first read notComment =>
      obtain ⟨gap, split, layout, -⟩ := Lexeme.layout_of_next? first
      rw [split, layout.next?] at first
      exact of?_of_token first read notComment
  | comment _ _ _ ih => exact ih

/-- The token is found again if the text is cut behind it, or later, and a break comes there. -/
theorem of?_cut (found : of? (front ++ tail) = some head) (inside : head.kind ≠ .endOfInput)
    (left : head.rest = back ++ tail) (opens : Lexeme.OpensBreak other) :
    of? (front ++ other) = some { head with rest := back ++ other } := by
  generalize whole : front ++ tail = text at found
  replace found := comes_of_found found
  induction found generalizing front with
  | atEnd => exact absurd rfl inside
  | token first read notComment =>
      subst whole
      have again := Lexeme.next?_of_cut first (Lexeme.isToken_of_token? read) left opens
      exact of?_of_token again read notComment
  | @comment text cut written head first read behind ih =>
      subst whole
      obtain ⟨between, within⟩ : ∃ between, cut.rest = between ++ tail := by
        obtain ⟨gap, split⟩ := suffix_rest behind.found
        exact ⟨gap ++ back, by rw [← split, left, List.append_assoc]⟩
      have again := Lexeme.next?_of_cut first (Lexeme.isToken_of_token? read) within opens
      rw [of?_of_comment again read]
      exact ih inside left within.symm

theorem of?_blank {c : Char} (space : Lexeme.isSpace c = true) (text : List Char) :
    of? (c :: text) = of? text := by
  have passed := Lexeme.next?_blank space 0 text
  cases found : Lexeme.next? (0 + c.utf8Size) text with
  | none => rw [of?_of_none found, of?_of_none (passed.trans found)]
  | some cut => rw [of?_of_some found, of?_of_some (passed.trans found)]

/-- A token that a blank comes behind is found again in front of every break. -/
theorem of?_front (found : of? (front ++ [' ']) = some head) (inside : head.kind ≠ .endOfInput)
    (left : head.rest = [' ']) (opens : Lexeme.OpensBreak other) :
    of? (front ++ other) = some { head with rest := other } :=
  of?_cut found inside (show head.rest = [] ++ [' '] from left) opens

theorem of?_behind (found : of? (front ++ [' ']) = some head) (inside : head.kind ≠ .endOfInput)
    (left : head.rest = [' ']) (opens : Lexeme.OpensBreak other) :
    of? (' ' :: (front ++ other)) = some { head with rest := other } := by
  rw [of?_blank (by decide)]
  exact of?_front found inside left opens

/-- The first token behind some place of a source, and the place where it ends. -/
abbrev Stands (source : List Char) (start stop : Nat) (kind : TokenKind) (text : String) : Prop :=
  of? (source.drop start) = some { kind, text, slice := text.toList, rest := source.drop stop }

end Head

end JavaDecl
