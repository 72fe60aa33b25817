import JavaDecl.Text.UnicodeEscape
import Mathlib.Data.List.Forall2
import Mathlib.Data.List.Infix
import Mathlib.Data.Nat.Digits.Defs

/-!
# Units that are written as escapes

A text is cut from left to right into escapes and characters that stand for themselves.
Besides four hexadecimal digits a plus sign and three of them write a unit.
-/

namespace JavaDecl.Text

variable {text rest front : List Char} {c : Char} {value total : Nat} {cuts : List Piece}

/-! ### Hexadecimal numbers -/

def HasHexValue (c : Char) (value : Nat) : Prop :=
  "0123456789abcdef".toList[value]? = some c ∨ "0123456789ABCDEF".toList[value]? = some c

instance (c : Char) (value : Nat) : Decidable (HasHexValue c value) :=
  inferInstanceAs (Decidable (_ ∨ _))

theorem HasHexValue.bounds (digit : HasHexValue c value) : value < 16 ∧ c.toNat < 103 := by
  have small {c : Char} (member : c ∈ "0123456789abcdef".toList ++ "0123456789ABCDEF".toList) :
      c.toNat < 103 := by
    have all : ("0123456789abcdef".toList ++ "0123456789ABCDEF".toList).all (·.toNat < 103) := by
      decide
    exact of_decide_eq_true (List.all_eq_true.mp all c member)
  rcases digit with lower | upper
  · exact ⟨(List.getElem?_eq_some_iff.mp lower).1,
      small (List.mem_append_left _ (List.mem_of_getElem? lower))⟩
  · exact ⟨(List.getElem?_eq_some_iff.mp upper).1,
      small (List.mem_append_right _ (List.mem_of_getElem? upper))⟩

theorem hexValue?_bounds (found : hexValue? c = some value) : value < 16 ∧ c.toNat < 103 := by
  simp only [hexValue?, Char.le_def, UInt32.le_iff_toNat_le] at found
  change (if 48 ≤ c.toNat ∧ c.toNat ≤ 57 then some (c.toNat - 48)
    else if 97 ≤ c.toNat ∧ c.toNat ≤ 102 then some (c.toNat - 97 + 10)
    else if 65 ≤ c.toNat ∧ c.toNat ≤ 70 then some (c.toNat - 65 + 10) else none) =
      some value at found
  split at found
  · cases found
    omega
  · split at found
    · cases found
      omega
    · split at found
      · cases found
        omega
      · cases found

theorem hexValue?_eq_some_iff : hexValue? c = some value ↔ HasHexValue c value := by
  have table : ∀ code < 103, ∀ value < 16,
      (hexValue? (Char.ofNat code) = some value ↔ HasHexValue (Char.ofNat code) value) := by
    decide +kernel
  have known (bounds : value < 16 ∧ c.toNat < 103) :
      hexValue? c = some value ↔ HasHexValue c value := by
    have entry := table c.toNat bounds.2 value bounds.1
    rwa [Char.ofNat_toNat] at entry
  exact ⟨fun found => (known (hexValue?_bounds found)).mp found,
    fun digit => (known digit.bounds).mpr digit⟩

def IsNumeral (digits : List Char) (value : Nat) : Prop :=
  ∃ values, List.Forall₂ HasHexValue digits values ∧ value = Nat.ofDigits 16 values.reverse

theorem hexNumber?_eq_some_iff {digits : List Char} :
    hexNumber? total digits = some value ↔
      ∃ values, List.Forall₂ HasHexValue digits values ∧
        value = Nat.ofDigits 16 values.reverse + 16 ^ values.length * total := by
  induction digits generalizing total with
  | nil => simp [hexNumber?, eq_comm]
  | cons c digits ih =>
      have step (first : Nat) (values : List Nat) :
          Nat.ofDigits 16 values.reverse + 16 ^ values.length * (16 * total + first) =
            Nat.ofDigits 16 (first :: values).reverse +
              16 ^ (first :: values).length * total := by
        rw [List.reverse_cons, Nat.ofDigits_append, Nat.ofDigits_singleton, List.length_reverse,
          List.length_cons, Nat.pow_succ]
        ring
      simp only [hexNumber?, Option.bind_eq_some_iff, hexValue?_eq_some_iff, ih,
        List.forall₂_cons_left_iff]
      constructor
      · rintro ⟨first, digit, values, digits, rfl⟩
        exact ⟨first :: values, ⟨first, values, digit, digits, rfl⟩, step first values⟩
      · rintro ⟨_, ⟨first, values, digit, digits, rfl⟩, rfl⟩
        exact ⟨first, digit, values, digits, (step first values).symm⟩

theorem hexNumber?_zero {digits : List Char} :
    hexNumber? 0 digits = some value ↔ IsNumeral digits value := by
  simp [hexNumber?_eq_some_iff, IsNumeral]

theorem IsNumeral.lt {digits : List Char} (numeral : IsNumeral digits value) :
    value < 16 ^ digits.length := by
  obtain ⟨values, all, rfl⟩ := numeral
  have small : ∀ value ∈ values.reverse, value < 16 := by
    intro value member
    obtain ⟨place, inside, rfl⟩ := List.mem_iff_getElem.mp (List.mem_reverse.mp member)
    exact (all.get (all.length_eq ▸ inside) inside).bounds.1
  rw [all.length_eq, ← List.length_reverse]
  exact Nat.ofDigits_lt_base_pow_length (by decide) small

/-! ### Escapes -/

/-- A backslash, one or more `u` and four hexadecimal digits. -/
def IsEscape (text : List Char) (value : Nat) : Prop :=
  ∃ more digits, text = '\\' :: 'u' :: (List.replicate more 'u' ++ digits) ∧
    digits.length = 4 ∧ IsNumeral digits value

/-- The same with a plus sign in place of the first digit. -/
def IsSignedEscape (text : List Char) (value : Nat) : Prop :=
  ∃ more digits, text = '\\' :: 'u' :: (List.replicate more 'u' ++ '+' :: digits) ∧
    digits.length = 3 ∧ IsNumeral digits value

/-- What is decoded as an escape. -/
def IsEitherEscape (text : List Char) (value : Nat) : Prop :=
  IsEscape text value ∨ IsSignedEscape text value

theorem IsSignedEscape.plus_mem (signed : IsSignedEscape text value) : '+' ∈ text := by
  obtain ⟨more, digits, rfl, -⟩ := signed
  simp

theorem unitValue?_of_digits {a b c d : Char} (numeral : IsNumeral [a, b, c, d] value) :
    unitValue? a b c d = some value := by
  have digit : a ≠ '+' := by
    rintro rfl
    obtain ⟨values, all, -⟩ := numeral
    obtain ⟨first, _, plus, -⟩ := List.forall₂_cons_left_iff.mp all
    have none : hexValue? '+' = none := by decide
    rw [hexValue?_eq_some_iff.mpr plus] at none
    cases none
  rw [unitValue?, if_neg digit, hexNumber?_zero.mpr numeral]

theorem unitValue?_eq_some_iff {a b c d : Char} :
    unitValue? a b c d = some value ↔
      IsNumeral [a, b, c, d] value ∨ a = '+' ∧ IsNumeral [b, c, d] value := by
  constructor
  · intro found
    unfold unitValue? at found
    split at found
    · next plus => exact .inr ⟨plus, hexNumber?_zero.mp found⟩
    · exact .inl (hexNumber?_zero.mp found)
  · rintro (numeral | ⟨rfl, numeral⟩)
    · exact unitValue?_of_digits numeral
    · rw [unitValue?, if_pos rfl, hexNumber?_zero.mpr numeral]

/-- The first character that a unit is written with is no `u`. -/
theorem ne_of_unitValue? {a b c d : Char} (found : unitValue? a b c d = some value) : a ≠ 'u' := by
  rintro rfl
  rcases unitValue?_eq_some_iff.mp found with ⟨values, all, -⟩ | ⟨plus, -⟩
  · obtain ⟨first, _, mark, -⟩ := List.forall₂_cons_left_iff.mp all
    have none : hexValue? 'u' = none := by decide
    rw [hexValue?_eq_some_iff.mpr mark] at none
    cases none
  · exact absurd plus (by decide)

theorem dropWhile_marks (more : Nat) (other : rest.head? ≠ some 'u') :
    (List.replicate more 'u' ++ rest).dropWhile (· == 'u') = rest := by
  rw [List.dropWhile_append_of_pos (by simp)]
  cases rest with
  | nil => rfl
  | cons c rest => rw [List.dropWhile_cons_of_neg (by simpa using other)]

theorem exists_marks (text : List Char) :
    ∃ more, text = List.replicate more 'u' ++ text.dropWhile (· == 'u') := by
  refine ⟨(text.takeWhile (· == 'u')).length, ?_⟩
  have marks : text.takeWhile (· == 'u') =
      List.replicate (text.takeWhile (· == 'u')).length 'u' := by
    refine List.eq_replicate_of_mem fun c member => ?_
    have all := List.all_eq_true.mp (List.all_takeWhile (p := (· == 'u')) (l := text))
    exact eq_of_beq (all c member)
  rw [← marks, List.takeWhile_append_dropWhile]

theorem escapedUnit?_marks (more : Nat) {a b c d : Char} (other : a ≠ 'u') (rest : List Char) :
    escapedUnit? ('u' :: (List.replicate more 'u' ++ a :: b :: c :: d :: rest)) =
      (unitValue? a b c d).map (·, rest) := by
  rw [escapedUnit?, dropWhile_marks more (by simpa using other)]

/-- A text behind a backslash opens with the rest of an escape if it is split behind one. -/
theorem escapedUnit?_eq_some_iff :
    escapedUnit? text = some (value, rest) ↔
      ∃ front, '\\' :: text = front ++ rest ∧ IsEitherEscape front value := by
  constructor
  · intro found
    unfold escapedUnit? at found
    split at found
    · next more =>
        obtain ⟨marks, split⟩ := exists_marks more
        split at found
        · next a b c d tail shape =>
            obtain ⟨unit, written, same⟩ := Option.map_eq_some_iff.mp found
            obtain ⟨rfl, rfl⟩ := Prod.mk.inj same
            refine ⟨'\\' :: 'u' :: (List.replicate marks 'u' ++ [a, b, c, d]), ?_, ?_⟩
            · rw [shape] at split
              rw [split]
              simp
            · rcases unitValue?_eq_some_iff.mp written with numeral | ⟨rfl, numeral⟩
              · exact .inl ⟨marks, _, rfl, rfl, numeral⟩
              · exact .inr ⟨marks, _, rfl, rfl, numeral⟩
        · cases found
    · cases found
  · have opens {marks : Nat} {a b c d : Char} (written : unitValue? a b c d = some value)
        (split : '\\' :: text =
          '\\' :: 'u' :: (List.replicate marks 'u' ++ [a, b, c, d]) ++ rest) :
        escapedUnit? text = some (value, rest) := by
      obtain ⟨-, rfl⟩ := List.cons.inj split
      have whole := escapedUnit?_marks marks (b := b) (c := c) (d := d)
        (ne_of_unitValue? written) rest
      rw [written] at whole
      simpa using whole
    rintro ⟨front, split, ⟨marks, digits, rfl, length, numeral⟩ | ⟨marks, digits, rfl, length,
      numeral⟩⟩
    · obtain ⟨a, b, c, d, rfl⟩ := List.length_eq_four.mp length
      exact opens (unitValue?_eq_some_iff.mpr (.inl numeral)) split
    · obtain ⟨b, c, d, rfl⟩ := List.length_eq_three.mp length
      exact opens (unitValue?_eq_some_iff.mpr (.inr ⟨rfl, numeral⟩)) split

/-! ### Cutting at escapes -/

/-- A text that is cut from left to right at escapes of some kind. -/
inductive CutAt (escape : List Char → Nat → Prop) : List Char → List Piece → Prop where
  | nil : CutAt escape [] []
  | escape {front rest : List Char} {value : Nat} {cuts : List Piece} :
      escape front value → CutAt escape rest cuts →
        CutAt escape (front ++ rest) (.unit value :: cuts)
  | plain {c : Char} {rest : List Char} {cuts : List Piece} :
      (∀ front value, escape front value → ¬ front <+: c :: rest) → CutAt escape rest cuts →
        CutAt escape (c :: rest) (.plain c :: cuts)

theorem pieces_of_escape (found : escapedUnit? text = some (value, rest)) :
    pieces ('\\' :: text) = .unit value :: pieces rest := by
  rw [pieces, if_pos rfl]
  split
  · next other after again =>
      obtain ⟨rfl, rfl⟩ := Prod.mk.inj (Option.some.inj (found.symm.trans again))
      rfl
  · next none => rw [found] at none; cases none

theorem pieces_of_plain (none : c = '\\' → escapedUnit? rest = none) :
    pieces (c :: rest) = .plain c :: pieces rest := by
  rw [pieces]
  split
  · next backslash =>
      split
      · next found => rw [none backslash] at found; cases found
      · rfl
  · rfl

theorem IsEitherEscape.exists_more (escape : IsEitherEscape front value) :
    ∃ more, front = '\\' :: more := by
  obtain ⟨more, digits, rfl, -⟩ | ⟨more, digits, rfl, -⟩ := escape
  · exact ⟨_, rfl⟩
  · exact ⟨_, rfl⟩

theorem IsEitherEscape.escapedUnit? {more : List Char}
    (escape : IsEitherEscape ('\\' :: more) value)
    (rest : List Char) : escapedUnit? (more ++ rest) = some (value, rest) :=
  escapedUnit?_eq_some_iff.mpr ⟨'\\' :: more, rfl, escape⟩

theorem escapedUnit?_eq_none_iff :
    escapedUnit? rest = none ↔
      ∀ front value, IsEitherEscape front value → ¬ front <+: '\\' :: rest := by
  constructor
  · rintro none front value escape ⟨after, split⟩
    rw [escapedUnit?_eq_some_iff.mpr ⟨front, split.symm, escape⟩] at none
    cases none
  · intro none
    cases found : Text.escapedUnit? rest with
    | none => rfl
    | some unit =>
        obtain ⟨front, split, escape⟩ := escapedUnit?_eq_some_iff.mp found
        exact absurd ⟨_, split.symm⟩ (none front _ escape)

theorem cutAt_pieces (text : List Char) : CutAt IsEitherEscape text (pieces text) := by
  fun_induction pieces text with
  | case1 => exact .nil
  | case2 rest value after found ih =>
      obtain ⟨front, split, escape⟩ := escapedUnit?_eq_some_iff.mp found
      rw [split]
      exact .escape escape ih
  | case3 rest none ih => exact .plain (escapedUnit?_eq_none_iff.mp none) ih
  | case4 c rest other ih =>
      refine .plain (fun front value escape starts => ?_) ih
      obtain ⟨more, rfl⟩ := escape.exists_more
      exact other (List.cons_prefix_cons.mp starts).1.symm

theorem CutAt.pieces_eq (cut : CutAt IsEitherEscape text cuts) : pieces text = cuts := by
  induction cut with
  | nil => rw [pieces]
  | @escape front rest value cuts escape _ ih =>
      obtain ⟨more, rfl⟩ := escape.exists_more
      rw [List.cons_append, pieces_of_escape (escape.escapedUnit? rest), ih]
  | @plain c rest cuts none _ ih =>
      have noUnit (backslash : c = '\\') : escapedUnit? rest = .none :=
        escapedUnit?_eq_none_iff.mpr (backslash ▸ none)
      rw [pieces_of_plain noUnit, ih]

theorem IsEitherEscape.unique {other after : List Char} {second : Nat}
    (escape : IsEitherEscape front value) (again : IsEitherEscape other second)
    (same : front ++ rest = other ++ after) : value = second ∧ rest = after := by
  obtain ⟨more, rfl⟩ := escape.exists_more
  obtain ⟨further, rfl⟩ := again.exists_more
  have behind : more ++ rest = further ++ after := (List.cons.inj same).2
  have found := escape.escapedUnit? rest
  rw [behind, again.escapedUnit? after] at found
  exact Prod.mk.inj (Option.some.inj found.symm)

theorem CutAt.unique {escape : List Char → Nat → Prop} {others : List Piece}
    (among : ∀ front value, escape front value → IsEitherEscape front value)
    (cut : CutAt escape text cuts) (other : CutAt escape text others) : cuts = others := by
  induction cut generalizing others with
  | nil =>
      generalize shape : ([] : List Char) = text at other
      cases other with
      | nil => rfl
      | escape escape _ =>
          obtain ⟨more, rfl⟩ := (among _ _ escape).exists_more
          cases shape
      | plain => cases shape
  | @escape front rest value cuts escape _ ih =>
      generalize shape : front ++ rest = text at other
      cases other with
      | nil =>
          obtain ⟨more, rfl⟩ := (among _ _ escape).exists_more
          cases shape
      | escape again cut =>
          obtain ⟨rfl, rfl⟩ := (among _ _ escape).unique (among _ _ again) shape
          rw [ih cut]
      | plain none _ =>
          exact absurd (shape ▸ List.prefix_append front rest) (none front value escape)
  | @plain c rest cuts none _ ih =>
      generalize shape : c :: rest = text at other
      cases other with
      | nil => cases shape
      | escape escape _ => exact absurd (shape ▸ List.prefix_append _ _) (none _ _ escape)
      | plain _ cut =>
          obtain ⟨rfl, rfl⟩ := List.cons.inj shape
          rw [ih cut]

theorem cutAt_plain {escape : List Char → Nat → Prop}
    (none : ∀ front value, escape front value → ¬ front <:+: text) :
    CutAt escape text (text.map .plain) := by
  induction text with
  | nil => exact .nil
  | cons c text ih =>
      refine .plain (fun front value escape starts => none front value escape starts.isInfix) ?_
      exact ih fun front value escape inside =>
        none front value escape (inside.trans (List.suffix_cons c text).isInfix)

/-- A text is cut alike at two kinds of escapes if the same of its parts are of both kinds. -/
theorem CutAt.change {one other : List Char → Nat → Prop} (cut : CutAt one text cuts)
    (same : ∀ front value, front <:+: text → (one front value ↔ other front value)) :
    CutAt other text cuts := by
  induction cut with
  | nil => exact .nil
  | @escape front rest value cuts escape _ ih =>
      refine .escape ((same front value (List.prefix_append front rest).isInfix).mp escape) ?_
      exact ih fun part value inside =>
        same part value (inside.trans (List.suffix_append _ _).isInfix)
  | @plain c rest cuts none _ ih =>
      refine .plain (fun front value escape starts => ?_) (ih fun part value inside => ?_)
      · exact none front value ((same front value starts.isInfix).mpr escape) starts
      · exact same part value (inside.trans (List.suffix_cons c rest).isInfix)

end JavaDecl.Text
