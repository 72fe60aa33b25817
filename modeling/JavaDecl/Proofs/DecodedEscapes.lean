import JavaDecl.Proofs.EscapedUnits
import JavaDecl.Text.Bytes

/-!
# Escapes and what they stand for

Every longest run of escapes in a text is read as UTF-16, and an unpaired surrogate gives the
replacement character.  All else stands for itself.
-/

namespace JavaDecl.Text

variable {text rest front : List Char} {c : Char} {value high low : Nat} {units : List Nat}
  {cuts : List Piece}

/-! ### UTF-16 -/

def utf16 (c : Char) : List Nat :=
  if c.toNat < 0x10000 then [c.toNat]
  else [0xD800 + (c.toNat - 0x10000) / 0x400, 0xDC00 + (c.toNat - 0x10000) % 0x400]

/-- A unit that stands for a character only together with another. -/
def isSurrogate (value : Nat) : Bool :=
  isHighSurrogate value || isLowSurrogate value

/-- Units that are read as the text that they encode.  A surrogate without a partner is read as
the replacement character. -/
inductive ReadsUnits : List Nat → List Char → Prop where
  | nil : ReadsUnits [] []
  | char {c : Char} {units : List Nat} {text : List Char} : ReadsUnits units text →
      ReadsUnits (utf16 c ++ units) (c :: text)
  | unpaired {value : Nat} {units : List Nat} {text : List Char} : isSurrogate value = true →
      (isHighSurrogate value = true → ∀ next ∈ units.head?, isLowSurrogate next = false) →
      ReadsUnits units text → ReadsUnits (value :: units) (replacement :: text)

theorem isSurrogate_iff : isSurrogate value = true ↔ 0xD800 ≤ value ∧ value < 0xE000 := by
  simp only [isSurrogate, isHighSurrogate, isLowSurrogate, Bool.or_eq_true, Bool.and_eq_true,
    decide_eq_true_eq]
  omega

theorem not_isSurrogate_toNat (c : Char) : isSurrogate c.toNat = false := by
  rw [← Bool.not_eq_true, isSurrogate_iff]
  have valid : c.toNat < 0xD800 ∨ 0xDFFF < c.toNat ∧ c.toNat < 0x110000 := c.valid
  omega

theorem toNat_ofNat (valid : value.isValidChar) : (Char.ofNat value).toNat = value := by
  rw [Char.ofNat, dif_pos valid]
  rfl

theorem toNat_ofNat_of_not_isSurrogate (small : value < 0x10000)
    (plain : isSurrogate value = false) : (Char.ofNat value).toNat = value := by
  rw [← Bool.not_eq_true, isSurrogate_iff] at plain
  exact toNat_ofNat (by unfold Nat.isValidChar; omega)

theorem utf16_surrogatePair (isHigh : isHighSurrogate high = true)
    (isLow : isLowSurrogate low = true) : utf16 (surrogatePair high low) = [high, low] := by
  simp only [isHighSurrogate, isLowSurrogate, Bool.and_eq_true, decide_eq_true_eq] at isHigh isLow
  have code : (surrogatePair high low).toNat =
      0x10000 + (high - 0xD800) * 0x400 + (low - 0xDC00) :=
    toNat_ofNat (by unfold Nat.isValidChar; omega)
  have first : 0xD800 + ((surrogatePair high low).toNat - 0x10000) / 0x400 = high := by omega
  have second : 0xDC00 + ((surrogatePair high low).toNat - 0x10000) % 0x400 = low := by omega
  rw [utf16, if_neg (by omega), first, second]

theorem exists_readsUnits (small : ∀ value ∈ units, value < 0x10000) :
    ∃ text, ReadsUnits units text := by
  induction length : units.length using Nat.strongRecOn generalizing units with
  | ind _ ih =>
      have further {rest : List Nat} (shorter : rest.length < units.length)
          (sub : rest ⊆ units) : ∃ text, ReadsUnits rest text :=
        ih _ (length ▸ shorter) (fun value member => small value (sub member)) rfl
      cases units with
      | nil => exact ⟨[], .nil⟩
      | cons value rest =>
          obtain ⟨text, reads⟩ := further (Nat.lt_succ_self _) (List.subset_cons_self value rest)
          by_cases plain : isSurrogate value = false
          · have code := toNat_ofNat_of_not_isSurrogate (small value (by simp)) plain
            have encoded : utf16 (Char.ofNat value) = [value] := by
              rw [utf16, code, if_pos (small value (by simp))]
            exact ⟨_, by simpa [encoded] using reads.char (c := Char.ofNat value)⟩
          · rw [Bool.not_eq_false] at plain
            by_cases paired : isHighSurrogate value = true ∧
                ∃ next, rest.head? = some next ∧ isLowSurrogate next = true
            · obtain ⟨isHigh, low, first, isLow⟩ := paired
              obtain ⟨rest, rfl⟩ := List.head?_eq_some_iff.mp first
              have sub : rest ⊆ value :: low :: rest := fun _ member => by simp [member]
              obtain ⟨text, reads⟩ := further (by simp only [List.length_cons]; omega) sub
              have read := reads.char (c := surrogatePair value low)
              rw [utf16_surrogatePair isHigh isLow] at read
              exact ⟨_, read⟩
            · refine ⟨_, reads.unpaired plain fun isHigh next first => ?_⟩
              rw [← Bool.not_eq_true]
              exact fun isLow => paired ⟨isHigh, next, first, isLow⟩

/-! ### Runs of escapes -/

/-- A text that its pieces stand for.  Every longest run of escapes is read as UTF-16. -/
inductive StandsFor : List Piece → List Char → Prop where
  | nil : StandsFor [] []
  | plain {c : Char} {cuts : List Piece} {text : List Char} : StandsFor cuts text →
      StandsFor (.plain c :: cuts) (c :: text)
  | run {units : List Nat} {cuts : List Piece} {front text : List Char} : units ≠ [] →
      (∀ value, cuts.head? ≠ some (.unit value)) → ReadsUnits units front → StandsFor cuts text →
      StandsFor (units.map .unit ++ cuts) (front ++ text)

theorem joinPieces_pair (isHigh : isHighSurrogate high = true) (isLow : isLowSurrogate low = true) :
    joinPieces (.unit high :: .unit low :: cuts) = surrogatePair high low :: joinPieces cuts := by
  rw [joinPieces, isHigh, isLow]
  rfl

/-- A unit that makes no pair with the next one. -/
theorem joinPieces_alone
    (alone : ∀ next, cuts.head? = some (.unit next) →
      (isHighSurrogate value && isLowSurrogate next) = false) :
    joinPieces (.unit value :: cuts) =
      (if isSurrogate value then replacement else Char.ofNat value) :: joinPieces cuts := by
  have either : (if isSurrogate value then replacement else Char.ofNat value) :: joinPieces cuts =
      if isHighSurrogate value || isLowSurrogate value then replacement :: joinPieces cuts
      else Char.ofNat value :: joinPieces cuts :=
    apply_ite (· :: joinPieces cuts) _ _ _
  rw [either]
  cases cuts with
  | nil => rfl
  | cons piece cuts =>
      cases piece with
      | plain c => rfl
      | unit next =>
          rw [joinPieces, alone next rfl]
          rfl

theorem joinPieces_single (plain : isSurrogate value = false) :
    joinPieces (.unit value :: cuts) = Char.ofNat value :: joinPieces cuts := by
  have notHigh : isHighSurrogate value = false := (Bool.or_eq_false_iff.mp plain).1
  rw [joinPieces_alone (by simp [notHigh]), plain]
  rfl

/-- A surrogate that its partner does not follow. -/
theorem joinPieces_unpaired (surrogate : isSurrogate value = true)
    (unpaired : isHighSurrogate value = true →
      ∀ next, cuts.head? = some (.unit next) → isLowSurrogate next = false) :
    joinPieces (.unit value :: cuts) = replacement :: joinPieces cuts := by
  rw [joinPieces_alone, if_pos surrogate]
  intro next first
  rw [Bool.and_eq_false_iff]
  by_cases isHigh : isHighSurrogate value = true
  · exact .inr (unpaired isHigh next first)
  · exact .inl (by simpa using isHigh)

theorem joinPieces_utf16 (c : Char) :
    joinPieces ((utf16 c).map .unit ++ cuts) = c :: joinPieces cuts := by
  have valid : c.toNat < 0xD800 ∨ 0xDFFF < c.toNat ∧ c.toNat < 0x110000 := c.valid
  unfold utf16
  split
  · rw [List.map_singleton, List.singleton_append, joinPieces_single (not_isSurrogate_toNat c),
      Char.ofNat_toNat]
  · have isHigh : isHighSurrogate (0xD800 + (c.toNat - 0x10000) / 0x400) = true := by
      simp only [isHighSurrogate, Bool.and_eq_true, decide_eq_true_eq]
      omega
    have isLow : isLowSurrogate (0xDC00 + (c.toNat - 0x10000) % 0x400) = true := by
      simp only [isLowSurrogate, Bool.and_eq_true, decide_eq_true_eq]
      omega
    have code : 0x10000 + (0xD800 + (c.toNat - 0x10000) / 0x400 - 0xD800) * 0x400 +
        (0xDC00 + (c.toNat - 0x10000) % 0x400 - 0xDC00) = c.toNat := by omega
    rw [List.map_cons, List.map_singleton, List.cons_append, List.singleton_append,
      joinPieces_pair isHigh isLow, surrogatePair, code, Char.ofNat_toNat]

theorem ReadsUnits.joinPieces (reads : ReadsUnits units front)
    (ends : ∀ value, cuts.head? ≠ some (.unit value)) :
    joinPieces (units.map .unit ++ cuts) = front ++ Text.joinPieces cuts := by
  induction reads with
  | nil => rfl
  | char _ ih => rw [List.map_append, List.append_assoc, joinPieces_utf16, ih, List.cons_append]
  | @unpaired value units _ surrogate unpaired _ ih =>
      rw [List.map_cons, List.cons_append, joinPieces_unpaired surrogate, ih, List.cons_append]
      intro isHigh next first
      cases units with
      | nil => exact absurd first (ends next)
      | cons other units =>
          obtain rfl : other = next := by simpa using first
          exact unpaired isHigh other rfl

theorem StandsFor.joinPieces_eq (stands : StandsFor cuts text) : joinPieces cuts = text := by
  induction stands with
  | nil => rfl
  | plain _ ih => rw [joinPieces, ih]
  | run _ ends reads _ ih => rw [reads.joinPieces ends, ih]

theorem exists_standsFor (small : ∀ value, .unit value ∈ cuts → value < 0x10000) :
    ∃ text, StandsFor cuts text := by
  -- The run that the pieces open with is kept apart, since one more unit in front makes it longer.
  have split : ∃ (units : List Nat) (rest : List Piece), cuts = units.map .unit ++ rest ∧
      (∀ value, rest.head? ≠ some (.unit value)) ∧ ∃ text, StandsFor rest text := by
    induction cuts with
    | nil => exact ⟨[], [], rfl, by simp, [], .nil⟩
    | cons piece cuts ih =>
        obtain ⟨units, rest, rfl, ends, text, stands⟩ :=
          ih fun value member => small value (List.mem_cons_of_mem piece member)
        cases piece with
        | unit value => exact ⟨value :: units, rest, rfl, ends, text, stands⟩
        | plain c =>
            refine ⟨[], _, rfl, by simp, ?_⟩
            cases units with
            | nil => exact ⟨_, .plain stands⟩
            | cons value units =>
                have among : ∀ other ∈ value :: units, other < 0x10000 := fun other member =>
                  small other (List.mem_cons_of_mem _ (List.mem_append_left _
                    (List.mem_map_of_mem member)))
                obtain ⟨front, reads⟩ := exists_readsUnits among
                exact ⟨_, .plain (.run (by simp) ends reads stands)⟩
  obtain ⟨units, rest, rfl, ends, text, stands⟩ := split
  cases units with
  | nil => exact ⟨text, stands⟩
  | cons value units =>
      have among : ∀ other ∈ value :: units, other < 0x10000 := fun other member =>
        small other (List.mem_append_left _ (List.mem_map_of_mem member))
      obtain ⟨front, reads⟩ := exists_readsUnits among
      exact ⟨_, .run (by simp) ends reads stands⟩

theorem IsEitherEscape.lt (escape : IsEitherEscape text value) : value < 0x10000 := by
  obtain ⟨_, digits, _, length, numeral⟩ | ⟨_, digits, _, length, numeral⟩ := escape <;>
  · have := numeral.lt
    rw [length] at this
    omega

theorem CutAt.lt (cut : CutAt IsEitherEscape text cuts) :
    ∀ value, .unit value ∈ cuts → value < 0x10000 := by
  induction cut with
  | nil => simp
  | escape escape _ ih =>
      intro value member
      rcases List.mem_cons.mp member with same | later
      · cases same
        exact escape.lt
      · exact ih value later
  | plain _ _ ih => exact fun value member => ih value (by simpa using member)

theorem standsFor_joinPieces (text : List Char) :
    StandsFor (pieces text) (joinPieces (pieces text)) := by
  obtain ⟨result, stands⟩ := exists_standsFor (cutAt_pieces text).lt
  rwa [stands.joinPieces_eq]

/-- The text in which escapes of some kind are replaced by what they stand for. -/
def Decodes (escape : List Char → Nat → Prop) (text result : List Char) : Prop :=
  ∃ cuts, CutAt escape text cuts ∧ StandsFor cuts result

theorem decodes_iff {result : List Char} :
    Decodes IsEitherEscape text result ↔ decodeEscapes text = result := by
  constructor
  · rintro ⟨cuts, cut, stands⟩
    rw [decodeEscapes, cut.pieces_eq, stands.joinPieces_eq]
  · rintro rfl
    exact ⟨pieces text, cutAt_pieces text, standsFor_joinPieces text⟩

theorem decodes_isEscape_iff {result : List Char}
    (unsigned : ∀ front value, IsSignedEscape front value → ¬ front <:+: text) :
    Decodes IsEscape text result ↔ decodeEscapes text = result := by
  have same (front : List Char) (value : Nat) (inside : front <:+: text) :
      IsEscape front value ↔ IsEitherEscape front value :=
    ⟨.inl, fun escape => escape.resolve_right fun signed => unsigned front value signed inside⟩
  rw [← decodes_iff]
  constructor
  · rintro ⟨cuts, cut, stands⟩
    exact ⟨cuts, cut.change same, stands⟩
  · rintro ⟨cuts, cut, stands⟩
    exact ⟨cuts, cut.change fun front value inside => (same front value inside).symm, stands⟩

theorem Decodes.unique {one other : List Char} (decodes : Decodes IsEscape text one)
    (again : Decodes IsEscape text other) : one = other := by
  obtain ⟨cuts, cut, stands⟩ := decodes
  obtain ⟨others, recut, standsAgain⟩ := again
  obtain rfl := cut.unique (fun _ _ => .inl) recut
  exact stands.joinPieces_eq.symm.trans standsAgain.joinPieces_eq

theorem decodes_self {escape : List Char → Nat → Prop}
    (none : ∀ front value, escape front value → ¬ front <:+: text) : Decodes escape text text := by
  refine ⟨_, cutAt_plain none, ?_⟩
  clear none
  induction text with
  | nil => exact .nil
  | cons c text ih => exact .plain ih

/-! ### Units read from bytes -/

/-- The number that digits write in base sixteen.  A plus sign may stand in front of them. -/
def signedNumber? (digits : List Char) : Option Nat :=
  hexNumber? 0 (if digits.head? = some '+' then digits.tail else digits)

/-- How many `u` a text opens with. -/
def markCount (text : List Char) : Nat :=
  (text.takeWhile (· == 'u')).length

/-- The unit behind a backslash and the text behind the unit.  The four bytes after the `u` are
read as a number, if they are a slice of the text at all. -/
def unitInBytes? (text : List Char) : Option (Nat × List Char) :=
  if markCount text = 0 then none
  else ((slice? text (markCount text) (markCount text + 4)).bind signedNumber?).map
    (·, text.drop (markCount text + 4))

theorem utf8Size_of_toNat_lt (ascii : c.toNat < 128) : c.utf8Size = 1 := by
  have low : c.val ≤ 0x7f := UInt32.le_iff_toNat_le.mpr (Nat.le_of_lt_succ ascii)
  exact if_pos low

theorem byteSize_of_hexNumber? {total : Nat} {digits : List Char}
    (found : hexNumber? total digits = some value) : byteSize digits = digits.length := by
  induction digits generalizing total with
  | nil => rfl
  | cons c digits ih =>
      obtain ⟨first, digit, more⟩ := Option.bind_eq_some_iff.mp found
      have ascii : c.toNat < 128 := (hexValue?_bounds digit).2.trans (by decide)
      rw [byteSize_cons, List.length_cons, utf8Size_of_toNat_lt ascii, ih more, Nat.add_comm]

/-- Whatever is read as a number takes one byte for each character. -/
theorem byteSize_of_signedNumber? {digits : List Char} (found : signedNumber? digits = some value) :
    byteSize digits = digits.length := by
  unfold signedNumber? at found
  split at found
  · next plus =>
      obtain ⟨digits, rfl⟩ := List.head?_eq_some_iff.mp plus
      have sign : ('+' : Char).utf8Size = 1 := by decide
      have size : byteSize digits = digits.length := byteSize_of_hexNumber? found
      rw [byteSize_cons, List.length_cons, sign, size, Nat.add_comm]
  · exact byteSize_of_hexNumber? found

theorem signedNumber?_four (a b c d : Char) :
    signedNumber? [a, b, c, d] = unitValue? a b c d := by
  simp only [signedNumber?, unitValue?, List.head?_cons, Option.some.injEq, List.tail_cons]
  split <;> rfl

theorem exists_of_takeBytes? {count : Nat} (taken : takeBytes? count text = some front) :
    (∃ back, text = front ++ back) ∧ byteSize front = count := by
  fun_induction takeBytes? count text generalizing front with
  | case1 text =>
      cases taken
      exact ⟨⟨text, rfl⟩, rfl⟩
  | case2 => cases taken
  | case3 count c text fits ih =>
      obtain ⟨front, found, rfl⟩ := Option.map_eq_some_iff.mp taken
      obtain ⟨⟨back, rfl⟩, size⟩ := ih found
      exact ⟨⟨back, rfl⟩, by rw [byteSize_cons]; omega⟩
  | case4 => cases taken

theorem signedNumber?_takeBytes? (text : List Char) :
    (takeBytes? 4 text).bind signedNumber? =
      match text with
      | a :: b :: c :: d :: _ => unitValue? a b c d
      | _ => none := by
  ext value
  rw [Option.bind_eq_some_iff]
  constructor
  · rintro ⟨digits, taken, found⟩
    obtain ⟨⟨back, rfl⟩, size⟩ := exists_of_takeBytes? taken
    rw [byteSize_of_signedNumber? found] at size
    obtain ⟨a, b, c, d, rfl⟩ := List.length_eq_four.mp size
    rwa [signedNumber?_four] at found
  · intro found
    split at found
    · next a b c d back =>
        rw [← signedNumber?_four] at found
        have size : byteSize [a, b, c, d] = 4 := byteSize_of_signedNumber? found
        have taken := takeBytes?_byteSize [a, b, c, d] back
        rw [size] at taken
        exact ⟨_, taken, found⟩
    · cases found

theorem byteSize_marks (more : Nat) : byteSize (List.replicate more 'u') = more := by
  have mark : ('u' : Char).utf8Size = 1 := by decide
  induction more with
  | zero => rfl
  | succ more ih => rw [List.replicate_succ, byteSize_cons, ih, mark, Nat.add_comm]

theorem takeWhile_marks (more : Nat) (other : rest.head? ≠ some 'u') :
    (List.replicate more 'u' ++ rest).takeWhile (· == 'u') = List.replicate more 'u' := by
  rw [List.takeWhile_append_of_pos (by simp)]
  cases rest with
  | nil => simp
  | cons c rest => rw [List.takeWhile_cons_of_neg (by simpa using other), List.append_nil]

/-- No unit is missed for being read from bytes, and none is found in parts of characters. -/
theorem unitInBytes?_eq (text : List Char) : unitInBytes? text = escapedUnit? text := by
  obtain ⟨more, split⟩ := exists_marks text
  have other : (text.dropWhile (· == 'u')).head? ≠ some 'u' := by
    intro first
    have := List.head?_dropWhile_not (· == 'u') text
    rw [first] at this
    cases this
  generalize text.dropWhile (· == 'u') = rest at split other
  subst split
  have count : markCount (List.replicate more 'u' ++ rest) = more := by
    rw [markCount, takeWhile_marks more other, List.length_replicate]
  have four : slice? (List.replicate more 'u' ++ rest) more (more + 4) = takeBytes? 4 rest := by
    have dropped := dropBytes?_byteSize (List.replicate more 'u') rest
    rw [byteSize_marks] at dropped
    rw [slice?, if_pos (Nat.le_add_right more 4), dropped, Option.bind_some,
      Nat.add_sub_cancel_left]
  have behind : (List.replicate more 'u' ++ rest).drop (more + 4) = rest.drop 4 := by
    rw [← List.drop_drop, List.drop_left' List.length_replicate]
  rw [unitInBytes?, count, four, behind, signedNumber?_takeBytes?]
  cases more with
  | zero =>
      rw [if_pos rfl, List.replicate_zero, List.nil_append]
      unfold escapedUnit?
      split
      · exact absurd rfl other
      · rfl
  | succ more =>
      rw [if_neg (Nat.succ_ne_zero more), List.replicate_succ, List.cons_append, escapedUnit?,
        dropWhile_marks more other]
      rcases rest with _ | ⟨_, _ | ⟨_, _ | ⟨_, _ | ⟨_, rest⟩⟩⟩⟩ <;> rfl

/-! ### Decoding -/

/-- A text is decoded by its escapes, where a plus sign and three hexadecimal digits count as an
escape besides four.  What stands behind a backslash is a slice of the text. -/
theorem escapes_are_decoded (text : List Char) :
    (∀ result, Decodes IsEitherEscape text result ↔ decodeEscapes text = result) ∧
      ((∀ front value, IsSignedEscape front value → ¬ front <:+: text) →
        ∀ result, Decodes IsEscape text result ↔ decodeEscapes text = result) ∧
      ∀ front rest, text = front ++ '\\' :: rest →
        slice? text (byteSize front + 1) (byteSize text) = some rest ∧
          unitInBytes? rest = escapedUnit? rest := by
  refine ⟨fun result => decodes_iff, fun unsigned result => decodes_isEscape_iff unsigned, ?_⟩
  rintro front rest rfl
  refine ⟨?_, unitInBytes?_eq rest⟩
  have backslash : ('\\' : Char).utf8Size = 1 := by decide
  have slice := slice?_middle (front ++ ['\\']) rest []
  simpa [backslash, Nat.add_assoc] using slice

/-- Pairs and lone surrogates among escapes that are cut short. -/
theorem surrogates_are_decoded :
    '+' ∉ "x\\uu0041é\\uD83D\\uude00\\uD800!\\u12G4\\u".toList ∧
      Decodes IsEscape "x\\uu0041é\\uD83D\\uude00\\uD800!\\u12G4\\u".toList
        "xAé😀\uFFFD!\\u12G4\\u".toList := by
  have unsigned : '+' ∉ "x\\uu0041é\\uD83D\\uude00\\uD800!\\u12G4\\u".toList := by decide
  refine ⟨unsigned, ((escapes_are_decoded _).2.1 (fun front value signed inside => ?_) _).mpr ?_⟩
  · exact unsigned (inside.subset signed.plus_mem)
  · decide +kernel

/-- A plus sign in place of a digit does not keep an escape from being decoded. -/
theorem signed_escape_is_decoded :
    Decodes IsEscape "\\u+041".toList "\\u+041".toList ∧
      ¬ Decodes IsEscape "\\u+041".toList (decodeEscapes "\\u+041".toList) := by
  have none : ∀ front value, IsEscape front value → ¬ front <:+: "\\u+041".toList := by
    rintro front value ⟨more, digits, rfl, four, numeral⟩ inside
    have length := inside.length_le
    simp [four] at length
    obtain rfl : more = 0 := by omega
    have whole := inside.eq_of_length (by simp [four])
    obtain rfl : digits = "+041".toList := by simpa using whole
    rw [← hexNumber?_zero] at numeral
    have noNumber : hexNumber? 0 "+041".toList = .none := by decide
    rw [noNumber] at numeral
    cases numeral
  have itself := decodes_self none
  refine ⟨itself, fun decoded => ?_⟩
  have same := itself.unique decoded
  revert same
  decide +kernel

end JavaDecl.Text
