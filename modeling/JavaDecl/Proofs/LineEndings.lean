import JavaDecl.Proofs.LexemesInLines
import JavaDecl.Proofs.ParallelDeclarations
import JavaDecl.Proofs.TiledSources

/-!
# Ends of lines

A source whose lines end in newlines, and the same source with a carriage return in front of
every newline, are read alike.  Offsets and columns differ, but the events are the same ones on
the same lines, once the carriage returns in their verbatim texts are gone.
-/

namespace JavaDecl

open Text Lexeme

variable {source : List Char}

/-! ### Lines -/

theorem line_after_withReturns (source passed : List Char) :
    (Location.after source passed).line =
      (Location.after (withReturns source) (withReturns passed)).line := by
  rw [Location.line_after, Location.line_after, count_withReturns]

theorem TokenStream.withReturns_lead (source : List Char) :
    withReturns (lead source) = lead source := by
  unfold lead
  split <;> rfl

theorem TokenStream.lead_withReturns (source : List Char) :
    lead (withReturns source) = lead source := by
  cases source with
  | nil => rfl
  | cons c rest =>
      by_cases newline : c = '\n'
      · subst newline
        rfl
      · rw [withReturns_cons newline]
        rfl

/-! ### Sizes -/

theorem Text.byteSize_eq_zero {text : List Char} : byteSize text = 0 ↔ text = [] := by
  cases text with
  | nil => simp
  | cons c rest =>
      have size := c.utf8Size_pos
      simp only [byteSize_cons, reduceCtorEq, iff_false]
      omega

/-- A text is empty if and only if it is with carriage returns. -/
theorem Text.withReturns_eq_nil {text : List Char} : withReturns text = [] ↔ text = [] := by
  have longer := length_le_withReturns text
  constructor
  · intro none
    rw [none] at longer
    exact List.length_eq_zero_iff.mp (Nat.le_zero.mp longer)
  · rintro rfl
    rfl

namespace TokenStream

/-- Streams at the same place of a source without and with carriage returns. -/
def InStep (source : List Char) (one other : TokenStream) : Prop :=
  ∃ taken, one.Located source taken ∧ other.Located (withReturns source) (withReturns taken)

theorem Located.endsLines {taken : List Char} {stream : TokenStream}
    (located : stream.Located source taken) (ends : EndsLines source) : EndsLines stream.rest := by
  refine ends.suffix ⟨lead source ++ taken, ?_⟩
  rw [List.append_assoc]
  exact located.rest.symm

theorem rest_withReturns {taken : List Char} {one other : TokenStream}
    (located : one.Located source taken)
    (located' : other.Located (withReturns source) (withReturns taken)) :
    other.rest = withReturns one.rest := by
  have whole := congrArg withReturns located.rest
  rw [located'.rest, lead_withReturns, withReturns_append, withReturns_lead,
    withReturns_append] at whole
  exact List.append_cancel_left (List.append_cancel_left whole)

end TokenStream

namespace Correspondence

open TokenStream

/-- A text without the carriage returns in front of its newlines. -/
def restoreLines (text : String) : String :=
  String.ofList (withoutReturns text.toList)

/-- A source beside itself with carriage returns. -/
def lineEnds (source : List Char) : Correspondence where
  streams := InStep source
  offsets start start' := ∃ front back, source = front ++ back ∧
    start = byteSize front ∧ start' = byteSize (withReturns front)
  places one other := one.line = other.line
  restore := restoreLines

theorem restoreLines_withReturns {text : List Char} (none : '\r' ∉ text) :
    restoreLines (String.ofList (withReturns text)) = String.ofList text := by
  rw [restoreLines, String.toList_ofList, withoutReturns_withReturns none]

/-- Two places of a source, and the part that is between them. -/
theorem exists_between {start start' stop stop' : Nat}
    (starts : (lineEnds source).offsets start start')
    (stops : (lineEnds source).offsets stop stop') :
    (∃ front middle back, source = front ++ (middle ++ back) ∧ start = byteSize front ∧
        start' = byteSize (withReturns front) ∧ stop = start + byteSize middle ∧
        stop' = start' + byteSize (withReturns middle)) ∨ stop < start ∧ stop' < start' := by
  obtain ⟨front, back, split, rfl, rfl⟩ := starts
  obtain ⟨further, left, other, rfl, rfl⟩ := stops
  rcases List.append_eq_append_iff.mp (split.symm.trans other) with
    ⟨middle, rfl, rfl⟩ | ⟨middle, rfl, rfl⟩
  · exact .inl ⟨front, middle, left, split, rfl, rfl, by simp, by simp⟩
  · by_cases empty : middle = []
    · subst empty
      exact .inl ⟨further, [], back, by simpa using other, by simp, by simp, by simp, by simp⟩
    · have size : byteSize middle ≠ 0 := mt byteSize_eq_zero.mp empty
      have size' : byteSize (withReturns middle) ≠ 0 :=
        mt byteSize_eq_zero.mp (mt withReturns_eq_nil.mp empty)
      refine .inr ⟨?_, ?_⟩
      · rw [byteSize_append]
        omega
      · rw [withReturns_append, byteSize_append]
        omega

theorem lineEnds_offset {one other : TokenStream} (streams : InStep source one other) :
    (lineEnds source).offsets one.offset other.offset := by
  obtain ⟨taken, located, located'⟩ := streams
  refine ⟨lead source ++ taken, one.rest, ?_, located.offset, ?_⟩
  · rw [List.append_assoc]
    exact located.rest
  · rw [located'.offset, lead_withReturns, withReturns_append, withReturns_lead]

theorem line_of_covers {before slice slice' : List Char} {token other : Token}
    (covers : token.Covers source before slice)
    (covers' : other.Covers (withReturns source) (withReturns before) slice') :
    token.place.line = other.place.line := by
  rw [covers.place, covers'.place, line_after_withReturns]

theorem tokens_of_covers {taken slice rest : List Char} {token other : Token}
    (whole : source = lead source ++ (taken ++ (slice ++ rest)))
    (covers : token.Covers source taken slice)
    (covers' : other.Covers (withReturns source) (withReturns taken) (withReturns slice))
    (kind : token.kind = other.kind) (text : token.text = other.text) :
    (lineEnds source).Tokens token other where
  kind := kind
  text := text
  place := line_of_covers covers covers'
  first := by
    refine ⟨lead source ++ taken, slice ++ rest, ?_, covers.first, ?_⟩
    · rw [List.append_assoc]
      exact whole
    · rw [covers'.first, lead_withReturns, withReturns_append, withReturns_lead]
  stop := by
    refine ⟨lead source ++ taken ++ slice, rest, ?_, ?_, ?_⟩
    · simpa only [List.append_assoc] using whole
    · rw [covers.stop, covers.first, byteSize_append _ slice]
    · rw [covers'.stop, covers'.first, lead_withReturns, withReturns_append _ slice,
        withReturns_append, withReturns_lead, byteSize_append _ (withReturns slice)]

/-- A lexeme is read as the same token, or both times as a doc comment, or as a fault. -/
theorem token?_cases {cut cut' : Cut} (same : SameLexeme cut cut') :
    (∃ kind text, cut.token? = .ok (kind, text) ∧ cut'.token? = .ok (kind, text)) ∨
      (cut.token? = .ok (.docComment, String.ofList cut.text) ∧
        cut'.token? = .ok (.docComment, String.ofList (withReturns cut.text))) ∨
      ∃ detail detail', cut.token? = .error detail ∧ cut'.token? = .error detail' := by
  cases spreads : cut.shape.spreads with
  | false =>
      have text : cut'.text = cut.text := by
        rw [same.text, withReturns_of_notMem (same.inLine spreads)]
      have alike : cut'.token? = cut.token? := by
        unfold Cut.token? Cut.token?.complaint
        rw [same.shape, text]
      rw [alike]
      cases read : cut.token? with
      | ok value => exact .inl ⟨value.1, value.2, rfl, rfl⟩
      | error detail => exact .inr (.inr ⟨detail, detail, rfl, rfl⟩)
  | true =>
      unfold Cut.token?
      rw [same.shape]
      cases shape : cut.shape with
      | docComment => exact .inr (.inl ⟨rfl, by rw [same.text]⟩)
      | space | comment | unclosedComment => exact .inr (.inr ⟨_, _, rfl, rfl⟩)
      | word | number | string | character | mark | invalid =>
          rw [shape] at spreads
          cases spreads

theorem lineEnds_next (ends : EndsLines source) {one other : TokenStream}
    (streams : InStep source one other) : (lineEnds source).Answers one.next other.next := by
  obtain ⟨taken, located, located'⟩ := streams
  have left := rest_withReturns located located'
  have lexemes := next?_withReturns (located.endsLines ends) one.offset other.offset
  rw [← left] at lexemes
  cases found : Lexeme.next? one.offset one.rest with
  | none =>
      cases found' : Lexeme.next? other.offset other.rest with
      | some cut' =>
          rw [found, found'] at lexemes
          cases lexemes
      | none =>
          obtain ⟨token, after, answer, kind, text, covers, -, later⟩ :=
            located.next_of_none found
          obtain ⟨token', after', answer', kind', text', covers', -, later'⟩ :=
            located'.next_of_none found'
          rw [left, ← withReturns_append] at covers' later'
          rw [answer, answer']
          have whole : source = lead source ++ ((taken ++ one.rest) ++ ([] ++ [])) := by
            simpa using located.rest
          exact .token (tokens_of_covers whole covers covers' (kind.trans kind'.symm)
            (text.trans text'.symm)) ⟨_, later, later'⟩
  | some cut =>
      cases found' : Lexeme.next? other.offset other.rest with
      | none =>
          rw [found, found'] at lexemes
          cases lexemes
      | some cut' =>
          rw [found, found'] at lexemes
          obtain same : SameLexeme cut cut' := by
            cases lexemes
            assumption
          obtain ⟨gap, after, split, -, -, later, answer⟩ := located.next_of_some found
          obtain ⟨gap', after', split', -, -, later', answer'⟩ := located'.next_of_some found'
          have sameGap : gap' = withReturns gap := by
            rw [left, split, withReturns_append, withReturns_append, same.text, same.rest] at split'
            exact (List.append_cancel_right split').symm
          rw [sameGap, same.text, ← withReturns_append, ← withReturns_append] at later'
          rw [sameGap, same.text, ← withReturns_append] at answer'
          have streams : InStep source after after' := ⟨_, later, later'⟩
          have whole : source =
              lead source ++ ((taken ++ gap) ++ (cut.text ++ cut.rest)) := by
            rw [List.append_assoc taken, ← split]
            exact located.rest
          rcases token?_cases same with ⟨kind, text, read, read'⟩ | ⟨read, read'⟩ |
            ⟨detail, detail', read, read'⟩
          · rw [read] at answer
            rw [read'] at answer'
            obtain ⟨token, answer, isKind, isText, covers⟩ := answer
            obtain ⟨token', answer', isKind', isText', covers'⟩ := answer'
            rw [answer, answer']
            exact .token (tokens_of_covers whole covers covers' (isKind.trans isKind'.symm)
              (isText.trans isText'.symm)) streams
          · rw [read] at answer
            rw [read'] at answer'
            obtain ⟨token, answer, isKind, isText, covers⟩ := answer
            obtain ⟨token', answer', isKind', isText', covers'⟩ := answer'
            have line : token.line = token'.line := line_of_covers covers covers'
            have noReturn : '\r' ∉ cut.text := by
              refine fun member => ends.noReturn ?_
              rw [whole]
              simp [member]
            rw [answer, answer']
            refine .comment isKind isKind' ?_ streams
            rw [isText, isText', line, String.toList_ofList, String.toList_ofList,
              DocComment.ofText_withReturns noReturn]
          · rw [read] at answer
            rw [read'] at answer'
            rw [answer, answer']
            exact .failure (line_after_withReturns source (taken ++ gap))

theorem lineEnds_block (ends : EndsLines source) {one other : TokenStream}
    (streams : InStep source one other) :
    (lineEnds source).Blocks one.takeBlock other.takeBlock := by
  obtain ⟨taken, located, located'⟩ := streams
  have left := rest_withReturns located located'
  have blocks := Block.blockEnd_withReturns 0 (located.endsLines ends)
  rw [← left] at blocks
  cases found : Block.blockEnd 0 one.rest with
  | closed rest =>
      obtain ⟨body, split⟩ := Block.exists_body_of_closed found
      have split' : other.rest = withReturns body ++ '\x7d' :: withReturns rest := by
        rw [left, split, withReturns_append, withReturns_cons (by decide)]
      rw [found] at blocks
      obtain ⟨block, after, answer, text, -, -, later⟩ := located.takeBlock_of_closed split found
      obtain ⟨block', after', answer', text', -, -, later'⟩ :=
        located'.takeBlock_of_closed split' blocks
      have brace : withReturns taken ++ (withReturns body ++ ['\x7d']) =
          withReturns (taken ++ (body ++ ['\x7d'])) := by
        rw [withReturns_append, withReturns_append]
        rfl
      rw [brace] at later'
      have noReturn : '\r' ∉ body := by
        refine fun member => ends.noReturn ?_
        rw [located.rest, split]
        simp [member]
      rw [answer, answer']
      refine .block ?_ ⟨_, later, later'⟩
      rw [text, text']
      exact (restoreLines_withReturns noReturn).symm
  | unclosedComment text =>
      obtain ⟨front, split⟩ := Block.suffix_of_unclosedComment found
      have split' : other.rest = withReturns front ++ withReturns text := by
        rw [left, ← split, withReturns_append]
      rw [found] at blocks
      obtain ⟨failure, after, answer, place⟩ :=
        located.takeBlock_of_unclosedComment split.symm found
      obtain ⟨failure', after', answer', place'⟩ :=
        located'.takeBlock_of_unclosedComment split' blocks
      rw [answer, answer']
      refine .failure ?_
      rw [place, place', ← withReturns_append]
      exact line_after_withReturns source _
  | unclosed =>
      rw [found] at blocks
      obtain ⟨failure, after, answer, place⟩ := located.takeBlock_of_unclosed found
      obtain ⟨failure', after', answer', place'⟩ := located'.takeBlock_of_unclosed blocks
      rw [answer, answer']
      refine .failure ?_
      rw [place, place', left, ← withReturns_append]
      exact line_after_withReturns source _

theorem lineEnds_lawful (ends : EndsLines source) : (lineEnds source).Lawful where
  line places := places
  equal starts stops := by
    rcases exists_between starts stops with ⟨_, middle, _, _, _, _, stop, stop'⟩ | ⟨less, less'⟩
    · have sizes : byteSize middle = 0 ↔ byteSize (withReturns middle) = 0 := by
        rw [byteSize_eq_zero, byteSize_eq_zero, withReturns_eq_nil]
      omega
    · omega
  offset := lineEnds_offset
  slice streams starts stops := by
    obtain ⟨taken, located, located'⟩ := streams
    rw [located.whole, located'.whole]
    rcases exists_between starts stops with
      ⟨front, middle, back, whole, rfl, rfl, rfl, rfl⟩ | ⟨less, less'⟩
    · have slice : slice? source (byteSize front) (byteSize front + byteSize middle) =
          some middle := by
        conv => lhs; rw [whole]
        exact slice?_middle front middle back
      have slice' : slice? (withReturns source) (byteSize (withReturns front))
          (byteSize (withReturns front) + byteSize (withReturns middle)) =
            some (withReturns middle) := by
        conv => lhs; rw [whole, withReturns_append, withReturns_append]
        exact slice?_middle _ _ _
      have noReturn : '\r' ∉ middle := by
        refine fun member => ends.noReturn ?_
        rw [whole]
        simp [member]
      rw [slice, slice']
      exact (restoreLines_withReturns noReturn).symm
    · rw [slice?, slice?, if_neg (by omega), if_neg (by omega)]
      rfl
  next := lineEnds_next ends
  block := lineEnds_block ends

end Correspondence

/-- A source, and the same with a carriage return in front of every newline, are both read or
both not.  The events are the same, once newlines stand for the ends of lines in the verbatim
texts of the second. -/
theorem line_ends_do_not_matter (noReturn : '\r' ∉ source)
    (unescaped : ¬ ['\\', '\n'] <:+: source) :
    ((readUnit (withReturns source)).2 = none ↔ (readUnit source).2 = none) ∧
      (readUnit (withReturns source)).1.map (Event.mapVerbatim Correspondence.restoreLines) =
        (readUnit source).1 ∧
      (readUnit (withReturns source)).2.map (fun failure => failure.place.line) =
        (readUnit source).2.map (fun failure => failure.place.line) := by
  have streams : TokenStream.InStep source (.ofSource source) (.ofSource (withReturns source)) :=
    ⟨[], .ofSource source, .ofSource (withReturns source)⟩
  obtain ⟨events, failures⟩ := (Correspondence.lineEnds_lawful ⟨noReturn, unescaped⟩).readUnit
    (length_le_withReturns source) streams
  refine ⟨?_, events.symm, ?_⟩
  all_goals
    revert failures
    generalize (readUnit source).2 = failure
    generalize (readUnit (withReturns source)).2 = failure'
    intro failures
  · cases failures with
    | none => rfl
    | some => simp
  · cases failures with
    | none => rfl
    | some same => exact congrArg some same.symm

/-- A doc comment, an initial value and a body over several lines, the texts of which hold
carriage returns where the source does. -/
theorem class_with_carriage_returns :
    let source :=
      "/** A\n * @since 1 */\nclass A \x7b\n int n = 1 +\n 2; void m() \x7b\n \x7d\n\x7d".toList
    let bodies : List Event → List String :=
      List.filterMap fun event => match event with | .endMethod ended => ended.body | _ => none
    (readUnit source).2 = none ∧ (readUnit (withReturns source)).2 = none ∧
      bodies (readUnit source).1 = ["\n "] ∧
      bodies (readUnit (withReturns source)).1 = ["\r\n "] ∧
      (readUnit (withReturns source)).1.map (Event.mapVerbatim Correspondence.restoreLines) =
        (readUnit source).1 := by
  intro source bodies
  have noReturn : '\r' ∉ source := by decide
  have unescaped : ¬ ['\\', '\n'] <:+: source := by decide
  obtain ⟨read, events, -⟩ := line_ends_do_not_matter noReturn unescaped
  have readAlone : (readUnit source).2 = none := by decide +kernel
  exact ⟨readAlone, read.mpr readAlone, by decide +kernel, by decide +kernel, events⟩

end JavaDecl
