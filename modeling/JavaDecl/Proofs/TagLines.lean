import JavaDecl.Proofs.BlockTags
import JavaDecl.Proofs.DocumentedEntities
import JavaDecl.Proofs.KeptAccounts
import JavaDecl.Proofs.TiledSources

/-!
# Lines of tags

Every tag that a reading announces belongs to a doc comment of its source, and its line is
that of an at sign in that comment with the name of the tag right behind it.  In front of the
at sign are only blanks and stars, up to the start of the line or the opening of the comment.
The tags of a comment are on lines that increase.
-/

namespace JavaDecl

/-! ### Lines of a text -/

namespace Text

/-- A line stands in a text with some lines before it: behind as many newlines, at the start
of the text or right behind the last of them. -/
def LineAt (text content : List Char) (index : Nat) : Prop :=
  ∃ front back, text = front ++ (content ++ back) ∧ front.count '\n' = index ∧
    (∀ c ∈ front.getLast?, c = '\n') ∧ '\n' ∉ content

theorem LineAt.first (text : List Char) : LineAt text [] 0 :=
  ⟨[], text, rfl, rfl, nofun, nofun⟩

theorem LineAt.behind {text content : List Char} {index : Nat}
    (stands : LineAt text content index) (lead : List Char) (single : '\n' ∉ lead) :
    LineAt (lead ++ '\n' :: text) content (index + 1) := by
  obtain ⟨front, back, rfl, count, starts, inLine⟩ := stands
  refine ⟨lead ++ '\n' :: front, back, by simp, ?_, ?_, inLine⟩
  · simp [List.count_eq_zero.mpr single, count]
  · cases front with
    | nil => simp
    | cons c front => simpa using starts

/-- The first line of a text with one more character in front. -/
theorem LineAt.cons_zero {text content : List Char} (stands : LineAt text content 0) {c : Char}
    (plain : c ≠ '\n') : LineAt (c :: text) (c :: content) 0 := by
  obtain ⟨front, back, rfl, count, starts, inLine⟩ := stands
  have none : front = [] := by
    by_contra some
    have last := starts _ (List.getLast?_eq_some_getLast some)
    exact List.count_eq_zero.mp count (last ▸ List.getLast_mem some)
  subst none
  exact ⟨[], back, rfl, rfl, nofun, by simp [inLine, Ne.symm plain]⟩

/-- A later line of a text with one more character in front. -/
theorem LineAt.cons_succ {text content : List Char} {index : Nat}
    (stands : LineAt text content (index + 1)) {c : Char} (plain : c ≠ '\n') :
    LineAt (c :: text) content (index + 1) := by
  obtain ⟨front, back, rfl, count, starts, inLine⟩ := stands
  refine ⟨c :: front, back, rfl, by rwa [List.count_cons_of_ne plain], ?_, inLine⟩
  cases front with
  | nil => cases count
  | cons d front => simpa using starts

theorem lineAt_of_getElem? {text content : List Char} {index : Nat}
    (found : (lines text)[index]? = some content) : LineAt text content index := by
  fun_induction lines text generalizing index content with
  | case1 => cases found
  | case2 rest ih =>
      cases index with
      | zero =>
          obtain rfl := Option.some.inj found
          exact .first _
      | succ index => exact (ih found).behind [] nofun
  | case3 rest ih =>
      cases index with
      | zero =>
          obtain rfl := Option.some.inj found
          exact .first _
      | succ index => exact (ih found).behind ['\r'] (by simp)
  | case4 c rest plain _ none ih =>
      obtain ⟨rfl, rfl⟩ : 0 = index ∧ [c] = content := by
        cases index with
        | zero => exact ⟨rfl, Option.some.inj found⟩
        | succ index => cases found
      exact ⟨[], rest, rfl, rfl, nofun, by simpa using fun same => plain same.symm⟩
  | case5 c rest plain _ line more split ih =>
      cases index with
      | zero =>
          obtain rfl := Option.some.inj found
          exact (ih (by rw [split]; rfl)).cons_zero plain
      | succ index => exact (ih (by rw [split]; exact found)).cons_succ plain

end Text

/-! ### Tags of a doc comment -/

namespace DocComment

/-- A tag is that of a line, counted from the one with a given number: the line opens with an
at sign and the name of the tag. -/
def TagOf (line : Nat) (contents : List (List Char)) (tag : DocTag) : Prop :=
  (tag.name ≠ "" ∧ ∀ c ∈ tag.name.toList, Text.isBlank c = false) ∧
    ∃ index behind, contents[index]? = some ('@' :: (tag.name.toList ++ behind)) ∧
      tag.line = line + index

theorem TagOf.behind {line : Nat} {contents : List (List Char)} {tag : DocTag}
    (isTag : TagOf (line + 1) contents tag) (content : List Char) :
    TagOf line (content :: contents) tag := by
  obtain ⟨word, index, behind, found, place⟩ := isTag
  exact ⟨word, index + 1, behind, found, by omega⟩

theorem opens_of_openedTag? {content name first : List Char}
    (opened : openedTag? content = some (name, first)) :
    (name ≠ [] ∧ ∀ c ∈ name, Text.isBlank c = false) ∧
      ∃ behind, content = '@' :: (name ++ behind) := by
  unfold openedTag? at opened
  split at opened
  · next rest =>
      dsimp only at opened
      split at opened
      · cases opened
      · next some =>
          obtain ⟨rfl, -⟩ := Prod.mk.inj (Option.some.inj opened)
          refine ⟨⟨by simpa using some, fun c listed => ?_⟩, _,
            by rw [List.takeWhile_append_dropWhile]⟩
          simpa using List.mem_takeWhile_imp listed
  · cases opened

/-- The tags of some lines are on lines that increase. -/
theorem tagOf_of_mem_splitTags (line : Nat) (contents : List (List Char)) :
    (∀ tag ∈ (splitTags line contents).2, TagOf line contents tag) ∧
      (splitTags line contents).2.Pairwise fun one other => one.line < other.line := by
  induction contents generalizing line with
  | nil => exact ⟨nofun, .nil⟩
  | cons content contents ih =>
      obtain ⟨tags, increasing⟩ := ih (line + 1)
      have further (tag : DocTag) (listed : tag ∈ (splitTags (line + 1) contents).2) :
          TagOf line (content :: contents) tag := (tags tag listed).behind content
      unfold splitTags
      cases opened : openedTag? content with
      | none => exact ⟨further, increasing⟩
      | some opening =>
          obtain ⟨name, first⟩ := opening
          refine ⟨List.forall_mem_cons.mpr ⟨?_, further⟩,
            List.pairwise_cons.mpr ⟨fun tag listed => ?_, increasing⟩⟩
          · obtain ⟨⟨some, word⟩, behind, rfl⟩ := opens_of_openedTag? opened
            exact ⟨⟨by simpa using some, by simpa using word⟩, 0, behind, by simp, rfl⟩
          · obtain ⟨-, index, -, -, place⟩ := tags tag listed
            dsimp only
            omega

/-- The inside of a comment is between its opening and its closing. -/
theorem inside_closed (body : List Char) :
    inside ('/' :: '*' :: '*' :: (body ++ ['*', '/'])) = body := by
  have opening : dropOpening ['/', '*', '*'] ('/' :: '*' :: '*' :: (body ++ ['*', '/'])) =
      body ++ ['*', '/'] := by
    simp [dropOpening, List.isPrefixOf]
  rw [inside, opening, dropClosing, if_pos (by simp)]
  simp

theorem IsGutter.blank_or_star {gutter : List Char} (isGutter : IsGutter gutter) :
    ∀ c ∈ gutter, Text.isBlank c = true ∨ c = '*' := by
  obtain ⟨blanks, stars, gap, rfl, blank, starred, gap⟩ := isGutter
  intro c listed
  rcases List.mem_append.mp listed with inBlanks | listed
  · exact .inl (blank c inBlanks)
  · rcases List.mem_append.mp listed with inStars | inGap
    · exact .inr (starred c inStars)
    · rcases gap with rfl | ⟨-, rfl⟩
      · cases inGap
      · exact .inl (List.mem_singleton.mp inGap ▸ rfl)

end DocComment

/-- A tag points into a comment that stands behind some text: its line is that of an at sign
in the comment with the name of the tag behind it.  In front of the at sign are only blanks and
stars, up to the start of the line or the opening of the comment. -/
structure DocTag.PointsInto (before comment : List Char) (tag : DocTag) : Prop where
  word : tag.name ≠ "" ∧ ∀ c ∈ tag.name.toList, Text.isBlank c = false
  line : ∃ front gutter behind, comment = front ++ (gutter ++ '@' :: (tag.name.toList ++ behind)) ∧
    (front = ['/', '*', '*'] ∨ ['\n'] <:+ front) ∧
    (∀ c ∈ gutter, (Text.isBlank c = true ∨ c = '*') ∧ c ≠ '\n') ∧
    tag.line = 1 + (before ++ front).count '\n'

/-- The tags of a comment point into it, if it is counted from the line it starts on. -/
theorem DocComment.pointsInto {before comment body : List Char}
    (closed : comment = '/' :: '*' :: '*' :: (body ++ ['*', '/'])) {tag : DocTag}
    (listed : tag ∈ (ofText comment (1 + before.count '\n')).tags) :
    tag.PointsInto before comment := by
  obtain ⟨word, index, behind, found, place⟩ := (tagOf_of_mem_splitTags _ _).1 tag listed
  rw [closed, inside_closed, List.getElem?_map] at found
  obtain ⟨written, line, stripped⟩ := Option.map_eq_some_iff.mp found
  obtain ⟨front, back, rfl, count, starts, inLine⟩ := Text.lineAt_of_getElem? line
  obtain ⟨gutter, isGutter, whole⟩ := stripGutter_behind written
  rw [stripped] at whole
  subst whole
  refine ⟨word, '/' :: '*' :: '*' :: front, gutter, behind ++ (back ++ ['*', '/']),
    ?_, ?_, ?_, ?_⟩
  · rw [closed]
    simp
  · rcases List.eq_nil_or_concat front with rfl | ⟨lead, last, rfl⟩
    · exact .inl rfl
    · obtain rfl : last = '\n' := starts last (by simp)
      exact .inr ⟨'/' :: '*' :: '*' :: lead, by simp⟩
  · intro c inGutter
    refine ⟨isGutter.blank_or_star c inGutter, fun newline => inLine ?_⟩
    exact List.mem_append_left _ (newline ▸ inGutter)
  · rw [place, List.count_append]
    simp [count, Nat.add_assoc]

/-! ### Doc comments of a source -/

namespace Lexeme

/-- A doc comment opens with a slash and two stars, and the first star behind them that a slash
follows closes it. -/
theorem closed_of_scan {first : Char} {rest : List Char}
    (isComment : (scan first rest).shape = .docComment) :
    ∃ body, first :: rest.take (scan first rest).following =
      '/' :: '*' :: '*' :: (body ++ ['*', '/']) ∧ ¬ ['*', '/'] <:+: body ++ ['*'] := by
  revert isComment
  fun_cases scan first rest with
  | case10 more notClosed =>
      unfold blockComment
      split
      · next count closed =>
          intro _
          obtain ⟨body, taken, first⟩ := commentTail?_eq_some closed
          refine ⟨body, ?_, first⟩
          rw [← taken, show 1 + 1 + count = count + 1 + 1 by omega, List.take_succ_cons,
            List.take_succ_cons]
      · simp
  | case2 _ rest => rcases shape_word rest with is | is <;> simp [is]
  | case3 rest => rcases shape_escapedWord rest with is | is <;> simp [is]
  | case5 rest => rcases shape_quotedLiteral .string '"' rest with is | is <;> simp [is]
  | case6 rest => rcases shape_quotedLiteral .character '\'' rest with is | is <;> simp [is]
  | case11 more => rcases shape_blockComment .comment 0 more with is | is <;> simp [is]
  | case12 first rest => rcases shape_markAt first rest with ⟨symbol, is⟩ | is <;> simp [is]
  | case1 | case4 | case7 | case8 | case9 => simp

theorem Cut.shape_of_docComment {cut : Cut} {text : String}
    (read : cut.token? = .ok (.docComment, text)) :
    cut.shape = .docComment ∧ text = String.ofList cut.text := by
  unfold Cut.token? at read
  cases shape : cut.shape with
  | docComment =>
      rw [shape] at read
      exact ⟨rfl, by simpa using read.symm⟩
  | word =>
      rw [shape] at read
      cases spelled : Keyword.ofSpelling? (String.ofList (Text.decodeEscapes cut.text)) <;>
        simp [spelled] at read
  | number | string | character | mark | unclosedComment | invalid | space | comment =>
      rw [shape] at read
      simp at read

end Lexeme

/-- A part of a source, behind some text, is a doc comment: it reaches from a slash and two
stars to the first star behind them that a slash follows, and a stream on the source gives it
as a token. -/
structure IsDocComment (source before comment : List Char) : Prop where
  part : ∃ rest, source = before ++ (comment ++ rest)
  closed : ∃ body, comment = '/' :: '*' :: '*' :: (body ++ ['*', '/']) ∧
    ¬ ['*', '/'] <:+: body ++ ['*']
  given : ∃ stream after token, TokenStream.Reached source stream ∧
    stream.next = (.ok token, after) ∧ token.kind = .docComment ∧
      token.text = String.ofList comment ∧ token.span.first = Text.byteSize before

/-- A stream gives the doc comments of its source, each with the line it starts on. -/
theorem TokenStream.Located.isDocComment {source taken : List Char} {stream after : TokenStream}
    {token : Token} (located : stream.Located source taken) (reached : Reached source stream)
    (given : stream.next = (.ok token, after)) (isComment : token.kind = .docComment) :
    ∃ before, IsDocComment source before token.text.toList ∧
      token.line = 1 + before.count '\n' := by
  rcases next_ok given with ⟨-, ended⟩ | ⟨cut, found, read, -⟩
  · rw [isComment] at ended
    cases ended
  · obtain ⟨gap, other, split, -, -, -, answer⟩ := located.next_of_some found
    rw [read] at answer
    obtain ⟨_, same, -, -, covers⟩ := answer
    obtain ⟨rfl, rfl⟩ := Prod.mk.inj (given.symm.trans same) |>.imp_left Except.ok.inj
    obtain ⟨-, first, rest, -, -, opens⟩ := Lexeme.exists_front_of_next? found
    rw [isComment] at read
    obtain ⟨shape, text⟩ := Lexeme.Cut.shape_of_docComment read
    obtain ⟨body, whole, closes⟩ := Lexeme.closed_of_scan (opens.shape.symm.trans shape)
    rw [← opens.text] at whole
    rw [text, String.toList_ofList]
    refine ⟨lead source ++ (taken ++ gap), ⟨⟨cut.rest, ?_⟩, ⟨body, whole, closes⟩,
      stream, after, token, reached, given, isComment, text, covers.first⟩, ?_⟩
    · rw [List.append_assoc, List.append_assoc, ← split]
      exact located.rest
    · have line := congrArg Location.line covers.place
      rw [Location.line_after] at line
      rw [List.count_append, count_lead, Nat.zero_add]
      exact line

/-! ### Tags that are announced -/

/-- The events of comments among some events are those of doc comments of a source. -/
inductive Noted (source : List Char) : List Event → Prop where
  | nothing : Noted source []
  | event {events : List Event} {event : Event} : Noted source events →
      event.isComment = false → Noted source (events ++ [event])
  | comment {events : List Event} {before comment : List Char} : Noted source events →
      IsDocComment source before comment →
        Noted source
          (events ++ (DocComment.ofText comment (1 + before.count '\n')).events)

/-- A tag is announced with its comment, whose other tags are announced around it. -/
theorem Noted.comment_of_docTag {source : List Char} {events front back : List Event}
    {tag : DocTag} (noted : Noted source events) (told : events = front ++ .docTag tag :: back) :
    ∃ before comment text tags others earlier later, IsDocComment source before comment ∧
      DocComment.ofText comment (1 + before.count '\n') =
        { text, tags := tags ++ tag :: others } ∧
      front = earlier ++ .docText text :: tags.map .docTag ∧
      back = others.map .docTag ++ later := by
  induction noted generalizing back with
  | nothing => simp at told
  | @event events event noted notComment ih =>
      rcases List.eq_nil_or_concat' back with rfl | ⟨inner, last, rfl⟩
      · obtain ⟨-, same⟩ := List.append_inj' told rfl
        obtain rfl := List.singleton_inj.mp same
        cases notComment
      · rw [← List.cons_append, ← List.append_assoc] at told
        obtain ⟨before, comment, text, tags, others, earlier, later, here, parts, rfl, rfl⟩ :=
          ih (List.append_inj' told rfl).1
        exact ⟨before, comment, text, tags, others, earlier, later ++ [last], here, parts, rfl,
          by rw [List.append_assoc]⟩
  | @comment events before comment noted here ih =>
      rcases List.append_eq_append_iff.mp told with ⟨inner, rfl, own⟩ | ⟨inner, rfl, own⟩
      · cases inner with
        | nil => cases own
        | cons first inner =>
            obtain ⟨rfl, tagged⟩ := List.cons.inj own
            obtain ⟨tags, rest, whole, rfl, onward⟩ := List.map_eq_append_iff.mp tagged
            obtain ⟨same, others, rfl, isTag, rfl⟩ := List.map_eq_cons_iff.mp onward
            obtain rfl := Event.docTag.inj isTag
            exact ⟨before, comment, _, tags, others, events, [], here, by rw [← whole], rfl,
              (List.append_nil _).symm⟩
      · cases inner with
        | nil => cases own
        | cons first inner =>
            obtain ⟨rfl, rfl⟩ := List.cons.inj own
            obtain ⟨before, comment, text, tags, others, earlier, later, other, parts, rfl, rfl⟩ :=
              ih rfl
            exact ⟨before, comment, text, tags, others, earlier, _, other, parts, rfl,
              List.append_assoc ..⟩

def commentAccount (source : List Char) : Account where
  streams stream := TokenStream.Reached source stream ∧ ∃ taken, stream.Located source taken
  tokens _ := True
  tells _ := Noted source

theorem commentAccount_lawful (source : List Char) :
    (commentAccount source).Lawful fun _ => True where
  next := by
    rintro stream after token ⟨reached, taken, located⟩ given
    refine ⟨⟨?_, ?_⟩, trivial⟩
    · have further := reached.next
      rwa [given] at further
    · have answers := located.next
      rw [given] at answers
      cases answers with
      | token _ _ _ further => exact ⟨_, further⟩
  block := by
    rintro stream after block ⟨reached, taken, located⟩ given
    refine ⟨?_, ?_⟩
    · have further := reached.takeBlock
      rwa [given] at further
    · have answers := located.takeBlock
      rw [given] at answers
      cases answers with
      | token _ _ _ further => exact ⟨_, further⟩
  name _ _ := trivial
  comment := by
    rintro stream after token opened events ⟨reached, taken, located⟩ given isComment noted
    obtain ⟨before, here, line⟩ := located.isDocComment reached given isComment
    rw [line]
    exact .comment noted here
  plain content _ noted := .event noted content
  begins _ noted := .event noted rfl
  ends noted := .event noted rfl

/-- Every tag that a reading announces is one of a doc comment of the source and points into
it.  The tags of the comment are announced around it, behind the text of the comment, on lines
that increase. -/
theorem tag_lines_point_into_source (source : List Char) {front back : List Event} {tag : DocTag}
    (told : (readUnit source).1 = front ++ .docTag tag :: back) :
    ∃ before comment text tags others earlier later, IsDocComment source before comment ∧
      DocComment.ofText comment (1 + before.count '\n') =
        { text, tags := tags ++ tag :: others } ∧
      front = earlier ++ .docText text :: tags.map .docTag ∧
      back = others.map .docTag ++ later ∧
      tag.PointsInto before comment ∧
      (tags ++ tag :: others).Pairwise fun one other => one.line < other.line := by
  obtain ⟨opened, noted⟩ := (Account.readUnit_tells (commentAccount_lawful source)
    ⟨.start, [], .ofSource source⟩ .nothing).1
  obtain ⟨before, comment, text, tags, others, earlier, later, here, parts, ahead, behind⟩ :=
    Noted.comment_of_docTag noted told
  obtain ⟨body, closed, -⟩ := here.closed
  have listed : (DocComment.ofText comment (1 + before.count '\n')).tags = tags ++ tag :: others :=
    congrArg DocComment.tags parts
  refine ⟨before, comment, text, tags, others, earlier, later, here, parts, ahead, behind,
    DocComment.pointsInto closed (by simp [listed]), ?_⟩
  rw [← listed]
  exact (DocComment.tagOf_of_mem_splitTags _ _).2

/-- Events around a tag. -/
theorem split_at_docTag {events : List Event} {position : Nat} (tag : DocTag)
    (announced : events[position]?.bind Event.docTag? = some tag) :
    events = events.take position ++ .docTag tag :: events.drop (position + 1) := by
  obtain ⟨event, found, isTag⟩ := Option.bind_eq_some_iff.mp announced
  obtain ⟨inside, rfl⟩ := List.getElem?_eq_some_iff.mp found
  have same : events[position] = .docTag tag := by
    revert isTag
    unfold Event.docTag?
    split
    · next other is => exact fun known => is.trans (congrArg Event.docTag (Option.some.inj known))
    · nofun
  rw [← same, ← List.drop_eq_getElem_cons inside, List.take_append_drop]

/-- A tag on the third line, in front of which are stars, and one on the line behind it. -/
theorem tag_behind_stars :
    let source := "package p;\r\n/** ü\r\n ** @see B\r\n@since 1 */ class A \x7b\x7d".toList
    ∃ front tag back, (readUnit source).1 = front ++ .docTag tag :: back ∧
      tag = { name := "see", value := "B", line := 3 } ∧
      ∃ before comment text tags others earlier later, IsDocComment source before comment ∧
        DocComment.ofText comment (1 + before.count '\n') =
          { text, tags := tags ++ tag :: others } ∧
        front = earlier ++ .docText text :: tags.map .docTag ∧
        back = others.map .docTag ++ later ∧
        tag.PointsInto before comment ∧
        (tags ++ tag :: others).Pairwise fun one other => one.line < other.line := by
  intro source
  have told := split_at_docTag { name := "see", value := "B", line := 3 }
    (show (readUnit source).1[2]?.bind Event.docTag? = _ by decide +kernel)
  exact ⟨_, _, _, told, rfl, tag_lines_point_into_source source told⟩

end JavaDecl
