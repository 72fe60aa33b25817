import JavaDecl.Proofs.IdentifierTexts
import JavaDecl.Proofs.KeptAccounts
import JavaDecl.Proofs.LinkedDeclarations
import JavaDecl.Proofs.MirroredUnits

/-!
# Classes that readings begin

Every class that a reading begins has a header with its name, or it is the body of a constant of
the enumeration that has begun last.  The names that stand in a source without escapes are
simple, so they are looked up from the inside outwards.  Models keep both.
-/

namespace JavaDecl

/-- A name that is looked up in the classes around it: no primitive type and not dotted. -/
def IsSimpleName (name : String) : Prop :=
  isPrimitiveName name = false ∧ '.' ∉ name.toList

/-- No part of a text is an escape: a backslash, one or more `u` and four hexadecimal digits. -/
def Text.IsUnescaped (text : List Char) : Prop :=
  ∀ part value, IsEscape part value → ¬ part <:+: text

/-! ### Names that stand in a source -/

namespace Text.IsUnescaped

variable {text part : List Char}

theorem of_notMem (plain : '\\' ∉ text) : IsUnescaped text := by
  intro part value escape inside
  obtain ⟨more, rfl⟩ := IsEitherEscape.exists_more (.inl escape)
  exact plain (inside.subset List.mem_cons_self)

theorem of_isInfix (unescaped : IsUnescaped text) (inside : part <:+: text) : IsUnescaped part :=
  fun _ _ escape within => unescaped _ _ escape (within.trans inside)

end Text.IsUnescaped

namespace Lexeme

open Text

variable {text rest : List Char}

/-- What goes on with a word has a backslash only where an escape begins. -/
theorem notMem_of_wordTail (sound : (wordTail text).2 = true)
    (unescaped : IsUnescaped (text.take (wordTail text).1)) :
    '\\' ∉ text.take (wordTail text).1 := by
  fun_induction wordTail text with
  | case1 => simp
  | case2 => simp
  | case3 rest length _ escape more _ further ih =>
      obtain ⟨value, isEscape⟩ := isEscape_of_escapeTail escape
      refine absurd ?_ (unescaped _ value isEscape)
      rw [Nat.add_assoc, Nat.add_comm 1, List.take_succ_cons, List.take_add]
      exact (List.prefix_append ('\\' :: rest.take length) _).isInfix
  | case4 => cases sound
  | case5 c rest plain continues more _ further ih =>
      rw [further] at ih
      rw [Nat.add_comm 1, List.take_succ_cons] at unescaped ⊢
      have later := ih sound (unescaped.of_isInfix (List.suffix_cons c _).isInfix)
      exact List.not_mem_cons_of_ne_of_not_mem (Ne.symm plain) later
  | case6 => simp

/-- A word without escapes has no backslash. -/
theorem notMem_of_scan {first : Char} (word : (scan first rest).shape = .word)
    (unescaped : IsUnescaped (first :: rest.take (scan first rest).following)) :
    '\\' ∉ first :: rest.take (scan first rest).following := by
  obtain ⟨opens, sound, following⟩ | ⟨rfl, length, escape, -, following⟩ := word_of_scan word
  · have plain : '\\' ≠ first := by
      rintro rfl
      revert opens
      decide
    rw [following] at unescaped ⊢
    have later := unescaped.of_isInfix (List.suffix_cons first _).isInfix
    exact List.not_mem_cons_of_ne_of_not_mem plain (notMem_of_wordTail sound later)
  · obtain ⟨value, isEscape⟩ := isEscape_of_escapeTail escape
    refine absurd ?_ (unescaped _ value isEscape)
    rw [following, List.take_add]
    exact (List.prefix_append ('\\' :: rest.take length) _).isInfix

end Lexeme

theorem Keyword.exists_spelling_of_isPrimitiveName {name : String}
    (primitive : isPrimitiveName name = true) : ∃ keyword : Keyword, name = keyword.spelling := by
  have all : ∀ name ∈ primitiveNames, ∃ keyword ∈ Keyword.all, name = keyword.spelling := by
    decide
  obtain ⟨keyword, -, same⟩ := all name (List.contains_iff_mem.mp primitive)
  exact ⟨keyword, same⟩

theorem IsSimpleName.of_isWord {name : String} (word : Lexeme.isWord name.toList = true)
    (noKeyword : Keyword.ofSpelling? name = none) : IsSimpleName name := by
  refine ⟨?_, Lexeme.notMem_of_isWord word (by decide)⟩
  by_contra primitive
  obtain ⟨keyword, same⟩ :=
    Keyword.exists_spelling_of_isPrimitiveName (by simpa using primitive)
  exact ne_spelling_of_ofSpelling? noKeyword keyword same

/-- The identifiers of a source without escapes are simple names. -/
theorem TokenStream.Reached.isSimpleName {source : List Char} {stream after : TokenStream}
    {token : Token} (reached : Reached source stream) (unescaped : Text.IsUnescaped source)
    (taken : stream.next = (.ok token, after)) (isIdentifier : token.kind = .identifier) :
    IsSimpleName token.text := by
  rcases next_ok taken with ⟨-, ended⟩ | ⟨cut, found, whole, -⟩
  · rw [isIdentifier] at ended
    cases ended
  · rw [isIdentifier] at whole
    obtain ⟨shape, text, noKeyword⟩ := Lexeme.Cut.word_of_identifier whole
    obtain ⟨before, split, -⟩ := reached.stands
    obtain ⟨front, first, rest, ahead, -, opens⟩ := Lexeme.exists_front_of_next? found
    have written : Lexeme.IsWritten cut.text := by
      rw [opens.text]
      exact Lexeme.isWritten_of_scan (opens.shape.symm.trans shape)
    have inside : cut.text <:+: source := by
      rw [split, ahead, ← opens.append]
      exact ⟨before ++ front, cut.rest, by simp⟩
    have plain : '\\' ∉ cut.text := by
      rw [opens.text]
      exact Lexeme.notMem_of_scan (opens.shape.symm.trans shape)
        (opens.text ▸ unescaped.of_isInfix inside)
    have fits := Lexeme.escapesFit_of_notMem plain
    exact .of_isWord (text ▸ written.isWord_iff.mpr fits) noKeyword

/-! ### Classes that begin among events -/

namespace Event

/-- The classes that have begun and not ended, the innermost one first, after an event. -/
def openAfter (opened : List ClassDecl) : Event → List ClassDecl
  | .beginClass declared => declared :: opened
  | .endClass => opened.tail
  | _ => opened

/-- A class that an event begins has a header or is the body of a constant. -/
def Begins (isName : String → Prop) (opened : List ClassDecl) : Event → Prop
  | .beginClass declared => declared.IsHeaded isName ∨ declared.IsBodyIn opened
  | _ => True

variable {isName : String → Prop} {opened : List ClassDecl} {event : Event}

theorem openAfter_of_inside (inside : event.isClassEdge = false) :
    event.openAfter opened = opened := by
  cases event <;> first | rfl | cases inside

theorem begins_of_inside (inside : event.isClassEdge = false) :
    event.Begins isName opened := by
  cases event <;> trivial

/-- Events that are apart from classes leave open what is open. -/
theorem foldl_openAfter_of_inside {events : List Event}
    (inside : ∀ event ∈ events, event.isClassEdge = false) :
    events.foldl openAfter opened = opened := by
  induction events with
  | nil => rfl
  | cons event events ih =>
      obtain ⟨here, later⟩ := List.forall_mem_cons.mp inside
      rw [List.foldl_cons, openAfter_of_inside here, ih later]

theorem isPart_of_isClassEdge (edge : event.isClassEdge = true) : event.isPart = true := by
  cases event <;> first | rfl | cases edge

theorem isClassEdge_of_isComment (isComment : event.isComment = true) :
    event.isClassEdge = false := by
  cases event <;> first | rfl | cases isComment

end Event

/-- Every class that begins among some events has a header or is the body of a constant, where
some classes have begun in front of them. -/
def BeginsEach (isName : String → Prop) : List ClassDecl → List Event → Prop
  | _, [] => True
  | opened, event :: events =>
      event.Begins isName opened ∧ BeginsEach isName (event.openAfter opened) events

namespace BeginsEach

variable {isName : String → Prop} {opened : List ClassDecl} {events front back : List Event}

theorem append_iff : BeginsEach isName opened (front ++ back) ↔
    BeginsEach isName opened front ∧
      BeginsEach isName (front.foldl Event.openAfter opened) back := by
  induction front generalizing opened with
  | nil => simp [BeginsEach]
  | cons event front ih => exact (and_congr_right fun _ => ih).trans and_assoc.symm

/-- Only the beginnings and ends of declarations matter. -/
theorem filter_isPart (begins : BeginsEach isName opened events) :
    BeginsEach isName opened (events.filter Event.isPart) := by
  induction events generalizing opened with
  | nil => trivial
  | cons event events ih =>
      rw [List.filter_cons]
      split
      · exact ⟨begins.1, ih begins.2⟩
      · next aside =>
          have inside : event.isClassEdge = false := by
            by_contra edge
            exact aside (Event.isPart_of_isClassEdge (by simpa using edge))
          have later := ih begins.2
          rwa [Event.openAfter_of_inside inside] at later

/-- No class begins among events that are apart from classes. -/
theorem of_inside (inside : ∀ event ∈ events, event.isClassEdge = false) :
    BeginsEach isName opened events := by
  induction events with
  | nil => trivial
  | cons event events ih =>
      obtain ⟨here, later⟩ := List.forall_mem_cons.mp inside
      rw [BeginsEach, Event.openAfter_of_inside here]
      exact ⟨Event.begins_of_inside here, ih later⟩

end BeginsEach

def beginningAccount (source : List Char) : Account where
  streams := TokenStream.Reached source
  tokens token := token.kind = .identifier → IsSimpleName token.text
  tells opened events :=
    BeginsEach IsSimpleName [] events ∧ events.foldl Event.openAfter [] = opened

theorem beginningAccount_lawful {source : List Char} (unescaped : Text.IsUnescaped source) :
    (beginningAccount source).Lawful IsSimpleName where
  next := by
    intro stream after token reached given
    refine ⟨?_, reached.isSimpleName unescaped given⟩
    have further := reached.next
    rwa [given] at further
  block := by
    intro stream after block reached given
    have further := reached.takeBlock
    rwa [given] at further
  name named := named
  comment := by
    rintro stream after token opened events - - - ⟨begins, rfl⟩
    have inside : ∀ event ∈ (DocComment.ofText token.text.toList token.line).events,
        event.isClassEdge = false := fun event listed =>
      Event.isClassEdge_of_isComment (DocComment.isComment_of_mem_events listed)
    refine ⟨BeginsEach.append_iff.mpr ⟨begins, .of_inside inside⟩, ?_⟩
    rw [List.foldl_append, Event.foldl_openAfter_of_inside inside]
  plain := by
    rintro opened events event - inside ⟨begins, rfl⟩
    refine ⟨BeginsEach.append_iff.mpr ⟨begins, Event.begins_of_inside inside, trivial⟩, ?_⟩
    simp [Event.openAfter_of_inside inside]
  begins := by
    rintro opened events declared heads ⟨begins, rfl⟩
    exact ⟨BeginsEach.append_iff.mpr ⟨begins, heads, trivial⟩, by simp [Event.openAfter]⟩
  ends := by
    rintro opened events declared ⟨begins, same⟩
    exact ⟨BeginsEach.append_iff.mpr ⟨begins, trivial, trivial⟩, by simp [Event.openAfter, same]⟩

/-- Every class that a source without escapes begins has a header with a simple name or is the
body of a constant. -/
theorem beginsEach_readUnit {source : List Char} (unescaped : Text.IsUnescaped source) :
    BeginsEach IsSimpleName [] (readUnit source).1 := by
  obtain ⟨-, begins, -⟩ := (Account.readUnit_tells (beginningAccount_lawful unescaped)
    .start ⟨trivial, rfl⟩).1
  exact begins

/-! ### Classes of a model -/

/-- A class of a model has been declared with a header, in which its name stands, or as the
body of a constant of the enumeration around it. -/
inductive Model.Begun (model : Model) (isName : String → Prop) (id : ClassId) : Prop where
  | headed : (model.classAt id).isConstantBody = false → isName (model.classAt id).name →
      Begun model isName id
  | body {owner : ClassId} {name : String} {line : Nat} :
      (model.classAt id).enclosing = some owner → (model.classAt owner).kind = .enumeration →
        (model.classAt id).Declares
          (ReadM.constantBody (model.classAt owner).name name line) →
          Begun model isName id

variable {model : Model} {unit : UnitId} {owner : Option ClassId} {path : List String}
  {start stop : Model.Size} {outline : Outline} {members : Members} {isName : String → Prop}
  {opened : List ClassDecl}

/-- The innermost class that has begun is the owner of what is declared next. -/
def Model.InnermostIs (model : Model) (owner : Option ClassId) (opened : List ClassDecl) : Prop :=
  ∀ declared, opened.head? = some declared →
    ∃ id, owner = some id ∧ (model.classAt id).Declares declared

theorem Model.InnermostIs.nothing : model.InnermostIs owner [] := by
  intro declared innermost
  cases innermost

/-- What begins in a class that has been declared is declared in that class. -/
theorem Model.InnermostIs.ofHolds {id : ClassId} {declared : ClassDecl}
    (holds : model.Holds unit owner path id declared) :
    model.InnermostIs (some id) (declared :: opened) := by
  intro other same
  obtain rfl := Option.some.inj same
  exact ⟨id, rfl, holds.declares⟩

theorem Model.Holds.begun {id : ClassId} {declared : ClassDecl}
    (holds : model.Holds unit owner path id declared) (innermost : model.InnermostIs owner opened)
    (begins : declared.IsHeaded isName ∨ declared.IsBodyIn opened) : model.Begun isName id := by
  rcases begins with headed | ⟨outermost, outer, name, line, rfl, enumeration, rfl⟩
  · refine .headed (holds.declares.isConstantBody.trans headed.plain) ?_
    rw [holds.declares.name]
    exact headed.named
  · obtain ⟨around, rfl, declares⟩ := innermost outermost rfl
    have isBody : (model.classAt id).Declares
        (ReadM.constantBody (model.classAt around).name name line) := by
      rw [declares.name]
      exact holds.declares
    exact .body holds.enclosing (declares.kind.trans enumeration) isBody

namespace Outline

theorem events_method (isConstructor : Bool) (parameters : List VariableDecl)
    (declared : MethodDecl) (rest : Outline) :
    ∃ front, (method isConstructor parameters declared rest).events = front ++ rest.events ∧
      ∀ event ∈ front, event.isClassEdge = false := by
  refine ⟨Event.beginOf isConstructor ::
    (parameters.map .parameter ++ [Event.endOf isConstructor declared]), by simp [events], ?_⟩
  cases isConstructor <;>
    simp [Event.beginOf, Event.endOf, Event.isClassEdge, or_imp, forall_and]

/-- The declarations of an outline leave the classes around them open. -/
theorem foldl_openAfter (outline : Outline) (opened : List ClassDecl) :
    outline.events.foldl Event.openAfter opened = opened := by
  induction outline generalizing opened with
  | nothing => rfl
  | aClass declared inner rest innerIh ih =>
      simp [events, Event.openAfter, innerIh, ih]
  | field declared rest ih => exact ih opened
  | constant declared body inner rest innerIh ih =>
      simp [events, Event.openAfter, innerIh, ih]
  | method isConstructor parameters declared rest ih =>
      obtain ⟨front, same, inside⟩ := events_method isConstructor parameters declared rest
      rw [same, List.foldl_append, Event.foldl_openAfter_of_inside inside, ih]
  | initializer declared rest ih => exact ih opened

end Outline

/-- The classes that mirror an outline have begun as its events say. -/
theorem Mirrors.begun (mirrors : Mirrors model unit owner path start outline members stop)
    (innermost : model.InnermostIs owner opened)
    (begins : BeginsEach isName opened outline.events) :
    ∀ id : ClassId, start.classes ≤ id.index ∧ id.index < stop.classes →
      model.Begun isName id := by
  induction mirrors generalizing opened with
  | nothing => omega
  | aClass holds _ _ innerIh ih =>
      obtain ⟨here, later⟩ := begins
      obtain ⟨within, -, after⟩ := BeginsEach.append_iff.mp later
      rw [Outline.foldl_openAfter] at after
      exact forall_between (holds.begun innermost here) (innerIh (.ofHolds holds) within)
        (ih innermost after)
  | field _ _ _ _ ih => exact ih innermost begins.2.2
  | constant _ _ _ holds _ _ innerIh ih =>
      obtain ⟨-, here, later⟩ := begins
      obtain ⟨within, -, -, after⟩ := BeginsEach.append_iff.mp later
      rw [Outline.foldl_openAfter] at after
      exact forall_between (holds.begun innermost here) (innerIh (.ofHolds holds) within)
        (ih innermost after)
  | method _ _ _ ih =>
      obtain ⟨front, same, inside⟩ := Outline.events_method ..
      rw [same, BeginsEach.append_iff, Event.foldl_openAfter_of_inside inside] at begins
      exact ih innermost begins.2
  | initializer _ ih => exact ih innermost begins.2

/-- All classes of a unit without escapes have begun with a simple name or as the bodies of
constants. -/
theorem Model.MirrorsText.begun {source : List Char}
    (mirrors : model.MirrorsText source unit start stop) (unescaped : Text.IsUnescaped source) :
    ∀ id : ClassId, start.classes ≤ id.index ∧ id.index < stop.classes →
      model.Begun IsSimpleName id := by
  obtain ⟨outline, told, -, mirrors⟩ := mirrors.outline
  refine mirrors.begun .nothing ?_
  rw [told]
  exact (beginsEach_readUnit unescaped).filter_isPart

end JavaDecl
