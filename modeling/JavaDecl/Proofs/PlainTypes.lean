import JavaDecl.Model.Reference
import JavaDecl.Proofs.OpeningTokens

/-!
# Types of plain words

The text of a type opens with the tokens that the type is made of, if its names are plain words
with dots between them or those of primitive types.
-/

namespace JavaDecl

open Lexeme

/-- A word without escapes that is no keyword. -/
def IsPlainWord (word : List Char) : Prop :=
  isWord word = true ∧ Keyword.ofSpelling? (String.ofList word) = none

instance (word : List Char) : Decidable (IsPlainWord word) :=
  inferInstanceAs (Decidable (_ ∧ _))

/-- Plain words with dots between them. -/
def IsPlainName (name : String) : Prop :=
  ∃ words, words ≠ [] ∧ (∀ word ∈ words, IsPlainWord word) ∧ name.toList = ['.'].intercalate words

/-- A type whose names are dotted plain words, or primitive ones without arguments. -/
inductive TypeExpr.IsPlain : TypeExpr → Prop where
  | primitive {name : String} {dims : Nat} : isPrimitiveName name = true →
      IsPlain { name, dims, args := [] }
  | named {name : String} {dims : Nat} {args : List (TypeArgument TypeExpr)} :
      IsPlainName name → (∀ arg ∈ args, ∀ type ∈ arg.type?, IsPlain type) →
        IsPlain { name, dims, args }

/-! ### Tokens of types -/

def nameSigns : List (List Char) → List Sign
  | [] => []
  | first :: more => .word first :: more.flatMap fun word => [.mark .dot, .word word]

abbrev signsOf (name : String) : List Sign := nameSigns (name.toList.splitOn '.')

def dimSigns (dims : Nat) : List Sign :=
  (List.replicate dims [.mark .leftBracket, .mark .rightBracket]).flatten

mutual

def TypeExpr.signs : TypeExpr → List Sign
  | ⟨name, dims, []⟩ => nameSigns (name.toList.splitOn '.') ++ dimSigns dims
  | ⟨name, dims, arg :: args⟩ =>
      nameSigns (name.toList.splitOn '.') ++ .mark .less ::
        (argsSigns (arg :: args) ++ .mark .greater :: dimSigns dims)

def argsSigns : List (TypeArgument TypeExpr) → List Sign
  | [] => []
  | [arg] => argSigns arg
  | arg :: next :: rest => argSigns arg ++ .mark .comma :: argsSigns (next :: rest)

def argSigns : TypeArgument TypeExpr → List Sign
  | .type type => type.signs
  | .unbounded => [.mark .question]
  | .extending bound => .mark .question :: .keyword .extendsKw :: bound.signs
  | .above bound => .mark .question :: .keyword .superKw :: bound.signs

end

/-! ### Words of names -/

/-- A name that is made of words, which may be a keyword if it is one word. -/
def Spells (name : String) (words : List (List Char)) : Prop :=
  words ≠ [] ∧ (∀ word ∈ words, isWord word = true) ∧ name.toList = ['.'].intercalate words

theorem IsPlainName.spells {name : String} (plain : IsPlainName name) :
    ∃ words, Spells name words ∧ ∀ word ∈ words, IsPlainWord word := by
  obtain ⟨words, some, plain, split⟩ := plain
  exact ⟨words, ⟨some, fun word member => (plain word member).1, split⟩, plain⟩

/-- The name of a primitive type is a word, and one of the keywords for such types. -/
theorem spells_of_primitive {name : String} (primitive : isPrimitiveName name = true) :
    Spells name [name.toList] ∧ (Sign.word name.toList).kind.isPrimitiveType = true := by
  have known : ∀ name ∈ primitiveNames, isWord name.toList = true ∧
      (Sign.word name.toList).kind.isPrimitiveType = true := by
    decide
  obtain ⟨is, kind⟩ := known name (List.contains_iff_mem.mp primitive)
  exact ⟨⟨by simp, by simpa using is, by simp [List.intercalate]⟩, kind⟩

theorem Spells.splitOn {name : String} {words : List (List Char)} (spells : Spells name words) :
    name.toList.splitOn '.' = words := by
  obtain ⟨some, are, split⟩ := spells
  rw [split]
  exact List.splitOn_intercalate '.' (fun word member => notMem_of_isWord (are word member)
    (by decide)) some

theorem Spells.signsOf {name : String} {words : List (List Char)} (spells : Spells name words) :
    signsOf name = nameSigns words :=
  congrArg nameSigns spells.splitOn

/-- A name is plain if the parts between its dots are. -/
theorem isPlainName_iff {name : String} :
    IsPlainName name ↔ ∀ word ∈ name.toList.splitOn '.', IsPlainWord word := by
  constructor
  · intro plain
    obtain ⟨words, spells, plainWords⟩ := plain.spells
    rwa [spells.splitOn]
  · intro plainWords
    refine ⟨name.toList.splitOn '.', List.splitOn_ne_nil '.' name.toList, plainWords, ?_⟩
    exact (List.intercalate_splitOn '.').symm

instance (name : String) : Decidable (IsPlainName name) :=
  decidable_of_iff' _ isPlainName_iff

theorem intercalate_cons (first : List Char) (more : List (List Char)) :
    ['.'].intercalate (first :: more) = first ++ more.flatMap ('.' :: ·) := by
  induction more generalizing first with
  | nil => simp
  | cons next more ih =>
      rw [List.intercalate_cons_cons, ih]
      simp

namespace Lexeme

theorem marksGoOn_of_opensWord {first next : Char} (word : opensWord next = true) :
    marksGoOn first next = false := by
  have other (mark : Mark) : mark.spelling.toList.any opensWord = false := by
    cases mark <;> rfl
  rw [marksGoOn, List.any_eq_false]
  intro mark _ goesOn
  have member : next ∈ mark.spelling.toList :=
    (List.isPrefixOf_iff_prefix.mp goesOn).subset (by simp)
  exact List.any_eq_false.mp (other mark) next member word

theorem isDigit_of_opensWord {c : Char} (word : opensWord c = true) : c.isDigit = false := by
  rw [Bool.eq_false_iff]
  intro digit
  have table : ∀ code < 58, (Char.ofNat code).isDigit = true →
      opensWord (Char.ofNat code) = false := by
    decide
  have last : c.val ≤ 57 := (of_decide_eq_true (Bool.and_eq_true_iff.mp digit).2 :)
  have other := table c.toNat (Nat.lt_succ_of_le (UInt32.le_iff_toNat_le.mp last))
    (by rwa [Char.ofNat_toNat])
  rw [Char.ofNat_toNat, word] at other
  cases other

end Lexeme

theorem Sign.dot_scanned {word rest : List Char} (is : isWord word = true) :
    Sign.ScannedBefore (word ++ rest) (.mark .dot) := by
  obtain ⟨first, more, rfl, isFirst, -⟩ := exists_of_isWord is
  have spelled : Mark.dot.spelling.toList = ['.'] := rfl
  refine mark_scanned spelled (by decide) (fun _ => ?_) (fun next found => ?_)
  · exact isDigit_of_opensWord isFirst
  · obtain rfl := Option.some.inj found
    exact marksGoOn_of_opensWord isFirst

namespace OpensWith

variable {tail : List Char} {more : List Sign}

theorem dot {word : List Char} (is : isWord word = true) (opens : OpensWith (word ++ tail) more) :
    OpensWith ('.' :: (word ++ tail)) (.mark .dot :: more) :=
  scanned (Sign.dot_scanned is) opens

theorem name {words : List (List Char)} (are : ∀ word ∈ words, isWord word = true)
    (some : words ≠ []) (ends : EndsWord tail) (opens : OpensWith tail more) :
    OpensWith (['.'].intercalate words ++ tail) (nameSigns words ++ more) := by
  cases words with
  | nil => exact absurd rfl some
  | cons first words =>
      rw [intercalate_cons, nameSigns]
      clear some
      induction words generalizing first with
      | nil => simpa using word (are first (by simp)) ends opens
      | cons next words ih =>
          have rest := ih next fun word member => are word (List.mem_cons_of_mem first member)
          rw [List.append_assoc] at rest
          have behind := dot (are next (by simp)) rest
          simpa using word (are first (by simp)) (.cons (by decide) (by decide)) behind

end OpensWith

/-! ### Texts of types -/

/-- A text within a line that gives certain tokens wherever no word goes on behind it. -/
structure PrintsAs (text : String) (signs : List Sign) : Prop where
  inLine : '\n' ∉ text.toList
  opens : ∀ (tail : List Char) (more : List Sign), EndsWord tail → OpensWith tail more →
    OpensWith (text.toList ++ tail) (signs ++ more)

theorem toList_dimsText (dims : Nat) :
    (dimsText dims).toList = (List.replicate dims ['[', ']']).flatten := by
  rw [dimsText, String.toList_join, List.flatMap_def, List.map_replicate]
  rfl

theorem PrintsAs.dims (dims : Nat) : PrintsAs (dimsText dims) (dimSigns dims) := by
  refine ⟨by simp [toList_dimsText], fun tail more ends opens => ?_⟩
  rw [toList_dimsText, dimSigns]
  induction dims with
  | zero => exact opens
  | succ dims ih =>
      have opening : Mark.leftBracket.spelling.toList = ['['] := rfl
      have closing : Mark.rightBracket.spelling.toList = [']'] := rfl
      exact .lone opening (by decide) (fun _ => rfl) (by decide)
        (.lone closing (by decide) (fun _ => rfl) (by decide) ih)

theorem endsWord_dims (dims : Nat) {tail : List Char} (ends : EndsWord tail) :
    EndsWord ((dimsText dims).toList ++ tail) := by
  rw [toList_dimsText]
  cases dims with
  | zero => exact ends
  | succ dims => exact .cons (by decide) (by decide)

theorem PrintsAs.named {name : String} {words : List (List Char)} (spells : Spells name words) :
    PrintsAs name (nameSigns (name.toList.splitOn '.')) := by
  rw [spells.splitOn]
  obtain ⟨some, are, split⟩ := spells
  refine ⟨?_, fun tail more ends opens => ?_⟩
  · have inLine {word : List Char} (member : word ∈ words) : '\n' ∉ word :=
      notMem_of_isWord (are word member) (by decide)
    cases words with
    | nil => exact absurd rfl some
    | cons first words =>
        rw [split, intercalate_cons]
        simp only [List.mem_append, List.mem_flatMap, not_or]
        refine ⟨inLine (by simp), ?_⟩
        rintro ⟨word, member, newline⟩
        have later : '\n' ∈ word := by simpa using newline
        exact inLine (List.mem_cons_of_mem first member) later
  · rw [split]
    exact .name are some ends opens

/-- A text that a type or an argument may start with. -/
def StartsArgument (text : List Char) : Prop :=
  ∃ first rest, text = first :: rest ∧ (opensWord first = true ∨ first = '?')

theorem StartsArgument.append {text : List Char} (starts : StartsArgument text)
    (tail : List Char) : StartsArgument (text ++ tail) := by
  obtain ⟨first, rest, rfl, known⟩ := starts
  exact ⟨first, rest ++ tail, rfl, known⟩

theorem Spells.starts {name : String} {words : List (List Char)} (spells : Spells name words) :
    StartsArgument name.toList := by
  obtain ⟨some, are, split⟩ := spells
  cases words with
  | nil => exact absurd rfl some
  | cons word words =>
      obtain ⟨first, rest, rfl, isFirst, -⟩ := exists_of_isWord (are word (by simp))
      rw [split, intercalate_cons]
      exact ⟨first, _, rfl, .inl isFirst⟩

theorem OpensWith.less {text : List Char} {more : List Sign} (starts : StartsArgument text)
    (opens : OpensWith text more) : OpensWith ('<' :: text) (.mark .less :: more) := by
  have spelled : Mark.less.spelling.toList = ['<'] := rfl
  refine mark spelled (by decide) (fun point => absurd point (by decide))
    (fun next found => ?_) opens
  obtain ⟨first, rest, rfl, known⟩ := starts
  obtain rfl := Option.some.inj found
  rcases known with word | rfl
  · exact marksGoOn_of_opensWord word
  · decide

abbrev TypeExpr.printed (type : TypeExpr) (path : List Nat) : String :=
  type.textWith (fun _ written => written) path

/-- What is known of the text of a type. -/
structure TypeExpr.Prints (type : TypeExpr) : Prop where
  starts : ∀ path, StartsArgument (type.printed path).toList
  gives : ∀ path, PrintsAs (type.printed path) type.signs

section Arguments

variable {arg : TypeArgument TypeExpr} {args : List (TypeArgument TypeExpr)}

/-- A wildcard with the word that tells what its bound is. -/
theorem PrintsAs.wildcard {lead text : String} {keyword : Keyword} {word : List Char}
    {signs : List Sign} (written : lead.toList = '?' :: ' ' :: (word ++ [' ']))
    (is : isWord word = true) (isKeyword : Sign.word word = .keyword keyword)
    (known : PrintsAs text signs) :
    PrintsAs (lead ++ text) (.mark .question :: .keyword keyword :: signs) := by
  have inLine : '\n' ∉ word := notMem_of_isWord is (by decide)
  refine ⟨by simp [written, inLine, known.inLine], fun tail more ends opens => ?_⟩
  rw [← isKeyword]
  have spelled : Mark.question.spelling.toList = ['?'] := rfl
  have behind := OpensWith.blank (by decide : isSpace ' ' = true) (known.opens tail more ends opens)
  have bound := OpensWith.word is (.cons (by decide) (by decide)) behind
  rw [String.toList_append, written]
  simpa using OpensWith.lone spelled (by decide) (fun _ => rfl) (by decide)
    (.blank (by decide : isSpace ' ' = true) bound)

theorem arg_starts (path : List Nat) (prints : ∀ type ∈ arg.type?, type.Prints) :
    StartsArgument (argTextWith (fun _ written => written) path arg).toList := by
  cases arg with
  | type type =>
      rw [argTextWith]
      exact (prints type rfl).starts path
  | unbounded =>
      rw [argTextWith]
      exact ⟨'?', [], rfl, .inr rfl⟩
  | extending bound | above bound =>
      rw [argTextWith, String.toList_append]
      exact ⟨'?', _, rfl, .inr rfl⟩

theorem arg_gives (path : List Nat) (prints : ∀ type ∈ arg.type?, type.Prints) :
    PrintsAs (argTextWith (fun _ written => written) path arg) (argSigns arg) := by
  cases arg with
  | type type =>
      rw [argTextWith, argSigns]
      exact (prints type rfl).gives path
  | unbounded =>
      rw [argTextWith, argSigns]
      have spelled : Mark.question.spelling.toList = ['?'] := rfl
      exact ⟨by decide, fun tail more _ opens =>
        .lone spelled (by decide) (fun _ => rfl) (by decide) opens⟩
  | extending bound =>
      rw [argTextWith, argSigns]
      have written : "? extends ".toList = '?' :: ' ' :: ("extends".toList ++ [' ']) := rfl
      exact .wildcard written (by decide) (by decide) ((prints bound rfl).gives path)
  | above bound =>
      rw [argTextWith, argSigns]
      have written : "? super ".toList = '?' :: ' ' :: ("super".toList ++ [' ']) := rfl
      exact .wildcard written (by decide) (by decide) ((prints bound rfl).gives path)

theorem args_start (path : List Nat) (position : Nat) (prints : ∀ type ∈ arg.type?, type.Prints) :
    StartsArgument
      (argsTextWith (fun _ written => written) path position (arg :: args)).toList := by
  cases args with
  | nil => exact arg_starts _ prints
  | cons next args =>
      rw [argsTextWith, String.toList_append, String.toList_append, List.append_assoc]
      exact (arg_starts _ prints).append _

theorem args_give (path : List Nat) (position : Nat)
    (prints : ∀ other ∈ arg :: args, ∀ type ∈ other.type?, type.Prints) :
    PrintsAs (argsTextWith (fun _ written => written) path position (arg :: args))
      (argsSigns (arg :: args)) := by
  induction args generalizing arg position with
  | nil => exact arg_gives _ (prints arg (by simp))
  | cons next args ih =>
      have others : ∀ other ∈ next :: args, ∀ type ∈ other.type?, type.Prints :=
        fun other member => prints other (List.mem_cons_of_mem arg member)
      have first := arg_gives (position :: path) (prints arg (by simp))
      have further := ih (position + 1) others
      rw [argsTextWith, argsSigns]
      refine ⟨by simp [first.inLine, further.inLine], fun tail more ends opens => ?_⟩
      have spelled : Mark.comma.spelling.toList = [','] := rfl
      have rest := further.opens tail more ends opens
      have behind := OpensWith.lone spelled (by decide) (fun _ => rfl) (by decide)
        (.blank (by decide : isSpace ' ' = true) rest)
      simpa using first.opens _ _ (.cons (by decide) (by decide)) behind

end Arguments

/-- A type prints as its name, its arguments in brackets, and its dimensions. -/
theorem prints_of_spells {name : String} {words : List (List Char)} {dims : Nat}
    {args : List (TypeArgument TypeExpr)} (spells : Spells name words)
    (prints : ∀ arg ∈ args, ∀ type ∈ arg.type?, type.Prints) :
    TypeExpr.Prints { name, dims, args } := by
  have named := PrintsAs.named spells
  have dimsOf := PrintsAs.dims dims
  cases args with
  | nil =>
      refine ⟨fun path => ?_, fun path => ?_⟩
      · rw [TypeExpr.printed, TypeExpr.textWith, String.toList_append]
        exact spells.starts.append _
      · rw [TypeExpr.printed, TypeExpr.textWith, TypeExpr.signs]
        refine ⟨by simp [named.inLine, dimsOf.inLine], fun tail more ends opens => ?_⟩
        rw [String.toList_append, List.append_assoc, List.append_assoc]
        exact named.opens _ _ (endsWord_dims dims ends) (dimsOf.opens tail more ends opens)
  | cons arg args =>
      refine ⟨fun path => ?_, fun path => ?_⟩
      · rw [TypeExpr.printed, TypeExpr.textWith, String.append_assoc, String.append_assoc,
          String.append_assoc, String.toList_append]
        exact spells.starts.append _
      · have inside := args_give path 0 prints
        rw [TypeExpr.printed, TypeExpr.textWith, TypeExpr.signs]
        refine ⟨by simp [named.inLine, dimsOf.inLine, inside.inLine],
          fun tail more ends opens => ?_⟩
        have closing : Mark.greater.spelling.toList = ['>'] := rfl
        have closed := OpensWith.lone closing (by decide) (fun _ => rfl) (by decide)
          (dimsOf.opens tail more ends opens)
        have within := inside.opens _ _ (.cons (by decide) (by decide)) closed
        have opened := OpensWith.less ((args_start path 0 (prints arg (by simp))).append _) within
        simpa using named.opens _ _ (.cons (by decide) (by decide)) opened

theorem TypeExpr.IsPlain.prints {type : TypeExpr} (plain : type.IsPlain) : type.Prints := by
  induction plain with
  | primitive primitive => exact prints_of_spells (spells_of_primitive primitive).1 (by simp)
  | named plain _ ih =>
      obtain ⟨words, spells, -⟩ := plain.spells
      exact prints_of_spells spells ih

end JavaDecl
