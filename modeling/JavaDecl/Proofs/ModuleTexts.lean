import JavaDecl.Event
import JavaDecl.Proofs.PlainTypes

/-!
# Texts of modules

A module descriptor is printed within one line, with one blank between its words.  The text
opens with the tokens that the descriptor is made of.
-/

namespace JavaDecl

open Lexeme

/-! ### Descriptors -/

inductive RequiresModifier where
  | static
  | transitive
deriving DecidableEq, Repr

/-- A directive of a module, the names of which are dotted. -/
inductive ModuleLine where
  | requires (modifiers : List RequiresModifier) (name : String)
  | exports (package : String) (targets : List String)
  | opens (package : String) (targets : List String)
  | uses (service : String)
  /-- At least one implementation is given. -/
  | provides (service first : String) (others : List String)
deriving DecidableEq, Repr

structure ModuleText where
  isOpen : Bool
  name : String
  lines : List ModuleLine
deriving DecidableEq, Repr

def RequiresModifier.text : RequiresModifier → String
  | static => "static"
  | transitive => "transitive"

namespace ModuleLine

def names : ModuleLine → List String
  | requires _ name => [name]
  | exports package targets | opens package targets => package :: targets
  | uses service => [service]
  | provides service first others => service :: first :: others

def event : ModuleLine → Event
  | requires modifiers name => .requires { name, modifiers := modifiers.map (·.text), line := 1 }
  | exports package targets => .exported { package, targets, line := 1 }
  | opens package targets => .opened { package, targets, line := 1 }
  | uses service => .uses { service := { name := service }, line := 1 }
  | provides service first others =>
      .provides
        { service := { name := service }
          implementations := (first :: others).map fun name => { name }
          line := 1 }

end ModuleLine

def ModuleText.events (module : ModuleText) : List Event :=
  .moduleHeader { name := module.name, isOpen := module.isOpen, line := 1 } ::
    module.lines.map ModuleLine.event

/-- All names are plain words with dots between them. -/
structure ModuleText.IsPlain (module : ModuleText) : Prop where
  name : IsPlainName module.name
  lines : ∀ line ∈ module.lines, ∀ name ∈ line.names, IsPlainName name

/-! ### Texts and tokens -/

/-- A text and the tokens that it gives. -/
structure Phrase where
  text : String
  signs : List Sign

namespace Phrase

def ofWord (text : String) : Phrase := ⟨text, [.word text.toList]⟩

def ofName (text : String) : Phrase := ⟨text, nameSigns (text.toList.splitOn '.')⟩

def ofMark (symbol : Mark) : Phrase := ⟨symbol.spelling, [.mark symbol]⟩

def spaced (phrases : List Phrase) : Phrase where
  text := " ".intercalate (phrases.map text)
  signs := phrases.flatMap signs

def commas (phrases : List Phrase) : Phrase where
  text := ", ".intercalate (phrases.map text)
  signs := [Sign.mark .comma].intercalate (phrases.map signs)

/-- A phrase with a mark right behind it. -/
def closed (phrase : Phrase) (symbol : Mark) : Phrase where
  text := phrase.text ++ symbol.spelling
  signs := phrase.signs ++ [.mark symbol]

/-- A phrase that prints as its tokens. -/
abbrev Prints (phrase : Phrase) : Prop := PrintsAs phrase.text phrase.signs

variable {phrases : List Phrase} {symbol : Mark} {c : Char}

theorem prints_word {text : String} (is : isWord text.toList = true) : (ofWord text).Prints where
  inLine := notMem_of_isWord is (by decide)
  opens _ _ ends opens := .word is ends opens

theorem prints_name {text : String} (plain : IsPlainName text) : (ofName text).Prints := by
  obtain ⟨words, spells, -⟩ := plain.spells
  exact .named spells

theorem prints_mark (spelled : symbol.spelling.toList = [c]) (isMark : opensMark c = true)
    (alone : ∀ next, marksGoOn c next = false) (noPoint : c ≠ '.') (inLine : c ≠ '\n') :
    (ofMark symbol).Prints := by
  refine ⟨by simp [ofMark, spelled, Ne.symm inLine], fun tail more _ opens => ?_⟩
  rw [ofMark, spelled]
  exact .lone spelled isMark alone noPoint opens

theorem Prints.closed {phrase : Phrase} (prints : phrase.Prints)
    (spelled : symbol.spelling.toList = [c]) (isMark : opensMark c = true)
    (alone : ∀ next, marksGoOn c next = false) (noPoint : c ≠ '.') (inLine : c ≠ '\n')
    (ends : continuesWord c = false) (noEscape : c ≠ '\\') : (phrase.closed symbol).Prints := by
  refine ⟨?_, fun tail more _ opens => ?_⟩
  · simp [Phrase.closed, spelled, prints.inLine, Ne.symm inLine]
  · have behind := OpensWith.lone spelled isMark alone noPoint opens
    simpa [Phrase.closed, spelled] using prints.opens _ _ (.cons ends noEscape) behind

theorem prints_spaced (all : ∀ phrase ∈ phrases, phrase.Prints) : (spaced phrases).Prints := by
  induction phrases with
  | nil => exact ⟨by simp [spaced], fun _ _ _ opens => by simpa [spaced] using opens⟩
  | cons phrase phrases ih =>
      have first := all phrase (by simp)
      have others := ih fun other member => all other (List.mem_cons_of_mem phrase member)
      cases phrases with
      | nil => simpa [spaced] using first
      | cons next phrases =>
          have split : spaced (phrase :: next :: phrases) =
              ⟨phrase.text ++ " " ++ (spaced (next :: phrases)).text,
                phrase.signs ++ (spaced (next :: phrases)).signs⟩ := by
            simp [spaced]
          rw [split]
          refine ⟨by simp [first.inLine, others.inLine], fun tail more ends opens => ?_⟩
          have behind := OpensWith.blank (by decide : isSpace ' ' = true)
            (others.opens tail more ends opens)
          simpa using first.opens _ _ (.cons (by decide) (by decide)) behind

theorem prints_commas (all : ∀ phrase ∈ phrases, phrase.Prints) : (commas phrases).Prints := by
  induction phrases with
  | nil => exact ⟨by simp [commas], fun _ _ _ opens => by simpa [commas] using opens⟩
  | cons phrase phrases ih =>
      have first := all phrase (by simp)
      have others := ih fun other member => all other (List.mem_cons_of_mem phrase member)
      cases phrases with
      | nil => simpa [commas] using first
      | cons next phrases =>
          have split : commas (phrase :: next :: phrases) =
              ⟨phrase.text ++ ", " ++ (commas (next :: phrases)).text,
                phrase.signs ++ .mark .comma :: (commas (next :: phrases)).signs⟩ := by
            simp [commas]
          rw [split]
          refine ⟨by simp [first.inLine, others.inLine], fun tail more ends opens => ?_⟩
          have spelled : Mark.comma.spelling.toList = [','] := rfl
          have rest := OpensWith.blank (by decide : isSpace ' ' = true)
            (others.opens tail more ends opens)
          have behind := OpensWith.lone spelled (by decide) (fun _ => rfl) (by decide) rest
          simpa using first.opens _ _ (.cons (by decide) (by decide)) behind

end Phrase

/-! ### Texts of descriptors -/

/-- The modules that a package is exported or opened to, if any are named. -/
def targetPhrases : List String → List Phrase
  | [] => []
  | target :: targets => [.ofWord "to", .commas ((target :: targets).map .ofName)]

namespace ModuleLine

def opening : ModuleLine → String
  | requires .. => "requires"
  | exports .. => "exports"
  | opens .. => "opens"
  | uses .. => "uses"
  | provides .. => "provides"

def inside : ModuleLine → List Phrase
  | requires modifiers name =>
      modifiers.map (fun modifier => .ofWord modifier.text) ++ [.ofName name]
  | exports package targets | opens package targets => .ofName package :: targetPhrases targets
  | uses service => [.ofName service]
  | provides service first others =>
      [.ofName service, .ofWord "with", .commas ((first :: others).map .ofName)]

def phrase (line : ModuleLine) : Phrase :=
  (Phrase.spaced (.ofWord line.opening :: line.inside)).closed .semicolon

end ModuleLine

/-- The words in front of the name of a module. -/
def ModuleText.opening (module : ModuleText) : List Phrase :=
  if module.isOpen then [.ofWord "open", .ofWord "module"] else [.ofWord "module"]

def ModuleText.phrase (module : ModuleText) : Phrase :=
  .spaced (module.opening ++ .ofName module.name :: .ofMark .leftBrace ::
    (module.lines.map ModuleLine.phrase ++ [.ofMark .rightBrace]))

section Printing

open Phrase

variable {names : List String}

theorem prints_names (plain : ∀ name ∈ names, IsPlainName name) :
    (commas (names.map ofName)).Prints := by
  refine prints_commas fun phrase member => ?_
  obtain ⟨name, among, rfl⟩ := List.mem_map.mp member
  exact prints_name (plain name among)

theorem prints_targets (plain : ∀ name ∈ names, IsPlainName name) :
    ∀ phrase ∈ targetPhrases names, phrase.Prints := by
  cases names with
  | nil => simp [targetPhrases]
  | cons target targets =>
      have lead : (ofWord "to").Prints := prints_word (by decide)
      have named := prints_names plain
      simp only [targetPhrases, List.forall_mem_cons]
      exact ⟨lead, named, by simp⟩

theorem ModuleLine.prints {line : ModuleLine} (plain : ∀ name ∈ line.names, IsPlainName name) :
    line.phrase.Prints := by
  have is : isWord line.opening.toList = true := by
    have known : ∀ word ∈ ["requires", "exports", "opens", "uses", "provides"],
        isWord word.toList = true := by
      decide
    exact known _ (by cases line <;> simp [ModuleLine.opening])
  have inside : ∀ phrase ∈ line.inside, phrase.Prints := by
    cases line with
    | requires modifiers name =>
        intro phrase member
        rcases List.mem_append.mp member with modified | last
        · obtain ⟨modifier, -, rfl⟩ := List.mem_map.mp modified
          cases modifier <;> exact prints_word (by decide)
        · obtain rfl := List.mem_singleton.mp last
          exact prints_name (plain name (by simp [ModuleLine.names]))
    | exports package targets | opens package targets =>
        obtain ⟨first, others⟩ := List.forall_mem_cons.mp plain
        exact List.forall_mem_cons.mpr ⟨prints_name first, prints_targets others⟩
    | uses service =>
        refine List.forall_mem_cons.mpr ⟨?_, by simp⟩
        exact prints_name (plain service (by simp [ModuleLine.names]))
    | provides service first others =>
        obtain ⟨isService, implementing⟩ := List.forall_mem_cons.mp plain
        have lead : (ofWord "with").Prints := prints_word (by decide)
        simp only [ModuleLine.inside, List.forall_mem_cons]
        exact ⟨prints_name isService, lead, prints_names implementing, by simp⟩
  have spaced := prints_spaced (List.forall_mem_cons.mpr ⟨prints_word is, inside⟩)
  exact spaced.closed rfl (by decide) (fun _ => rfl) (by decide) (by decide) (by decide)
    (by decide)

theorem ModuleText.IsPlain.prints {module : ModuleText} (plain : module.IsPlain) :
    module.phrase.Prints := by
  have opening : ∀ phrase ∈ module.opening, phrase.Prints := by
    have isOpen : (ofWord "open").Prints := prints_word (by decide)
    have isModule : (ofWord "module").Prints := prints_word (by decide)
    unfold ModuleText.opening
    split <;> simp only [List.forall_mem_cons]
    · exact ⟨isOpen, isModule, by simp⟩
    · exact ⟨isModule, by simp⟩
  have starts : (ofMark .leftBrace).Prints :=
    prints_mark rfl (by decide) (fun _ => rfl) (by decide) (by decide)
  have ends : (ofMark .rightBrace).Prints :=
    prints_mark rfl (by decide) (fun _ => rfl) (by decide) (by decide)
  refine prints_spaced fun phrase member => ?_
  rcases List.mem_append.mp member with first | member
  · exact opening phrase first
  · rcases List.mem_cons.mp member with rfl | member
    · exact prints_name plain.name
    · rcases List.mem_cons.mp member with rfl | member
      · exact starts
      · rcases List.mem_append.mp member with inside | last
        · obtain ⟨line, among, rfl⟩ := List.mem_map.mp inside
          exact line.prints (plain.lines line among)
        · obtain rfl := List.mem_singleton.mp last
          exact ends

end Printing

end JavaDecl
