import JavaDecl.Library.Basic

/-!
# The answers of a library

Asking a library changes none of its answers, and whatever changes an answer changes
the generation.
-/

namespace JavaDecl

def ClassSource.answer (files : FileTree) (source : ClassSource) (name : String) : Bool :=
  (source.contains files name).1

theorem ClassSource.answer_contains (files : FileTree) (source : ClassSource)
    (asked name : String) :
    (source.contains files asked).2.answer files name = source.answer files name := by
  cases source with
  | core => rfl
  | listed names => rfl
  | fixed label knows names => rfl
  | directory directory =>
      cases known : directory.answers.find? asked with
      | some earlier => simp [answer, contains, ClassDirectory.contains, known]
      | none =>
          by_cases same : asked = name
          · subst same
            simp [answer, contains, ClassDirectory.contains, known]
          · simp only [answer, contains, ClassDirectory.contains, known, NameTable.find?_set,
              if_neg same]
            cases directory.answers.find? name <;> rfl

namespace Library

def answer (files : FileTree) (library : Library) (name : String) : Bool :=
  (library.contains files name).1

/-- Sources are asked until one knows the name. -/
theorem found_inquire (files : FileTree) (name : String) (position : Nat)
    (sources : List ClassSource) :
    (inquire files name position sources).found =
      sources.any fun source => source.answer files name := by
  induction sources generalizing position with
  | nil => rfl
  | cons source rest ih =>
      unfold inquire
      cases asked : source.contains files name with
      | mk found after =>
          cases found with
          | true => simp [ClassSource.answer, asked]
          | false => simp [ClassSource.answer, asked, ih]

theorem any_answer_inquire (files : FileTree) (asked name : String) (position : Nat)
    (sources : List ClassSource) :
    ((inquire files asked position sources).sources.any fun source => source.answer files name) =
      sources.any fun source => source.answer files name := by
  induction sources generalizing position with
  | nil => rfl
  | cons source rest ih =>
      have same := source.answer_contains files asked name
      unfold inquire
      cases answered : source.contains files asked with
      | mk found after =>
          rw [answered] at same
          cases found with
          | true => simp [same]
          | false => simp [same, ih]

theorem answer_eq (files : FileTree) (library : Library) (name : String) :
    library.answer files name =
      (library.registered.contains name ||
        library.sources.any fun source => source.answer files name) := by
  unfold answer contains
  split
  · next registered => rw [registered, Bool.true_or]
  · next unregistered =>
      rw [Bool.eq_false_iff.mpr unregistered, Bool.false_or]
      exact found_inquire files name 0 library.sources

/-- A library answers as another of the same generation. -/
structure Agrees (files : FileTree) (library other : Library) : Prop where
  generation : other.generation = library.generation
  answer : ∀ name, other.answer files name = library.answer files name

theorem Agrees.refl (files : FileTree) (library : Library) : library.Agrees files library :=
  ⟨rfl, fun _ => rfl⟩

theorem Agrees.trans {files : FileTree} {first second third : Library}
    (one : first.Agrees files second) (other : second.Agrees files third) :
    first.Agrees files third :=
  ⟨other.generation.trans one.generation,
    fun name => (other.answer name).trans (one.answer name)⟩

theorem agrees_contains (files : FileTree) (library : Library) (asked : String) :
    library.Agrees files (library.contains files asked).2 := by
  by_cases registered : library.registered.contains asked
  · have same : (library.contains files asked).2 = library := by
      unfold contains
      rw [if_pos registered]
    rw [same]
    exact .refl files library
  · have changed : (library.contains files asked).2 =
        { library with
          sources := (inquire files asked 0 library.sources).sources
          questions := library.questions ++
            (inquire files asked 0 library.sources).questions.toArray } := by
      unfold contains
      rw [if_neg registered]
    rw [changed]
    refine ⟨rfl, fun name => ?_⟩
    rw [answer_eq, answer_eq, any_answer_inquire]

/-! ### Changes -/

theorem prefix_appendNew (names : List String) (name : String) :
    names <+: appendNew names name := by
  unfold appendNew
  split
  · exact List.prefix_rfl
  · exact List.prefix_append names [name]

theorem prefix_foldl_appendNew (names added : List String) :
    names <+: added.foldl appendNew names := by
  induction added generalizing names with
  | nil => exact List.prefix_rfl
  | cons name rest ih => exact (prefix_appendNew names name).trans (ih (appendNew names name))

/-- A later library either answers as before or is of a later generation. -/
def Updates (files : FileTree) (library later : Library) : Prop :=
  library.Agrees files later ∨ library.generation < later.generation

theorem Updates.refl (files : FileTree) (library : Library) : library.Updates files library :=
  .inl (.refl files library)

theorem Updates.generation_le {files : FileTree} {library later : Library}
    (updates : library.Updates files later) : library.generation ≤ later.generation := by
  rcases updates with agrees | newer
  · exact Nat.le_of_eq agrees.generation.symm
  · exact Nat.le_of_lt newer

/-- Names that are all known already leave the library as it is, and others bring a new
generation. -/
theorem updates_registerAll (files : FileTree) (library : Library) (names : List String) :
    library.Updates files (library.registerAll names).2 := by
  have known := prefix_foldl_appendNew library.registered names
  by_cases none : (names.foldl appendNew library.registered).length - library.registered.length = 0
  · have same := known.eq_of_length_le (by omega)
    have unchanged : (library.registerAll names).2 = library := by
      simp [registerAll, ← same]
    rw [unchanged]
    exact .refl files library
  · right
    simp [registerAll, none]

theorem updates_addSource (files : FileTree) (library : Library) (source : ClassSource) :
    library.Updates files (library.addSource source) :=
  .inr (Nat.lt_succ_self library.generation)

end Library

end JavaDecl
