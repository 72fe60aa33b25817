import JavaDecl.Proofs.LibraryAnswers
import Mathlib.Data.Finset.Card
import Mathlib.Data.List.Induction

/-!
# What a library has been told

A library that has been told of names and of fixed sources knows exactly the names that it
lists.  It lists each once: the registered ones in the order in which they came first, then
those of its sources.  Its generation is the number of operations that brought something new.
-/

namespace JavaDecl

/-! ### Names in the order in which they come first -/

/-- Some names are those of a longer list, each once, in the order in which they come there. -/
structure FirstOccurrences (names firsts : List String) : Prop where
  nodup : firsts.Nodup
  mem_iff : ∀ name, name ∈ firsts ↔ name ∈ names
  ordered : firsts.Pairwise fun one other => names.idxOf one < names.idxOf other

/-- One more name is kept if it is not there before. -/
theorem eraseDups_concat (names : List String) (name : String) :
    (names ++ [name]).eraseDups = appendNew names.eraseDups name := by
  rw [List.eraseDups_append, appendNew]
  by_cases known : name ∈ names
  · simp [known, List.removeAll, List.mem_eraseDups]
  · simp [known, List.removeAll, List.mem_eraseDups, List.eraseDups_cons]

theorem foldl_appendNew (names more : List String) :
    more.foldl appendNew names.eraseDups = (names ++ more).eraseDups := by
  induction more generalizing names with
  | nil => rw [List.append_nil, List.foldl_nil]
  | cons name more ih =>
      rw [List.foldl_cons, ← eraseDups_concat, ih, List.append_assoc, List.singleton_append]

@[simp] theorem eraseDups_eraseDups (names : List String) :
    names.eraseDups.eraseDups = names.eraseDups := by
  induction names using List.reverseRecOn with
  | nil => rfl
  | append_singleton names name ih =>
      rw [eraseDups_concat, appendNew]
      split
      · exact ih
      · next unknown => rw [eraseDups_concat, ih, appendNew, if_neg unknown]

theorem firstOccurrences_eraseDups (names : List String) :
    FirstOccurrences names names.eraseDups := by
  induction names using List.reverseRecOn with
  | nil => exact ⟨.nil, fun _ => .rfl, .nil⟩
  | append_singleton names name ih =>
      obtain ⟨nodup, members, ordered⟩ := ih
      have earlier : ∀ one ∈ names.eraseDups, (names ++ [name]).idxOf one = names.idxOf one :=
        fun one listed => List.idxOf_append_of_mem ((members one).mp listed)
      have sorted : names.eraseDups.Pairwise fun one other =>
          (names ++ [name]).idxOf one < (names ++ [name]).idxOf other :=
        ordered.imp_of_mem fun one other less => by rwa [earlier _ one, earlier _ other]
      rw [eraseDups_concat, appendNew]
      split
      · next known =>
          have known : name ∈ names := (members name).mp (by simpa using known)
          exact ⟨nodup, fun one => by rw [members]; grind, sorted⟩
      · next unknown =>
          have unknown : name ∉ names.eraseDups := by simpa using unknown
          have absent : name ∉ names := fun known => unknown ((members name).mpr known)
          refine ⟨?_, fun one => by simp [members], ?_⟩
          · refine List.nodup_append.mpr ⟨nodup, List.nodup_singleton name, ?_⟩
            intro one listed last isLast same
            exact unknown (List.mem_singleton.mp isLast ▸ same ▸ listed)
          · refine List.pairwise_append.mpr ⟨sorted, List.pairwise_singleton .., ?_⟩
            intro one listed last isLast
            obtain rfl := List.mem_singleton.mp isLast
            rw [earlier one listed, List.idxOf_append_of_notMem absent]
            exact Nat.lt_add_right _ (List.idxOf_lt_length_iff.mpr ((members one).mp listed))

namespace Library

/-! ### Operations -/

/-- What is done to a library.  The sources are the core classes and lists of names. -/
inductive Operation where
  | register (name : String)
  | registerAll (names : List String)
  | addCore
  | addList (names : List String)
  | ask (name : String)

namespace Operation

def apply (files : FileTree) (library : Library) : Operation → Library
  | register name => (library.register name).2
  | registerAll names => (library.registerAll names).2
  | addCore => library.addSource .core
  | addList names => library.addSource (.listed names)
  | ask name => (library.contains files name).2

def registers : Operation → List String
  | register name => [name]
  | registerAll names => names
  | _ => []

def lists : Operation → List String
  | addCore => coreNames
  | addList names => names
  | _ => []

def source? : Operation → Option ClassSource
  | addCore => some .core
  | addList names => some (.listed names)
  | _ => none

/-- Whether a source is added or a name that is not registered yet. -/
def bringsNews (registered : List String) (operation : Operation) : Bool :=
  operation.source?.isSome || operation.registers.any fun name => !registered.contains name

end Operation

/-- How many of some operations add a source or a name that is not registered before them. -/
def countNews (registered : List String) : List Operation → Nat
  | [] => 0
  | operation :: rest =>
      (operation.bringsNews registered).toNat + countNews (registered ++ operation.registers) rest

def afterAll (files : FileTree) (operations : List Operation) : Library :=
  operations.foldl (Operation.apply files) {}

theorem countNews_concat (registered : List String) (operations : List Operation)
    (last : Operation) :
    countNews registered (operations ++ [last]) = countNews registered operations +
      (last.bringsNews (registered ++ operations.flatMap Operation.registers)).toNat := by
  induction operations generalizing registered with
  | nil => simp [countNews]
  | cons operation rest ih =>
      simp only [List.cons_append, countNews, ih, List.flatMap_cons, List.append_assoc]
      omega

/-! ### What a library keeps -/

/-- A library has been told of what some operations tell. -/
structure Records (operations : List Operation) (library : Library) : Prop where
  registered : library.registered = (operations.flatMap Operation.registers).eraseDups
  sources : library.sources = operations.filterMap Operation.source?
  generation : library.generation = countNews [] operations

variable {files : FileTree} {operations : List Operation} {library : Library}

theorem inquire_sources (files : FileTree) (name : String) (position : Nat)
    {sources : List ClassSource}
    (fixed : ∀ source ∈ sources, (source.contains files name).2 = source) :
    (inquire files name position sources).sources = sources := by
  induction sources generalizing position with
  | nil => rfl
  | cons source rest ih =>
      obtain ⟨first, others⟩ := List.forall_mem_cons.mp fixed
      unfold inquire
      cases asked : source.contains files name with
      | mk found after =>
          rw [asked] at first
          obtain rfl : after = source := first
          cases found with
          | true => rfl
          | false => simp [ih _ others]

theorem Records.sources_fixed (records : Records operations library) (files : FileTree)
    (name : String) : ∀ source ∈ library.sources, (source.contains files name).2 = source := by
  intro source listed
  rw [records.sources] at listed
  obtain ⟨operation, -, added⟩ := List.mem_filterMap.mp listed
  cases operation <;> cases added <;> rfl

/-- As many names are new as there are different ones that are not registered. -/
theorem Records.added (records : Records operations library) (names : List String) :
    (library.registerAll names).1 =
      (names.toFinset \ (operations.flatMap Operation.registers).toFinset).card := by
  have size (names : List String) : names.eraseDups.length = names.toFinset.card := by
    rw [← List.toFinset_card_of_nodup (firstOccurrences_eraseDups names).nodup]
    congr 1
    ext name
    simp [List.mem_eraseDups]
  have grown : (library.registerAll names).1 =
      (names.foldl appendNew library.registered).length - library.registered.length := rfl
  rw [grown, records.registered, foldl_appendNew, size, size, List.toFinset_append,
    Finset.union_comm, ← Finset.card_sdiff_add_card]
  exact Nat.add_sub_cancel ..

/-- Registered names are recorded, and they count as one change if any of them is new. -/
theorem Records.registerAll (records : Records operations library) (operation : Operation)
    (noSource : operation.source? = none) :
    Records (operations ++ [operation]) (library.registerAll operation.registers).2 where
  registered := by
    rw [List.flatMap_append, List.flatMap_singleton, ← foldl_appendNew, ← records.registered]
    rfl
  sources := by simpa [noSource, Library.registerAll] using records.sources
  generation := by
    have changed : (library.registerAll operation.registers).2.generation =
        if (library.registerAll operation.registers).1 = 0 then library.generation
        else library.generation + 1 := rfl
    have news : operation.bringsNews (operations.flatMap Operation.registers) = true ↔
        (library.registerAll operation.registers).1 ≠ 0 := by
      rw [records.added, Finset.card_ne_zero]
      simp [Operation.bringsNews, noSource, Finset.Nonempty]
    rw [changed, countNews_concat, List.nil_append, ← records.generation]
    by_cases none : (library.registerAll operation.registers).1 = 0
    · rw [if_pos none, Bool.eq_false_iff.mpr fun brings => news.mp brings none]
      rfl
    · rw [if_neg none, news.mpr none]
      rfl

theorem Records.addSource (records : Records operations library) {operation : Operation}
    {source : ClassSource} (adds : operation.source? = some source)
    (registersNone : operation.registers = []) :
    Records (operations ++ [operation]) (library.addSource source) where
  registered := by simpa [registersNone, Library.addSource] using records.registered
  sources := by simp [adds, Library.addSource, records.sources]
  generation := by
    have news (known : List String) : operation.bringsNews known = true := by
      simp [Operation.bringsNews, adds]
    rw [countNews_concat, news, ← records.generation]
    rfl

theorem Records.ask (records : Records operations library) (name : String) :
    Records (operations ++ [.ask name]) (library.contains files name).2 := by
  have kept : (library.contains files name).2.registered = library.registered ∧
      (library.contains files name).2.sources = library.sources := by
    unfold contains
    split
    · exact ⟨rfl, rfl⟩
    · exact ⟨rfl, inquire_sources files name 0 (records.sources_fixed files name)⟩
  refine ⟨?_, ?_, ?_⟩
  · simpa [kept.1, Operation.registers] using records.registered
  · rw [kept.2, List.filterMap_append, records.sources]
    exact (List.append_nil _).symm
  · rw [(library.agrees_contains files name).generation, countNews_concat, records.generation]
    rfl

theorem Records.apply (records : Records operations library) (operation : Operation) :
    Records (operations ++ [operation]) (operation.apply files library) := by
  cases operation with
  | register name => exact records.registerAll (.register name) rfl
  | registerAll names => exact records.registerAll (.registerAll names) rfl
  | addCore => exact records.addSource rfl rfl
  | addList names => exact records.addSource rfl rfl
  | ask name => exact records.ask name

theorem records_afterAll (files : FileTree) (operations : List Operation) :
    Records operations (afterAll files operations) := by
  induction operations using List.reverseRecOn with
  | nil => exact ⟨rfl, rfl, rfl⟩
  | append_singleton operations last ih =>
      rw [afterAll, List.foldl_append]
      exact ih.apply last

/-- What the sources list are the names of the sources that have been added. -/
theorem Records.listed (records : Records operations library) (files : FileTree) :
    library.sources.flatMap (·.all files) = operations.flatMap Operation.lists := by
  rw [records.sources]
  clear records
  induction operations with
  | nil => rfl
  | cons operation rest ih =>
      rw [List.flatMap_cons, ← ih]
      cases operation <;> rfl

theorem Records.all_eq (records : Records operations library) (files : FileTree) :
    library.all files =
      (operations.flatMap Operation.registers ++ operations.flatMap Operation.lists).eraseDups := by
  rw [all, records.listed, records.registered, ← foldl_appendNew, ← foldl_appendNew,
    eraseDups_eraseDups]

/-- A name is known if it has been registered or a source lists it. -/
theorem Records.answer_iff (records : Records operations library) (files : FileTree)
    (name : String) :
    library.answer files name = true ↔
      name ∈ operations.flatMap Operation.registers ∨
        name ∈ operations.flatMap Operation.lists := by
  have source : ∀ source ∈ library.sources,
      (source.answer files name = true ↔ name ∈ source.all files) := by
    intro source listed
    rw [records.sources] at listed
    obtain ⟨operation, -, added⟩ := List.mem_filterMap.mp listed
    cases operation <;> cases added <;> exact List.contains_iff_mem
  rw [answer_eq, Bool.or_eq_true, List.any_eq_true, List.contains_iff_mem, records.registered,
    List.mem_eraseDups, ← records.listed files, List.mem_flatMap (l := library.sources)]
  exact or_congr_right ⟨fun ⟨one, listed, knows⟩ => ⟨one, listed, (source one listed).mp knows⟩,
    fun ⟨one, listed, among⟩ => ⟨one, listed, (source one listed).mpr among⟩⟩

/-- A library of core classes and listed names knows the names that it lists.  It lists each
once: the registered ones as they came first, then those of its sources; and it forgets none.
It reports which names are new, and its generation counts the operations that brought news. -/
theorem known_names_are_listed_once (files : FileTree) (operations : List Operation) :
    let registered := operations.flatMap Operation.registers
    let library := afterAll files operations
    (∀ name, (library.contains files name).1 = true ↔ name ∈ library.all files) ∧
      FirstOccurrences (registered ++ operations.flatMap Operation.lists) (library.all files) ∧
      (∀ more name, name ∈ library.all files →
        name ∈ (afterAll files (operations ++ more)).all files) ∧
      (∀ name, (library.register name).1 = true ↔ name ∉ registered) ∧
      (∀ names, (library.registerAll names).1 =
        (names.toFinset \ registered.toFinset).card) ∧
      library.generation = countNews [] operations := by
  intro registered library
  have records : Records operations library := records_afterAll files operations
  have mem (operations : List Operation) (name : String) :
      name ∈ (afterAll files operations).all files ↔
        name ∈ operations.flatMap Operation.registers ∨
          name ∈ operations.flatMap Operation.lists := by
    rw [(records_afterAll files operations).all_eq, List.mem_eraseDups, List.mem_append]
  refine ⟨fun name => ?known, ?listed, fun more name known => ?grows, fun name => ?new,
    records.added, records.generation⟩
  case known => exact (records.answer_iff files name).trans (mem operations name).symm
  case listed =>
    rw [records.all_eq]
    exact firstOccurrences_eraseDups _
  case grows =>
    rw [mem] at known ⊢
    rw [List.flatMap_append, List.flatMap_append]
    exact known.imp (List.mem_append_left _) (List.mem_append_left _)
  case new =>
    have counted : (library.register name).1 = ((library.registerAll [name]).1 != 0) := rfl
    rw [counted, records.added, bne_iff_ne, Finset.card_ne_zero]
    simp [Finset.Nonempty, registered]

/-- A name that a list holds too is new when it is registered, but once only. -/
example : countNews [] [.addList ["p.A"], .registerAll ["p.A", "p.A"], .register "p.A"] = 2 := by
  decide

end Library

end JavaDecl
