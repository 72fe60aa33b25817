import JavaDecl.Library.Directory
import JavaDecl.Proofs.FilePaths
import Mathlib.Data.List.TakeDrop
import Mathlib.Tactic.MkIffOfInductiveProp

/-!
# What a directory of classes lists

A directory lists every class that it contains.  Besides these it lists the classes inside
others that there are source files for: such files are listed by their names, but looking a
class up passes them over.  An answer about a name stays as it is, whatever becomes of the files.
-/

namespace JavaDecl.ClassDirectory

/-- A part of a class's name between the dots.  It may hold letters and digits, underscores,
dollar signs and hyphens, and anything else but dots and slashes. -/
@[mk_iff]
structure IsSegment (segment : String) : Prop where
  ne_empty : segment ≠ ""
  noDot : '.' ∉ segment.toList
  noSlash : '/' ∉ segment.toList

/-- The name of a class: the segments of its package and the last one, with dots between them. -/
def fullName (outer : List String) (last : String) : String :=
  ".".intercalate (outer ++ [last])

/-- The path of a class below the directory, without the ending of its file. -/
def pathOf (directory : ClassDirectory) (name : String) : String :=
  joinPath directory.root (relativePath name)

/-- Files of such names are about packages and modules. -/
def IsInfo (last : String) : Prop :=
  last = "module-info" ∨ last = "package-info"

instance (last : String) : Decidable (IsInfo last) :=
  inferInstanceAs (Decidable (_ ∨ _))

instance (segment : String) : Decidable (IsSegment segment) :=
  decidable_of_iff' _ (isSegment_iff segment)

/-- The endings of files for classes: those of class files and of source files. -/
def endings : List String := ["class", "java"]

theorem plain_of_mem_endings {ending : String} (known : ending ∈ endings) :
    '.' ∉ ending.toList ∧ '/' ∉ ending.toList ∧ 0 < ending.length := by
  have plain : ∀ ending ∈ endings,
      '.' ∉ ending.toList ∧ '/' ∉ ending.toList ∧ 0 < ending.length := by
    decide
  exact plain ending known

variable {files : FileTree} {directory : ClassDirectory} {outer : List String}
  {last name ending : String}

/-! ### Looking a class up -/

theorem IsSegment.isInner {segment : String} (is : IsSegment segment) : IsInner segment where
  noSlash := is.noSlash
  ne_empty := is.ne_empty
  ne_same := by
    rintro rfl
    exact is.noDot (by simp)
  ne_outer := by
    rintro rfl
    exact is.noDot (by simp)

theorem isInner_file (segments : ∀ segment ∈ outer ++ [last], IsSegment segment)
    (known : ending ∈ endings) : ∀ part ∈ outer ++ [last ++ "." ++ ending], IsInner part := by
  intro part member
  rcases List.mem_append.mp member with around | isLast
  · exact (segments part (List.mem_append_left _ around)).isInner
  · obtain rfl := List.mem_singleton.mp isLast
    obtain ⟨-, noSlash, longer⟩ := plain_of_mem_endings known
    have is := segments last (List.mem_append_right _ (List.mem_singleton_self last))
    have some : 0 < last.length := by
      rw [← String.length_toList, List.length_pos_iff]
      simpa using is.ne_empty
    have apart (short : String) (size : short.length ≤ 2) : last ++ "." ++ ending ≠ short := by
      rintro rfl
      simp only [String.length_append] at size
      have dot : ".".length = 1 := rfl
      omega
    exact ⟨by simp [is.noSlash, noSlash], apart "" (by decide), apart "." (by decide),
      apart ".." (by decide)⟩

@[simp] theorem relativePath_append (one other : String) :
    relativePath (one ++ other) = relativePath one ++ relativePath other := by
  simp [relativePath]

theorem relativePath_segment {segment : String} (is : IsSegment segment) :
    relativePath segment = segment := by
  have stays : ∀ c ∈ segment.toList, (if c = '.' then '/' else c) = c := by
    intro c member
    rw [if_neg]
    rintro rfl
    exact is.noDot member
  rw [relativePath, List.map_congr_left stays, List.map_id', String.ofList_toList]

theorem fullName_cons (segment : String) (outer : List String) (last : String) :
    fullName (segment :: outer) last = segment ++ "." ++ fullName outer last := by
  rw [fullName, List.cons_append, String.intercalate_cons_of_ne_nil (by simp)]
  rfl

theorem relativePath_fullName_cons {segment : String} (is : IsSegment segment)
    (outer : List String) (last : String) :
    relativePath (fullName (segment :: outer) last) =
      segment ++ "/" ++ relativePath (fullName outer last) := by
  rw [fullName_cons, relativePath_append, relativePath_append, relativePath_segment is]
  rfl

/-- The path of a class is that of its segments, one after the other. -/
theorem joinPath_fullName {root : String} (rooted : root ≠ "")
    (segments : ∀ segment ∈ outer ++ [last], IsSegment segment) (noSlash : '/' ∉ ending.toList) :
    joinPath root (relativePath (fullName outer last)) ++ ending =
      (outer ++ [last ++ ending]).foldl joinPath root := by
  induction outer generalizing root with
  | nil =>
      have is : IsSegment last := segments last (List.mem_singleton_self last)
      rw [fullName, List.nil_append, String.intercalate_singleton, relativePath_segment is,
        joinPath_concat rooted is.noSlash noSlash]
      rfl
  | cons segment rest ih =>
      obtain ⟨first, others⟩ := List.forall_mem_cons.mp segments
      have relative : ¬(relativePath (fullName rest last)).front? = some '/' := by
        cases rest with
        | nil =>
            have is : IsSegment last := others last (List.mem_singleton_self last)
            rw [fullName, List.nil_append, String.intercalate_singleton, relativePath_segment is]
            exact front?_ne_slash is.noSlash
        | cons next more =>
            have is : IsSegment next := others next List.mem_cons_self
            rw [relativePath_fullName_cons is, String.append_assoc]
            exact is.isInner.front?_append_ne_slash _
      rw [relativePath_fullName_cons first, ← joinPath_joinPath rooted first.isInner relative,
        ih (joinPath_ne_empty rooted segment) others]
      rfl

/-! ### Listing the classes -/

/-- The files below the directory, by the names that lead to them from there. -/
def below (files : FileTree) (directory : ClassDirectory) : List (List String) :=
  match files.find directory.root with
  | .error _ => []
  | .ok place => files.inside place

theorem mem_all_iff : name ∈ directory.all files ↔
    ∃ file ∈ directory.below files,
      directory.reaches file = true ∧ className? file = some name := by
  unfold all below
  cases files.find directory.root with
  | error fault => simp
  | ok place =>
      simp only [List.mem_eraseDups, List.mem_mergeSort, List.mem_filterMap, List.mem_filter,
        and_assoc]

theorem mem_below_iff {file : List String} : file ∈ directory.below files ↔
    ∃ place, files.find directory.root = .ok place ∧ file ∈ files.inside place := by
  unfold below
  cases files.find directory.root <;> simp

theorem mem_endings_iff :
    ending ∈ endings ↔ ¬(ending != "java" && ending != "class") = true := by
  simp only [endings, List.mem_cons, List.not_mem_nil, or_false, Bool.and_eq_true, bne_iff_ne]
  grind

theorem isInfo_iff : IsInfo last ↔ (last == "module-info" || last == "package-info") = true := by
  simp [IsInfo]

/-- A file is listed by its name without the ending, if it is one of a class's files. -/
theorem className?_eq_some_iff {file : List String} :
    className? file = some name ↔ ∃ front part stem ending, file = front ++ [part] ∧
      splitEnding? part = some (stem, ending) ∧ ending ∈ endings ∧ ¬IsInfo stem ∧
        fullName front stem = name := by
  constructor
  · intro named
    simp only [className?, Option.bind_eq_bind, Option.bind_eq_some_iff] at named
    obtain ⟨part, ends, ⟨stem, ending⟩, split, named⟩ := named
    obtain ⟨front, rfl⟩ := List.getLast?_eq_some_iff.mp ends
    split at named
    · cases named
    · next known =>
        split at named
        · cases named
        · next notInfo =>
            refine ⟨front, part, stem, ending, rfl, split, mem_endings_iff.mpr known, ?_, ?_⟩
            · exact fun info => notInfo (isInfo_iff.mp info)
            · rw [List.dropLast_concat] at named
              exact Option.some.inj named
  · rintro ⟨front, part, stem, ending, rfl, split, known, notInfo, rfl⟩
    simp only [className?, List.getLast?_concat, List.dropLast_concat, Option.bind_eq_bind,
      Option.bind_some, split, if_neg (mem_endings_iff.mp known),
      if_neg (mt isInfo_iff.mpr notInfo)]
    rfl

theorem span_dot (front behind : List Char) (noDot : '.' ∉ front) :
    (front ++ '.' :: behind).span (· != '.') = (front, '.' :: behind) := by
  have run : ∀ c ∈ front, (c != '.') = true := by
    intro c member
    rw [bne_iff_ne]
    rintro rfl
    exact noDot member
  rw [List.span_eq_takeWhile_dropWhile, List.takeWhile_append_of_pos run,
    List.dropWhile_append_of_pos run]
  simp

theorem eq_of_span_dot {letters taken behind : List Char} {c : Char}
    (cut : letters.span (· != '.') = (taken, c :: behind)) : letters = taken ++ '.' :: behind := by
  rw [List.span_eq_takeWhile_dropWhile, Prod.mk.injEq] at cut
  have stops : ('.' : Char) = c := by
    have first := List.head?_dropWhile_not (· != '.') letters
    rw [cut.2] at first
    exact Eq.symm (by simpa using first)
  rw [← List.takeWhile_append_dropWhile (p := (· != '.')) (l := letters), cut.1, cut.2, stops]

theorem splitEnding?_eq {stem : String} (nonempty : stem ≠ "") (noDot : '.' ∉ stem.toList)
    (plain : '.' ∉ ending.toList) : splitEnding? (stem ++ "." ++ ending) = some (stem, ending) := by
  have letters : (stem ++ "." ++ ending).toList.reverse =
      ending.toList.reverse ++ '.' :: stem.toList.reverse := by simp
  have ownStem : ¬stem.toList = ['.'] := by
    intro alone
    exact noDot (alone ▸ List.mem_singleton_self '.')
  unfold splitEnding?
  rw [letters, span_dot _ _ (by simpa using plain)]
  simp [ownStem, nonempty]

/-- The name of a file with one dot is cut at that. -/
theorem eq_of_splitEnding? {file stem : String}
    (split : splitEnding? file = some (stem, ending)) (once : file.toList.count '.' ≤ 1) :
    file = stem ++ "." ++ ending := by
  unfold splitEnding? at split
  split at split
  · cases split
  · next taken c behind cut =>
      have letters : file.toList = behind.reverse ++ '.' :: taken.reverse := by
        rw [← List.reverse_inj, eq_of_span_dot cut]
        simp
      have proper : ¬(behind == ['.']) = true := by
        intro alone
        rw [letters, eq_of_beq alone] at once
        simp at once
      simp only [proper, if_false, Bool.false_eq_true] at split
      split at split
      · cases split
      · obtain ⟨rfl, rfl⟩ := Prod.mk.inj (Option.some.inj split)
        rw [← String.toList_inj, letters]
        simp

theorem splitOn_fullName (noDot : ∀ segment ∈ outer ++ [last], '.' ∉ segment.toList) :
    (fullName outer last).toList.splitOn '.' = (outer ++ [last]).map String.toList := by
  rw [fullName, String.toList_intercalate]
  refine List.splitOn_intercalate '.' ?_ (by simp)
  intro letters member
  obtain ⟨segment, among, rfl⟩ := List.mem_map.mp member
  exact noDot segment among

theorem fullName_inj {front : List String} {stem : String}
    (noDot : ∀ segment ∈ outer ++ [last], '.' ∉ segment.toList)
    (plain : ∀ segment ∈ front ++ [stem], '.' ∉ segment.toList)
    (same : fullName front stem = fullName outer last) : front = outer ∧ stem = last := by
  have letters := congrArg (fun name => name.toList.splitOn '.') same
  simp only [splitOn_fullName noDot, splitOn_fullName plain] at letters
  have parts : front ++ [stem] = outer ++ [last] :=
    List.map_injective_iff.mpr (fun _ _ => String.toList_inj.mp) letters
  exact ⟨(List.append_inj' parts rfl).1, by simpa using (List.append_inj' parts rfl).2⟩

/-- What is listed as a class is a file of the class, if it has no further dots. -/
theorem eq_of_className? {file : List String}
    (noDot : ∀ segment ∈ outer ++ [last], '.' ∉ segment.toList)
    (once : (file.flatMap String.toList).count '.' = 1)
    (named : className? file = some (fullName outer last)) :
    ¬IsInfo last ∧ ∃ ending ∈ endings, file = outer ++ [last ++ "." ++ ending] := by
  obtain ⟨front, part, stem, ending, rfl, split, among, notInfo, same⟩ :=
    className?_eq_some_iff.mp named
  rw [List.flatMap_append, List.flatMap_singleton, List.count_append] at once
  have whole := eq_of_splitEnding? split (by omega)
  rw [whole] at once
  have plain : ∀ segment ∈ front ++ [stem], '.' ∉ segment.toList := by
    have dot : List.count '.' ".".toList = 1 := by decide
    simp only [String.toList_append, List.count_append, dot] at once
    intro segment member
    refine List.count_eq_zero.mp ?_
    rcases List.mem_append.mp member with before | isStem
    · have none : List.count '.' (front.flatMap String.toList) = 0 := by omega
      refine List.count_eq_zero.mpr fun dot => List.count_eq_zero.mp none ?_
      exact List.mem_flatMap.mpr ⟨segment, before, dot⟩
    · obtain rfl := List.mem_singleton.mp isStem
      omega
  obtain ⟨rfl, rfl⟩ := fullName_inj noDot plain same
  exact ⟨notInfo, ending, among, by rw [whole]⟩

/-! ### Files of a class -/

/-- Look-ups match the names of files exactly: a file that is listed as the class has no dot in
the names that lead to it but the one in front of its ending, and its path is not too long. -/
def MatchesExactly (files : FileTree) (directory : ClassDirectory) (name : String) : Prop :=
  ∀ file ∈ directory.below files, className? file = some name →
    (file.flatMap String.toList).count '.' = 1 ∧
      (file.foldl joinPath directory.root).utf8ByteSize ≤ FileTree.pathLimit

instance (files : FileTree) (directory : ClassDirectory) (name : String) :
    Decidable (directory.MatchesExactly files name) :=
  inferInstanceAs (Decidable (∀ _ ∈ _, _ → _))

/-- There is a file for a class if it is below the directory and its path is not too long. -/
theorem isFile_iff_mem_below (isTree : files.IsTree) (rooted : directory.root ≠ "")
    (segments : ∀ segment ∈ outer ++ [last], IsSegment segment) (known : ending ∈ endings) :
    files.isFile (directory.pathOf (fullName outer last) ++ "." ++ ending) = true ↔
      outer ++ [last ++ "." ++ ending] ∈ directory.below files ∧
        ((outer ++ [last ++ "." ++ ending]).foldl joinPath directory.root).utf8ByteSize ≤
          FileTree.pathLimit := by
  obtain ⟨-, noSlash, -⟩ := plain_of_mem_endings known
  have inner := isInner_file segments known
  have path : directory.pathOf (fullName outer last) ++ "." ++ ending =
      (outer ++ [last ++ "." ++ ending]).foldl joinPath directory.root := by
    rw [String.append_assoc, String.append_assoc]
    exact joinPath_fullName rooted segments (by simp [noSlash])
  rw [path, isTree.isFile_foldl_joinPath rooted inner, mem_below_iff, and_comm]
  refine and_congr_left fun _ => exists_congr fun place => and_congr_right fun _ => ?_
  rw [FileTree.mem_inside]
  have opens (sign : String) (outside : ¬IsInner sign) :
      (outer ++ [last ++ "." ++ ending]).head? ≠ some sign :=
    fun first => outside (inner sign (List.mem_of_head? first))
  exact ⟨fun file => ⟨by simp, file, opens "/" fun is => is.noSlash (by simp),
    opens ".." fun is => is.ne_outer rfl⟩, fun inside => inside.2.1⟩

theorem mem_all_of_isFile (isTree : files.IsTree) (rooted : directory.root ≠ "")
    (segments : ∀ segment ∈ outer ++ [last], IsSegment segment) (notInfo : ¬IsInfo last)
    (known : ending ∈ endings)
    (isFile : files.isFile (directory.pathOf (fullName outer last) ++ "." ++ ending) = true) :
    fullName outer last ∈ directory.all files := by
  obtain ⟨below, short⟩ := (isFile_iff_mem_below isTree rooted segments known).mp isFile
  refine mem_all_iff.mpr ⟨_, below, ?_, ?_⟩
  · have around : (outer.foldl joinPath directory.root).utf8ByteSize ≤
        ((outer ++ [last ++ "." ++ ending]).foldl joinPath directory.root).utf8ByteSize := by
      rw [List.foldl_append]
      refine utf8ByteSize_le_foldl_joinPath (foldl_joinPath_ne_empty rooted outer) ?_
      exact fun part isLast => isInner_file segments known part (List.mem_append_right _ isLast)
    rw [reaches, List.dropLast_concat, decide_eq_true_iff]
    exact Nat.le_trans around short
  · obtain ⟨noDot, -, -⟩ := plain_of_mem_endings known
    have is := segments last (List.mem_append_right _ (List.mem_singleton_self last))
    exact className?_eq_some_iff.mpr ⟨outer, _, last, ending, rfl,
      splitEnding?_eq is.ne_empty is.noDot noDot, known, notInfo, rfl⟩

/-- There is a file for a listed class, if look-ups match the names of files exactly. -/
theorem exists_isFile_of_mem_all (isTree : files.IsTree) (rooted : directory.root ≠ "")
    (segments : ∀ segment ∈ outer ++ [last], IsSegment segment)
    (exact : directory.MatchesExactly files (fullName outer last))
    (listed : fullName outer last ∈ directory.all files) :
    ¬IsInfo last ∧ ∃ ending ∈ endings,
      files.isFile (directory.pathOf (fullName outer last) ++ "." ++ ending) = true := by
  obtain ⟨file, below, -, named⟩ := mem_all_iff.mp listed
  obtain ⟨once, short⟩ := exact file below named
  obtain ⟨notInfo, ending, known, rfl⟩ :=
    eq_of_className? (fun segment member => (segments segment member).noDot) once named
  exact ⟨notInfo, ending, known,
    (isFile_iff_mem_below isTree rooted segments known).mpr ⟨below, short⟩⟩

/-! ### Remembered answers -/

/-- The directory after some questions, each asked of the files that there are then. -/
def afterAll (directory : ClassDirectory) (questions : List (FileTree × String)) :
    ClassDirectory :=
  questions.foldl (fun directory (files, name) => (directory.contains files name).2) directory

theorem contains_of_known {answer : Bool} (known : directory.answers.find? name = some answer)
    (files : FileTree) : directory.contains files name = (answer, directory) := by
  rw [contains, known]

theorem find?_contains (files : FileTree) (asked name : String) (directory : ClassDirectory) :
    (directory.contains files asked).2.answers.find? name =
      if asked = name then some (directory.contains files asked).1
      else directory.answers.find? name := by
  cases known : directory.answers.find? asked with
  | none => simp [contains, known]
  | some answer =>
      rw [contains_of_known known]
      split
      · next same => rw [← same, known]
      · rfl

/-- A known answer stays known, whatever is asked and whatever files there are. -/
theorem find?_afterAll {answer : Bool} (known : directory.answers.find? name = some answer)
    (questions : List (FileTree × String)) :
    (directory.afterAll questions).answers.find? name = some answer := by
  induction questions generalizing directory with
  | nil => exact known
  | cons question rest ih =>
      have kept : (directory.contains question.1 question.2).2.answers.find? name =
          some answer := by
        rw [find?_contains]
        split
        · next same => rw [same, contains_of_known known]
        · exact known
      exact ih kept

/-! ### Listing and looking up -/

/-- The first answer about a name is decided by the files that there are. -/
theorem contains_fresh (files : FileTree) (root name : String) :
    (({ root } : ClassDirectory).contains files name).1 = true ↔
      files.isFile (({ root } : ClassDirectory).pathOf name ++ "." ++ "class") = true ∨
        '$' ∉ name.toList ∧
          files.isFile (({ root } : ClassDirectory).pathOf name ++ "." ++ "java") = true := by
  have asked : (({ root } : ClassDirectory).contains files name).1 =
      ({ root } : ClassDirectory).holds files name := by
    rw [contains, show ({ root } : ClassDirectory).answers.find? name = none from
      NameTable.find?_empty name]
  rw [asked, holds, String.append_assoc, String.append_assoc]
  simp [pathOf]

/-- A directory lists the classes that it contains, and the answer about a class stays as it is.
If look-ups match the names of files exactly, what it lists besides are the classes inside others
that there are only source files for.  Files about packages and modules are not listed. -/
theorem lists_what_it_contains {files : FileTree} {root : String} {outer : List String}
    {last : String} (isTree : files.IsTree) (rooted : root ≠ "")
    (segments : ∀ segment ∈ outer ++ [last], IsSegment segment) :
    let directory : ClassDirectory := { root }
    let name := fullName outer last
    let found := (directory.contains files name).1
    (¬IsInfo last → found = true → name ∈ directory.all files) ∧
      (directory.MatchesExactly files name → (name ∈ directory.all files ↔ ¬IsInfo last ∧
        (found = true ∨
          '$' ∈ name.toList ∧ files.isFile (directory.pathOf name ++ ".java") = true))) ∧
      ∀ questions later,
        (((directory.contains files name).2.afterAll questions).contains later name).1 = found := by
  intro directory name found
  have listed (notInfo : ¬IsInfo last) {ending : String} (known : ending ∈ endings)
      (isFile : files.isFile (directory.pathOf name ++ "." ++ ending) = true) :
      name ∈ directory.all files :=
    mem_all_of_isFile isTree rooted segments notInfo known isFile
  have isClass : "class" ∈ endings := by decide
  have isSource : "java" ∈ endings := by decide
  have answer := contains_fresh files root name
  have held (notInfo : ¬IsInfo last) (contained : found = true) : name ∈ directory.all files := by
    rcases answer.mp contained with classFile | ⟨-, source⟩
    · exact listed notInfo isClass classFile
    · exact listed notInfo isSource source
  refine ⟨held, fun exact => ⟨fun among => ?found, ?listed⟩, fun questions later => ?stays⟩
  case found =>
    obtain ⟨notInfo, ending, known, isFile⟩ :=
      exists_isFile_of_mem_all isTree rooted segments exact among
    refine ⟨notInfo, ?_⟩
    rcases List.mem_cons.mp known with rfl | known
    · exact .inl (answer.mpr (.inl isFile))
    · obtain rfl := List.mem_singleton.mp known
      by_cases inner : '$' ∈ name.toList
      · exact .inr ⟨inner, by rwa [String.append_assoc] at isFile⟩
      · exact .inl (answer.mpr (.inr ⟨inner, isFile⟩))
  case listed =>
    rintro ⟨notInfo, contained | ⟨-, source⟩⟩
    · exact held notInfo contained
    · exact listed notInfo isSource (by rwa [String.append_assoc])
  case stays =>
    have known : (directory.contains files name).2.answers.find? name = some found := by
      rw [find?_contains, if_pos rfl]
    rw [contains_of_known (find?_afterAll known questions)]

/-- A class inside another is looked up by its class file and listed with the others. -/
theorem inner_class_file_is_listed :
    let files := (({} : FileTree).addFile "cp/lib/Gadget$Part.class" "").addFile
      "cp/lib/Source$Nested.java" ""
    let directory : ClassDirectory := { root := "cp" }
    let part := fullName ["lib"] "Gadget$Part"
    let nested := fullName ["lib"] "Source$Nested"
    files.IsTree ∧ (∀ last ∈ ["Gadget$Part", "Source$Nested"], ¬IsInfo last ∧
        ∀ segment ∈ ["lib"] ++ [last], IsSegment segment) ∧
      directory.MatchesExactly files nested ∧
      (directory.contains files part).1 = true ∧ part ∈ directory.all files ∧
      files.isFile (directory.pathOf nested ++ ".java") = true ∧ nested ∈ directory.all files := by
  intro files directory part nested
  have isTree : files.IsTree := by decide +kernel
  have segments : ∀ last ∈ ["Gadget$Part", "Source$Nested"], ¬IsInfo last ∧
      ∀ segment ∈ ["lib"] ++ [last], IsSegment segment := by decide +kernel
  have exact : directory.MatchesExactly files nested := by decide +kernel
  have contained : (directory.contains files part).1 = true :=
    (contains_fresh files "cp" part).mpr (.inl (by decide +kernel))
  have source : files.isFile (directory.pathOf nested ++ ".java") = true := by decide +kernel
  obtain ⟨partNotInfo, partSegments⟩ := segments "Gadget$Part" (by simp)
  obtain ⟨nestedNotInfo, nestedSegments⟩ := segments "Source$Nested" (by simp)
  refine ⟨isTree, segments, exact, contained, ?_, source, ?_⟩
  · exact (lists_what_it_contains isTree (by decide) partSegments).1 partNotInfo contained
  · exact ((lists_what_it_contains isTree (by decide) nestedSegments).2.1 exact).mpr
      ⟨nestedNotInfo, .inr ⟨by decide +kernel, source⟩⟩

/-- Source files of classes inside others are listed though looking them up fails, and so are
files with further dots in their names; a file about a package is found though it is not listed.
A directory without a name lists nothing. -/
theorem listing_and_lookups_disagree :
    let files := ((((({} : FileTree).addFile "cp/lib/Main.java" "").addFile
      "cp/lib/Source$Nested.java" "").addFile "cp/lib/a.b.java" "").addFile
      "cp/lib/package-info.java" "")
    let directory : ClassDirectory := { root := "cp" }
    let here : ClassDirectory := { root := "" }
    files.IsTree ∧ (∀ segment ∈ ["lib", "Source$Nested", "a", "b", "package-info", "cp", "Main"],
        IsSegment segment) ∧
      ("lib.Source$Nested" ∈ directory.all files ∧
        (directory.contains files "lib.Source$Nested").1 = false) ∧
      ("lib.a.b" ∈ directory.all files ∧ (directory.contains files "lib.a.b").1 = false) ∧
      ("lib.package-info" ∉ directory.all files ∧
        (directory.contains files "lib.package-info").1 = true) ∧
      (here.all files = [] ∧ (here.contains files "cp.lib.Main").1 = true) := by
  intro files directory here
  have missing (name : String) (unknown : ¬(files.isFile (directory.pathOf name ++ "." ++ "class") =
      true ∨ '$' ∉ name.toList ∧
        files.isFile (directory.pathOf name ++ "." ++ "java") = true)) :
      (directory.contains files name).1 = false :=
    Bool.eq_false_iff.mpr (mt (contains_fresh files "cp" name).mp unknown)
  refine ⟨by decide +kernel, by decide +kernel, ⟨?_, missing _ (by decide +kernel)⟩,
    ⟨?_, missing _ (by decide +kernel)⟩, ⟨?_, ?_⟩, rfl, ?_⟩
  · exact mem_all_iff.mpr (by decide +kernel)
  · exact mem_all_iff.mpr (by decide +kernel)
  · exact mt mem_all_iff.mp (by decide +kernel)
  · exact (contains_fresh files "cp" _).mpr (by decide +kernel)
  · exact (contains_fresh files "" _).mpr (by decide +kernel)

end JavaDecl.ClassDirectory
