import JavaDecl.FileTree
import Mathlib.Data.List.Basic

/-!
# Paths to files

A path that leads on from a directory, part by part, leads to the place that is made of these
parts.  There is a file if the tree has one at that place and the path is not too long.
-/

namespace JavaDecl

theorem Text.splitAt_eq_splitOn (separator : Char) (text : List Char) :
    splitAt separator text = text.splitOn separator := by
  induction text with
  | nil => rw [splitAt, List.splitOn_nil]
  | cons c rest ih =>
      rw [splitAt, ih, List.splitOn_cons_eq_if_modifyHead]
      cases split : rest.splitOn separator with
      | nil => exact absurd split (List.splitOn_ne_nil separator rest)
      | cons piece more => simp

/-! ### Paths that are put together -/

/-- A name that leads from a directory to something in it. -/
structure IsInner (part : String) : Prop where
  noSlash : '/' ∉ part.toList
  ne_empty : part ≠ ""
  ne_same : part ≠ "."
  ne_outer : part ≠ ".."

theorem front?_ne_slash {path : String} (noSlash : '/' ∉ path.toList) :
    ¬path.front? = some '/' := by
  rw [String.front?_eq]
  exact fun first => noSlash (List.mem_of_head? first)

theorem IsInner.front?_append_ne_slash {part : String} (inner : IsInner part) (path : String) :
    ¬(part ++ path).front? = some '/' := by
  obtain ⟨c, rest, letters⟩ := List.exists_cons_of_ne_nil
    (show part.toList ≠ [] by simpa using inner.ne_empty)
  intro first
  have first : c = '/' := by simpa [String.front?_eq, letters] using first
  exact inner.noSlash (by simp [letters, first])

theorem joinPath_eq {directory path : String} (rooted : directory ≠ "")
    (relative : ¬path.front? = some '/') :
    joinPath directory path =
      if directory.back? = some '/' then directory ++ path else directory ++ "/" ++ path := by
  simp [joinPath, rooted, relative]

theorem joinPath_ne_empty {directory : String} (rooted : directory ≠ "") (part : String) :
    joinPath directory part ≠ "" := by
  have longer (text : String) : directory ++ text ≠ "" := by simp [rooted]
  by_cases relative : part.front? = some '/'
  · have absolute : joinPath directory part = part := by simp [joinPath, relative]
    rw [absolute]
    rintro rfl
    simp [String.front?_eq] at relative
  · rw [joinPath_eq rooted relative]
    split
    · exact longer _
    · rw [String.append_assoc]
      exact longer _

theorem foldl_joinPath_ne_empty {directory : String} (rooted : directory ≠ "")
    (parts : List String) : parts.foldl joinPath directory ≠ "" := by
  induction parts generalizing directory with
  | nil => exact rooted
  | cons part rest ih => exact ih (joinPath_ne_empty rooted part)

theorem joinPath_concat {directory part : String} (rooted : directory ≠ "")
    (noSlash : '/' ∉ part.toList) {ending : String} (plain : '/' ∉ ending.toList) :
    joinPath directory part ++ ending = joinPath directory (part ++ ending) := by
  have together : '/' ∉ (part ++ ending).toList := by simp [noSlash, plain]
  rw [joinPath_eq rooted (front?_ne_slash noSlash), joinPath_eq rooted (front?_ne_slash together)]
  split <;> simp only [String.append_assoc]

/-- Leading on by two parts at once is leading on by one and then by the other. -/
theorem joinPath_joinPath {directory part path : String} (rooted : directory ≠ "")
    (inner : IsInner part) (relative : ¬path.front? = some '/') :
    joinPath (joinPath directory part) path = joinPath directory (part ++ "/" ++ path) := by
  have ends : ¬(joinPath directory part).back? = some '/' := by
    intro last
    have last : part.toList.getLast? = some '/' := by
      rw [joinPath_eq rooted (front?_ne_slash inner.noSlash), String.back?_eq] at last
      have same (front : List Char) : (front ++ part.toList).getLast? = part.toList.getLast? :=
        List.getLast?_append_of_ne_nil _ (by simpa using inner.ne_empty)
      split at last <;> simpa only [String.toList_append, same] using last
    exact inner.noSlash (List.mem_of_getLast? last)
  have starts : ¬(part ++ "/" ++ path).front? = some '/' := by
    rw [String.append_assoc]
    exact inner.front?_append_ne_slash _
  rw [joinPath_eq (joinPath_ne_empty rooted part) relative, if_neg ends,
    joinPath_eq rooted starts, joinPath_eq rooted (front?_ne_slash inner.noSlash)]
  split <;> simp only [String.append_assoc]

theorem utf8ByteSize_le_joinPath {directory part : String} (rooted : directory ≠ "")
    (noSlash : '/' ∉ part.toList) :
    directory.utf8ByteSize ≤ (joinPath directory part).utf8ByteSize := by
  rw [joinPath_eq rooted (front?_ne_slash noSlash)]
  split <;> simp only [String.utf8ByteSize_append] <;> omega

theorem utf8ByteSize_le_foldl_joinPath {directory : String} {parts : List String}
    (rooted : directory ≠ "") (inner : ∀ part ∈ parts, IsInner part) :
    directory.utf8ByteSize ≤ (parts.foldl joinPath directory).utf8ByteSize := by
  induction parts generalizing directory with
  | nil => exact Nat.le_refl _
  | cons part rest ih =>
      obtain ⟨first, others⟩ := List.forall_mem_cons.mp inner
      exact Nat.le_trans (utf8ByteSize_le_joinPath rooted first.noSlash)
        (ih (joinPath_ne_empty rooted part) others)

namespace FileTree

/-! ### Where paths lead -/

/-- In a tree nothing is a file and a directory. -/
def IsTree (tree : FileTree) : Prop :=
  ∀ file ∈ tree.files, tree.isDirectoryAt file.1 = false

instance (tree : FileTree) : Decidable tree.IsTree :=
  inferInstanceAs (Decidable (∀ _ ∈ _, _))

def places (tree : FileTree) : List (List String) :=
  tree.files.map Prod.fst

/-- The place that a path leads to from its start, if something is there. -/
def walk (tree : FileTree) (path : String) : Except FileFault (List String) :=
  (start path).2.foldlM tree.enter (start path).1

variable {tree : FileTree} {root : String} {parts : List String}

theorem find_eq_walk (tree : FileTree) {path : String} (some : path ≠ "")
    (short : path.utf8ByteSize ≤ pathLimit) : tree.find path = tree.walk path := by
  rw [find, if_neg (by simpa using some), if_neg (Nat.not_lt.mpr short)]
  rfl

theorem start_slash {path front part : String} (noSlash : '/' ∉ part.toList)
    (split : path = front ++ "/" ++ part) :
    start path = ((start front).1, (start front).2 ++ [part]) := by
  have pieces : (path.toList.splitOn '/').map String.ofList =
      (front.toList.splitOn '/').map String.ofList ++ [part] := by
    have letters : path.toList = front.toList ++ '/' :: part.toList := by simp [split]
    rw [letters, List.splitOn_append_cons_self, List.splitOn_eq_singleton noSlash]
    simp
  unfold start
  rw [Text.splitAt_eq_splitOn, Text.splitAt_eq_splitOn, pieces]
  cases leading : (front.toList.splitOn '/').map String.ofList with
  | nil => simp [List.splitOn_ne_nil] at leading
  | cons first rest => by_cases absolute : first = "" <;> simp [absolute]

theorem walk_slash (tree : FileTree) {path front part : String} (noSlash : '/' ∉ part.toList)
    (split : path = front ++ "/" ++ part) :
    tree.walk path = tree.walk front >>= fun place => tree.enter place part := by
  unfold walk
  rw [start_slash noSlash split, List.foldlM_append]
  simp

theorem enter_empty (tree : FileTree) (place : List String) (part : String) :
    (tree.enter place "" >>= fun same => tree.enter same part) = tree.enter place part := by
  by_cases directory : tree.isDirectoryAt place = true
  · have stays : tree.enter place "" = .ok place := by simp [enter, step, directory]
    rw [stays]
    rfl
  · simp only [enter, if_neg directory]
    rfl

theorem walk_joinPath (tree : FileTree) (rooted : root ≠ "") {part : String}
    (noSlash : '/' ∉ part.toList) :
    tree.walk (joinPath root part) = tree.walk root >>= fun place => tree.enter place part := by
  rw [joinPath_eq rooted (front?_ne_slash noSlash)]
  split
  · next last =>
      rw [String.back?_eq, List.getLast?_eq_some_iff] at last
      obtain ⟨front, letters⟩ := last
      have split : root = String.ofList front ++ "/" ++ "" := by
        rw [← String.toList_inj, letters]
        simp
      have longer : root ++ part = String.ofList front ++ "/" ++ part := by simp [split]
      rw [tree.walk_slash noSlash longer, tree.walk_slash (by simp) split, bind_assoc]
      simp only [enter_empty]
  · exact tree.walk_slash noSlash rfl

/-- What a path leads to is found by looking at its parts in turn. -/
theorem find_foldl_joinPath (tree : FileTree) (rooted : root ≠ "")
    (inner : ∀ part ∈ parts, IsInner part)
    (short : (parts.foldl joinPath root).utf8ByteSize ≤ pathLimit) :
    tree.find (parts.foldl joinPath root) = tree.find root >>= parts.foldlM tree.enter := by
  induction parts generalizing root with
  | nil => simp
  | cons part rest ih =>
      obtain ⟨first, others⟩ := List.forall_mem_cons.mp inner
      have further := joinPath_ne_empty rooted part
      have reached : (joinPath root part).utf8ByteSize ≤ pathLimit :=
        Nat.le_trans (utf8ByteSize_le_foldl_joinPath further others) short
      have begun : root.utf8ByteSize ≤ pathLimit :=
        Nat.le_trans (utf8ByteSize_le_joinPath rooted first.noSlash) reached
      calc tree.find (rest.foldl joinPath (joinPath root part))
          = tree.find (joinPath root part) >>= rest.foldlM tree.enter := ih further others short
        _ = (tree.find root >>= fun place => tree.enter place part) >>=
              rest.foldlM tree.enter := by
            rw [tree.find_eq_walk further reached, tree.find_eq_walk rooted begun,
              tree.walk_joinPath rooted first.noSlash]
        _ = tree.find root >>= (part :: rest).foldlM tree.enter := by
            rw [bind_assoc]
            rfl

/-! ### What is there -/

theorem step_inner (place : List String) {part : String} (inner : IsInner part) :
    step place part = place ++ [part] := by
  simp [step, inner.ne_empty, inner.ne_same, inner.ne_outer]

theorem isInside_iff {file place : List String} :
    isInside file place = true ↔ ∃ rest, rest ≠ [] ∧ file = place ++ rest := by
  unfold isInside
  rw [Bool.and_eq_true, List.isPrefixOf_iff_prefix, decide_eq_true_iff]
  constructor
  · rintro ⟨⟨rest, rfl⟩, longer⟩
    refine ⟨rest, ?_, rfl⟩
    rintro rfl
    simp at longer
  · rintro ⟨rest, some, rfl⟩
    have longer := List.length_pos_iff.mpr some
    exact ⟨List.prefix_append place rest, by rw [List.length_append]; omega⟩

theorem isDirectoryAt_of_file {place rest : List String} (some : rest ≠ [])
    (file : place ++ rest ∈ tree.places) : tree.isDirectoryAt place = true := by
  obtain ⟨entry, listed, found⟩ := List.mem_map.mp file
  have inside : isInside entry.1 place = true := isInside_iff.mpr ⟨rest, some, found⟩
  exact Bool.or_eq_true_iff.mpr (.inr (List.any_eq_true.mpr ⟨entry, listed, inside⟩))

theorem textAt?_isSome_iff {place : List String} :
    (tree.textAt? place).isSome = true ↔ place ∈ tree.places := by
  unfold textAt? places
  induction tree.files with
  | nil => simp
  | cons file rest ih =>
      rw [List.lookup_cons, List.map_cons, List.mem_cons, ← ih]
      by_cases same : place = file.1
      · simp [same]
      · simp only [beq_false_of_ne same, same, false_or]

theorem eq_step_of_enter {place next : List String} {part : String}
    (entered : tree.enter place part = .ok next) : next = step place part := by
  simp only [enter] at entered
  split at entered
  · split at entered
    · exact (Except.ok.inj entered).symm
    · split at entered <;> cases entered
  · cases entered

/-- Parts lead to the place that is made of them, if they lead anywhere. -/
theorem eq_of_foldlM_enter {place next : List String} (inner : ∀ part ∈ parts, IsInner part)
    (reached : parts.foldlM tree.enter place = .ok next) : next = place ++ parts := by
  induction parts generalizing place with
  | nil =>
      cases reached
      rw [List.append_nil]
  | cons part rest ih =>
      obtain ⟨first, others⟩ := List.forall_mem_cons.mp inner
      rw [List.foldlM_cons] at reached
      cases entered : tree.enter place part with
      | error fault =>
          rw [entered] at reached
          cases reached
      | ok around =>
          rw [entered] at reached
          rw [ih others reached, eq_step_of_enter entered, step_inner place first,
            List.append_assoc, List.singleton_append]

/-- Parts lead to a file at the place that is made of them. -/
theorem foldlM_enter_of_file {place : List String} (inner : ∀ part ∈ parts, IsInner part)
    (file : place ++ parts ∈ tree.places) :
    parts.foldlM tree.enter place = .ok (place ++ parts) := by
  induction parts generalizing place with
  | nil =>
      rw [List.append_nil]
      rfl
  | cons part rest ih =>
      obtain ⟨first, others⟩ := List.forall_mem_cons.mp inner
      have around : tree.isDirectoryAt place = true :=
        isDirectoryAt_of_file (List.cons_ne_nil part rest) file
      rw [List.append_cons place part rest] at file
      have there : (tree.isDirectoryAt (place ++ [part]) ||
          (tree.textAt? (place ++ [part])).isSome) = true := by
        rw [Bool.or_eq_true]
        by_cases last : rest = []
        · rw [last, List.append_nil] at file
          exact .inr (textAt?_isSome_iff.mpr file)
        · exact .inl (isDirectoryAt_of_file last file)
      have entered : tree.enter place part = .ok (place ++ [part]) := by
        simp only [enter, if_pos around, step_inner place first, there]
        rfl
      rw [List.foldlM_cons, entered, List.append_cons place part rest]
      exact ih others file

theorem isFile_iff {path : String} :
    tree.isFile path = true ↔ ∃ place, tree.find path = .ok place ∧
      tree.isDirectoryAt place = false ∧ place ∈ tree.places := by
  unfold isFile read
  cases found : tree.find path with
  | error fault =>
      constructor
      · rintro ⟨⟩
      · rintro ⟨place, ⟨⟩, -⟩
  | ok place =>
      have only : (∃ other, Except.ok (ε := FileFault) place = .ok other ∧
          tree.isDirectoryAt other = false ∧ other ∈ tree.places) ↔
          tree.isDirectoryAt place = false ∧ (tree.textAt? place).isSome = true := by
        simp only [Except.ok.injEq, exists_eq_left', textAt?_isSome_iff]
      rw [only]
      simp only [bind, Except.bind]
      cases tree.isDirectoryAt place <;> cases tree.textAt? place <;>
        simp [Except.isOk, Except.toBool]

theorem short_of_find {path : String} {place : List String} (found : tree.find path = .ok place) :
    path.utf8ByteSize ≤ pathLimit := by
  by_contra long
  unfold find at found
  rw [if_pos (Nat.lt_of_not_le long)] at found
  split at found <;> cases found

/-- There is a file where a path leads if the path is not too long and the tree has a file at
the place that is made of its parts. -/
theorem IsTree.isFile_foldl_joinPath (isTree : tree.IsTree) (rooted : root ≠ "")
    (inner : ∀ part ∈ parts, IsInner part) :
    tree.isFile (parts.foldl joinPath root) = true ↔
      (parts.foldl joinPath root).utf8ByteSize ≤ pathLimit ∧
        ∃ place, tree.find root = .ok place ∧ place ++ parts ∈ tree.places := by
  rw [isFile_iff]
  constructor
  · rintro ⟨place, found, -, file⟩
    have short := short_of_find found
    rw [tree.find_foldl_joinPath rooted inner short] at found
    cases reached : tree.find root with
    | error fault =>
        rw [reached] at found
        cases found
    | ok first =>
        rw [reached] at found
        obtain rfl := eq_of_foldlM_enter inner found
        exact ⟨short, first, rfl, file⟩
  · rintro ⟨short, place, found, file⟩
    refine ⟨place ++ parts, ?_, ?_, file⟩
    · rw [tree.find_foldl_joinPath rooted inner short, found]
      exact foldlM_enter_of_file inner file
    · obtain ⟨entry, listed, same⟩ := List.mem_map.mp file
      rw [← same]
      exact isTree entry listed

/-- The files inside a place are those whose own place goes on from there. -/
theorem mem_inside {place file : List String} :
    file ∈ tree.inside place ↔ file ≠ [] ∧ place ++ file ∈ tree.places ∧
      file.head? ≠ some "/" ∧ file.head? ≠ some ".." := by
  simp only [inside, places, List.mem_filter, List.mem_map, isInside_iff, Bool.and_eq_true,
    bne_iff_ne]
  constructor
  · rintro ⟨⟨entry, ⟨listed, rest, some, found⟩, rfl⟩, notRoot, notOuter⟩
    rw [found, List.drop_left] at notRoot notOuter ⊢
    exact ⟨some, ⟨entry, listed, found⟩, notRoot, notOuter⟩
  · rintro ⟨some, ⟨entry, listed, found⟩, notRoot, notOuter⟩
    exact ⟨⟨entry, ⟨listed, file, some, found⟩, by rw [found, List.drop_left]⟩, notRoot, notOuter⟩

end FileTree

end JavaDecl
