import Rehome.Files.Tree
import Rehome.Proofs.Path.Canonical
import Rehome.Proofs.Table

/-!
# Directories of a tree

A tree keeps no directories, only paths of files in order. What it says about a directory is read
off the paths that start with the directory and a slash: these stand together in the order of names,
so looking at one stretch of the names finds all of them.
-/
namespace Rehome.FileTree

open Rehome.Path (IsCanonical below?)

/-- Between some leading characters and a text that starts with them lie only texts that start with
them. -/
theorem prefix_of_between {start l m : List Char} (low : ¬ l < start) (high : l < m)
    (starts : start <+: m) : start <+: l := by
  induction start generalizing l m with
  | nil => exact List.nil_prefix
  | cons c cs ih =>
    obtain ⟨rest, rfl⟩ := starts
    cases l with
    | nil => exact absurd (List.nil_lt_cons _ _) low
    | cons d ds =>
      rw [List.cons_append, List.cons_lt_cons_iff] at high
      rw [List.cons_lt_cons_iff, not_or] at low
      rcases high with less | ⟨rfl, high⟩
      · exact absurd less low.1
      · have tail : ¬ ds < cs := fun less => low.2 ⟨rfl, less⟩
        exact List.cons_prefix_cons.2 ⟨rfl, ih tail high (List.prefix_append cs rest)⟩

theorem not_lt_of_prefix {start l : List Char} (starts : start <+: l) : ¬ l < start := by
  induction start generalizing l with
  | nil => exact List.not_lt_nil l
  | cons c cs ih =>
    obtain ⟨rest, rfl⟩ := starts
    rw [List.cons_append, List.cons_lt_cons_iff, not_or]
    exact ⟨lt_irrefl c, fun h => ih (List.prefix_append cs rest) h.2⟩

/-- From the first name that is not smaller on, the names with given leading characters come
first. -/
theorem takeWhile_eq_filter {start : List Char} {names : List String}
    (increasing : names.Pairwise (· < ·)) (large : ∀ n ∈ names, ¬ n.toList < start) :
    (names.takeWhile fun n => start.isPrefixOf n.toList) =
      names.filter fun n => start.isPrefixOf n.toList := by
  induction names with
  | nil => rfl
  | cons n rest ih =>
    obtain ⟨first, increasing⟩ := List.pairwise_cons.1 increasing
    by_cases starts : start.isPrefixOf n.toList
    · simp only [List.takeWhile_cons, List.filter_cons, starts, if_true]
      rw [ih increasing fun m member => large m (by simp [member])]
    · have none : ∀ m ∈ rest, ¬ start.isPrefixOf m.toList := fun m member found =>
        starts (List.isPrefixOf_iff_prefix.2
          (prefix_of_between (large n (by simp)) (String.lt_iff.1 (first m member))
            (List.isPrefixOf_iff_prefix.1 found)))
      simp only [List.takeWhile_cons, List.filter_cons, starts]
      exact (List.filter_eq_nil_iff.2 none).symm

/-- The stretch of names that `range` looks at holds all names with the leading characters. -/
theorem range_eq_filter (start : List Char) {names : List String}
    (increasing : names.Pairwise (· < ·)) :
    range start names = names.filter fun n => start.isPrefixOf n.toList := by
  unfold range
  induction names with
  | nil => rfl
  | cons n rest ih =>
    obtain ⟨first, ordered⟩ := List.pairwise_cons.1 increasing
    by_cases small : n < String.ofList start
    · have differs : ¬ start.isPrefixOf n.toList := fun found => by
        rw [String.lt_iff, String.toList_ofList] at small
        exact not_lt_of_prefix (List.isPrefixOf_iff_prefix.1 found) small
      simp only [List.dropWhile_cons, List.filter_cons, small, differs, decide_true, if_true]
      exact ih ordered
    · simp only [List.dropWhile_cons, small, decide_false]
      have large : ¬ n.toList < start := by
        rwa [String.lt_iff, String.toList_ofList] at small
      refine takeWhile_eq_filter increasing fun m member => ?_
      rcases List.mem_cons.1 member with rfl | later
      · exact large
      · exact fun less => large ((String.lt_iff.1 (first m later)).trans less)

theorem pathsBelow_eq_filter (t : FileTree) (dir : String) :
    t.pathsBelow dir = t.files.names.filter fun n => (lead dir).isPrefixOf n.toList :=
  range_eq_filter (lead dir) t.files.names_ordered

theorem mem_pathsBelow {t : FileTree} {dir path : String} :
    path ∈ t.pathsBelow dir ↔ path ∈ t.files.names ∧ lead dir <+: path.toList := by
  rw [pathsBelow_eq_filter, List.mem_filter, List.isPrefixOf_iff_prefix]

@[simp] theorem lead_empty : lead "" = [] := rfl

theorem lead_of_ne {dir : String} (nonempty : dir ≠ "") : lead dir = dir.toList ++ ['/'] :=
  if_neg nonempty

theorem lead_prefix_iff {dir path : String} (nonempty : dir ≠ "") :
    lead dir <+: path.toList ↔ ∃ rest, path.toList = dir.toList ++ '/' :: rest := by
  rw [lead_of_ne nonempty]
  constructor
  · rintro ⟨rest, cut⟩
    exact ⟨rest, by simpa using cut.symm⟩
  · rintro ⟨rest, cut⟩
    exact ⟨rest, by simp [cut]⟩

theorem isFile_iff {t : FileTree} {path : String} : t.isFile path = true ↔ path ∈ t.files.names :=
  Table.mem_names_iff_contains.symm

/-- A path exists as a file or as a directory with a file below it. -/
theorem holds_iff {t : FileTree} {path : String} :
    t.holds path = true ↔ path ∈ t.files.names ∨ ∃ file ∈ t.files.names,
      lead path <+: file.toList := by
  unfold holds
  rw [Bool.or_eq_true, isFile_iff, Bool.not_eq_true', List.isEmpty_eq_false_iff]
  refine or_congr_right ?_
  rw [List.ne_nil_iff_exists_cons]
  constructor
  · rintro ⟨file, rest, cut⟩
    exact ⟨file, mem_pathsBelow.1 (cut ▸ List.mem_cons_self)⟩
  · rintro ⟨file, found⟩
    exact List.ne_nil_iff_exists_cons.1 (List.ne_nil_of_mem (mem_pathsBelow.2 found))

/-- A path is free if it is no file and no file lies below it. -/
theorem holds_eq_false_iff {t : FileTree} {path : String} (nonempty : path ≠ "") :
    t.holds path = false ↔
      path ∉ t.files.names ∧ ∀ file ∈ t.files.names, (below? path file).isSome = false := by
  simp only [← Bool.not_eq_true, holds_iff, lead_prefix_iff nonempty, Path.isSome_below?_iff,
    not_or, not_exists, not_and]

theorem childNames_ordered (t : FileTree) (dir : String) : (t.childNames dir).Pairwise (· < ·) :=
  Names.ofList_ordered _

theorem mem_childNames {t : FileTree} {dir name : String} :
    name ∈ t.childNames dir ↔
      ∃ rest, String.ofList (lead dir ++ rest) ∈ t.files.names ∧ rest.takeWhile
        (· ≠ '/') = name.toList := by
  unfold childNames
  rw [Names.mem_ofList, List.mem_map]
  constructor
  · rintro ⟨path, member, rfl⟩
    obtain ⟨file, rest, cut⟩ := mem_pathsBelow.1 member
    refine ⟨rest, by rwa [cut, String.ofList_toList], ?_⟩
    simp [childName, ← cut]
  · rintro ⟨rest, file, first⟩
    refine ⟨_, mem_pathsBelow.2 ⟨file, by simp⟩, ?_⟩
    rw [← String.toList_inj, ← first]
    simp [childName]

/-! ## What a change does to the paths -/

@[simp] theorem names_write (t : FileTree) (path text : String) :
    (t.write path text).files.names = Names.insert path t.files.names :=
  t.files.names_insert path text

theorem names_delete (t : FileTree) (path : String) :
    (t.delete path).files.names = t.files.names.filter (· ≠ path) := by
  unfold delete
  split
  next file => exact t.files.names_erase path
  next noFile =>
    refine (List.filter_eq_self.2 fun other member => ?_).symm
    simpa using fun equal : other = path => noFile (isFile_iff.2 (equal ▸ member))

theorem mem_names_delete {t : FileTree} {path other : String} :
    other ∈ (t.delete path).files.names ↔ other ≠ path ∧ other ∈ t.files.names := by
  rw [names_delete]
  simp [and_comm]

@[simp] theorem text?_write (t : FileTree) (path text other : String) :
    (t.write path text).text? other = if path = other then some text else t.text? other :=
  Table.get?_insert t.files path other text

theorem text?_eq_none_iff {t : FileTree} {path : String} :
    t.text? path = none ↔ t.isFile path = false := by
  simp [text?, isFile, Table.contains]

theorem isFile_eq_isSome (t : FileTree) (path : String) :
    t.isFile path = (t.text? path).isSome := rfl

@[simp] theorem text?_delete (t : FileTree) (path other : String) :
    (t.delete path).text? other = if path = other then none else t.text? other := by
  unfold delete
  split
  next file => exact Table.get?_erase t.files path other
  next noFile =>
    split
    next equal => exact equal ▸ text?_eq_none_iff.2 (by simpa using noFile)
    · rfl

/-! ## Trees that a file system can hold -/

/-- All paths are canonical, and no file lies below another one. -/
structure IsRealizable (t : FileTree) : Prop where
  canonical : ∀ path ∈ t.files.names, IsCanonical path
  prefixFree : ∀ path ∈ t.files.names, ∀ other ∈ t.files.names, (below? path other).isSome = false

instance (t : FileTree) : Decidable t.IsRealizable :=
  decidable_of_iff
    ((∀ path ∈ t.files.names, IsCanonical path) ∧
      ∀ path ∈ t.files.names, ∀ other ∈ t.files.names, (below? path other).isSome = false)
    ⟨fun h => ⟨h.1, h.2⟩, fun h => ⟨h.1, h.2⟩⟩

namespace IsRealizable

variable {t : FileTree}

/-- Nothing lies below a file. -/
theorem not_below (h : t.IsRealizable) {path : String} {rest : List Char}
    (file : path ∈ t.files.names)
    (other : String.ofList (path.toList ++ '/' :: rest) ∈ t.files.names) : False := by
  have no := h.prefixFree path file _ other
  rw [Path.isSome_below?_iff.2 ⟨rest, by simp⟩] at no
  cases no

/-- Only the paths matter. -/
theorem of_names {u : FileTree} (h : t.IsRealizable)
    (fewer : ∀ p ∈ u.files.names, p ∈ t.files.names) :
    u.IsRealizable :=
  ⟨fun p file => h.canonical p (fewer p file),
    fun p file q other => h.prefixFree p (fewer p file) q (fewer q other)⟩

theorem delete (h : t.IsRealizable) (path : String) : (t.delete path).IsRealizable :=
  h.of_names fun _ member => (mem_names_delete.1 member).2

end IsRealizable

end Rehome.FileTree
