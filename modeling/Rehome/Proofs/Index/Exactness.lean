import Rehome.Proofs.Index.Scan
import Rehome.Proofs.Path.Reaching
import Rehome.Proofs.Files.Lookup

/-!
# Scans are exact

A scan takes up directories until none waits, and each one that it takes up may add others. In a
tree of clean paths the waiting directories run out, and what was found by then is what belongs below
the root: leaving directories out by their names on the way comes to the same as judging each path by
itself.
-/
namespace Rehome

/-! ## Files that belong below a root -/

namespace ScanSettings

/-- A source file strictly below a root, with no hidden or ignored directory between the two. -/
def Admits (s : ScanSettings) (root path : String) : Prop :=
  ∃ dirs name, (∀ part ∈ dirs ++ [name], part ≠ "" ∧ '/' ∉ part.toList) ∧
    path = FileTree.front root ++ String.intercalate "/" (dirs ++ [name]) ∧
    s.isSource path = true ∧ ∀ dir ∈ dirs, dir.toList.head? ≠ some '.' ∧ dir ∉ s.ignored

theorem skips_eq_false_iff {s : ScanSettings} {name : String} :
    s.skips name = false ↔ name.toList.head? ≠ some '.' ∧ name ∉ s.ignored := by
  simp [skips]

@[simp] theorem isSource_empty (s : ScanSettings) : s.isSource "" = false := rfl

/-- The names between slashes, the last one apart, are the directories on the way. -/
theorem opens_intercalate (s : ScanSettings) {dirs : List String} {name : String}
    (absent : ∀ part ∈ dirs ++ [name], '/' ∉ part.toList) :
    s.opens (String.intercalate "/" (dirs ++ [name])).toList = true ↔
      ∀ dir ∈ dirs, s.skips dir = false := by
  have parts : (String.intercalate "/" (dirs ++ [name])).toList.splitOn '/' =
      (dirs ++ [name]).map String.toList := by
    rw [String.toList_intercalate]
    refine List.splitOn_intercalate '/' ?_ (by simp)
    rintro _ member
    obtain ⟨part, inside, rfl⟩ := List.mem_map.1 member
    exact absent part inside
  rw [opens, parts, List.map_append, List.map_singleton, List.dropLast_concat]
  simp

/-- A path in which something stands before and after every slash consists of names. -/
theorem exists_names {rest : List Char} (solid : Path.AreSolid rest) :
    ∃ dirs name, (∀ part ∈ dirs ++ [name], part ≠ "" ∧ '/' ∉ part.toList) ∧
      rest = (String.intercalate "/" (dirs ++ [name])).toList := by
  have nonempty : (rest.splitOn '/').map String.ofList ≠ [] := by simp [List.splitOn_ne_nil]
  obtain ⟨dirs, name, cut⟩ := (List.eq_nil_or_concat _).resolve_left nonempty
  refine ⟨dirs, name, ?_, ?_⟩ <;> rw [← List.concat_eq_append, ← cut]
  · rintro _ member
    obtain ⟨chars, inside, rfl⟩ := List.mem_map.1 member
    refine ⟨fun empty => solid chars inside (by simpa using empty), fun slash => ?_⟩
    exact (Path.char_of_piece inside (by simpa using slash)).2 rfl
  · rw [String.toList_intercalate, List.map_map]
    simp [Function.comp_def]

@[simp] theorem lists_empty (s : ScanSettings) (root : String) : s.lists root "" = false := by
  unfold lists
  dsimp only
  split
  · rfl
  · simp

/-- A clean path that is judged at once is listed in exactly this case. -/
theorem lists_iff_admits (s : ScanSettings) {root path : String}
    (clean : Path.normalize? path = some path) :
    s.lists root path = true ↔ s.Admits root path := by
  rcases Path.normalize?_eq_self_iff.1 clean with rfl | canonical
  · simp [Admits]
  · have solid : ∀ rest, path.toList = FileTree.lead root ++ rest → Path.AreSolid rest := by
      intro rest cut
      have whole : Path.AreSolid path.toList := canonical.solid
      exact FileTree.solid_rest (cut ▸ whole)
    rw [s.lists_iff solid]
    constructor
    · rintro ⟨rest, cut, source, isOpen⟩
      obtain ⟨dirs, name, parts, rfl⟩ := exists_names (solid rest cut)
      refine ⟨dirs, name, parts, ?_, source, fun dir member => skips_eq_false_iff.1 ?_⟩
      · rw [← String.toList_inj, cut, String.toList_append, FileTree.toList_front]
      · exact (s.opens_intercalate fun part inside => (parts part inside).2).1 isOpen dir member
    · rintro ⟨dirs, name, parts, spelled, source, entered⟩
      refine ⟨(String.intercalate "/" (dirs ++ [name])).toList, ?_, source, ?_⟩
      · rw [spelled, String.toList_append, FileTree.toList_front]
      · exact (s.opens_intercalate fun part inside => (parts part inside).2).2
          fun dir member => skips_eq_false_iff.2 (entered dir member)

end ScanSettings

/-! ## A file with the empty path -/

namespace FileTree

variable {t : FileTree}

/-- Without the empty path, which cleaning leaves alone, a tree of clean paths can be stored. -/
theorem isRealizable_delete_empty
    (clean : ∀ path ∈ t.files.names, Path.normalize? path = some path)
    (apart : ∀ path ∈ t.files.names, ∀ other ∈ t.files.names, Path.below? path other = none) :
    (t.delete "").IsRealizable := by
  refine ⟨fun path file => ?_, fun path file other file' => ?_⟩
  · obtain ⟨nonempty, member⟩ := mem_names_delete.1 file
    exact (Path.normalize?_eq_self_iff.1 (clean path member)).resolve_left nonempty
  · rw [apart path (mem_names_delete.1 file).2 other (mem_names_delete.1 file').2]
    rfl

theorem isFile_delete_empty {path : String} (nonempty : path ≠ "") :
    (t.delete "").isFile path = t.isFile path := by
  rw [isFile_eq_isSome, isFile_eq_isSome, text?_delete, if_neg nonempty.symm]

/-- Only in the workspace itself, and only as an empty name, does the empty path show. -/
theorem mem_childNames_delete_empty {dir name : String} (nonempty : Path.join dir name ≠ "") :
    name ∈ (t.delete "").childNames dir ↔ name ∈ t.childNames dir := by
  simp only [mem_childNames_iff_search]
  have here : front dir ++ name ≠ "" := fun empty => by
    obtain ⟨front_nil, rfl⟩ := String.append_eq_empty_iff.1 empty
    have dir_nil : dir = "" := by
      by_contra other
      simp [front_of_ne other] at front_nil
    exact nonempty (by simp [dir_nil, Path.join])
  rw [isFile_delete_empty here]
  refine and_congr_right fun _ => or_congr_right (exists_congr fun rest => ?_)
  rw [isFile_delete_empty fun empty => here (String.append_eq_empty_iff.1
    (String.append_eq_empty_iff.1 empty).1).1]

/-- The file with the empty path has no part in a choice of names that leaves its name out. -/
theorem filter_childNames_delete_empty {dir : String} {p q : String → Bool}
    (same : ∀ name, Path.join dir name ≠ "" → p name = q name)
    (without : ∀ name ∈ (t.delete "").childNames dir, Path.join dir name = "" → p name = false)
    (unchosen : ∀ name ∈ t.childNames dir, Path.join dir name = "" → q name = false) :
    ((t.delete "").childNames dir).filter p = (t.childNames dir).filter q := by
  refine Names.eq_of_increasing (((t.delete "").childNames_ordered dir).filter _)
    ((t.childNames_ordered dir).filter _) fun name => ?_
  rw [List.mem_filter, List.mem_filter]
  by_cases empty : Path.join dir name = ""
  · refine iff_of_false ?_ ?_
    · rintro ⟨child, chosen⟩
      simp [without name child empty] at chosen
    · rintro ⟨child, chosen⟩
      simp [unchosen name child empty] at chosen
  · rw [mem_childNames_delete_empty empty, same name empty]

/-- A scan does not see the empty path: it is no source file. -/
theorem filesIn_delete_empty (s : ScanSettings) (dir : String) :
    (t.delete "").filesIn s dir = t.filesIn s dir := by
  unfold filesIn
  rw [filter_childNames_delete_empty]
  · intro name nonempty
    rw [isFile_delete_empty nonempty]
  · intro name _ empty
    simp [empty]
  · intro name _ empty
    simp [empty]

/-- Nor is it a directory. A second file that gave an empty name would not be clean. -/
theorem dirsIn_delete_empty (solid : ∀ dir, (t.delete "").IsSolidBelow dir) (s : ScanSettings)
    (dir : String) : (t.delete "").dirsIn s dir = t.dirsIn s dir := by
  unfold dirsIn
  rw [filter_childNames_delete_empty]
  · intro name nonempty
    rw [isFile_delete_empty nonempty]
  · intro name child empty
    exact absurd empty (join_ne_empty (solid dir) child)
  · intro name child empty
    by_cases file : t.isFile "" = true
    · simp [empty, file]
    · have same : t.delete "" = t := if_neg file
      exact absurd empty (join_ne_empty (solid dir) (by rwa [same]))

theorem directories_delete_empty (t : FileTree) : (t.delete "").directories = t.directories := by
  unfold directories
  rw [names_delete]
  induction t.files.names with
  | nil => rfl
  | cons name rest ih =>
    by_cases empty : name = ""
    · simpa [empty, Path.ancestors, Path.frontsFrom] using ih
    · simpa [empty] using ih

theorem listed_delete_empty (t : FileTree) (s : ScanSettings) (root : String) :
    (t.delete "").listed s root = t.listed s root := by
  unfold listed
  rw [names_delete, List.filter_filter]
  refine List.filter_congr fun path _ => ?_
  by_cases empty : path = "" <;> simp [empty]

end FileTree

/-! ## Scans of clean paths -/

namespace Index

open FileTree Worklist

/-- The waiting directories run out within the bound of a scan, and then all files that are listed
have been found. -/
theorem scan_of_clean {i : Index} (root : String)
    (clean : ∀ path ∈ i.tree.files.names, Path.normalize? path = some path)
    (apart : ∀ path ∈ i.tree.files.names, ∀ other ∈ i.tree.files.names,
      Path.below? path other = none) :
    ∃ n, (next^[n] (start i root)).pending = [] ∧
      i.scan root = (Names.sort (next^[n] (start i root)).found, (next^[n] (start i root)).index) ∧
      Names.sort (next^[n] (start i root)).found = i.tree.listed i.settings root := by
  -- The empty path is clean but no path of a file system, so the scan is followed without it.
  let j : Index := { i with tree := i.tree.delete "" }
  have real : j.tree.IsRealizable := isRealizable_delete_empty clean apart
  have solid : ∀ dir, j.tree.IsSolidBelow dir := real.isClean.solidBelow
  have alike : Alike (start i root) (start j root) :=
    ⟨fun dir => (filesIn_delete_empty i.settings dir).symm,
      fun dir => (dirsIn_delete_empty solid i.settings dir).symm, rfl, rfl⟩
  obtain ⟨n, rounds, emptied⟩ := exists_rounds j ((solid root).isPassable j.settings)
  have alike_n := alike.iterate n
  have emptied' : (next^[n] (start i root)).pending = [] := alike_n.pending.trans emptied
  have listed := j.scan_eq_listed real root
  rw [scan_eq_of_empty (rounds.trans j.tree.length_directories_lt) emptied,
    listed_delete_empty] at listed
  rw [directories_delete_empty] at rounds
  refine ⟨n, emptied', scan_eq_of_empty (rounds.trans i.tree.length_directories_lt) emptied', ?_⟩
  rw [alike_n.found]
  exact listed

/-- In a tree of clean paths in which no file lies below another one, the list of waiting directories
runs empty, for every root and all settings. The scan then gives, in strictly increasing order,
exactly the files that belong below the root: source files strictly below it, with no hidden or
ignored directory on the way. -/
theorem scan_runs_out_exactly (i : Index) (root : String)
    (clean : ∀ path ∈ i.tree.files.names, Path.normalize? path = some path)
    (apart : ∀ path ∈ i.tree.files.names, ∀ other ∈ i.tree.files.names,
      Path.below? path other = none) :
    (∃ n, (next^[n] (start i root)).pending = [] ∧
      i.scan root =
        (Names.sort (next^[n] (start i root)).found, (next^[n] (start i root)).index)) ∧
      (i.scan root).1.Pairwise (fun a b => Text.bytes a < Text.bytes b) ∧
      (∀ path, path ∈ (i.scan root).1 ↔
        i.tree.isFile path = true ∧ i.settings.lists root path = true) ∧
      ∀ path, path ∈ (i.scan root).1 ↔
        i.tree.isFile path = true ∧ i.settings.Admits root path := by
  obtain ⟨n, emptied, scanned, listed⟩ := scan_of_clean root clean apart
  have exact_list : (i.scan root).1 = i.tree.listed i.settings root := by rw [scanned, listed]
  have members : ∀ path, path ∈ (i.scan root).1 ↔
      i.tree.isFile path = true ∧ i.settings.lists root path = true := fun path => by
    rw [exact_list, mem_listed, isFile_iff]
  refine ⟨⟨n, emptied, scanned⟩, ?_, members, fun path => (members path).trans ?_⟩
  · rw [exact_list]
    exact (listed_ordered _ _ _).imp Text.bytes_lt_iff.2
  · refine and_congr_right fun file => i.settings.lists_iff_admits ?_
    exact clean path (isFile_iff.1 file)

/-- Hidden, ignored and neighbouring directories are left out, and so is a file with the empty
path. -/
theorem scan_runs_out_below_folder :
    let i := new (FileTree.ofList [("", ""), ("a/.cache/z.ts", ""), ("a/dist/x.js", ""),
      ("a/notes.md", ""), ("a/src/dist.ts", ""), ("ab/y.ts", "")]) (.standard 1)
    (∀ path ∈ i.tree.files.names, Path.normalize? path = some path) ∧
      (∀ path ∈ i.tree.files.names, ∀ other ∈ i.tree.files.names,
        Path.below? path other = none) ∧
      (∃ n, (next^[n] (start i "a")).pending = [] ∧
        i.scan "a" = (Names.sort (next^[n] (start i "a")).found, (next^[n] (start i "a")).index)) ∧
      (i.scan "a").1 = ["a/src/dist.ts"] ∧ i.settings.Admits "a" "a/src/dist.ts" ∧
      ¬ i.settings.Admits "a" "a/dist/x.js" := by
  intro i
  have clean : ∀ path ∈ i.tree.files.names, Path.normalize? path = some path := by decide +kernel
  have apart : ∀ path ∈ i.tree.files.names, ∀ other ∈ i.tree.files.names,
      Path.below? path other = none := by decide +kernel
  have listed : (i.scan "a").1 = ["a/src/dist.ts"] := by decide +kernel
  have ignored : i.tree.isFile "a/dist/x.js" = true := by decide +kernel
  obtain ⟨rounds, -, -, members⟩ := scan_runs_out_exactly i "a" clean apart
  refine ⟨clean, apart, rounds, listed, ?_, fun admitted => ?_⟩
  · exact ((members "a/src/dist.ts").1 (by rw [listed]; simp)).2
  · have found := (members "a/dist/x.js").2 ⟨ignored, admitted⟩
    rw [listed] at found
    simp at found

end Index
end Rehome
