import Rehome.Proofs.Files.Directories
import Rehome.Proofs.Text.Order

/-!
# Looking directories up

A tree answers questions about a directory from one stretch of its ordered names, where a plain
search would compare the directory with every path. Both find the same for paths of any spelling,
also for paths with empty segments and for directories that no file lies in.
-/
namespace Rehome.FileTree

/-- What a plain search takes off the paths below a directory: nothing for the workspace itself. -/
def front (dir : String) : String := if dir = "" then "" else dir ++ "/"

@[simp] theorem front_empty : front "" = "" := rfl

theorem front_of_ne {dir : String} (nonempty : dir ≠ "") : front dir = dir ++ "/" := if_neg nonempty

theorem toList_front (dir : String) : (front dir).toList = lead dir := by
  by_cases empty : dir = ""
  · simp [empty]
  · simp [front_of_ne empty, lead_of_ne empty]

theorem lead_prefix_iff_front {dir path : String} :
    lead dir <+: path.toList ↔ ∃ rest, path = front dir ++ rest := by
  rw [← toList_front]
  constructor
  · rintro ⟨rest, cut⟩
    exact ⟨String.ofList rest, by rw [← String.toList_inj, ← cut]; simp⟩
  · rintro ⟨rest, rfl⟩
    exact ⟨rest.toList, by simp⟩

/-- A path exists if it is a file, if a file stands behind it and a slash, or if it is the workspace
and that has files. -/
theorem holds_iff_search {t : FileTree} {dir : String} :
    t.holds dir = true ↔
      t.isFile dir = true ∨ (∃ rest, t.isFile (dir ++ "/" ++ rest) = true) ∨
        dir = "" ∧ ∃ file, t.isFile file = true := by
  simp only [holds_iff, lead_prefix_iff_front, isFile_iff]
  refine or_congr_right ?_
  by_cases empty : dir = ""
  · subst empty
    simp only [front_empty, String.empty_append, exists_eq', and_true, true_and]
    constructor
    · exact .inr
    · rintro (⟨rest, file⟩ | found)
      · exact ⟨_, file⟩
      · exact found
  · simp only [front_of_ne empty, empty, false_and, or_false]
    constructor
    · rintro ⟨file, member, rest, rfl⟩
      exact ⟨rest, member⟩
    · rintro ⟨rest, member⟩
      exact ⟨_, member, rest, rfl⟩

/-- The first name of what is left of a path is the name before the first slash. -/
theorem takeWhile_eq_iff {rest name : List Char} :
    rest.takeWhile (· ≠ '/') = name ↔
      '/' ∉ name ∧ (rest = name ∨ ∃ more, rest = name ++ '/' :: more) := by
  constructor
  · rintro rfl
    rcases Path.first_name rest with ⟨absent, whole⟩ | ⟨more, cut, absent⟩
    · rw [whole]
      exact ⟨absent, .inl rfl⟩
    · exact ⟨absent, .inr ⟨more, cut⟩⟩
  · rintro ⟨absent, rfl | ⟨more, rfl⟩⟩
    · rcases Path.first_name rest with ⟨-, whole⟩ | ⟨more, cut, -⟩
      · exact whole
      · rw [cut] at absent
        simp at absent
    · exact Path.takeWhile_name absent

/-- A name without a slash stands in a directory if a file has this name there, or stands behind it
and a slash. -/
theorem mem_childNames_iff_search {t : FileTree} {dir name : String} :
    name ∈ t.childNames dir ↔
      '/' ∉ name.toList ∧ (t.isFile (front dir ++ name) = true ∨
        ∃ rest, t.isFile (front dir ++ name ++ "/" ++ rest) = true) := by
  simp only [mem_childNames, takeWhile_eq_iff, isFile_iff]
  have spelled : ∀ rest, String.ofList (lead dir ++ rest) = front dir ++ String.ofList rest :=
    fun rest => by rw [← String.toList_inj]; simp [toList_front]
  constructor
  · rintro ⟨rest, file, absent, rfl | ⟨more, rfl⟩⟩
    · rw [spelled, String.ofList_toList] at file
      exact ⟨absent, .inl file⟩
    · refine ⟨absent, .inr ⟨String.ofList more, ?_⟩⟩
      rw [spelled] at file
      convert file using 1
      rw [← String.toList_inj]
      simp
  · rintro ⟨absent, file | ⟨rest, file⟩⟩
    · exact ⟨name.toList, by rwa [spelled, String.ofList_toList], absent, .inl rfl⟩
    · refine ⟨name.toList ++ '/' :: rest.toList, ?_, absent, .inr ⟨_, rfl⟩⟩
      rw [spelled]
      convert file using 1
      rw [← String.toList_inj]
      simp

/-- For any files and any directory, the stretch of names holds every path below the directory. A
path is found to exist, and names are found in the directory, in strictly increasing order of their
bytes, exactly when comparing with every path finds them. -/
theorem lookups_match_plain_search (t : FileTree) (dir : String) :
    t.pathsBelow dir =
        t.files.names.filter (fun path => (front dir).toList.isPrefixOf path.toList) ∧
      ((t.askExists dir).1 = true ↔
        t.isFile dir = true ∨ (∃ rest, t.isFile (dir ++ "/" ++ rest) = true) ∨
          dir = "" ∧ ∃ file, t.isFile file = true) ∧
      (t.askChildren dir).1.Pairwise (fun a b => Text.bytes a < Text.bytes b) ∧
      ∀ name, name ∈ (t.askChildren dir).1 ↔
        '/' ∉ name.toList ∧ (t.isFile (front dir ++ name) = true ∨
          ∃ rest, t.isFile (front dir ++ name ++ "/" ++ rest) = true) := by
  refine ⟨?_, holds_iff_search, ?_, fun name => mem_childNames_iff_search⟩
  · rw [toList_front]
    exact t.pathsBelow_eq_filter dir
  · exact (t.childNames_ordered dir).imp Text.bytes_lt_iff.2

end Rehome.FileTree
