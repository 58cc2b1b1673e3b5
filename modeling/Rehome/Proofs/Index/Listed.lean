import Rehome.Index.Basic
import Rehome.Proofs.Files.Directories

/-!
# Which files are listed below a root

`ScanSettings.lists` judges a path at once: it lies below the root, it is a source file, and no
directory on the way is skipped. A scan meets the same directories one at a time. What is listed
below a directory is therefore divided here the way a scan divides it: the files in the directory
itself, and what is listed below each directory that is entered.
-/
namespace Rehome

open Rehome.Path (AreSolid IsSolid IsCanonical)

namespace ScanSettings

/-- No directory on the way through these characters is skipped. -/
def opens (s : ScanSettings) (rest : List Char) : Bool :=
  (rest.splitOn '/').dropLast.all fun name => !s.skips (String.ofList name)

theorem opens_of_no_slash (s : ScanSettings) {rest : List Char} (absent : '/' ∉ rest) :
    s.opens rest = true := by
  simp [opens, List.splitOn_eq_singleton absent]

theorem opens_append (s : ScanSettings) {name rest : List Char} (absent : '/' ∉ name) :
    s.opens (name ++ '/' :: rest) = (!s.skips (String.ofList name) && s.opens rest) := by
  have cut : (name ++ '/' :: rest).splitOn '/' = name :: rest.splitOn '/' :=
    List.splitOn_append_cons_self_of_not_mem absent rest
  rw [opens, cut, List.dropLast_cons_of_ne_nil (List.splitOn_ne_nil _ _)]
  rfl

/-- The directory of a solid path is open exactly when every directory name in it is. -/
theorem dirname_opens (s : ScanSettings) {rest : String} (solid : IsSolid rest) :
    (decide (Path.dirname rest = "") ||
        ((Path.dirname rest).toList.splitOn '/').all fun name => !s.skips (String.ofList name)) =
      s.opens rest.toList := by
  cases cut : Text.splitLast? '/' rest.toList with
  | none =>
    have absent := Text.splitLast?_eq_none_iff.1 cut
    simp [Path.dirname, cut, opens_of_no_slash s absent]
  | some parts =>
    obtain ⟨front, back⟩ := parts
    obtain ⟨whole, absent⟩ := Text.splitLast?_eq_some_iff.1 cut
    have nonempty : front ≠ [] := by
      unfold IsSolid at solid
      rw [whole, Path.areSolid_append] at solid
      exact solid.1.ne_nil
    have dir : Path.dirname rest = String.ofList front := by simp [Path.dirname, cut]
    rw [dir, opens, whole, List.splitOn_append_cons_self, List.splitOn_eq_singleton absent,
      List.dropLast_concat]
    simp [nonempty]

/-- A file is listed below a root when it is a source file there and the way to it is open. -/
theorem lists_iff (s : ScanSettings) {root path : String}
    (solid : ∀ rest, path.toList = FileTree.lead root ++ rest → AreSolid rest) :
    s.lists root path = true ↔
      ∃ rest, path.toList = FileTree.lead root ++ rest ∧ s.isSource path = true ∧
        s.opens rest = true := by
  unfold lists
  by_cases empty : root = ""
  · have whole : IsSolid path := solid path.toList (by simp [empty])
    have dir := dirname_opens s whole
    simp only [empty, if_true, FileTree.lead_empty, List.nil_append, Bool.and_eq_true, dir]
    simp [whole.ne_empty]
  · simp only [empty, if_false, FileTree.lead_of_ne empty]
    cases below : Path.below? root path with
    | none =>
      simp only [Bool.false_eq_true, false_iff]
      rintro ⟨rest, cut, -⟩
      have found : Path.below? root path = some (String.ofList rest) :=
        Path.below?_eq_some_iff.2 (by simpa using cut)
      rw [below] at found
      cases found
    | some rest =>
      have cut := Path.below?_eq_some_iff.1 below
      have rest_solid : IsSolid rest := solid rest.toList (by simp [FileTree.lead_of_ne empty, cut])
      have differs : path ≠ root := fun equal => by
        rw [equal] at cut
        simpa using congrArg List.length cut
      simp only [Bool.and_eq_true, dirname_opens s rest_solid, decide_eq_true_eq, ne_eq,
        differs, not_false_eq_true, true_and]
      constructor
      · rintro ⟨source, isOpen⟩
        exact ⟨rest.toList, by simpa using cut, source, isOpen⟩
      · rintro ⟨other, cut', source, isOpen⟩
        have equal : rest.toList = other := by simpa [cut] using cut'
        exact ⟨source, equal ▸ isOpen⟩

end ScanSettings

namespace FileTree

/-- The files of a tree that are listed below a root. -/
def listed (t : FileTree) (s : ScanSettings) (root : String) : List String :=
  t.files.names.filter (s.lists root)

theorem listed_ordered (t : FileTree) (s : ScanSettings) (root : String) :
    (t.listed s root).Pairwise (· < ·) := t.files.names_ordered.filter _

theorem mem_listed {t : FileTree} {s : ScanSettings} {root path : String} :
    path ∈ t.listed s root ↔ path ∈ t.files.names ∧ s.lists root path = true := List.mem_filter

/-- Every path of the tree is canonical. -/
def IsClean (t : FileTree) : Prop := ∀ path ∈ t.files.names, IsCanonical path

instance (t : FileTree) : Decidable t.IsClean :=
  inferInstanceAs (Decidable (∀ path ∈ t.files.names, IsCanonical path))

/-- Below a root, another file stands where the way to a path needs a directory. -/
def hides (t : FileTree) (root path : String) : Bool :=
  t.files.names.any fun file =>
    (lead root).isPrefixOf file.toList && (lead file).isPrefixOf path.toList

/-- The files that are listed below a root and that a walk through directories comes to. -/
def reached (t : FileTree) (s : ScanSettings) (root : String) : List String :=
  t.files.names.filter fun path => s.lists root path && !t.hides root path

theorem reached_ordered (t : FileTree) (s : ScanSettings) (root : String) :
    (t.reached s root).Pairwise (· < ·) := t.files.names_ordered.filter _

theorem mem_reached {t : FileTree} {s : ScanSettings} {root path : String} :
    path ∈ t.reached s root ↔ path ∈ t.files.names ∧ s.lists root path = true ∧
      t.hides root path = false := by
  simp [reached]

theorem hides_eq_true_iff {t : FileTree} {root path : String} :
    t.hides root path = true ↔
      ∃ file ∈ t.files.names, lead root <+: file.toList ∧ lead file <+: path.toList := by
  simp [hides]

/-- What follows a directory in a solid path is solid. -/
theorem solid_rest {dir : String} {rest : List Char}
    (solid : AreSolid (lead dir ++ rest)) :
    AreSolid rest := by
  by_cases empty : dir = ""
  · simpa [empty] using solid
  · rw [lead_of_ne empty, List.append_assoc, List.singleton_append,
      Path.areSolid_append] at solid
    exact solid.2

/-- No file below a directory has an empty segment after it. A walk through other directories would
not end. -/
def IsSolidBelow (t : FileTree) (dir : String) : Prop :=
  ∀ path ∈ t.files.names, (lead dir).isPrefixOf path.toList = true →
    AreSolid (path.toList.drop (lead dir).length)

instance (t : FileTree) (dir : String) : Decidable (t.IsSolidBelow dir) :=
  inferInstanceAs (Decidable (∀ path ∈ t.files.names, (lead dir).isPrefixOf path.toList = true →
    ∀ s ∈ (path.toList.drop (lead dir).length).splitOn '/', s ≠ []))

theorem IsSolidBelow.rest {t : FileTree} {dir path : String} (h : t.IsSolidBelow dir)
    (file : path ∈ t.files.names) (rest : List Char) (cut : path.toList = lead dir ++ rest) :
    AreSolid rest := by
  have solid := h path file (List.isPrefixOf_iff_prefix.2 ⟨rest, cut.symm⟩)
  rwa [cut, List.drop_left] at solid

theorem IsSolidBelow.ne_empty {t : FileTree} {dir path : String} (h : t.IsSolidBelow dir)
    (file : path ∈ t.files.names) (below : lead dir <+: path.toList) : path ≠ "" := by
  rintro rfl
  obtain ⟨rest, cut⟩ := below
  obtain ⟨-, none⟩ := List.append_eq_nil_iff.1 cut
  exact (h.rest file rest cut.symm).ne_nil none

theorem IsSolidBelow.mono {t u : FileTree} {dir : String} (h : u.IsSolidBelow dir)
    (fewer : ∀ path ∈ t.files.names, path ∈ u.files.names) : t.IsSolidBelow dir :=
  fun path file => h path (fewer path file)

/-- What a canonical path adds to a directory has no empty segment. -/
theorem solid_of_canonical {dir path : String} (canonical : IsCanonical path)
    (starts : (lead dir).isPrefixOf path.toList = true) :
    AreSolid (path.toList.drop (lead dir).length) := by
  obtain ⟨rest, cut⟩ := List.isPrefixOf_iff_prefix.1 starts
  have solid : AreSolid (lead dir ++ rest) := cut ▸ canonical.solid
  rw [← cut, List.drop_left]
  exact solid_rest solid

/-- Canonical paths have no empty segments anywhere. -/
theorem IsClean.solidBelow {t : FileTree} (h : t.IsClean) (dir : String) : t.IsSolidBelow dir :=
  fun path file => solid_of_canonical (h path file)

theorem toList_join {dir name : String} (nonempty : name ≠ "") :
    (Path.join dir name).toList = lead dir ++ name.toList := by
  by_cases empty : dir = ""
  · simp [Path.join, empty]
  · simp [Path.join, empty, nonempty, lead_of_ne empty]

/-- A name in a directory: it is one segment, and below it stands a file, or it is one. -/
theorem child_spec {t : FileTree} {dir name : String} (h : t.IsSolidBelow dir)
    (child : name ∈ t.childNames dir) :
    '/' ∉ name.toList ∧ (Path.join dir name).toList = lead dir ++ name.toList ∧ name ≠ "" ∧
      (Path.join dir name ∈ t.files.names ∨
        ∃ rest, String.ofList ((Path.join dir name).toList ++ '/' :: rest) ∈ t.files.names) := by
  obtain ⟨rest, file, first⟩ := mem_childNames.1 child
  have solid : AreSolid rest := h.rest file rest String.toList_ofList
  rcases Path.first_name rest with ⟨absent, whole⟩ | ⟨below, cut, absent⟩
  · rw [first] at whole
    have nonempty : name ≠ "" := fun empty => solid.ne_nil (by simp [← whole, empty])
    refine ⟨whole ▸ absent, toList_join nonempty, nonempty, .inl ?_⟩
    rwa [← String.ofList_toList (s := Path.join dir name), toList_join nonempty, whole]
  · rw [first] at cut absent
    rw [cut, Path.areSolid_append] at solid
    have nonempty : name ≠ "" := fun empty => solid.1.ne_nil (by simp [empty])
    refine ⟨absent, toList_join nonempty, nonempty, .inr ⟨below, ?_⟩⟩
    rwa [toList_join nonempty, List.append_assoc, ← cut]

theorem join_ne_empty {t : FileTree} {dir name : String} (h : t.IsSolidBelow dir)
    (child : name ∈ t.childNames dir) : Path.join dir name ≠ "" := by
  obtain ⟨-, whole, nonempty, -⟩ := child_spec h child
  intro empty
  rw [empty] at whole
  exact nonempty (by simpa using (List.append_eq_nil_iff.1 whole.symm).2)

theorem IsSolidBelow.child {t : FileTree} {dir name : String} (h : t.IsSolidBelow dir)
    (child : name ∈ t.childNames dir) : t.IsSolidBelow (Path.join dir name) := by
  intro path file starts
  obtain ⟨rest, cut⟩ := List.isPrefixOf_iff_prefix.1 starts
  rw [← cut, List.drop_left]
  rw [lead_of_ne (join_ne_empty h child), (child_spec h child).2.1] at cut
  have solid : AreSolid (name.toList ++ '/' :: rest) := h.rest file _ (by simp [← cut])
  exact (Path.areSolid_append.1 solid).2

/-- No file stands in the way to what is in the directory itself. -/
theorem hides_child {t : FileTree} {dir name : String} (h : t.IsSolidBelow dir)
    (child : name ∈ t.childNames dir) :
    t.hides dir (Path.join dir name) = false := by
  obtain ⟨absent, joined, -, -⟩ := child_spec h child
  rw [← Bool.not_eq_true, hides_eq_true_iff]
  rintro ⟨file, member, ⟨rest, cut⟩, rest', cut'⟩
  rw [lead_of_ne (h.ne_empty member ⟨rest, cut⟩), joined, ← cut, List.append_assoc,
    List.append_assoc] at cut'
  rw [← List.append_cancel_left cut'] at absent
  simp at absent

/-- What hides a path further down is the directory, if it is a file, or something below it. -/
theorem hides_step {t : FileTree} {dir name path : String} {below : List Char}
    (h : t.IsSolidBelow dir)
    (child : name ∈ t.childNames dir)
    (parts : path.toList = (Path.join dir name).toList ++ '/' :: below) :
    t.hides dir path = true ↔ Path.join dir name ∈ t.files.names ∨ t.hides
      (Path.join dir name) path = true := by
  obtain ⟨absent, joined, -, -⟩ := child_spec h child
  have inner := lead_of_ne (join_ne_empty h child)
  simp only [hides_eq_true_iff]
  constructor
  · rintro ⟨file, member, ⟨rest, cut⟩, rest', cut'⟩
    have under : lead file = file.toList ++ ['/'] := lead_of_ne (h.ne_empty member ⟨rest, cut⟩)
    have tails : name.toList ++ '/' :: below = rest ++ '/' :: rest' := by
      rw [under, parts, joined, ← cut] at cut'
      simpa using cut'.symm
    have isChild : rest = name.toList → Path.join dir name ∈ t.files.names := fun equal => by
      have same : Path.join dir name = file := by rw [← String.toList_inj, joined, ← cut, equal]
      rwa [same]
    rcases List.append_eq_append_iff.1 tails with ⟨mid, whole, tail⟩ | ⟨mid, whole, tail⟩
    · cases mid with
      | nil => exact .inl (isChild (by simpa using whole))
      | cons m mid =>
        obtain ⟨rfl, -⟩ := List.cons.inj tail
        refine .inr ⟨file, member, ⟨mid, ?_⟩, rest', cut'⟩
        rw [inner, joined, ← cut, whole]
        simp
    · cases mid with
      | nil => exact .inl (isChild (by simpa using whole.symm))
      | cons m mid =>
        obtain ⟨rfl, -⟩ := List.cons.inj tail
        rw [whole] at absent
        simp at absent
  · rintro (member | ⟨file, member, ⟨rest, cut⟩, under⟩)
    · exact ⟨_, member, ⟨name.toList, joined.symm⟩, below, by rw [inner, parts]; simp⟩
    · refine ⟨file, member, ⟨name.toList ++ '/' :: rest, ?_⟩, under⟩
      rw [← cut, inner, joined]
      simp

/-- What a walk comes to below a directory is its own source files and what it comes to below the
directories in it that are entered. -/
theorem mem_reached_step {t : FileTree} {dir path : String} (h : t.IsSolidBelow dir)
    (s : ScanSettings) :
    path ∈ t.reached s dir ↔
      (∃ name ∈ t.childNames dir, path = Path.join dir name ∧ path ∈ t.files.names ∧
      s.isSource path = true) ∨
      ∃ name ∈ t.childNames dir, Path.join dir name ∉ t.files.names ∧ s.skips name = false ∧
        path ∈ t.reached s (Path.join dir name) := by
  constructor
  · intro member
    obtain ⟨file, lists, free⟩ := mem_reached.1 member
    obtain ⟨rest, cut, source, isOpen⟩ := (s.lists_iff (h.rest file)).1 lists
    have child : String.ofList (rest.takeWhile (· ≠ '/')) ∈ t.childNames dir :=
      mem_childNames.2 ⟨rest, by rwa [← cut, String.ofList_toList], by simp⟩
    obtain ⟨absent, joined, nonempty, -⟩ := child_spec h child
    rw [String.toList_ofList] at absent joined
    rcases Path.first_name rest with ⟨-, whole⟩ | ⟨below, split, -⟩
    · refine .inl ⟨_, child, ?_, file, source⟩
      rw [← String.toList_inj, joined, whole, cut]
    · rw [split, s.opens_append absent, Bool.and_eq_true, Bool.not_eq_true'] at isOpen
      have parts : path.toList =
          (Path.join dir (String.ofList (rest.takeWhile (· ≠ '/')))).toList ++ '/' :: below := by
        rw [joined, List.append_assoc, ← split, cut]
      obtain ⟨noFile, inner⟩ :=
        not_or.1 (mt (hides_step h child parts).2 (Bool.not_eq_true _ ▸ free))
      refine .inr ⟨_, child, noFile, isOpen.1, mem_reached.2 ⟨file, ?_, Bool.not_eq_true _ ▸ inner⟩⟩
      refine (s.lists_iff ((h.child child).rest file)).2 ⟨below, ?_, source, isOpen.2⟩
      rw [lead_of_ne (join_ne_empty h child), parts]
      simp
  · rintro (⟨name, child, rfl, file, source⟩ | ⟨name, child, noFile, enters, member⟩)
    · obtain ⟨absent, joined, -, -⟩ := child_spec h child
      exact mem_reached.2 ⟨file, (s.lists_iff (h.rest file)).2
        ⟨name.toList, joined, source, s.opens_of_no_slash absent⟩, hides_child h child⟩
    · obtain ⟨absent, joined, -, -⟩ := child_spec h child
      obtain ⟨file, lists, free⟩ := mem_reached.1 member
      obtain ⟨rest, cut, source, isOpen⟩ := (s.lists_iff ((h.child child).rest file)).1 lists
      rw [lead_of_ne (join_ne_empty h child)] at cut
      have parts : path.toList = (Path.join dir name).toList ++ '/' :: rest := by simpa using cut
      refine mem_reached.2 ⟨file, (s.lists_iff (h.rest file)).2
        ⟨name.toList ++ '/' :: rest, by rw [parts, joined]; simp, source, ?_⟩, ?_⟩
      · rw [s.opens_append absent, String.ofList_toList, enters, isOpen]
        rfl
      · rw [← Bool.not_eq_true, hides_step h child parts, not_or]
        exact ⟨noFile, Bool.not_eq_true _ ▸ free⟩

/-- The source files that stand in a directory itself. -/
def filesIn (t : FileTree) (s : ScanSettings) (dir : String) : List String :=
  ((t.childNames dir).filter fun name =>
    t.isFile (Path.join dir name) && s.isSource (Path.join dir name)).map (Path.join dir)

/-- The directories in a directory that are entered. -/
def dirsIn (t : FileTree) (s : ScanSettings) (dir : String) : List String :=
  ((t.childNames dir).filter fun name =>
    !t.isFile (Path.join dir name) && !s.skips name).map (Path.join dir)

theorem mem_filesIn {t : FileTree} {s : ScanSettings} {dir path : String} :
    path ∈ t.filesIn s dir ↔ ∃ name ∈ t.childNames dir,
      path = Path.join dir name ∧ path ∈ t.files.names ∧ s.isSource path = true := by
  simp only [filesIn, List.mem_map, List.mem_filter, Bool.and_eq_true, isFile_iff]
  constructor
  · rintro ⟨name, ⟨child, file, source⟩, rfl⟩
    exact ⟨name, child, rfl, file, source⟩
  · rintro ⟨name, child, rfl, file, source⟩
    exact ⟨name, ⟨child, file, source⟩, rfl⟩

theorem mem_dirsIn {t : FileTree} {s : ScanSettings} {dir path : String} :
    path ∈ t.dirsIn s dir ↔ ∃ name ∈ t.childNames dir,
      path = Path.join dir name ∧ path ∉ t.files.names ∧ s.skips name = false := by
  simp only [dirsIn, List.mem_map, List.mem_filter, Bool.and_eq_true, Bool.not_eq_true',
    ← Bool.not_eq_true, isFile_iff]
  constructor
  · rintro ⟨name, ⟨child, noFile, enters⟩, rfl⟩
    exact ⟨name, child, rfl, noFile, enters⟩
  · rintro ⟨name, child, rfl, noFile, enters⟩
    exact ⟨name, ⟨child, noFile, enters⟩, rfl⟩

theorem join_inj {t : FileTree} {dir name other : String} (h : t.IsSolidBelow dir)
    (child : name ∈ t.childNames dir) (child' : other ∈ t.childNames dir)
    (equal : Path.join dir name = Path.join dir other) : name = other := by
  have whole := (child_spec h child).2.1
  have whole' := (child_spec h child').2.1
  rw [equal, whole'] at whole
  exact String.toList_inj.1 (List.append_cancel_left whole).symm

/-- Two names in a directory have nothing below them in common, nor is one below the other. -/
theorem child_not_within {t : FileTree} {dir name other : String} {rest rest' : List Char}
    (h : t.IsSolidBelow dir) (child : name ∈ t.childNames dir) (child' : other ∈ t.childNames dir)
    (equal : (Path.join dir name).toList ++ '/' :: rest =
      (Path.join dir other).toList ++ '/' :: rest') :
    name = other := by
  obtain ⟨absent, whole, -, -⟩ := child_spec h child
  obtain ⟨absent', whole', -, -⟩ := child_spec h child'
  rw [whole, whole', List.append_assoc, List.append_assoc] at equal
  have cut := List.append_cancel_left equal
  rw [← String.toList_inj, ← Path.takeWhile_name absent, cut, Path.takeWhile_name absent']

theorem filesIn_nodup {t : FileTree} {dir : String} (h : t.IsSolidBelow dir) (s : ScanSettings) :
    (t.filesIn s dir).Nodup := by
  refine List.Nodup.map_on ?_ ((Names.nodup_of_increasing (t.childNames_ordered dir)).filter _)
  intro name member other member' equal
  exact join_inj h (List.mem_filter.1 member).1 (List.mem_filter.1 member').1 equal

/-- A file listed below a directory lies strictly below it. -/
theorem below_of_mem_reached {t : FileTree} {s : ScanSettings} {dir path : String}
    (h : t.IsSolidBelow dir) (nonempty : dir ≠ "") (member : path ∈ t.reached s dir) :
    ∃ rest, path.toList = dir.toList ++ '/' :: rest := by
  obtain ⟨file, lists, -⟩ := mem_reached.1 member
  obtain ⟨rest, cut, -, -⟩ := (s.lists_iff (h.rest file)).1 lists
  exact ⟨rest, by rw [cut, lead_of_ne nonempty]; simp⟩

theorem dirsIn_reached_nodup {t : FileTree} {dir : String} (h : t.IsSolidBelow dir)
    (s : ScanSettings) :
    ((t.dirsIn s dir).flatMap (t.reached s)).Nodup := by
  rw [List.nodup_flatMap]
  refine ⟨fun c _ => Names.nodup_of_increasing (t.reached_ordered s c), ?_⟩
  unfold dirsIn
  rw [List.pairwise_map]
  refine ((Names.nodup_of_increasing (t.childNames_ordered dir)).filter _).imp_of_mem ?_
  intro name other member member' differs path left right
  have child := (List.mem_filter.1 member).1
  have child' := (List.mem_filter.1 member').1
  obtain ⟨rest, cut⟩ := below_of_mem_reached (h.child child) (join_ne_empty h child) left
  obtain ⟨rest', cut'⟩ := below_of_mem_reached (h.child child') (join_ne_empty h child') right
  exact differs (child_not_within h child child' (cut.symm.trans cut'))

/-- One step of the walk divides what is listed below a directory. -/
theorem reached_perm {t : FileTree} {dir : String} (h : t.IsSolidBelow dir) (s : ScanSettings) :
    (t.filesIn s dir ++ (t.dirsIn s dir).flatMap (t.reached s)).Perm (t.reached s dir) := by
  have distinct : (t.filesIn s dir ++ (t.dirsIn s dir).flatMap (t.reached s)).Nodup := by
    refine List.nodup_append'.2 ⟨filesIn_nodup h s, dirsIn_reached_nodup h s, ?_⟩
    intro path left right
    obtain ⟨name, child, rfl, -, -⟩ := mem_filesIn.1 left
    obtain ⟨c, member, listed⟩ := List.mem_flatMap.1 right
    obtain ⟨other, child', rfl, noFile, -⟩ := mem_dirsIn.1 member
    obtain ⟨rest, cut⟩ := below_of_mem_reached (h.child child') (join_ne_empty h child') listed
    obtain ⟨absent, whole, -, -⟩ := child_spec h child
    rw [whole, (child_spec h child').2.1, List.append_assoc] at cut
    rw [List.append_cancel_left cut] at absent
    simp at absent
  refine (List.perm_ext_iff_of_nodup distinct
    (Names.nodup_of_increasing (t.reached_ordered s dir))).2 ?_
  intro path
  rw [mem_reached_step h, List.mem_append, mem_filesIn, List.mem_flatMap]
  refine or_congr_right ⟨?_, ?_⟩
  · rintro ⟨c, member, listed⟩
    obtain ⟨name, child, rfl, noFile, enters⟩ := mem_dirsIn.1 member
    exact ⟨name, child, noFile, enters, listed⟩
  · rintro ⟨name, child, noFile, enters, listed⟩
    exact ⟨_, mem_dirsIn.2 ⟨name, child, rfl, noFile, enters⟩, listed⟩

theorem IsRealizable.isClean {t : FileTree} (h : t.IsRealizable) : t.IsClean := h.canonical

/-- Where no file lies below another one, nothing is hidden. -/
theorem IsRealizable.hides_eq_false {t : FileTree} (h : t.IsRealizable) {path : String}
    (file : path ∈ t.files.names) (root : String) : t.hides root path = false := by
  rw [← Bool.not_eq_true, hides_eq_true_iff]
  rintro ⟨other, member, -, rest, cut⟩
  rw [lead_of_ne (h.canonical other member).ne_empty, List.append_assoc,
    List.singleton_append] at cut
  have inside : String.ofList (other.toList ++ '/' :: rest) ∈ t.files.names := by
    rwa [cut, String.ofList_toList]
  exact h.not_below member inside

theorem reached_eq_listed {t : FileTree} (h : t.IsRealizable) (s : ScanSettings) (root : String) :
    t.reached s root = t.listed s root := by
  refine List.filter_congr fun path file => ?_
  simp [h.hides_eq_false file root]

end FileTree
end Rehome
