import Rehome.Proofs.Index.Scan

/-!
# What an index keeps is right

Three kinds of things are kept, and each has its own reason to stay right. A text is kept until its
file is written or deleted, and specifiers count only for the very reading they were found in. What
is known about the existence of a path is corrected along the directories above a changed file. A
list of files is corrected by one name, because the new list differs from the old one by that name.
-/
namespace Rehome

open Specifier (Finder Occurrence)

namespace FileTree

/-- The specifiers of a file as it stands. -/
def specifiers (f : Finder) (t : FileTree) (path : String) : List Occurrence :=
  match t.text? path with
  | none => []
  | some text => f.occurrences path text

/-- Writing a file makes it and the directories above it exist, and nothing else. -/
theorem holds_write (t : FileTree) (path text other : String) :
    (t.write path text).holds other = true ↔
      other = path ∨ lead other <+: path.toList ∨ t.holds other = true := by
  simp only [holds_iff, names_write, Names.mem_insert]
  constructor
  · rintro ((equal | file) | ⟨file, equal | member, below⟩)
    · exact .inl equal
    · exact .inr (.inr (.inl file))
    · exact .inr (.inl (equal ▸ below))
    · exact .inr (.inr (.inr ⟨file, member, below⟩))
  · rintro (equal | below | file | ⟨file, member, below⟩)
    · exact .inl (.inl equal)
    · exact .inr ⟨path, .inl rfl, below⟩
    · exact .inl (.inr file)
    · exact .inr ⟨file, .inr member, below⟩

theorem holds_delete {t : FileTree} {path other : String} :
    (t.delete path).holds other = true ↔
      (other ≠ path ∧ other ∈ t.files.names) ∨
        ∃ file ∈ t.files.names, file ≠ path ∧ lead other <+: file.toList := by
  simp only [holds_iff, mem_names_delete]
  exact or_congr_right ⟨fun ⟨file, ⟨ne, member⟩, below⟩ => ⟨file, member, ne, below⟩,
    fun ⟨file, member, ne, below⟩ => ⟨file, ⟨ne, member⟩, below⟩⟩

theorem listed_write (t : FileTree) (s : ScanSettings) (path text root : String) :
    (t.write path text).listed s root = Index.enlist s root path (t.listed s root) := by
  unfold listed
  rw [names_write, Names.filter_insert t.files.names_ordered]
  rfl

theorem listed_delete (t : FileTree) (s : ScanSettings) (path root : String) :
    (t.delete path).listed s root = Names.erase path (t.listed s root) := by
  rw [Names.erase_eq_filter (t.listed_ordered s root)]
  unfold listed
  rw [names_delete, List.filter_comm]

end FileTree

namespace Index

open FileTree

/-! ## Texts and specifiers -/

/-- Texts that are kept are the texts of the tree, and specifiers that are kept with the number of a
kept reading are those of its text. Numbers that were given out are smaller than the next one. -/
structure KeepsTexts (f : Finder) (i : Index) : Prop where
  text : ∀ path kept, i.texts.get? path = some kept → kept.map (·.text) = i.tree.text? path
  number : ∀ path r, i.texts.get? path = some (some r) → r.number < i.readings
  parsed : ∀ path number found, i.parsed.get? path = some (number, found) → number < i.readings
  found : ∀ path r found, i.texts.get? path = some (some r) →
    i.parsed.get? path = some (r.number, found) →
    found = f.occurrences path r.text

variable {f : Finder} {i : Index}

theorem keepsTexts_new (f : Finder) (t : FileTree) (s : ScanSettings) : KeepsTexts f (new t s) :=
  ⟨by simp [new], by simp [new], by simp [new], by simp [new]⟩

/-- A reading is of the text in the tree, it is kept, and a new one has a number that no kept
specifiers can have. -/
theorem reading_spec (h : KeepsTexts f i) (path : String) :
    (i.reading path).1.map (·.text) = i.tree.text? path ∧ KeepsTexts f (i.reading path).2 ∧
      (i.reading path).2.texts.get? path = some (i.reading path).1 ∧
      ∃ asked texts readings,
        (i.reading path).2 = { i with tree := { i.tree with asked }, texts, readings } := by
  unfold reading
  cases kept : i.texts.get? path with
  | some answer => exact ⟨h.text path answer kept, h, kept, i.tree.asked, i.texts, i.readings, rfl⟩
  | none =>
    refine ⟨?_, ?_, by simp, _, _, _, rfl⟩
    · cases text : i.tree.text? path <;> simp [askText, text]
    refine ⟨?_, ?_, ?_, ?_⟩
    · intro other answer look
      rw [Table.get?_insert] at look
      split at look
      next equal =>
        cases look
        subst equal
        cases text : i.tree.text? path <;> simp [askText, text] <;> exact text.symm
      next differs => exact h.text other answer look
    · intro other r look
      rw [Table.get?_insert] at look
      split at look
      next equal =>
        obtain ⟨text, -, rfl⟩ := Option.map_eq_some_iff.1 (Option.some.inj look)
        exact Nat.lt_succ_self _
      next differs => exact Nat.lt_succ_of_lt (h.number other r look)
    · intro other number found look
      exact Nat.lt_succ_of_lt (h.parsed other number found look)
    · intro other r found look known
      rw [Table.get?_insert] at look
      split at look
      next equal =>
        -- The new reading has the next number, and every kept number is smaller.
        obtain ⟨text, -, rfl⟩ := Option.map_eq_some_iff.1 (Option.some.inj look)
        exact absurd (h.parsed other _ found known) (Nat.lt_irrefl _)
      next differs => exact h.found other r found look known

theorem read_spec (h : KeepsTexts f i) (path : String) :
    (i.read path).1 = i.tree.text? path ∧ KeepsTexts f (i.read path).2 ∧
      ∃ asked texts readings,
        (i.read path).2 = { i with tree := { i.tree with asked }, texts, readings } := by
  obtain ⟨answer, keeps, -, frame⟩ := reading_spec h path
  exact ⟨answer, keeps, frame⟩

theorem parse_spec (h : KeepsTexts f i) {path : String} {r : Reading}
    (kept : i.texts.get? path = some (some r)) : KeepsTexts f (parse f i path r).2 := by
  refine ⟨h.text, h.number, ?_, ?_⟩
  · intro other number found look
    simp only [parse, Table.get?_insert] at look
    split at look
    next equal =>
      cases look
      exact h.number path r kept
    next differs => exact h.parsed other number found look
  · intro other r' found look known
    simp only [parse, Table.get?_insert] at look known
    split at known
    next equal =>
      subst equal
      rw [kept] at look
      cases look
      cases known
      rfl
    next differs => exact h.found other r' found look known

/-- The specifiers an index answers are those of the text in the tree. -/
theorem specifiers_spec (h : KeepsTexts f i) (path : String) :
    (i.specifiers f path).1 = i.tree.specifiers f path ∧ KeepsTexts f (i.specifiers f path).2 ∧
      ∃ asked texts parsed readings parses,
        (i.specifiers f path).2 =
          { i with tree := { i.tree with asked }, texts, parsed, readings, parses } := by
  obtain ⟨answer, keeps, kept, asked, texts, readings, frame⟩ := reading_spec h path
  unfold Index.specifiers FileTree.specifiers
  revert answer keeps kept frame
  generalize i.reading path = outcome
  obtain ⟨answer?, j⟩ := outcome
  rintro answer keeps kept rfl
  cases answer? with
  | none =>
    rw [← answer]
    exact ⟨rfl, keeps, asked, texts, i.parsed, readings, i.parses, rfl⟩
  | some r =>
    rw [← answer]
    cases known : i.parsed.get? path with
    | none =>
      exact ⟨by
      simp [known, parse], by simpa [known] using parse_spec keeps kept, by simp [known, parse]⟩
    | some entry =>
      obtain ⟨number, found⟩ := entry
      by_cases same : number = r.number
      · subst same
        simp only [known, if_true]
        exact ⟨keeps.found path r found kept known, keeps, asked, texts, i.parsed, readings,
          i.parses, rfl⟩
      · exact ⟨by simp [known, same, parse], by simpa [known, same] using parse_spec keeps kept,
          by simp [known, same, parse]⟩

/-- Forgetting a text, whatever becomes of the file, leaves the other texts right. -/
theorem KeepsTexts.forget (h : KeepsTexts f i) {path : String} {j : Index}
    (texts : j.texts = i.texts.erase path) (parsed : j.parsed = i.parsed)
    (readings : j.readings = i.readings)
    (others : ∀ other, other ≠ path → j.tree.text? other = i.tree.text? other) :
    KeepsTexts f j := by
  refine ⟨?_, ?_, ?_, ?_⟩
  · intro other kept look
    rw [texts, Table.get?_erase] at look
    split at look
    · cases look
    next differs => rw [h.text other kept look, others other (Ne.symm differs)]
  · intro other r look
    rw [texts, Table.get?_erase] at look
    split at look
    · cases look
    · exact readings ▸ h.number other r look
  · intro other number found look
    exact readings ▸ h.parsed other number found (parsed ▸ look)
  · intro other r found look known
    rw [texts, Table.get?_erase] at look
    split at look
    · cases look
    · exact h.found other r found look (parsed ▸ known)

theorem KeepsTexts.invalidate (h : KeepsTexts f i) (path : String) :
    KeepsTexts f (i.invalidate path) :=
  h.forget rfl rfl rfl fun _ _ => rfl

theorem KeepsTexts.write (h : KeepsTexts f i) (path text : String) :
    KeepsTexts f (i.write path text) :=
  h.forget rfl rfl rfl fun other differs => by
    simp [Index.write, Ne.symm differs]

theorem KeepsTexts.delete (h : KeepsTexts f i) (path : String) : KeepsTexts f (i.delete path) :=
  h.forget rfl rfl rfl fun other differs => by
    simp [Index.delete, Ne.symm differs]

/-- Only the texts of the tree and what is kept about them matter. -/
theorem KeepsTexts.of_same (h : KeepsTexts f i) {j : Index} (files : j.tree.files = i.tree.files)
    (texts : j.texts = i.texts) (parsed : j.parsed = i.parsed)
    (readings : j.readings = i.readings) :
    KeepsTexts f j := by
  have same : ∀ path, j.tree.text? path = i.tree.text? path := fun path => by simp [text?, files]
  exact ⟨fun p k look => by rw [same]; exact h.text p k (texts ▸ look),
    fun p r look => readings ▸ h.number p r (texts ▸ look),
    fun p n o look => readings ▸ h.parsed p n o (parsed ▸ look),
    fun p r o look known => h.found p r o (texts ▸ look) (parsed ▸ known)⟩

/-! ## Existence -/

/-- What is known about a path, if anything, is so. -/
def KnowsRightly (i : Index) (path : String) : Prop :=
  ∀ known, i.existence.get? path = some known → known = i.tree.holds path

/-- What is known about paths, the workspace itself apart, is so. -/
def KeepsExistence (i : Index) : Prop :=
  ∀ path known, path ≠ "" → i.existence.get? path = some known → known = i.tree.holds path

theorem KnowsRightly.of_same {j : Index} {path : String} (h : i.KnowsRightly path)
    (files : j.tree.files = i.tree.files)
    (same : j.existence.get? path = i.existence.get? path) : j.KnowsRightly path := by
  intro known look
  rw [h known (same ▸ look)]
  simp [holds, FileTree.isFile, pathsBelow, files]

theorem exist_answer (i : Index) (path : String) :
    (i.exist path).1 = (i.existence.get? path).getD (i.tree.holds path) := by
  unfold exist
  cases i.existence.get? path <;> rfl

/-- Asking whether a path exists leaves the answer with the index. -/
theorem get?_exist (i : Index) (path other : String) :
    (i.exist path).2.existence.get? other =
      if path = other then some (i.exist path).1 else i.existence.get? other := by
  unfold exist
  cases look : i.existence.get? path with
  | none => exact Table.get?_insert ..
  | some known =>
    by_cases equal : path = other
    · simp [← equal, look]
    · simp [equal]

theorem exist_frame (i : Index) (path : String) :
    ∃ asked existence, (i.exist path).2 = { i with tree := { i.tree with asked }, existence } := by
  unfold exist
  cases i.existence.get? path with
  | none => exact ⟨_, _, rfl⟩
  | some known => exact ⟨i.tree.asked, i.existence, rfl⟩

theorem KnowsRightly.exist_eq {path : String} (h : i.KnowsRightly path) :
    (i.exist path).1 = i.tree.holds path := by
  rw [exist_answer]
  cases look : i.existence.get? path with
  | none => rfl
  | some known => exact h known look

theorem KnowsRightly.exist {other : String} (h : i.KnowsRightly other) (path : String) :
    (i.exist path).2.KnowsRightly other := by
  obtain ⟨asked, existence, frame⟩ := i.exist_frame path
  have files : (i.exist path).2.tree.files = i.tree.files := by rw [frame]
  by_cases equal : path = other
  · subst equal
    intro known look
    rw [get?_exist, if_pos rfl] at look
    rw [← Option.some.inj look, h.exist_eq]
    simp [holds, FileTree.isFile, pathsBelow, files]
  · exact h.of_same files (by rw [get?_exist, if_neg equal])

theorem exist_spec (h : KeepsExistence i) {path : String} (nonempty : path ≠ "") :
    (i.exist path).1 = i.tree.holds path ∧ KeepsExistence (i.exist path).2 ∧
      ∃ asked existence, (i.exist path).2 = { i with tree := { i.tree with asked }, existence } :=
  ⟨KnowsRightly.exist_eq (h path · nonempty), fun other known notEmpty =>
    KnowsRightly.exist (h other · notEmpty) path known, i.exist_frame path⟩

theorem get?_noteExisting (existence : Table Bool) (dirs : List String) (path : String) :
    (noteExisting existence dirs).get? path =
      if path ∈ dirs ∧ existence.contains path = true then some true else existence.get? path := by
  unfold noteExisting
  induction dirs generalizing existence with
  | nil => simp
  | cons dir dirs ih =>
    rw [List.foldl_cons, ih]
    by_cases known : existence.contains dir = true
    · by_cases equal : dir = path
      · subst equal
        simp [known]
      · simp [known, equal, Ne.symm equal]
    · by_cases equal : dir = path
      · subst equal
        simp [known]
      · simp [known, Ne.symm equal]

theorem get?_foldl_erase (existence : Table Bool) (dirs : List String) (path : String) :
    (dirs.foldl Table.erase existence).get? path =
      if path ∈ dirs then none else existence.get? path := by
  induction dirs generalizing existence with
  | nil => simp
  | cons dir dirs ih =>
    rw [List.foldl_cons, ih]
    by_cases equal : dir = path
    · simp [equal]
    · simp [equal, Ne.symm equal]

/-- Every directory above a path but the workspace itself is corrected. -/
theorem mem_directories_iff {path dir : String} :
    dir ∈ directories path ↔ dir ≠ "" ∧ lead dir <+: path.toList := by
  unfold directories
  rw [List.mem_filter, Path.mem_ancestors, decide_eq_true_eq, and_comm]
  refine and_congr_right fun nonempty => ?_
  rw [lead_prefix_iff nonempty]

/-- A written file makes the directories above it exist, and what is known of them is corrected. -/
theorem KnowsRightly.write {other : String} (h : i.KnowsRightly other) (nonempty : other ≠ "")
    (path text : String) : (i.write path text).KnowsRightly other := by
  intro known look
  simp only [Index.write, get?_noteExisting, Table.contains_insert, Table.get?_insert] at look
  rw [eq_comm]
  split at look
  next above =>
    cases look
    exact (holds_write ..).2 (.inr (.inl (mem_directories_iff.1 above.1).2))
  next notAbove =>
    split at look
    next equal =>
      cases look
      exact (holds_write ..).2 (.inl equal.symm)
    next differs =>
      have before := h known look
      have outside : ¬ lead other <+: path.toList := fun below => notAbove
        ⟨mem_directories_iff.2 ⟨nonempty, below⟩, by simp [Table.contains, look]⟩
      rw [before, Bool.eq_iff_iff]
      exact (holds_write ..).trans
        ⟨fun found => (found.resolve_left (Ne.symm differs)).resolve_left outside, fun found =>
          .inr (.inr found)⟩

/-- What is known of other paths than the deleted one is still so, since all is forgotten of the
directories above it. -/
theorem KnowsRightly.delete {path other : String} (h : i.KnowsRightly other) (nonempty : other ≠ "")
    (differs : path ≠ other) : (i.delete path).KnowsRightly other := by
  intro known look
  simp only [Index.delete, get?_foldl_erase, Table.get?_insert, if_neg differs] at look
  rw [eq_comm]
  split at look
  · cases look
  next notAbove =>
    have before := h known look
    have outside : ¬ lead other <+: path.toList := fun below =>
      notAbove (mem_directories_iff.2 ⟨nonempty, below⟩)
    rw [before, Bool.eq_iff_iff]
    refine holds_delete.trans (Iff.trans ?_ holds_iff.symm)
    constructor
    · rintro (⟨-, file⟩ | ⟨file, member, -, below⟩)
      · exact .inl file
      · exact .inr ⟨file, member, below⟩
    · rintro (file | ⟨file, member, below⟩)
      · exact .inl ⟨Ne.symm differs, file⟩
      · exact .inr ⟨file, member, fun equal => outside (equal ▸ below), below⟩

theorem KeepsExistence.write (h : KeepsExistence i) (path text : String) :
    KeepsExistence (i.write path text) := fun other known nonempty =>
  KnowsRightly.write (fun known => h other known nonempty) nonempty path text known

/-- A deleted path is known to be gone, which is so if nothing lies below it. -/
theorem KeepsExistence.delete (h : KeepsExistence i) {path : String}
    (clear : i.tree.pathsBelow path = []) :
    KeepsExistence (i.delete path) := by
  intro other known nonempty look
  by_cases equal : path = other
  · subst equal
    simp only [Index.delete, get?_foldl_erase, Table.get?_insert, if_true] at look
    split at look
    · cases look
    · cases look
      rw [eq_comm, ← Bool.not_eq_true]
      intro found
      rcases holds_delete.1 found with ⟨ne, -⟩ | ⟨file, member, -, below⟩
      · exact ne rfl
      · have inside := mem_pathsBelow.2 ⟨member, below⟩
        rw [clear] at inside
        cases inside
  · exact KnowsRightly.delete (fun known => h other known nonempty) nonempty equal known look

/-! ## Lists of files -/

/-- Lists that are kept hold the files that belong below their root. -/
def KeepsLists (i : Index) : Prop :=
  ∀ root list, i.lists.get? root = some list → list = i.tree.listed i.settings root

theorem enlist_ordered {s : ScanSettings} {root path : String} {list : List String}
    (ordered : list.Pairwise (· < ·)) : (enlist s root path list).Pairwise (· < ·) := by
  unfold enlist
  split
  · exact Names.insert_ordered ordered
  · exact ordered

theorem KeepsLists.write (h : KeepsLists i) (path text : String) :
    KeepsLists (i.write path text) := by
  intro root list look
  simp only [Index.write, Table.get?_map] at look
  obtain ⟨old, found, rfl⟩ := Option.map_eq_some_iff.1 look
  rw [h root old found]
  exact (listed_write ..).symm

theorem KeepsLists.delete (h : KeepsLists i) (path : String) : KeepsLists (i.delete path) := by
  intro root list look
  simp only [Index.delete, Table.get?_map] at look
  obtain ⟨old, found, rfl⟩ := Option.map_eq_some_iff.1 look
  rw [h root old found]
  exact (listed_delete ..).symm

theorem scan_frame (i : Index) (root : String) :
    ∃ asked endless, (i.scan root).2 = { i with tree := { i.tree with asked }, endless } :=
  walk_frame (directoryBound i.tree) i [root] []

theorem sourceFiles_frame (i : Index) (root : String) :
    ∃ asked lists endless,
      (i.sourceFiles root).2 = { i with tree := { i.tree with asked }, lists, endless } := by
  unfold sourceFiles
  cases i.lists.get? root with
  | some list => exact ⟨i.tree.asked, i.lists, i.endless, rfl⟩
  | none =>
    obtain ⟨asked, endless, frame⟩ := i.scan_frame root
    simp only [frame]
    exact ⟨asked, _, endless, rfl⟩

/-- In a realizable tree the list of a root is what belongs there, kept or made now. -/
theorem sourceFiles_spec (h : KeepsLists i) (realizable : i.tree.IsRealizable) (root : String) :
    (i.sourceFiles root).1 = i.tree.listed i.settings root ∧ KeepsLists (i.sourceFiles root).2 := by
  unfold sourceFiles
  cases look : i.lists.get? root with
  | some list => exact ⟨h root list look, h⟩
  | none =>
    have scanned := i.scan_eq_listed realizable root
    obtain ⟨asked, endless, frame⟩ := i.scan_frame root
    simp only [frame, scanned]
    refine ⟨trivial, fun other list found => ?_⟩
    rw [Table.get?_insert] at found
    split at found
    next equal =>
      cases found
      rw [← equal]
      rfl
    next differs => exact h other list found

end Index
end Rehome
