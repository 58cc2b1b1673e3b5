import Rehome.Proofs.Index.Runs

/-!
# Deleting what is not there

A delete corrects everything that is kept, whether the tree had such a file or not. Where the path
already counts as gone nobody sees this; where it does not, a later answer changes although no file
did. Two indexes are interchangeable if they differ only in what is kept about texts and in what is
rightly known of paths, or not known: every step is answered alike by both and leaves them so.
-/
namespace Rehome.Index

open Specifier (Finder)
open FileTree

variable {f : Finder} {i j : Index}

/-! ## Steps -/

/-- A call on an index, or a correction of one of its lists. -/
inductive Step where
  | call (c : Call)
  | relist (root old : String) (new? : Option String)
  deriving DecidableEq, Repr

namespace Step

/-- The answer of an index to a step, and the index afterwards. -/
def on (f : Finder) : Step → Index → Answer × Index
  | .call c, i => c.on f i
  | .relist root old new?, i => (.done, i.relist root old new?)

/-- The answers to steps that follow one another. -/
def answers (f : Finder) : List Step → Index → List Answer
  | [], _ => []
  | s :: steps, i => (s.on f i).1 :: answers f steps (s.on f i).2

/-- The index after steps. -/
def after (f : Finder) : List Step → Index → Index
  | [], i => i
  | s :: steps, i => after f steps (s.on f i).2

end Step

/-! ## Indexes that answer alike -/

/-- Two indexes over the same files and with the same lists. Of each path they know the same, or
both know nothing wrong; what is known of the workspace itself is not corrected by later changes, so
of it they know the same. -/
structure Interchangeable (f : Finder) (i j : Index) : Prop where
  left : i.KeepsTexts f
  right : j.KeepsTexts f
  files : j.tree.files = i.tree.files
  settings : j.settings = i.settings
  lists : j.lists = i.lists
  existence : ∀ path, j.existence.get? path = i.existence.get? path ∨
    path ≠ "" ∧ i.KnowsRightly path ∧ j.KnowsRightly path

namespace Interchangeable

theorem refl (keeps : i.KeepsTexts f) : Interchangeable f i i :=
  ⟨keeps, keeps, rfl, rfl, rfl, fun _ => .inl rfl⟩

theorem holds (h : Interchangeable f i j) (path : String) :
    j.tree.holds path = i.tree.holds path := by
  simp [FileTree.holds, FileTree.isFile, pathsBelow, h.files]

theorem text? (h : Interchangeable f i j) (path : String) :
    j.tree.text? path = i.tree.text? path := by
  simp [FileTree.text?, h.files]

/-- A look at texts changes nothing else. -/
theorem look (h : Interchangeable f i j) {asked asked' : Questions}
    {texts texts' : Table (Option Reading)}
    {parsed parsed' : Table (Nat × List Specifier.Occurrence)}
    {readings readings' parses parses' : Nat}
    (left : KeepsTexts f
      { i with tree := { i.tree with asked }, texts, parsed, readings, parses })
    (right : KeepsTexts f
      { j with
        tree := { j.tree with asked := asked' }, texts := texts', parsed := parsed',
        readings := readings', parses := parses' }) :
    Interchangeable f { i with tree := { i.tree with asked }, texts, parsed, readings, parses }
      { j with
        tree := { j.tree with asked := asked' }, texts := texts', parsed := parsed',
        readings := readings', parses := parses' } :=
  ⟨left, right, h.files, h.settings, h.lists, h.existence⟩

theorem read (h : Interchangeable f i j) (path : String) :
    (j.read path).1 = (i.read path).1 ∧ Interchangeable f (i.read path).2 (j.read path).2 := by
  obtain ⟨answer, left, _, _, _, frame⟩ := read_spec h.left path
  obtain ⟨answer', right, _, _, _, frame'⟩ := read_spec h.right path
  refine ⟨by rw [answer, answer', h.text?], ?_⟩
  rw [frame] at left ⊢
  rw [frame'] at right ⊢
  exact h.look left right

theorem specifiers (h : Interchangeable f i j) (path : String) :
    (j.specifiers f path).1 = (i.specifiers f path).1 ∧
      Interchangeable f (i.specifiers f path).2 (j.specifiers f path).2 := by
  obtain ⟨answer, left, _, _, _, _, _, frame⟩ := specifiers_spec h.left path
  obtain ⟨answer', right, _, _, _, _, _, frame'⟩ := specifiers_spec h.right path
  refine ⟨by rw [answer, answer', FileTree.specifiers, FileTree.specifiers, h.text?], ?_⟩
  rw [frame] at left ⊢
  rw [frame'] at right ⊢
  exact h.look left right

theorem exist (h : Interchangeable f i j) (path : String) :
    (j.exist path).1 = (i.exist path).1 ∧ Interchangeable f (i.exist path).2 (j.exist path).2 := by
  have answer : (j.exist path).1 = (i.exist path).1 := by
    rcases h.existence path with same | ⟨-, left, right⟩
    · rw [exist_answer, exist_answer, same, h.holds]
    · rw [left.exist_eq, right.exist_eq, h.holds]
  have existence : ∀ other,
      (j.exist path).2.existence.get? other = (i.exist path).2.existence.get? other ∨
        other ≠ "" ∧ (i.exist path).2.KnowsRightly other ∧ (j.exist path).2.KnowsRightly other := by
    intro other
    rcases h.existence other with same | ⟨nonempty, left, right⟩
    · exact .inl (by rw [get?_exist, get?_exist, answer, same])
    · exact .inr ⟨nonempty, left.exist path, right.exist path⟩
  refine ⟨answer, ?_⟩
  obtain ⟨_, _, frame⟩ := i.exist_frame path
  obtain ⟨_, _, frame'⟩ := j.exist_frame path
  rw [frame, frame'] at existence ⊢
  exact ⟨h.left.of_same rfl rfl rfl rfl, h.right.of_same rfl rfl rfl rfl, h.files, h.settings,
    h.lists, existence⟩

theorem sourceFiles (h : Interchangeable f i j) (root : String) :
    (j.sourceFiles root).1 = (i.sourceFiles root).1 ∧
      Interchangeable f (i.sourceFiles root).2 (j.sourceFiles root).2 := by
  unfold Index.sourceFiles
  rw [h.lists]
  cases i.lists.get? root with
  | some list => exact ⟨rfl, h⟩
  | none =>
    have same := scan_congr (by rw [h.files]) h.settings root
    obtain ⟨asked, endless, frame⟩ := i.scan_frame root
    obtain ⟨asked', endless', frame'⟩ := j.scan_frame root
    simp only [frame, frame', same, h.lists]
    exact ⟨trivial, h.left.of_same rfl rfl rfl rfl, h.right.of_same rfl rfl rfl rfl, h.files,
      h.settings, rfl, h.existence⟩

theorem write (h : Interchangeable f i j) (path text : String) :
    Interchangeable f (i.write path text) (j.write path text) where
  left := h.left.write path text
  right := h.right.write path text
  files := by simp only [Index.write, FileTree.write, h.files]
  settings := h.settings
  lists := by simp only [Index.write, h.lists, h.settings]
  existence other := by
    rcases h.existence other with same | ⟨nonempty, left, right⟩
    · refine .inl ?_
      simp only [Index.write, get?_noteExisting, Table.contains, Table.get?_insert, same]
    · exact .inr ⟨nonempty, left.write nonempty path text, right.write nonempty path text⟩

theorem delete (h : Interchangeable f i j) (path : String) :
    Interchangeable f (i.delete path) (j.delete path) where
  left := h.left.delete path
  right := h.right.delete path
  files := by
    by_cases file : i.tree.files.contains path = true <;>
      simp [Index.delete, FileTree.delete, FileTree.isFile, h.files, file]
  settings := h.settings
  lists := by simp only [Index.delete, h.lists]
  existence other := by
    by_cases equal : path = other
    · -- The delete tells both the same of its own path.
      exact .inl (by simp only [Index.delete, get?_foldl_erase, Table.get?_insert, if_pos equal])
    · rcases h.existence other with same | ⟨nonempty, left, right⟩
      · refine .inl ?_
        simp only [Index.delete, get?_foldl_erase, Table.get?_insert, same]
      · exact .inr ⟨nonempty, left.delete nonempty equal, right.delete nonempty equal⟩

theorem relist (h : Interchangeable f i j) (root old : String) (new? : Option String) :
    Interchangeable f (i.relist root old new?) (j.relist root old new?) := by
  unfold Index.relist
  rw [h.lists]
  cases i.lists.get? root with
  | none => exact h
  | some list =>
    exact ⟨h.left.of_same rfl rfl rfl rfl, h.right.of_same rfl rfl rfl rfl, h.files, h.settings,
      by rw [h.settings], h.existence⟩

/-- Interchangeable indexes answer a step alike and stay interchangeable. -/
theorem on (h : Interchangeable f i j) (s : Step) :
    (s.on f j).1 = (s.on f i).1 ∧ Interchangeable f (s.on f i).2 (s.on f j).2 := by
  cases s with
  | relist root old new? => exact ⟨rfl, h.relist root old new?⟩
  | call c =>
    cases c with
    | exist path =>
      obtain ⟨answer, next⟩ := h.exist path
      exact ⟨congrArg Answer.truth answer, next⟩
    | read path =>
      obtain ⟨answer, next⟩ := h.read path
      exact ⟨congrArg Answer.text answer, next⟩
    | isFile path =>
      exact ⟨by simp only [Step.on, Call.on, Index.isFile, FileTree.isFile, h.files], h⟩
    | invalidate path =>
      exact ⟨rfl, h.look (h.left.invalidate path) (h.right.invalidate path)⟩
    | sourceFiles root =>
      obtain ⟨answer, next⟩ := h.sourceFiles root
      exact ⟨congrArg Answer.names answer, next⟩
    | write path text => exact ⟨rfl, h.write path text⟩
    | delete path => exact ⟨rfl, h.delete path⟩
    | specifiers path =>
      obtain ⟨answer, next⟩ := h.specifiers path
      exact ⟨congrArg Answer.found answer, next⟩

/-- No run tells interchangeable indexes apart. -/
theorem answers (h : Interchangeable f i j) (later : List Step) :
    Step.answers f later j = Step.answers f later i := by
  induction later generalizing i j with
  | nil => rfl
  | cons s later ih =>
    obtain ⟨answer, next⟩ := h.on s
    rw [Step.answers, Step.answers, answer, ih next]

theorem after (h : Interchangeable f i j) (steps : List Step) :
    Interchangeable f (Step.after f steps i) (Step.after f steps j) := by
  induction steps generalizing i j with
  | nil => exact h
  | cons s steps ih => exact ih (h.on s).2

end Interchangeable

/-! ## Paths that count as gone -/

/-- What is kept leaves nothing to correct when a path is deleted: the path is known to be missing,
or it is missing and nothing is known of it; what is known of the directories above it is so; and no
list has it. The workspace itself has to be known as missing, for nothing tells an index that it
came to be. -/
structure CountsAsGone (i : Index) (path : String) : Prop where
  itself : (i.existence.get? path).getD (path = "" || i.tree.holds path) = false
  above : ∀ dir ∈ directories path, i.KnowsRightly dir
  lists : ∀ root list, i.lists.get? root = some list → path ∉ list

theorem tree_delete {path : String} (missing : i.isFile path = false) :
    (i.delete path).tree = i.tree :=
  if_neg (Bool.eq_false_iff.1 missing)

theorem get?_delete (i : Index) (path other : String) :
    (i.delete path).existence.get? other =
      if other ∈ directories path then none
      else if path = other then some false else i.existence.get? other := by
  simp only [Index.delete, get?_foldl_erase, Table.get?_insert]

theorem lists_delete (i : Index) (path root : String) :
    (i.delete path).lists.get? root = (i.lists.get? root).map (·.erase path) :=
  Table.get?_map ..

/-- Deleting a path that counts as gone makes no difference. -/
theorem CountsAsGone.interchangeable {path : String} (gone : i.CountsAsGone path)
    (keeps : i.KeepsTexts f) (missing : i.isFile path = false) :
    Interchangeable f i (i.delete path) where
  left := keeps
  right := keeps.delete path
  files := by rw [tree_delete missing]
  settings := rfl
  lists := by
    refine Table.ext_get? fun root => ?_
    rw [lists_delete]
    cases look : i.lists.get? root with
    | none => rfl
    | some list => simp [List.erase_of_not_mem (gone.lists root list look)]
  existence other := by
    by_cases isAbove : other ∈ directories path
    · -- All is forgotten of a directory above, and what was known of it was right.
      refine .inr ⟨(mem_directories_iff.1 isAbove).1, gone.above other isAbove, ?_⟩
      intro known look
      rw [get?_delete, if_pos isAbove] at look
      cases look
    by_cases equal : path = other
    · subst equal
      have itself := gone.itself
      cases look : i.existence.get? path with
      | some known =>
        rw [look, Option.getD_some] at itself
        exact .inl (by rw [get?_delete, if_neg isAbove, if_pos rfl, itself])
      | none =>
        rw [look, Option.getD_none, Bool.or_eq_false_iff, decide_eq_false_iff_not] at itself
        refine .inr ⟨itself.1, fun known found => ?_, fun known found => ?_⟩
        · rw [look] at found
          cases found
        · rw [get?_delete, if_neg isAbove, if_pos rfl] at found
          rw [tree_delete missing, itself.2]
          exact (Option.some.inj found).symm
    · exact .inl (by rw [get?_delete, if_neg isAbove, if_neg equal])

theorem not_mem_directories (path : String) : path ∉ directories path := by
  intro member
  obtain ⟨nonempty, starts⟩ := mem_directories_iff.1 member
  have short := starts.length_le
  rw [lead_of_ne nonempty, List.length_append, List.length_singleton] at short
  omega

/-- If the tree holds nothing and nothing is known of the workspace, then a file that comes later
shows whether the workspace was deleted before. -/
theorem workspace_shows (i : Index) (unknown : i.existence.get? "" = none) :
    ((i.write "a" "").exist "").1 = true ∧ (((i.delete "").write "a" "").exist "").1 = false := by
  have outside : "" ∉ directories "a" := fun member => (mem_directories_iff.1 member).1 rfl
  have kept : ∀ j : Index, (j.write "a" "").existence.get? "" = j.existence.get? "" := by
    intro j
    simp [Index.write, get?_noteExisting, outside]
  constructor
  · rw [exist_answer, kept, unknown, Option.getD_none]
    exact (holds_write ..).2 (.inr (.inl List.nil_prefix))
  · rw [exist_answer, kept, get?_delete, if_neg (not_mem_directories ""), if_pos rfl]
    rfl

/-- Where deleting a missing path goes unnoticed, the path counted as gone: each part of that shows
in a run of one or two steps. -/
theorem countsAsGone_of_unobserved {path : String} (missing : i.isFile path = false)
    (unobserved : ∀ later, Step.answers f later (i.delete path) = Step.answers f later i) :
    i.CountsAsGone path := by
  have exist : ∀ asked, ((i.delete path).exist asked).1 = (i.exist asked).1 := by
    intro asked
    simpa [Step.answers, Step.on, Call.on] using unobserved [.call (.exist asked)]
  constructor
  · have answer := exist path
    rw [exist_answer, exist_answer, get?_delete, if_neg (not_mem_directories path), if_pos rfl,
      Option.getD_some] at answer
    cases look : i.existence.get? path with
    | some known => rw [answer, look, Option.getD_some, Option.getD_some]
    | none =>
      rw [look, Option.getD_none] at answer
      rw [Option.getD_none, ← answer, Bool.or_false, decide_eq_false_iff_not]
      rintro rfl
      have later := unobserved [.call (.write "a" ""), .call (.exist "")]
      simp [Step.answers, Step.on, Call.on, workspace_shows i look] at later
  · intro dir isAbove known look
    have answer := exist dir
    rw [exist_answer, exist_answer, get?_delete, if_pos isAbove, look,
      tree_delete missing] at answer
    exact answer.symm
  · intro root list look member
    have answer := unobserved [.call (.sourceFiles root)]
    have shorter : (i.delete path).lists.get? root = some (list.erase path) := by
      rw [lists_delete, look]
      rfl
    simp only [Step.answers, Step.on, Call.on, Index.sourceFiles, look, shorter, List.cons.injEq,
      Answer.names.injEq, and_true] at answer
    have length := congrArg List.length answer
    rw [List.length_erase_of_mem member] at length
    have positive := List.length_pos_of_mem member
    omega

/-! ## Careful runs -/

theorem mem_of_mem_enlist {s : ScanSettings} {root path file : String} {list : List String}
    (member : file ∈ enlist s root path list) : file = path ∨ file ∈ list := by
  unfold enlist at member
  split at member
  · exact Names.mem_insert.1 member
  · exact .inr member

/-- A careful step writes to a canonical path, deletes no directory, and lists only files. -/
def Step.IsCareful (t : FileTree) : Step → Prop
  | .call (.write path _) => Path.IsCanonical path
  | .call (.delete path) => t.pathsBelow path = []
  | .relist _ _ (some new) => t.isFile new = true
  | _ => True

instance (t : FileTree) (s : Step) : Decidable (s.IsCareful t) := by
  unfold Step.IsCareful
  split <;> infer_instance

/-- Every step of a run is careful when it is made. -/
def RunCareful (f : Finder) : List Step → Index → Prop
  | [], _ => True
  | s :: steps, i => s.IsCareful i.tree ∧ RunCareful f steps (s.on f i).2

instance decidableRunCareful (f : Finder) : (steps : List Step) → (i : Index) →
    Decidable (RunCareful f steps i)
  | [], _ => isTrue trivial
  | s :: steps, i =>
    have := decidableRunCareful f steps (s.on f i).2
    inferInstanceAs (Decidable (s.IsCareful i.tree ∧ RunCareful f steps (s.on f i).2))

/-- What is known of paths is so, and lists have files of the tree only, each once. -/
structure Tidy (i : Index) : Prop where
  clean : i.tree.IsClean
  existence : KeepsExistence i
  ordered : ∀ root list, i.lists.get? root = some list → list.Pairwise (· < ·)
  listed : ∀ root list, i.lists.get? root = some list → ∀ file ∈ list, file ∈ i.tree.files.names

namespace Tidy

theorem countsAsGone (h : Tidy i) {path : String} (nonempty : path ≠ "")
    (missing : i.isFile path = false) (clear : i.tree.pathsBelow path = []) :
    i.CountsAsGone path where
  itself := by
    have free : i.tree.holds path = false := by
      rw [FileTree.holds, clear]
      exact (Bool.or_false _).trans missing
    cases look : i.existence.get? path with
    | none => simp [nonempty, free]
    | some known => rw [Option.getD_some, h.existence path known nonempty look, free]
  above dir isAbove known look :=
    h.existence dir known (mem_directories_iff.1 isAbove).1 look
  lists root list look member := by
    have file := FileTree.isFile_iff.2 (h.listed root list look path member)
    exact Bool.false_ne_true (missing.symm.trans file)

theorem of_same (h : Tidy i) (files : j.tree.files = i.tree.files)
    (existence : j.existence = i.existence) (lists : j.lists = i.lists) : Tidy j where
  clean path member := h.clean path (files ▸ member)
  existence path known nonempty look :=
    KnowsRightly.of_same (h.existence path · nonempty) files (by rw [existence]) known look
  ordered root list look := h.ordered root list (lists ▸ look)
  listed root list look file member := files ▸ h.listed root list (lists ▸ look) file member

theorem exist (h : Tidy i) (path : String) : Tidy (i.exist path).2 := by
  have existence : KeepsExistence (i.exist path).2 := fun other known nonempty look =>
    KnowsRightly.exist (h.existence other · nonempty) path known look
  obtain ⟨_, _, frame⟩ := i.exist_frame path
  rw [frame] at existence ⊢
  exact ⟨h.clean, existence, h.ordered, h.listed⟩

/-- A list with files of the tree only, each once, may be kept for a root. -/
theorem keep (h : Tidy i) (asked : Questions) (endless : Bool) (root : String)
    {kept : List String} (ordered : kept.Pairwise (· < ·))
    (files : ∀ file ∈ kept, file ∈ i.tree.files.names) :
    Tidy { i with
      tree := { i.tree with asked }, lists := i.lists.insert root kept, endless } := by
  refine ⟨h.clean, h.existence, fun other list look => ?_, fun other list look => ?_⟩ <;>
    rw [Table.get?_insert] at look <;> split at look
  · exact Option.some.inj look ▸ ordered
  · exact h.ordered other list look
  · exact Option.some.inj look ▸ files
  · exact h.listed other list look

theorem sourceFiles (h : Tidy i) (root : String) : Tidy (i.sourceFiles root).2 := by
  unfold Index.sourceFiles
  cases i.lists.get? root with
  | some list => exact h
  | none =>
    have scanned := i.scan_eq_reached (h.clean.solidBelow root)
    obtain ⟨asked, endless, frame⟩ := i.scan_frame root
    simp only [frame, scanned]
    exact h.keep asked endless root (reached_ordered ..) fun file member => (mem_reached.1 member).1

theorem write (h : Tidy i) {path : String} (canonical : Path.IsCanonical path) (text : String) :
    Tidy (i.write path text) where
  clean other member := by
    rw [Index.write, names_write, Names.mem_insert] at member
    rcases member with rfl | before
    · exact canonical
    · exact h.clean other before
  existence := h.existence.write path text
  ordered root list look := by
    simp only [Index.write, Table.get?_map] at look
    obtain ⟨old, found, rfl⟩ := Option.map_eq_some_iff.1 look
    exact enlist_ordered (h.ordered root old found)
  listed root list look file member := by
    simp only [Index.write, Table.get?_map] at look
    obtain ⟨old, found, rfl⟩ := Option.map_eq_some_iff.1 look
    rw [Index.write, names_write, Names.mem_insert]
    exact (mem_of_mem_enlist member).imp_right (h.listed root old found file)

theorem delete (h : Tidy i) {path : String} (clear : i.tree.pathsBelow path = []) :
    Tidy (i.delete path) where
  clean other member := h.clean other (mem_names_delete.1 member).2
  existence := h.existence.delete clear
  ordered root list look := by
    rw [lists_delete] at look
    obtain ⟨old, found, rfl⟩ := Option.map_eq_some_iff.1 look
    exact Names.erase_ordered (h.ordered root old found)
  listed root list look file member := by
    rw [lists_delete] at look
    obtain ⟨old, found, rfl⟩ := Option.map_eq_some_iff.1 look
    -- The list has each file once, so the deleted one is not left in it.
    obtain ⟨differs, before⟩ := (h.ordered root old found).nodup.mem_erase_iff.1 member
    exact mem_names_delete.2 ⟨differs, h.listed root old found file before⟩

theorem relist (h : Tidy i) {new? : Option String} (root old : String)
    (real : ∀ new, new? = some new → i.tree.isFile new = true) : Tidy (i.relist root old new?) := by
  unfold Index.relist
  cases look : i.lists.get? root with
  | none => exact h
  | some list =>
    have ordered : (Names.erase old list).Pairwise (· < ·) :=
      Names.erase_ordered (h.ordered root list look)
    have files : ∀ file ∈ Names.erase old list, file ∈ i.tree.files.names := fun file member =>
      h.listed root list look file (List.mem_of_mem_erase member)
    cases new? with
    | none => exact h.keep i.tree.asked i.endless root ordered files
    | some new =>
      refine h.keep i.tree.asked i.endless root (enlist_ordered ordered) fun file member => ?_
      rcases mem_of_mem_enlist member with rfl | before
      · exact FileTree.isFile_iff.1 (real file rfl)
      · exact files file before

/-- A careful step leaves everything in order. -/
theorem on (h : Tidy i) (keeps : i.KeepsTexts f) {s : Step} (careful : s.IsCareful i.tree) :
    Tidy (s.on f i).2 := by
  cases s with
  | relist root old new? =>
    refine h.relist root old fun new given => ?_
    subst given
    exact careful
  | call c =>
    cases c with
    | exist path => exact h.exist path
    | read path =>
      obtain ⟨-, -, _, _, _, frame⟩ := read_spec keeps path
      exact h.of_same (congrArg (·.tree.files) frame) (congrArg (·.existence) frame)
        (congrArg (·.lists) frame)
    | isFile path => exact h
    | invalidate path => exact h.of_same rfl rfl rfl
    | sourceFiles root => exact h.sourceFiles root
    | write path text => exact h.write careful text
    | delete path => exact h.delete careful
    | specifiers path =>
      obtain ⟨-, -, _, _, _, _, _, frame⟩ := specifiers_spec keeps path
      exact h.of_same (congrArg (·.tree.files) frame) (congrArg (·.existence) frame)
        (congrArg (·.lists) frame)

/-- Careful runs leave everything in order. -/
theorem after (steps : List Step) (h : Tidy i) (keeps : i.KeepsTexts f)
    (careful : RunCareful f steps i) : Tidy (Step.after f steps i) := by
  induction steps generalizing i with
  | nil => exact h
  | cons s steps ih =>
    have next := ((Interchangeable.refl keeps).on s).2.left
    exact ih (h.on keeps careful.1) next careful.2

end Tidy

/-- After any run, a path that is no file can be deleted without a later answer changing exactly if
the path counts as gone. It does if the run was careful and no file lies below the path. A directory
that is not already taken for missing, for one, does not count as gone: it is denied from then on
although its files are still there. -/
theorem delete_unobserved_iff (f : Finder) (s : ScanSettings) (t : FileTree) (steps : List Step)
    {path : String} (missing : (Step.after f steps (new t s)).isFile path = false) :
    let i := Step.after f steps (new t s)
    ((∀ later, Step.answers f later (i.delete path) = Step.answers f later i) ↔
        i.CountsAsGone path) ∧
      (t.IsClean → RunCareful f steps (new t s) → path ≠ "" → i.tree.pathsBelow path = [] →
        ∀ later, Step.answers f later (i.delete path) = Step.answers f later i) := by
  intro i
  have start := keepsTexts_new f t s
  have keeps : i.KeepsTexts f := ((Interchangeable.refl start).after steps).left
  have unobserved (gone : i.CountsAsGone path) (later : List Step) :
      Step.answers f later (i.delete path) = Step.answers f later i :=
    (gone.interchangeable keeps missing).answers later
  refine ⟨⟨countsAsGone_of_unobserved missing, unobserved⟩, fun clean careful nonempty clear => ?_⟩
  have tidy : Tidy (new t s) :=
    ⟨clean, by simp [KeepsExistence, new], by simp [new], by simp [new]⟩
  exact unobserved ((tidy.after steps start careful).countsAsGone nonempty missing clear)

/-- A path that was asked for in vain, in a directory that is known and listed. -/
theorem delete_unobserved_in_listed :
    let t := FileTree.ofList [("a/x.ts", ""), ("b/y.ts", "")]
    let steps : List Step :=
      [.call (.sourceFiles "a"), .call (.exist "a/z.ts"), .call (.exist "a"),
      .call (.read "a/z.ts"), .call (.write "a/z.ts" ""), .call (.delete "a/z.ts"),
      .relist "a" "b/y.ts" (some "a/x.ts"), .call (.exist "a")]
    let i := Step.after .modules steps (new t (.standard 1))
    t.IsClean ∧ RunCareful .modules steps (new t (.standard 1)) ∧ i.isFile "a/z.ts" = false ∧
      i.tree.pathsBelow "a/z.ts" = [] ∧
      ∀ later, Step.answers .modules later (i.delete "a/z.ts") = Step.answers .modules later i := by
  intro t steps i
  have clean : t.IsClean := by decide +kernel
  have careful : RunCareful .modules steps (new t (.standard 1)) := by decide +kernel
  have missing : i.isFile "a/z.ts" = false := by decide +kernel
  have clear : i.tree.pathsBelow "a/z.ts" = [] := by decide +kernel
  have unobserved := (delete_unobserved_iff .modules (.standard 1) t steps missing).2
  exact ⟨clean, careful, missing, clear, unobserved clean careful (by decide) clear⟩

/-- A directory is no file, so deleting it changes no file; yet it is denied afterwards. -/
theorem directory_denied_after_delete :
    let i := new (FileTree.ofList [("a/x.ts", "")]) (.standard 1)
    i.isFile "a" = false ∧ (i.delete "a").tree.files.names = ["a/x.ts"] ∧
      Step.answers .modules [.call (.exist "a")] i = [.truth true] ∧
      Step.answers .modules [.call (.exist "a")] (i.delete "a") = [.truth false] := by
  decide +kernel

end Rehome.Index
