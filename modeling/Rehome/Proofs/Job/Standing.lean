import Rehome.Proofs.Job.Plain

/-!
# States that stand for a plain one

An index, and a plain state itself, stand for a plain state when they agree with it on all files
that are not hidden. As long as no file comes or goes, the lists they give agree as well on the
files that are `kept` in view.
-/
namespace Rehome

open Specifier (Finder)

namespace Plain

/-- Two states that differ at most in hidden files, which are there in both. -/
structure Agree (hidden : String → Prop) (a v : Plain) : Prop where
  text : ∀ path, ¬ hidden path → a.tree.text? path = v.tree.text? path
  change : ∀ path, ¬ hidden path → a.tree.changes.get? path = v.tree.changes.get? path
  touched : ∀ path, ¬ hidden path → (path ∈ a.touched ↔ path ∈ v.touched)
  present : ∀ path, hidden path → a.tree.isFile path = true ∧ v.tree.isFile path = true
  ordered : a.touched.Pairwise (· < ·) ∧ v.touched.Pairwise (· < ·)

namespace Agree

variable {hidden : String → Prop} {a b v : Plain}

theorem refl (present : ∀ path, hidden path → v.tree.isFile path = true)
    (ordered : v.touched.Pairwise (· < ·)) : Agree hidden v v :=
  ⟨fun _ _ => rfl, fun _ _ => rfl, fun _ _ => .rfl, fun path h => ⟨present path h, present path h⟩,
    ordered, ordered⟩

/-- Two states that agree with a third one agree with each other. -/
theorem join (left : Agree hidden a v) (right : Agree hidden b v) : Agree hidden a b :=
  ⟨fun p h => (left.text p h).trans (right.text p h).symm, fun p h =>
    (left.change p h).trans (right.change p h).symm,
    fun p h => (left.touched p h).trans (right.touched p h).symm,
    fun p h => ⟨(left.present p h).1, (right.present p h).1⟩, left.ordered.1, right.ordered.1⟩

theorem isFile (h : Agree hidden a v) (path : String) :
    a.tree.isFile path = v.tree.isFile path := by
  by_cases isHidden : hidden path
  · rw [(h.present path isHidden).1, (h.present path isHidden).2]
  · rw [FileTree.isFile_eq_isSome, FileTree.isFile_eq_isSome, h.text path isHidden]

/-- Only the files, the journal and the touched paths matter. -/
theorem of_files (h : Agree hidden a v) (files : b.tree.files = a.tree.files)
    (changes : b.tree.changes = a.tree.changes) (touched : b.touched = a.touched) :
    Agree hidden b v := by
  refine ⟨fun p visible => ?_, fun p visible => ?_, fun p visible => ?_, fun p isHidden => ?_, ?_⟩
  · exact (congrArg (·.get? p) files).trans (h.text p visible)
  · exact (congrArg (·.get? p) changes).trans (h.change p visible)
  · rw [touched]
    exact h.touched p visible
  · rw [FileTree.isFile, files]
    exact h.present p isHidden
  · rw [touched]
    exact h.ordered

theorem isFile_write (v : Plain) (path text other : String) (h : v.tree.isFile other = true) :
    (v.write path text).tree.isFile other = true := by
  simpa [Plain.write, FileTree.write, FileTree.isFile] using Or.inr h

theorem write (h : Agree hidden a v) (path text : String) :
    Agree hidden (a.write path text) (v.write path text) := by
  refine ⟨fun p visible => ?_, fun p visible => ?_, fun p visible => ?_, fun p isHidden => ?_, ?_⟩
  · simp [Plain.write, h.text p visible]
  · simp [Plain.write, FileTree.write, h.change p visible]
  · simp [Plain.write, Names.mem_insert, h.touched p visible]
  · exact ⟨isFile_write _ _ _ _ (h.present p isHidden).1,
      isFile_write _ _ _ _ (h.present p isHidden).2⟩
  · exact ⟨Names.insert_ordered h.ordered.1, Names.insert_ordered h.ordered.2⟩

theorem writeHidden (h : Agree hidden a v) {path : String} (isHidden : hidden path)
    (text : String) :
    Agree hidden (a.write path text) v := by
  have differs : ∀ p, ¬ hidden p → path ≠ p := fun p visible equal => visible (equal ▸ isHidden)
  refine ⟨fun p visible => ?_, fun p visible => ?_, fun p visible => ?_, fun p inside => ?_, ?_⟩
  · simp [Plain.write, differs p visible, h.text p visible]
  · simp [Plain.write, FileTree.write, differs p visible, h.change p visible]
  · simp [Plain.write, Names.mem_insert, Ne.symm (differs p visible), h.touched p visible]
  · exact ⟨isFile_write _ _ _ _ (h.present p inside).1, (h.present p inside).2⟩
  · exact ⟨Names.insert_ordered h.ordered.1, h.ordered.2⟩

/-- More may be hidden. -/
theorem hide (h : Agree (fun _ => False) a v)
    (present : ∀ path, hidden path → v.tree.isFile path = true) :
    Agree hidden a v :=
  ⟨fun p _ => h.text p id, fun p _ => h.change p id, fun p _ => h.touched p id,
    fun p isHidden => ⟨(h.isFile p).trans (present p isHidden), present p isHidden⟩, h.ordered⟩

/-- Once the only file that may be hidden is deleted, nothing is hidden any more. -/
theorem delete {path : String} (h : Agree hidden a v) (only : ∀ p, hidden p → p = path) :
    Agree (fun _ => False) (a.delete path) (v.delete path) := by
  have visible : ∀ p, p ≠ path → ¬ hidden p := fun p differs isHidden => differs (only p isHidden)
  have same := h.isFile path
  refine ⟨fun p _ => ?_, fun p _ => ?_, fun p _ => ?_, fun p => False.elim, ?_⟩
  · by_cases equal : p = path
    · simp [Plain.delete, equal]
    · simp [Plain.delete, Ne.symm equal, h.text p (visible p equal)]
  · cases there : v.tree.isFile path with
    | true =>
      rw [there] at same
      by_cases equal : p = path
      · simp [Plain.delete, FileTree.delete, there, same, equal]
      · simp [Plain.delete, FileTree.delete, there, same, Ne.symm equal,
          h.change p (visible p equal)]
    | false =>
      rw [there] at same
      have shown : ¬ hidden p := fun isHidden => by
        have file := (h.present p isHidden).2
        rw [only p isHidden, there] at file
        cases file
      simp [Plain.delete, FileTree.delete, there, same, h.change p shown]
  · by_cases equal : p = path
    · simp [Plain.delete, Names.mem_insert, equal]
    · simp [Plain.delete, Names.mem_insert, equal, h.touched p (visible p equal)]
  · exact ⟨Names.insert_ordered h.ordered.1, Names.insert_ordered h.ordered.2⟩

theorem files_eq (h : Agree (fun _ => False) a v) : a.tree.files = v.tree.files :=
  Table.ext_get? fun path => h.text path id

theorem changes_eq (h : Agree (fun _ => False) a v) : a.tree.changes = v.tree.changes :=
  Table.ext_get? fun path => h.change path id

theorem touched_eq (h : Agree (fun _ => False) a v) : a.touched = v.touched :=
  Names.eq_of_increasing h.ordered.1 h.ordered.2 fun path => h.touched path id

end Agree
end Plain

/-- What an index holds besides what it keeps. -/
def Index.plain (i : Index) : Plain := ⟨i.tree, i.touched⟩

/-! ## Answers about texts -/

/-- An index whose kept texts and specifiers are right. -/
structure Index.Mirrors (f : Finder) (hidden : String → Prop) (i : Index) (v : Plain) : Prop where
  texts : i.KeepsTexts f
  agree : i.plain.Agree hidden v

theorem FileTree.specifiers_congr (f : Finder) {t u : FileTree} {path : String}
    (same : t.text? path = u.text? path) :
    t.specifiers f path = u.specifiers f path := by
  rw [specifiers, same, specifiers]

theorem Index.mirrors_answers (f : Finder) (hidden : String → Prop) :
    Job.Answers (Index.perform f) (Index.Mirrors f hidden) f hidden (fun _ _ => True) where
  read {i v} path h := by
    obtain ⟨answer, keeps, asked, texts, readings, frame⟩ := Index.read_spec h.texts path
    refine ⟨⟨keeps, ?_⟩, fun visible => answer.trans (h.agree.text path visible)⟩
    simp only [Index.perform, frame]
    exact h.agree.of_files rfl rfl rfl
  specifiers {i v} path h := by
    obtain ⟨answer, keeps, asked, texts, parsed, readings, parses, frame⟩ :=
      Index.specifiers_spec h.texts path
    refine ⟨⟨keeps, ?_⟩, fun visible =>
      answer.trans (FileTree.specifiers_congr f (h.agree.text path visible))⟩
    simp only [Index.perform, frame]
    exact h.agree.of_files rfl rfl rfl
  write {i v} path text h _ _ := ⟨h.texts.write path text, h.agree.write path text⟩
  writeHidden {i v} path text h isHidden :=
    ⟨h.texts.write path text, h.agree.writeHidden isHidden text⟩

theorem Plain.agree_answers (f : Finder) (s : ScanSettings) (hidden : String → Prop) :
    Job.Answers (Plain.perform f s) (Plain.Agree hidden) f hidden (fun _ _ => True) where
  read path h := ⟨h, h.text path⟩
  specifiers path h := ⟨h, fun visible => FileTree.specifiers_congr f (h.text path visible)⟩
  write path text h _ _ := h.write path text
  writeHidden _ text h isHidden := h.writeHidden isHidden text

/-! ## Answers about lists -/

/-- A tree whose paths are canonical and in which no file that is kept in view is hidden from a
walk. -/
structure FileTree.IsScene (t : FileTree) (kept : String → Bool) : Prop where
  clean : t.IsClean
  clear : ∀ path ∈ t.files.names, kept path = true → ∀ root, t.hides root path = false

/-- The files listed below a root that are kept in view. -/
def FileTree.inView (t : FileTree) (s : ScanSettings) (kept : String → Bool) (root : String) :
    List String :=
  (t.listed s root).filter kept

namespace FileTree.IsScene

variable {t : FileTree} {kept : String → Bool}

theorem reached (h : t.IsScene kept) (s : ScanSettings) (root : String) :
    (t.reached s root).filter kept = t.inView s kept root := by
  unfold inView listed FileTree.reached
  rw [List.filter_filter, List.filter_filter]
  refine List.filter_congr fun path file => ?_
  cases visible : kept path with
  | false => simp
  | true => simp [h.clear path file visible root]

/-- A scan depends on the names only. -/
theorem scan (h : t.IsScene kept) (i : Index) (names : i.tree.files.names = t.files.names)
    (root : String) :
    (i.scan root).1.filter kept = t.inView i.settings kept root := by
  have clean : i.tree.IsClean := fun path file => h.clean path (names ▸ file)
  have same : i.tree.reached i.settings root = t.reached i.settings root := by
    unfold FileTree.reached FileTree.hides
    rw [names]
  rw [i.scan_eq_reached (clean.solidBelow root), same, h.reached]

/-- Putting a file of the tree into a list changes nothing that is in view. -/
theorem enlist {s : ScanSettings} {root path : String} {list : List String}
    (file : path ∈ t.files.names) (ordered : list.Pairwise (· < ·))
    (view : list.filter kept = t.inView s kept root) :
    (Index.enlist s root path list).Pairwise (· < ·) ∧
      (Index.enlist s root path list).filter kept = t.inView s kept root := by
  unfold Index.enlist
  split
  next lists =>
    refine ⟨Names.insert_ordered ordered, ?_⟩
    rw [Names.filter_insert ordered]
    split
    next visible =>
      rw [view]
      have member : path ∈ t.inView s kept root :=
        List.mem_filter.2 ⟨FileTree.mem_listed.2 ⟨file, lists⟩, visible⟩
      exact Names.insert_of_mem ((t.listed_ordered s root).filter kept) member
    next => exact view
  next => exact ⟨ordered, view⟩

end FileTree.IsScene

/-- An index over the same paths as `t`, which lists the files in view rightly. -/
structure Index.Follows (f : Finder) (s : ScanSettings) (t : FileTree) (kept : String → Bool)
    (hidden : String → Prop) (i : Index) (v : Plain) : Prop where
  mirrors : i.Mirrors f hidden v
  settings : i.settings = s
  names : i.tree.files.names = t.files.names
  lists : ∀ root list, i.lists.get? root = some list →
    list.Pairwise (· < ·) ∧ list.filter kept = t.inView s kept root

/-- A plain state over the same paths as `t`. -/
structure Plain.Follows (t : FileTree) (hidden : String → Prop) (a v : Plain) : Prop where
  agree : a.Agree hidden v
  names : a.tree.files.names = t.files.names

theorem FileTree.names_write_of_isFile {t : FileTree} {path : String} (text : String)
    (file : path ∈ t.files.names) :
    (t.write path text).files.names = t.files.names := by
  rw [names_write, Names.insert_of_mem t.files.names_ordered file]

section Lists

variable {f : Finder} {s : ScanSettings} {t : FileTree} {kept : String → Bool}
    {hidden : String → Prop}

theorem Index.Follows.write {i : Index} {v w : Plain} (h : i.Follows f s t kept hidden v)
    {path text : String} (file : i.tree.isFile path = true)
    (mirrors : (i.write path text).Mirrors f hidden w) :
    (i.write path text).Follows f s t kept hidden w := by
  have member := FileTree.isFile_iff.1 file
  refine ⟨mirrors, h.settings, (FileTree.names_write_of_isFile text member).trans h.names, ?_⟩
  intro root list look
  simp only [Index.write, Table.get?_map] at look
  obtain ⟨old, found, rfl⟩ := Option.map_eq_some_iff.1 look
  obtain ⟨ordered, view⟩ := h.lists root old found
  rw [h.settings]
  exact FileTree.IsScene.enlist (h.names ▸ member) ordered view

/-- Correcting lists for files out of view changes nothing that is in view. -/
theorem Index.Follows.relist {i : Index} {v : Plain} (h : i.Follows f s t kept hidden v)
    (root : String) {old : String} {new? : Option String} (oldOut : kept old = false)
    (newOut : ∀ new, new? = some new → kept new = false) :
    (i.relist root old new?).Follows f s t kept hidden v := by
  unfold Index.relist
  split
  next => exact h
  next list look =>
    obtain ⟨ordered, view⟩ := h.lists root list look
    have erased : (Names.erase old list).Pairwise (· < ·) ∧
        (Names.erase old list).filter kept = list.filter kept := by
      refine ⟨Names.erase_ordered ordered, ?_⟩
      rw [Names.erase_eq_filter ordered, List.filter_filter]
      refine List.filter_congr fun path _ => ?_
      by_cases equal : path = old
      · simp [equal, oldOut]
      · simp [equal]
    refine ⟨⟨h.mirrors.texts.of_same rfl rfl rfl rfl, h.mirrors.agree⟩, h.settings, h.names, ?_⟩
    intro other list' found
    rw [Table.get?_insert] at found
    split at found
    next equal =>
      subst equal
      cases found
      cases new? with
      | none => exact ⟨erased.1, erased.2.trans view⟩
      | some new =>
        dsimp only
        unfold Index.enlist
        split
        · refine ⟨Names.insert_ordered erased.1, ?_⟩
          rw [Names.filter_insert erased.1, if_neg (by simp [newOut new rfl])]
          exact erased.2.trans view
        · exact ⟨erased.1, erased.2.trans view⟩
    next => exact h.lists other list' found

theorem Index.follows_answers :
    Job.Answers (Index.perform f) (Index.Follows f s t kept hidden) f hidden fun v path =>
      v.tree.isFile path = true where
  read {i v} path h := by
    obtain ⟨mirrors, answer⟩ := (Index.mirrors_answers f hidden).read path h.mirrors
    obtain ⟨-, -, asked, texts, readings, frame⟩ := Index.read_spec h.mirrors.texts path
    refine ⟨⟨mirrors, ?_, ?_, ?_⟩, answer⟩
    all_goals simp only [Index.perform, frame]
    · exact h.settings
    · exact h.names
    · exact h.lists
  specifiers {i v} path h := by
    obtain ⟨mirrors, answer⟩ := (Index.mirrors_answers f hidden).specifiers path h.mirrors
    obtain ⟨-, -, asked, texts, parsed, readings, parses, frame⟩ :=
      Index.specifiers_spec h.mirrors.texts path
    refine ⟨⟨mirrors, ?_, ?_, ?_⟩, answer⟩
    all_goals simp only [Index.perform, frame]
    · exact h.settings
    · exact h.names
    · exact h.lists
  write {i v} path text h visible file :=
    h.write ((h.mirrors.agree.isFile path).trans file)
      ((Index.mirrors_answers f hidden).write path text h.mirrors visible trivial)
  writeHidden {i v} path text h isHidden :=
    h.write (h.mirrors.agree.present path isHidden).1
      ((Index.mirrors_answers f hidden).writeHidden path text h.mirrors isHidden)

theorem Plain.follows_answers :
    Job.Answers (Plain.perform f s) (Plain.Follows t hidden) f hidden fun v path =>
      v.tree.isFile path = true where
  read path h := ⟨h, h.agree.text path⟩
  specifiers path h := ⟨h, fun visible => FileTree.specifiers_congr f (h.agree.text path visible)⟩
  write {a v} path text h visible file := by
    have member := FileTree.isFile_iff.1 ((h.agree.isFile path).trans file)
    exact ⟨h.agree.write path text, (FileTree.names_write_of_isFile text member).trans h.names⟩
  writeHidden {a v} path text h isHidden := by
    have member := FileTree.isFile_iff.1 (h.agree.present path isHidden).1
    exact ⟨h.agree.writeHidden isHidden text,
      (FileTree.names_write_of_isFile text member).trans h.names⟩

/-- Lists that agree on the files in view. -/
def Job.ListsView {σ : Type} (perform : {β : Type} → FileOp β → σ → β × σ)
    (stands : σ → Plain → Prop) (s : ScanSettings) (t : FileTree) (kept : String → Bool) : Prop :=
  ∀ {st v} root, stands st v → stands (perform (.sourceFiles root) st).2 v ∧
    (perform (.sourceFiles root) st).1.filter kept = t.inView s kept root

theorem Job.does_sourceFiles {σ : Type} {perform : {β : Type} → FileOp β → σ → β × σ}
    {stands : σ → Plain → Prop} {v : Plain} (lists : Job.ListsView @perform stands s t kept)
    (root : String) :
    Job.Does @perform stands (Job.sourceFiles root) v fun files v' =>
      v' = v ∧ files.filter kept = t.inView s kept root := by
  intro st related
  obtain ⟨after, view⟩ := lists root related
  exact ⟨v, after, rfl, view⟩

/-- States that answer rightly about certain files, and have them in the lists of the roots where
they are `due`. -/
structure Job.Presents {σ : Type} (perform : {β : Type} → FileOp β → σ → β × σ)
    (stands : σ → Plain → Prop) (f : Finder) (hidden : String → Prop)
    (fit : Plain → String → Prop) (v : Plain) (due : String → String → Prop) : Prop where
  answers : Job.Answers @perform stands f hidden fit
  visible : ∀ {root path}, due root path → ¬ hidden path
  lists : ∀ root, Job.Does @perform stands (Job.sourceFiles root) v fun files v' =>
    v' = v ∧ ∀ path, due root path → path ∈ files

theorem Job.ListsView.presents {σ : Type} {perform : {β : Type} → FileOp β → σ → β × σ}
    {stands : σ → Plain → Prop} {fit : Plain → String → Prop}
    (lists : Job.ListsView @perform stands s t kept)
    (answers : Job.Answers @perform stands f hidden fit)
    (visible : ∀ path, kept path = true → ¬ hidden path) (v : Plain) :
    Job.Presents @perform stands f hidden fit v fun root path => path ∈ t.inView s kept root where
  answers := answers
  visible due := visible _ (List.mem_filter.1 due).2
  lists root := by
    apply (Job.does_sourceFiles lists root).mono
    intro files v' after
    refine ⟨after.1, fun path due => ?_⟩
    rw [← after.2] at due
    exact (List.mem_filter.1 due).1

theorem Index.follows_lists (scene : t.IsScene kept) :
    Job.ListsView (Index.perform f) (Index.Follows f s t kept hidden) s t kept := by
  intro i v root h
  obtain ⟨asked, lists, endless, frame⟩ := i.sourceFiles_frame root
  simp only [Index.perform]
  unfold Index.sourceFiles at frame ⊢
  cases look : i.lists.get? root with
  | some list => exact ⟨h, (h.lists root list look).2⟩
  | none =>
    obtain ⟨asked, endless, after⟩ := i.scan_frame root
    have ordered : (i.scan root).1.Pairwise (· < ·) := by
      have clean : i.tree.IsClean := fun path file => scene.clean path (h.names ▸ file)
      rw [i.scan_eq_reached (clean.solidBelow root)]
      exact i.tree.reached_ordered ..
    have view := scene.scan i h.names root
    rw [h.settings] at view
    refine ⟨⟨⟨?_, ?_⟩, ?_, ?_, ?_⟩, view⟩
    all_goals simp only [after]
    · exact h.mirrors.texts.of_same rfl rfl rfl rfl
    · exact h.mirrors.agree.of_files rfl rfl rfl
    · exact h.settings
    · exact h.names
    · intro other list found
      rw [Table.get?_insert] at found
      split at found
      next equal =>
        cases found
        exact equal ▸ ⟨ordered, view⟩
      next => exact h.lists other list found

theorem Plain.follows_lists (scene : t.IsScene kept) :
    Job.ListsView (Plain.perform f s) (Plain.Follows t hidden) s t kept :=
  fun root h => ⟨h, scene.scan (Index.new _ s) h.names root⟩

end Lists
end Rehome
