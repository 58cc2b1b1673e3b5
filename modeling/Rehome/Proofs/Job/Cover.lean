import Rehome.Proofs.Job.Attending

/-!
# Lists that miss nothing

An index may list a file that a walk through the tree would not come to, but wherever a walk ends,
also in a tree with a file below another, it leaves out nothing but a path that is going to be
deleted.
-/
namespace Rehome

open Specifier (Finder)

/-! ## What a walk comes to -/

theorem FileTree.reached_congr {t u : FileTree} (same : t.files = u.files) (s : ScanSettings)
    (root : String) :
    t.reached s root = u.reached s root := by
  unfold reached hides
  rw [same]

/-- A new file adds at most itself to what a walk comes to. -/
theorem FileTree.mem_reached_of_write {t : FileTree} {s : ScanSettings}
    {root path text other : String} (h : other ∈ (t.write path text).reached s root)
    (differs : other ≠ path) : other ∈ t.reached s root := by
  obtain ⟨file, lists, clear⟩ := mem_reached.1 h
  rw [names_write, Names.mem_insert] at file
  refine mem_reached.2 ⟨file.resolve_left differs, lists, ?_⟩
  rw [← Bool.not_eq_true, hides_eq_true_iff] at clear ⊢
  rintro ⟨above, old, below⟩
  exact clear ⟨above, by rw [names_write, Names.mem_insert]; exact .inr old, below⟩

theorem FileTree.lists_of_mem_reached {t : FileTree} {s : ScanSettings} {root path : String}
    (h : path ∈ t.reached s root) : s.lists root path = true := (mem_reached.1 h).2.1

theorem Index.mem_enlist {s : ScanSettings} {root path other : String} {list : List String}
    (h : other ∈ list) :
    other ∈ Index.enlist s root path list := by
  unfold Index.enlist
  split
  · exact Names.mem_insert.2 (.inr h)
  · exact h

/-- An index that mirrors a plain state and whose lists leave out at most `gone`, as far as a walk
would end. -/
structure Index.Covers (f : Finder) (s : ScanSettings) (gone : String) (i : Index) (v : Plain) :
    Prop where
  mirrors : i.Mirrors f (fun _ => False) v
  settings : i.settings = s
  lists : ∀ root list, i.lists.get? root = some list → i.tree.IsSolidBelow root →
    list.Pairwise (· < ·) ∧ ∀ path ∈ i.tree.reached s root, path ≠ gone → path ∈ list

section

variable {f : Finder} {s : ScanSettings} {gone : String} {i : Index} {v : Plain}

theorem Index.Covers.write (h : i.Covers f s gone v) (path text : String) :
    (i.write path text).Covers f s gone (v.write path text) := by
  refine ⟨(Index.mirrors_answers f _).write path text h.mirrors id trivial, h.settings, ?_⟩
  intro root list look solid
  simp only [Index.write, Table.get?_map] at look
  obtain ⟨old, found, rfl⟩ := Option.map_eq_some_iff.1 look
  have before : i.tree.IsSolidBelow root := by
    apply solid.mono
    intro other file
    simp only [Index.write, FileTree.names_write, Names.mem_insert]
    exact .inr file
  obtain ⟨ordered, all⟩ := h.lists root old found before
  rw [h.settings]
  refine ⟨Index.enlist_ordered ordered, fun other reached differs => ?_⟩
  by_cases same : other = path
  · have lists := FileTree.lists_of_mem_reached reached
    subst same
    rw [Index.enlist, if_pos lists]
    exact Names.mem_insert.2 (.inl rfl)
  · exact Index.mem_enlist (all other (FileTree.mem_reached_of_write reached same) differs)

theorem Index.covers_answers :
    Job.Answers (Index.perform f) (Index.Covers f s gone) f (fun _ => False) fun _ _ => True where
  read {i v} path h := by
    obtain ⟨mirrors, answer⟩ := (Index.mirrors_answers f _).read path h.mirrors
    obtain ⟨-, -, asked, texts, readings, frame⟩ := Index.read_spec h.mirrors.texts path
    refine ⟨⟨mirrors, ?_, ?_⟩, answer⟩
    all_goals simp only [Index.perform, frame]
    · exact h.settings
    · exact h.lists
  specifiers {i v} path h := by
    obtain ⟨mirrors, answer⟩ := (Index.mirrors_answers f _).specifiers path h.mirrors
    obtain ⟨-, -, asked, texts, parsed, readings, parses, frame⟩ :=
      Index.specifiers_spec h.mirrors.texts path
    refine ⟨⟨mirrors, ?_, ?_⟩, answer⟩
    all_goals simp only [Index.perform, frame]
    · exact h.settings
    · exact h.lists
  write path text h _ _ := h.write path text
  writeHidden path text h hidden := hidden.elim

/-- A list that is made or kept has all that a walk comes to. -/
theorem Index.covers_lists (h : i.Covers f s gone v) (root : String) :
    (i.sourceFiles root).2.Covers f s gone v ∧
      (v.tree.IsSolidBelow root → (i.sourceFiles root).1.Pairwise (· < ·) ∧
        ∀ path ∈ v.tree.reached s root, path ≠ gone → path ∈ (i.sourceFiles root).1) := by
  have files : i.tree.files = v.tree.files := h.mirrors.agree.files_eq
  rw [← FileTree.reached_congr files, FileTree.IsSolidBelow, ← files]
  unfold Index.sourceFiles
  cases look : i.lists.get? root with
  | some list => exact ⟨h, h.lists root list look⟩
  | none =>
    obtain ⟨asked, endless, after⟩ := i.scan_frame root
    have made : i.tree.IsSolidBelow root → (i.scan root).1.Pairwise (· < ·) ∧
        ∀ path ∈ i.tree.reached s root, path ≠ gone → path ∈ (i.scan root).1 := by
      intro solid
      rw [i.scan_eq_reached solid, h.settings]
      exact ⟨i.tree.reached_ordered .., fun path member _ => member⟩
    refine ⟨⟨⟨?_, ?_⟩, ?_, ?_⟩, made⟩
    all_goals simp only [after]
    · exact h.mirrors.texts.of_same rfl rfl rfl rfl
    · exact h.mirrors.agree.of_files rfl rfl rfl
    · exact h.settings
    · intro other list kept
      rw [Table.get?_insert] at kept
      split at kept
      next equal =>
        subst equal
        cases kept
        exact made
      next => exact h.lists other list kept

theorem Index.Covers.relist (h : i.Covers f s gone v) (root : String) (new? : Option String) :
    (i.relist root gone new?).Covers f s gone v := by
  unfold Index.relist
  split
  next => exact h
  next list look =>
    refine ⟨⟨h.mirrors.texts.of_same rfl rfl rfl rfl, h.mirrors.agree⟩, h.settings, ?_⟩
    intro other list' found solid
    rw [Table.get?_insert] at found
    split at found
    next equal =>
      subst equal
      cases found
      obtain ⟨ordered, all⟩ := h.lists _ list look solid
      have erased : ∀ path ∈ i.tree.reached s root, path ≠ gone → path ∈ Names.erase gone list :=
        fun path member differs => (List.mem_erase_of_ne differs).2 (all path member differs)
      cases new? with
      | none => exact ⟨Names.erase_ordered ordered, erased⟩
      | some new =>
        exact ⟨Index.enlist_ordered (Names.erase_ordered ordered),
          fun path member differs => Index.mem_enlist (erased path member differs)⟩
    next => exact h.lists other list' found solid

/-- While a request is checked nothing is left out of a list. -/
theorem Job.SeesAll.covers {t : FileTree} (h : Job.SeesAll f s t i ⟨t, []⟩) (gone : String) :
    i.Covers f s gone ⟨t, []⟩ := by
  have files : i.tree.files = t.files := h.mirrors.agree.files_eq
  refine ⟨h.mirrors, h.settings, ?_⟩
  intro root list look _
  have whole : list = t.listed s root := by
    simpa [FileTree.inView] using (h.lists root list look).2
  refine ⟨(h.lists root list look).1, fun path member _ => ?_⟩
  rw [FileTree.reached_congr files] at member
  obtain ⟨file, lists, -⟩ := FileTree.mem_reached.1 member
  rw [whole]
  exact FileTree.mem_listed.2 ⟨file, lists⟩

theorem Index.does_sourceFiles (root : String) :
    Job.Does (Index.perform f) (Index.Covers f s gone) (Job.sourceFiles root) v fun files v' =>
      v' = v ∧ (v.tree.IsSolidBelow root →
        files.Nodup ∧ ∀ path ∈ v.tree.reached s root, path ≠ gone → path ∈ files) := by
  intro i h
  obtain ⟨after, lists⟩ := Index.covers_lists h root
  exact ⟨v, after, rfl, fun solid =>
    ⟨Names.nodup_of_increasing (lists solid).1, (lists solid).2⟩⟩

theorem Index.covers_attends :
    Job.Attends (Index.perform f) (Index.Covers f s gone) f fun _ _ => True where
  answers := Index.covers_answers
  fits _ := trivial
  lists root h := (Index.covers_lists h root).1

/-- Whatever a walk that ends comes to is due in the lists, the path that goes apart. -/
theorem Index.covers_presents (v : Plain) :
    Job.Presents (Index.perform f) (Index.Covers f s gone) f (fun _ => False) (fun _ _ => True) v
      fun root path => v.tree.IsSolidBelow root ∧ path ∈ v.tree.reached s root ∧ path ≠ gone where
  answers := Index.covers_answers
  visible _ := id
  lists root := by
    apply (Index.does_sourceFiles root).mono
    intro files v' after
    exact ⟨after.1, fun path due => (after.2 due.1).2 path due.2.1 due.2.2⟩

end
end Rehome
