import Rehome.Proofs.Job.Search
import Rehome.Proofs.Job.Standing

/-!
# Two runs side by side

Two runs of a job are followed together, on two indexes over the same paths. The texts of some
hidden files may differ, as long as neither text holds a specifier. Such a file may be read, and the
runs may then know different things about it, but no answer that a job acts on depends on it.
-/
namespace Rehome

open Specifier

/-! ## Jobs and sessions that agree -/

namespace Job

variable {σ α β : Type} (perform : {β : Type} → FileOp β → σ → β × σ) (twins : σ → σ → Prop)

/-- From two states that are twins, the jobs come to the same answer and to twins. -/
def Alike (x y : Job α) : Prop :=
  ∀ st st', twins st st' → (y.run @perform st').1 = (x.run @perform st).1 ∧
    twins (x.run @perform st).2 (y.run @perform st').2

variable {perform twins}

theorem alike_pure (a : α) : Alike @perform twins (pure a) (pure a) := fun _ _ h => ⟨rfl, h⟩

theorem Alike.bind {x y : Job α} {k l : α → Job β} (first : Alike @perform twins x y)
    (later : ∀ a, Alike @perform twins (k a) (l a)) :
    Alike @perform twins (x >>= k) (y >>= l) := by
  intro st st' h
  obtain ⟨same, after⟩ := first st st' h
  rw [run_bind, run_bind, same]
  exact later _ _ _ after

end Job

namespace Move.Session

variable {σ α β : Type} (perform : {β : Type} → FileOp β → σ → β × σ) (twins : σ → σ → Prop)

/-- From two states that are twins, the sessions come to the same result, know the same of the
graph, and leave twins. -/
def Alike (x y : Session α) : Prop :=
  ∀ c st st', twins st st' → (play @perform y c st').1 = (play @perform x c st).1 ∧
    twins (play @perform x c st).2 (play @perform y c st').2

variable {perform twins}

theorem alike_pure (a : α) : Alike @perform twins (pure a) (pure a) := fun _ _ _ h => ⟨rfl, h⟩

theorem alike_get : Alike @perform twins (get : Session Graph.Cache) get :=
  fun _ _ _ h => ⟨rfl, h⟩

theorem alike_set (c : Graph.Cache) : Alike @perform twins (set c : Session PUnit) (set c) :=
  fun _ _ _ h => ⟨rfl, h⟩

theorem alike_check (e : Except Error α) : Alike @perform twins (check e) (check e) :=
  fun _ _ _ h => ⟨rfl, h⟩

theorem alike_onFiles {x y : Job α} (alike : Job.Alike @perform twins x y) :
    Alike @perform twins (onFiles x) (onFiles y) := by
  intro c st st' h
  obtain ⟨same, after⟩ := alike st st' h
  rw [play_onFiles, play_onFiles, same]
  exact ⟨rfl, after⟩

theorem Alike.bind {x y : Session α} {k l : α → Session β} (first : Alike @perform twins x y)
    (later : ∀ a, Alike @perform twins (k a) (l a)) :
    Alike @perform twins (x >>= k) (y >>= l) := by
  intro c st st' h
  have here := first c st st' h
  rw [play_bind, play_bind]
  generalize play @perform x c st = outcome at here
  generalize play @perform y c st' = outcome' at here
  obtain ⟨answer, left⟩ := outcome
  obtain ⟨⟨result, c'⟩, right⟩ := outcome'
  obtain ⟨rfl, after⟩ := here
  cases result with
  | ok a => exact later a c' left right after
  | error e => exact ⟨rfl, after⟩

/-- What follows a check may rely on it. -/
theorem alike_check_bind {e : Except Error α} {k l : α → Session β}
    (later : ∀ a, e = .ok a → Alike @perform twins (k a) (l a)) :
    Alike @perform twins (check e >>= k) (check e >>= l) := by
  intro c st st' h
  rw [play_bind, play_bind, play_check, play_check]
  cases e with
  | ok a => exact later a rfl c st st' h
  | error e => exact ⟨rfl, h⟩

end Move.Session

/-! ## Looking at texts -/

namespace Index

/-- An index after looks at texts: it may know more of them, and nothing else is different. -/
structure Learns (f : Finder) (i i' : Index) : Prop where
  keeps : i'.KeepsTexts f
  frame : ∃ asked texts parsed readings parses,
    i' = { i with tree := { i.tree with asked }, texts, parsed, readings, parses }

variable {f : Finder}

theorem Learns.refl {i : Index} (keeps : i.KeepsTexts f) : i.Learns f i :=
  ⟨keeps, i.tree.asked, i.texts, i.parsed, i.readings, i.parses, rfl⟩

/-- After looks at texts an index still answers from the same files. -/
theorem learns_answers (f : Finder) (i : Index) :
    Job.Answers (Index.perform f) (fun i' v => i.Learns f i' ∧ v = i.plain) f (fun _ => False)
      fun _ _ => False where
  read := by
    rintro _ _ path ⟨⟨keeps, asked, texts, parsed, readings, parses, rfl⟩, rfl⟩
    obtain ⟨answer, after, asked', texts', readings', frame⟩ := read_spec keeps path
    exact ⟨⟨⟨after, asked', texts', parsed, readings', parses, frame⟩, rfl⟩, fun _ => answer⟩
  specifiers := by
    rintro _ _ path ⟨⟨keeps, asked, texts, parsed, readings, parses, rfl⟩, rfl⟩
    obtain ⟨answer, after, asked', texts', parsed', readings', parses', frame⟩ :=
      specifiers_spec keeps path
    exact ⟨⟨⟨after, asked', texts', parsed', readings', parses', frame⟩, rfl⟩, fun _ => answer⟩
  write _ _ _ _ fit := fit.elim
  writeHidden _ _ _ hidden := hidden.elim

end Index

namespace Job

variable {α β : Type} {f : Finder} {i : Index} {t : FileTree}

/-- The job only looks at texts of the index; its answer is as described. -/
def Looks (f : Finder) (i : Index) (x : Job α) (post : α → Prop) : Prop :=
  Does (Index.perform f) (fun i' v => i.Learns f i' ∧ v = i.plain) x i.plain fun a _ => post a

theorem looks_pure {a : α} {post : α → Prop} (holds : post a) : Looks f i (pure a) post :=
  does_pure holds

theorem Looks.bind {x : Job α} {k : α → Job β} {mid : α → Prop} {post : β → Prop}
    (first : Looks f i x mid) (later : ∀ a, mid a → Looks f i (k a) post) :
    Looks f i (x >>= k) post := by
  intro i' related
  obtain ⟨v, after, here⟩ := first i' related
  rw [run_bind]
  exact later _ here _ ⟨after.1, rfl⟩

theorem looks_read (path : String) : Looks f i (read path) (· = i.tree.text? path) :=
  (does_read (i.learns_answers f) path).mono fun _ _ answer => answer.2 id

theorem looks_specifiers (path : String) :
    Looks f i (specifiers path) (· = i.tree.specifiers f path) :=
  (does_specifiers (i.learns_answers f) path).mono fun _ _ answer => answer.2 id

/-- The edit of a file without specifiers comes to nothing. -/
theorem looks_editFile {path : String} {edit : List Occurrence → List Char → Option (List Char)}
    (idle : ∀ text, edit [] text = none) (unread : i.tree.specifiers f path = []) :
    Looks f i (editFile path edit) (· = false) := by
  refine (looks_read path).bind fun text? _ => ?_
  cases text? with
  | none => exact looks_pure rfl
  | some text =>
    refine (looks_specifiers path).bind ?_
    rintro found rfl
    simp only [unread, idle]
    exact looks_pure rfl

theorem looks_replaceWhere {path : String} (chosen : String → Bool) (change : String → String)
    (unread : i.tree.specifiers f path = []) :
    Looks f i (replaceWhere path chosen change) (· = false) := looks_editFile (fun _ => rfl) unread

theorem looks_mayHold (path value : String) : Looks f i (mayHold path value) fun _ => True := by
  refine (looks_read path).bind fun text? _ => ?_
  cases text? with
  | none => exact looks_pure trivial
  | some text => exact looks_pure trivial

theorem looks_hasSpecifier {path : String} (value : String)
    (unread : i.tree.specifiers f path = []) :
    Looks f i (hasSpecifier path value) (· = false) := by
  refine (looks_mayHold path value).bind fun may _ => ?_
  cases may with
  | false => exact looks_pure rfl
  | true =>
    refine (looks_specifiers path).bind ?_
    rintro found rfl
    rw [unread]
    exact looks_pure rfl

theorem looks_replaceSpecifier {path : String} (old new : String)
    (unread : i.tree.specifiers f path = []) :
    Looks f i (replaceSpecifier path old new) (· = false) := by
  unfold replaceSpecifier
  split
  · exact looks_pure rfl
  · refine (looks_mayHold path old).bind fun may _ => ?_
    cases may with
    | false => exact looks_pure rfl
    | true => exact looks_replaceWhere _ _ unread

/-- A file without specifiers does not refer to anything. -/
theorem refers_eq_false {q : Query} {path : String} (unread : t.specifiers f path = []) :
    (t.text? path).any (Search.refers f q path) = false := by
  unfold FileTree.specifiers at unread
  cases found : t.text? path with
  | none => rfl
  | some text =>
    simp only [found] at unread
    rw [Option.any_some, Search.refers, unread, List.any_nil, Bool.and_false]

/-- A search only looks, and tells whether a candidate refers. -/
theorem looks_any (settings : ScanSettings) (s : Search.Schedule) (q : Query)
    (candidates : List String) :
    Looks f i (Search.any f settings s q candidates)
      (· = candidates.any fun path => (i.tree.text? path).any (Search.refers f q path)) := by
  refine (Search.does_any (i.learns_answers f) settings s q candidates).mono ?_
  rintro answer _ ⟨-, tells⟩
  rw [Bool.eq_iff_iff, List.any_eq_true]
  simp only [Option.any_eq_true]
  constructor
  · intro yes
    obtain ⟨path, inside, refersTo⟩ := tells.sound yes
    exact ⟨path, inside, refersTo id⟩
  · rintro ⟨path, inside, refersTo⟩
    exact tells.complete path inside id refersTo

end Job

/-! ## Indexes that differ in hidden files -/

namespace Index

/-- Two indexes over the same paths that know the same of them. Only texts of hidden files may
differ, and the kept ones are still those of `t` and `u`. -/
structure Twins (f : Finder) (hidden kept : String → Prop) (t u : FileTree) (i j : Index) :
    Prop where
  left : i.KeepsTexts f
  right : j.KeepsTexts f
  settings : j.settings = i.settings
  existence : j.existence = i.existence
  lists : j.lists = i.lists
  touched : j.touched = i.touched
  names : j.tree.files.names = i.tree.files.names
  shown : ∀ path, ¬ hidden path → j.tree.text? path = i.tree.text? path
  still : ∀ path, kept path → i.tree.text? path = t.text? path ∧ j.tree.text? path = u.text? path

namespace Twins

variable {f : Finder} {hidden kept : String → Prop} {t u : FileTree} {i j : Index}

theorem mono (h : Twins f hidden kept t u i j) {fewer : String → Prop}
    (weaker : ∀ path, fewer path → kept path) : Twins f hidden fewer t u i j :=
  { h with still := fun path inside => h.still path (weaker path inside) }

theorem learns (h : Twins f hidden kept t u i j) {i' j' : Index} (one : i.Learns f i')
    (other : j.Learns f j') : Twins f hidden kept t u i' j' := by
  obtain ⟨left, _, _, _, _, _, rfl⟩ := one
  obtain ⟨right, _, _, _, _, _, rfl⟩ := other
  exact ⟨left, right, h.settings, h.existence, h.lists, h.touched, h.names, h.shown, h.still⟩

/-- Both indexes note the same about paths; the trees may have been asked different things. -/
theorem note (h : Twins f hidden kept t u i j) (asked asked' : Questions)
    {existence existence' : Table Bool} {lists lists' : Table (List String)}
    {endless endless' : Bool} (exist : existence' = existence) (listed : lists' = lists) :
    Twins f hidden kept t u { i with tree := { i.tree with asked }, existence, lists, endless }
      { j with
        tree := { j.tree with asked := asked' }, existence := existence', lists := lists'
        endless := endless' } :=
  ⟨h.left.of_same rfl rfl rfl rfl, h.right.of_same rfl rfl rfl rfl, h.settings, exist, listed,
    h.touched, h.names, h.shown, h.still⟩

theorem isFile (h : Twins f hidden kept t u i j) (path : String) :
    j.tree.isFile path = i.tree.isFile path := by
  rw [Bool.eq_iff_iff, FileTree.isFile_iff, FileTree.isFile_iff, h.names]

theorem pathsBelow (h : Twins f hidden kept t u i j) (dir : String) :
    j.tree.pathsBelow dir = i.tree.pathsBelow dir := by
  rw [FileTree.pathsBelow, FileTree.pathsBelow, h.names]

/-- Both runs write a file, with the same text unless the file is hidden. -/
theorem write (h : Twins f hidden kept t u i j) {path text text' : String} (spared : ¬ kept path)
    (same : ¬ hidden path → text' = text) :
    Twins f hidden kept t u (i.write path text) (j.write path text') where
  left := h.left.write path text
  right := h.right.write path text'
  settings := h.settings
  existence := by simp only [Index.write, h.existence]
  lists := by simp only [Index.write, h.lists, h.settings]
  touched := by simp only [Index.write, h.touched]
  names := by simp only [Index.write, FileTree.names_write, h.names]
  shown other visible := by
    simp only [Index.write, FileTree.text?_write]
    split
    next here => rw [same (here ▸ visible)]
    next => exact h.shown other visible
  still other inside := by
    have elsewhere : path ≠ other := fun here => spared (here ▸ inside)
    simp only [Index.write, FileTree.text?_write, if_neg elsewhere]
    exact h.still other inside

theorem delete (h : Twins f hidden kept t u i j) {path : String} (spared : ¬ kept path) :
    Twins f hidden kept t u (i.delete path) (j.delete path) where
  left := h.left.delete path
  right := h.right.delete path
  settings := h.settings
  existence := by simp only [Index.delete, h.existence]
  lists := by simp only [Index.delete, h.lists]
  touched := by simp only [Index.delete, h.touched]
  names := by simp only [Index.delete, FileTree.names_delete, h.names]
  shown other visible := by
    simp only [Index.delete, FileTree.text?_delete]
    split
    next => rfl
    next => exact h.shown other visible
  still other inside := by
    have elsewhere : path ≠ other := fun here => spared (here ▸ inside)
    simp only [Index.delete, FileTree.text?_delete, if_neg elsewhere]
    exact h.still other inside

theorem relist (h : Twins f hidden kept t u i j) (root old : String) (new? : Option String) :
    Twins f hidden kept t u (i.relist root old new?) (j.relist root old new?) := by
  unfold Index.relist
  rw [h.lists]
  cases i.lists.get? root with
  | none => exact h
  | some list => exact h.note i.tree.asked j.tree.asked h.existence (by rw [h.settings])

theorem exist (h : Twins f hidden kept t u i j) (path : String) :
    (j.exist path).1 = (i.exist path).1 ∧
      Twins f hidden kept t u (i.exist path).2 (j.exist path).2 := by
  unfold Index.exist
  rw [h.existence]
  cases i.existence.get? path with
  | some known => exact ⟨rfl, h⟩
  | none =>
    have same : j.tree.holds path = i.tree.holds path := by
      rw [FileTree.holds, FileTree.holds, h.isFile, h.pathsBelow]
    simp only [FileTree.askExists, same]
    exact ⟨trivial, h.note _ _ rfl h.lists⟩

theorem sourceFiles (h : Twins f hidden kept t u i j) (root : String) :
    (j.sourceFiles root).1 = (i.sourceFiles root).1 ∧
      Twins f hidden kept t u (i.sourceFiles root).2 (j.sourceFiles root).2 := by
  unfold Index.sourceFiles
  rw [h.lists]
  cases i.lists.get? root with
  | some list => exact ⟨rfl, h⟩
  | none =>
    have same := Index.scan_congr h.names h.settings root
    obtain ⟨asked, endless, frame⟩ := i.scan_frame root
    obtain ⟨asked', endless', frame'⟩ := j.scan_frame root
    simp only [frame, frame', same, h.lists]
    exact ⟨trivial, h.note asked asked' h.existence rfl⟩

end Twins
end Index

/-! ## Steps that agree -/

/-- In neither tree a hidden file shows a specifier. -/
def FileTree.Unread (f : Finder) (hidden : String → Prop) (t u : FileTree) : Prop :=
  ∀ path, hidden path → t.specifiers f path = [] ∧ u.specifiers f path = []

/-- A file shows no specifier if it is not read, or if its text cannot be. -/
theorem FileTree.specifiers_of_unreadable {f : Finder} {t : FileTree} {path : String}
    (fails : f.handles path = false ∨ (t.text? path).all fun text => (f.read? path text).isNone) :
    t.specifiers f path = [] := by
  unfold FileTree.specifiers Finder.occurrences
  cases found : t.text? path with
  | none => rfl
  | some text =>
    rcases fails with unhandled | unreadable
    · simp [unhandled]
    · rw [found, Option.all_some, Option.isNone_iff_eq_none] at unreadable
      simp [unreadable]

/-- Trees of the same files, with the same texts except in hidden files, where neither shows a
specifier. -/
structure FileTree.DifferUnread (f : Finder) (hidden : String → Prop) (t u : FileTree) :
    Prop where
  names : u.files.names = t.files.names
  texts : ∀ path, ¬ hidden path → u.text? path = t.text? path
  files : ∀ path, hidden path → t.isFile path = true
  unread : t.Unread f hidden u

theorem Index.twins_new {f : Finder} {hidden : String → Prop} {t u : FileTree}
    (differ : t.DifferUnread f hidden u) (s : ScanSettings) :
    (new t s).Twins f hidden hidden t u (new u s) :=
  ⟨keepsTexts_new f t s, keepsTexts_new f u s, rfl, rfl, rfl, rfl, differ.names, differ.texts,
    fun _ _ => ⟨rfl, rfl⟩⟩

section

variable {f : Finder} {hidden : String → Prop} {t u : FileTree} {i j : Index}

theorem Index.Twins.specifiers_eq_nil (h : i.Twins f hidden hidden t u j)
    (unread : t.Unread f hidden u) {path : String} (isHidden : hidden path) :
    i.tree.specifiers f path = [] ∧ j.tree.specifiers f path = [] := by
  have none := unread path isHidden
  obtain ⟨left, right⟩ := h.still path isHidden
  rwa [FileTree.specifiers, FileTree.specifiers, ← left, ← right] at none

theorem Index.Twins.specifiers (h : i.Twins f hidden hidden t u j) (unread : t.Unread f hidden u)
    (path : String) : j.tree.specifiers f path = i.tree.specifiers f path := by
  by_cases isHidden : hidden path
  · obtain ⟨left, right⟩ := h.specifiers_eq_nil unread isHidden
    rw [left, right]
  · rw [FileTree.specifiers, FileTree.specifiers, h.shown path isHidden]

end

namespace Job

variable {α : Type} {f : Finder} {hidden kept : String → Prop} {t u : FileTree}

/-- Jobs that only look agree if they have one answer for twins. -/
theorem alike_of_looks {x y : Job α}
    (same : ∀ i j, Index.Twins f hidden kept t u i j →
      ∃ a, Looks f i x (· = a) ∧ Looks f j y (· = a)) :
    Alike (Index.perform f) (Index.Twins f hidden kept t u) x y := by
  intro i j h
  obtain ⟨a, one, other⟩ := same i j h
  obtain ⟨_, ⟨left, -⟩, answer⟩ := one i ⟨.refl h.left, rfl⟩
  obtain ⟨_, ⟨right, -⟩, answer'⟩ := other j ⟨.refl h.right, rfl⟩
  exact ⟨answer'.trans answer.symm, h.learns left right⟩

theorem alike_exist (path : String) :
    Alike (Index.perform f) (Index.Twins f hidden kept t u) (exist path) (exist path) :=
  fun _ _ h => h.exist path

theorem alike_sourceFiles (root : String) :
    Alike (Index.perform f) (Index.Twins f hidden kept t u) (sourceFiles root)
      (sourceFiles root) := fun _ _ h => h.sourceFiles root

theorem alike_relist (root old : String) (new? : Option String) :
    Alike (Index.perform f) (Index.Twins f hidden kept t u) (relist root old new?)
      (relist root old new?) := fun _ _ h => ⟨rfl, h.relist root old new?⟩

theorem alike_touched :
    Alike (Index.perform f) (Index.Twins f hidden kept t u) touched touched :=
  fun _ _ h => ⟨h.touched, h⟩

theorem alike_write {path : String} (spared : ¬ kept path) (text : String) :
    Alike (Index.perform f) (Index.Twins f hidden kept t u) (write path text) (write path text) :=
  fun _ _ h => ⟨rfl, h.write spared fun _ => rfl⟩

theorem alike_delete {path : String} (spared : ¬ kept path) :
    Alike (Index.perform f) (Index.Twins f hidden kept t u) (delete path) (delete path) :=
  fun _ _ h => ⟨rfl, h.delete spared⟩

theorem alike_read {path : String} (visible : ¬ hidden path) :
    Alike (Index.perform f) (Index.Twins f hidden kept t u) (read path) (read path) :=
  alike_of_looks fun i _ h =>
    ⟨i.tree.text? path, looks_read path, h.shown path visible ▸ looks_read path⟩

theorem alike_mayHold {path : String} (visible : ¬ hidden path) (value : String) :
    Alike (Index.perform f) (Index.Twins f hidden kept t u) (mayHold path value)
      (mayHold path value) := by
  refine (alike_read visible).bind fun text? => ?_
  cases text? with
  | none => exact alike_pure false
  | some text => exact alike_pure _

section Unread

variable (unread : t.Unread f hidden u)
include unread

theorem alike_specifiers (path : String) :
    Alike (Index.perform f) (Index.Twins f hidden hidden t u) (specifiers path)
      (specifiers path) :=
  alike_of_looks fun i _ h => ⟨i.tree.specifiers f path, looks_specifiers path,
    h.specifiers unread path ▸ looks_specifiers path⟩

/-- What idles at a file without specifiers, and agrees at every other one, agrees. -/
theorem alike_of_idle {path : String} {x : Job Bool}
    (idle : ∀ i : Index, i.tree.specifiers f path = [] → Looks f i x (· = false))
    (alike : ¬ hidden path →
      Alike (Index.perform f) (Index.Twins f hidden hidden t u) x x) :
    Alike (Index.perform f) (Index.Twins f hidden hidden t u) x x := by
  by_cases isHidden : hidden path
  · refine alike_of_looks fun i j h => ⟨false, ?_⟩
    obtain ⟨left, right⟩ := h.specifiers_eq_nil unread isHidden
    exact ⟨idle i left, idle j right⟩
  · exact alike isHidden

theorem alike_editFile (path : String)
    {edit : List Occurrence → List Char → Option (List Char)} (idle : ∀ text, edit [] text = none) :
    Alike (Index.perform f) (Index.Twins f hidden hidden t u) (editFile path edit)
      (editFile path edit) := by
  refine alike_of_idle unread (fun _ => looks_editFile idle) fun visible => ?_
  refine (alike_read visible).bind fun text? => ?_
  cases text? with
  | none => exact alike_pure false
  | some text =>
    refine (alike_specifiers unread path).bind fun found => ?_
    split
    next => exact alike_pure false
    next => exact (alike_write visible _).bind fun _ => alike_pure true

theorem alike_replaceWhere (path : String) (chosen : String → Bool) (change : String → String) :
    Alike (Index.perform f) (Index.Twins f hidden hidden t u) (replaceWhere path chosen change)
      (replaceWhere path chosen change) := alike_editFile unread path fun _ => rfl

theorem alike_removeExportsWhere (path : String) (chosen : String → Bool) :
    Alike (Index.perform f) (Index.Twins f hidden hidden t u) (removeExportsWhere path chosen)
      (removeExportsWhere path chosen) := alike_editFile unread path fun _ => rfl

theorem alike_hasSpecifier (path value : String) :
    Alike (Index.perform f) (Index.Twins f hidden hidden t u) (hasSpecifier path value)
      (hasSpecifier path value) := by
  refine alike_of_idle unread (fun _ => looks_hasSpecifier value) fun visible => ?_
  refine (alike_mayHold visible value).bind fun may => ?_
  cases may with
  | false => exact alike_pure false
  | true => exact (alike_specifiers unread path).bind fun _ => alike_pure _

theorem alike_replaceSpecifier (path old new : String) :
    Alike (Index.perform f) (Index.Twins f hidden hidden t u) (replaceSpecifier path old new)
      (replaceSpecifier path old new) := by
  refine alike_of_idle unread (fun _ => looks_replaceSpecifier old new) fun visible => ?_
  unfold replaceSpecifier
  split
  · exact alike_pure false
  · refine (alike_mayHold visible old).bind fun may => ?_
    cases may with
    | false => exact alike_pure false
    | true => exact alike_replaceWhere unread path _ _

/-- Searches agree whatever happens to their workers. -/
theorem alike_any (settings : ScanSettings) (s s' : Search.Schedule) (q : Query)
    (candidates : List String) :
    Alike (Index.perform f) (Index.Twins f hidden hidden t u)
      (Search.any f settings s q candidates) (Search.any f settings s' q candidates) := by
  refine alike_of_looks fun i j h => ⟨_, looks_any settings s q candidates, ?_⟩
  have refers : ∀ path, (j.tree.text? path).any (Search.refers f q path) =
      (i.tree.text? path).any (Search.refers f q path) := by
    intro path
    by_cases isHidden : hidden path
    · obtain ⟨left, right⟩ := h.specifiers_eq_nil unread isHidden
      rw [refers_eq_false left, refers_eq_false right]
    · rw [h.shown path isHidden]
  have other := looks_any (f := f) (i := j) settings s' q candidates
  simpa only [refers] using other

/-- An export is added to the same files. A hidden file that gains one is not kept, and the texts of
the other files stay together. -/
theorem twins_ensureWildcardExport {i j : Index} (h : i.Twins f hidden hidden t u j)
    (entry specifier : String) (same : String → Bool) (spared : ¬ kept entry)
    (fewer : ∀ path, kept path → hidden path) :
    ((ensureWildcardExport entry specifier same).run (Index.perform f) j).1 =
        ((ensureWildcardExport entry specifier same).run (Index.perform f) i).1 ∧
      Index.Twins f hidden kept t u
        ((ensureWildcardExport entry specifier same).run (Index.perform f) i).2
        ((ensureWildcardExport entry specifier same).run (Index.perform f) j).2 := by
  obtain ⟨_, ⟨read, -⟩, text⟩ := looks_read (f := f) entry i ⟨.refl h.left, rfl⟩
  obtain ⟨_, ⟨read', -⟩, text'⟩ := looks_read (f := f) entry j ⟨.refl h.right, rfl⟩
  obtain ⟨_, ⟨left, -⟩, found⟩ := looks_specifiers entry _ ⟨read, rfl⟩
  obtain ⟨_, ⟨right, -⟩, found'⟩ := looks_specifiers entry _ ⟨read', rfl⟩
  rw [h.specifiers unread] at found'
  simp only [ensureWildcardExport, run_bind, text, text', found, found']
  have looked := (h.learns left right).mono fewer
  split
  · exact ⟨rfl, looked⟩
  · exact ⟨rfl, looked.write spared fun visible => by rw [h.shown entry visible]⟩

end Unread
end Job
end Rehome
