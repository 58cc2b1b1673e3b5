import Rehome.Proofs.Index.Listed
import Mathlib.Logic.Relation

/-!
# Scans end and list every file

A scan goes on for ever just if it comes to a directory that contains itself, as one with an empty
name in it does. Otherwise the directories that wait to be entered never contain one another, and
each of them has a file below it. So every round strictly lowers the number of directories that lie
within a waiting one, and the bound of a scan, which counts more than all directories of the tree,
is never reached. Where no name is empty, no round changes what is found and still to be found,
taken together.
-/
namespace Rehome

namespace FileTree

variable {t : FileTree} {s : ScanSettings} {dir c : String} {pending : List String}

/-- The directories above the files, each as often as files lie below it. -/
def directories (t : FileTree) : List String := t.files.names.flatMap Path.ancestors

/-- Neither of two directories contains the other. -/
def Apart (a b : String) : Prop := Path.isWithin a b = false ∧ Path.isWithin b a = false

/-- No way from a directory leads to one that contains itself. -/
def IsPassable (t : FileTree) (s : ScanSettings) (dir : String) : Prop :=
  ∀ c, Relation.ReflTransGen (fun a b => b ∈ t.dirsIn s a) dir c → c ∉ t.dirsIn s c

/-- Directories that can wait to be entered. -/
structure IsFrontier (t : FileTree) (s : ScanSettings) (pending : List String) : Prop where
  passable : ∀ dir ∈ pending, t.IsPassable s dir
  real : ∀ dir ∈ pending, dir ≠ "" ∧ dir ∈ t.directories
  apart : pending.Pairwise Apart

/-- How many directories of the tree lie within a waiting one. -/
def remaining (t : FileTree) (pending : List String) : Nat :=
  t.directories.countP fun dir => pending.any (Path.isWithin dir ·)

theorem mem_directories :
    dir ∈ t.directories ↔ ∃ rest, String.ofList (dir.toList ++ '/' :: rest) ∈ t.files.names := by
  unfold directories
  rw [List.mem_flatMap]
  constructor
  · rintro ⟨path, file, member⟩
    obtain ⟨rest, cut⟩ := Path.mem_ancestors.1 member
    exact ⟨rest, by rwa [← cut, String.ofList_toList]⟩
  · rintro ⟨rest, file⟩
    exact ⟨_, file, Path.mem_ancestors.2 ⟨rest, by simp⟩⟩

theorem IsPassable.self (h : t.IsPassable s dir) : dir ∉ t.dirsIn s dir := h dir .refl

theorem IsPassable.enter (h : t.IsPassable s dir) (member : c ∈ t.dirsIn s dir) :
    t.IsPassable s c :=
  fun d leads => h d (leads.head member)

/-- Where no name is empty, every directory is longer than the one it is in. -/
theorem IsSolidBelow.isPassable (h : t.IsSolidBelow dir) (s : ScanSettings) :
    t.IsPassable s dir := by
  intro c leads
  have solid : t.IsSolidBelow c := by
    induction leads with
    | refl => exact h
    | tail _ member ih =>
      obtain ⟨name, child, rfl, -, -⟩ := mem_dirsIn.1 member
      exact ih.child child
  intro member
  obtain ⟨name, child, same, -, -⟩ := mem_dirsIn.1 member
  obtain ⟨-, whole, nonempty, -⟩ := child_spec solid child
  rw [← same] at whole
  by_cases empty : c = ""
  · rw [empty] at whole
    exact nonempty (by simpa using whole)
  · rw [lead_of_ne empty] at whole
    have long := congrArg List.length whole
    simp at long

/-- A name in a directory that is entered and does not contain itself: it is one segment, and a
file stands below it. -/
theorem entered_spec {name : String} (free : dir ∉ t.dirsIn s dir)
    (child : name ∈ t.childNames dir) (noFile : Path.join dir name ∉ t.files.names)
    (enters : s.skips name = false) :
    '/' ∉ name.toList ∧ (Path.join dir name).toList = lead dir ++ name.toList ∧
      Path.join dir name ≠ "" ∧ Path.join dir name ∈ t.directories := by
  have nonempty : name ≠ "" := by
    rintro rfl
    have itself : Path.join dir "" = dir := by
      unfold Path.join
      split
      next empty => exact empty.symm
      next => rfl
    exact free (mem_dirsIn.2 ⟨"", child, itself.symm, itself ▸ noFile, enters⟩)
  have joined : (Path.join dir name).toList = lead dir ++ name.toList := toList_join nonempty
  have notEmpty : Path.join dir name ≠ "" := by
    intro empty
    rw [empty] at joined
    exact nonempty (by simpa using (List.append_eq_nil_iff.1 joined.symm).2)
  obtain ⟨rest, file, first⟩ := mem_childNames.1 child
  rcases Path.first_name rest with ⟨-, whole⟩ | ⟨below, cut, absent⟩
  · rw [first] at whole
    rw [← whole, ← joined, String.ofList_toList] at file
    exact absurd file noFile
  · rw [first] at cut absent
    refine ⟨absent, joined, notEmpty, mem_directories.2 ⟨below, ?_⟩⟩
    rwa [joined, List.append_assoc, ← cut]

/-- A directory in a directory lies within it, but not the other way round. -/
theorem dirsIn_within (free : dir ∉ t.dirsIn s dir) (member : c ∈ t.dirsIn s dir) :
    Path.isWithin c dir = true ∧ (dir ≠ "" → Path.isWithin dir c = false) := by
  obtain ⟨name, child, rfl, noFile, enters⟩ := mem_dirsIn.1 member
  obtain ⟨-, whole, notEmpty, -⟩ := entered_spec free child noFile enters
  constructor
  · by_cases empty : dir = ""
    · exact Path.isWithin_iff.2 (.inl empty)
    · refine Path.isWithin_iff.2 (.inr (.inr ⟨name.toList, ?_⟩))
      rw [whole, lead_of_ne empty]
      simp
  · intro isNamed
    rw [← Bool.not_eq_true, Path.isWithin_iff]
    have longer : dir.toList.length < (Path.join dir name).toList.length := by
      rw [whole, lead_of_ne isNamed]
      simp only [List.length_append]
      simp
      omega
    rintro (empty | equal | ⟨rest, cut⟩)
    · exact notEmpty empty
    · rw [← equal] at longer
      omega
    · rw [cut] at longer
      simp at longer

/-- A child directory is apart from what its directory is apart from. -/
theorem apart_of_within {other : String} (within : Path.isWithin c dir = true)
    (single : ∀ x, Path.isWithin c x = true → Path.isWithin x dir = true ∨
      Path.isWithin dir x = true)
    (apart : Apart dir other) : Apart c other := by
  refine ⟨?_, ?_⟩ <;> rw [← Bool.not_eq_true] <;> intro found
  · rcases single other found with inside | outside
    · exact absurd inside (by simp [apart.2])
    · exact absurd outside (by simp [apart.1])
  · exact absurd (Path.isWithin_trans found within) (by simp [apart.2])

theorem dirsIn_apart (free : dir ∉ t.dirsIn s dir) : (t.dirsIn s dir).Pairwise Apart := by
  have spec : ∀ name ∈ (t.childNames dir).filter
      (fun name => !t.isFile (Path.join dir name) && !s.skips name),
      '/' ∉ name.toList ∧ (Path.join dir name).toList = lead dir ++ name.toList ∧
        Path.join dir name ≠ "" ∧ Path.join dir name ∈ t.directories := by
    intro name member
    obtain ⟨child, entered⟩ := List.mem_filter.1 member
    simp only [Bool.and_eq_true, Bool.not_eq_true', ← Bool.not_eq_true, isFile_iff] at entered
    exact entered_spec free child entered.1 (by simpa using entered.2)
  have outside : ∀ {a b : String}, '/' ∉ a.toList →
      (Path.join dir a).toList = lead dir ++ a.toList →
      (Path.join dir b).toList = lead dir ++ b.toList → Path.join dir b ≠ "" → a ≠ b →
        Path.isWithin (Path.join dir a) (Path.join dir b) = false := by
    intro a b absent wholeA wholeB notEmpty unequal
    rw [← Bool.not_eq_true, Path.isWithin_iff]
    rintro (empty | equal | ⟨rest, cut⟩)
    · exact notEmpty empty
    · rw [equal, wholeB] at wholeA
      exact unequal (String.toList_inj.1 (List.append_cancel_left wholeA).symm)
    · rw [wholeA, wholeB, List.append_assoc] at cut
      rw [List.append_cancel_left cut] at absent
      simp at absent
  unfold dirsIn
  rw [List.pairwise_map]
  refine ((Names.nodup_of_increasing (t.childNames_ordered dir)).filter _).imp_of_mem ?_
  intro name other member member' differs
  obtain ⟨absent, whole, notEmpty, -⟩ := spec name member
  obtain ⟨absent', whole', notEmpty', -⟩ := spec other member'
  exact ⟨outside absent whole whole' notEmpty' differs,
    outside absent' whole' whole notEmpty (Ne.symm differs)⟩

/-- Entering a directory leaves a frontier. -/
theorem IsFrontier.enter (passable : t.IsPassable s dir) (frontier : t.IsFrontier s pending)
    (apart : ∀ other ∈ pending, Apart dir other) :
    t.IsFrontier s ((t.dirsIn s dir).reverse ++ pending) := by
  have free := passable.self
  refine ⟨fun c member => ?_, fun c member => ?_, ?_⟩
  · rcases List.mem_append.1 member with new | old
    · exact passable.enter (List.mem_reverse.1 new)
    · exact frontier.passable c old
  · rcases List.mem_append.1 member with new | old
    · obtain ⟨name, child, rfl, noFile, enters⟩ := mem_dirsIn.1 (List.mem_reverse.1 new)
      exact (entered_spec free child noFile enters).2.2
    · exact frontier.real c old
  · rw [List.pairwise_append, List.pairwise_reverse]
    refine ⟨(dirsIn_apart free).imp fun a => ⟨a.2, a.1⟩, frontier.apart,
      fun c new other old => ?_⟩
    have within := (dirsIn_within free (List.mem_reverse.1 new)).1
    exact apart_of_within within (fun x inside => Path.isWithin_total inside within) (apart other old)

/-- The directories that wait after the next one was entered. -/
theorem IsFrontier.step (frontier : t.IsFrontier s (dir :: pending)) :
    t.IsFrontier s ((t.dirsIn s dir).reverse ++ pending) := by
  obtain ⟨apart, rest⟩ := List.pairwise_cons.1 frontier.apart
  have waiting : t.IsFrontier s pending :=
    ⟨fun d member => frontier.passable d (by simp [member]),
      fun d member => frontier.real d (by simp [member]), rest⟩
  exact waiting.enter (frontier.passable dir (by simp)) apart

/-- The directories that wait after the root was entered. -/
theorem IsFrontier.first (passable : t.IsPassable s dir) :
    t.IsFrontier s ((t.dirsIn s dir).reverse ++ []) := by
  have none : t.IsFrontier s [] := ⟨by simp, by simp, .nil⟩
  exact none.enter passable fun _ member => absurd member List.not_mem_nil

theorem countP_lt {α : Type} {p q : α → Bool} {l : List α} {x : α}
    (weaker : ∀ y ∈ l, p y = true → q y = true) (member : x ∈ l) (yes : q x = true)
    (no : p x = false) : l.countP p < l.countP q := by
  obtain ⟨front, back, rfl⟩ := List.append_of_mem member
  have left : front.countP p ≤ front.countP q :=
    List.countP_mono_left fun y inside => weaker y (by simp [inside])
  have right : back.countP p ≤ back.countP q :=
    List.countP_mono_left fun y inside => weaker y (by simp [inside])
  simp only [List.countP_append, List.countP_cons, yes, no]
  simp
  omega

/-- Entering a directory lowers the number of remaining ones: the directory itself counts no more.
-/
theorem remaining_enter (frontier : t.IsFrontier s (dir :: pending)) :
    t.remaining ((t.dirsIn s dir).reverse ++ pending) < t.remaining (dir :: pending) := by
  have free := (frontier.passable dir (by simp)).self
  obtain ⟨notEmpty, real⟩ := frontier.real dir (by simp)
  refine countP_lt ?_ real ?_ ?_
  · intro x _ inside
    obtain ⟨c, member, within⟩ := List.any_eq_true.1 inside
    rcases List.mem_append.1 member with new | old
    · have outer := (dirsIn_within free (List.mem_reverse.1 new)).1
      exact List.any_eq_true.2 ⟨dir, by simp, Path.isWithin_trans within outer⟩
    · exact List.any_eq_true.2 ⟨c, by simp [old], within⟩
  · exact List.any_eq_true.2 ⟨dir, by simp, Path.isWithin_iff.2 (.inr (.inl rfl))⟩
  · rw [List.any_eq_false]
    intro c member
    rcases List.mem_append.1 member with new | old
    · simp [(dirsIn_within free (List.mem_reverse.1 new)).2 notEmpty]
    · simp [((List.pairwise_cons.1 frontier.apart).1 c old).1]

theorem length_frontsFrom (front l : List Char) : (Path.frontsFrom front l).length ≤ l.length := by
  induction l generalizing front with
  | nil => simp [Path.frontsFrom]
  | cons c cs ih =>
    have tail := ih (c :: front)
    by_cases slash : c = '/'
    · simp only [Path.frontsFrom, slash, if_true, List.length_cons] at tail ⊢
      omega
    · simp only [Path.frontsFrom, slash, if_false, List.length_cons]
      omega

/-- The bound of a scan counts a directory for each character, so there are fewer. -/
theorem length_directories_lt (t : FileTree) :
    t.directories.length < Index.directoryBound t := by
  have sum : ∀ (names : List String) (n : Nat),
      n + (names.flatMap Path.ancestors).length ≤ names.foldl
        (fun n name => n + name.length + 1) n := by
    intro names
    induction names with
    | nil => simp
    | cons name rest ih =>
      intro n
      have first : (Path.ancestors name).length ≤ name.length := by
        rw [Path.ancestors, List.length_map, ← String.length_toList]
        exact length_frontsFrom [] name.toList
      have later := ih (n + name.length + 1)
      simp only [List.flatMap_cons, List.length_append, List.foldl_cons]
      omega
  have all := sum t.files.names 1
  unfold directories Index.directoryBound
  omega

end FileTree

namespace Index

open FileTree

theorem classify_children (i : Index) (dir : String) :
    i.classify dir (i.tree.childNames dir) = (i.tree.filesIn i.settings dir,
      i.tree.dirsIn i.settings dir) := by
  unfold classify filesIn dirsIn
  simp only [List.filter_map, List.map_map, Function.comp_def]

/-- The walk asks the tree and notes whether it would end, but changes nothing else. -/
theorem walk_frame (fuel : Nat) (i : Index) (pending found : List String) :
    ∃ asked endless, (walk fuel i pending found).2 =
      { i with tree := { i.tree with asked }, endless } := by
  induction fuel generalizing i pending found with
  | zero => exact ⟨i.tree.asked, _, rfl⟩
  | succ fuel ih =>
    cases pending with
    | nil => exact ⟨i.tree.asked, i.endless, rfl⟩
    | cons dir pending =>
      obtain ⟨asked, endless, after⟩ := ih { i with tree := (i.tree.askChildren dir).2 } _ _
      exact ⟨asked, endless, after⟩

/-! ## Rounds of a scan -/

/-- A scan on its way: the directories that wait, the next one first, and the files found so far. -/
structure Worklist where
  index : Index
  pending : List String
  found : List String

namespace Worklist

/-- A scan before its first round: only the root waits. -/
def start (i : Index) (root : String) : Worklist := ⟨i, [root], []⟩

/-- A round takes up the next directory; without one nothing changes any more. -/
def next (w : Worklist) : Worklist :=
  match w.pending with
  | [] => w
  | dir :: pending =>
    let (names, tree) := w.index.tree.askChildren dir
    let i := { w.index with tree }
    let (files, dirs) := i.classify dir names
    ⟨i, dirs.reverse ++ pending, w.found ++ files⟩

theorem next_of_empty {w : Worklist} (empty : w.pending = []) : w.next = w := by
  simp only [next, empty]

/-- A round in which a directory is entered. The tree that was asked has the same files. -/
theorem next_cons (i : Index) (dir : String) (pending found : List String) :
    next ⟨i, dir :: pending, found⟩ =
      ⟨{ i with tree := (i.tree.askChildren dir).2 },
        (i.tree.dirsIn i.settings dir).reverse ++ pending,
          found ++ i.tree.filesIn i.settings dir⟩ := by
  have split := classify_children { i with tree := (i.tree.askChildren dir).2 } dir
  exact congrArg (fun parts : List String × List String =>
    (⟨{ i with tree := (i.tree.askChildren dir).2 }, parts.2.reverse ++ pending,
      found ++ parts.1⟩ : Worklist)) split

/-- A walk is as many rounds as its bound allows. -/
theorem walk_eq_iterate (fuel : Nat) (i : Index) (pending found : List String) :
    walk fuel i pending found =
      let w := next^[fuel] ⟨i, pending, found⟩
      (w.found, { w.index with endless := w.index.endless || !w.pending.isEmpty }) := by
  induction fuel generalizing i pending found with
  | zero => rfl
  | succ fuel ih =>
    cases pending with
    | nil =>
      rw [Function.iterate_fixed (next_of_empty rfl), walk]
      simp
    | cons dir pending => exact ih _ _ _

/-- More rounds than it takes to empty the list change nothing. -/
theorem iterate_eq_of_empty {w : Worklist} {n m : Nat} (enough : n ≤ m)
    (empty : (next^[n] w).pending = []) : next^[m] w = next^[n] w := by
  obtain ⟨more, rfl⟩ := Nat.exists_eq_add_of_le' enough
  rw [Function.iterate_add_apply, Function.iterate_fixed (next_of_empty empty)]

/-- A scan gives what was found when the list is empty, if its bound leaves that many rounds. -/
theorem scan_eq_of_empty {i : Index} {root : String} {n : Nat} (bound : n ≤ directoryBound i.tree)
    (empty : (next^[n] (start i root)).pending = []) :
    i.scan root =
      (Names.sort (next^[n] (start i root)).found, (next^[n] (start i root)).index) := by
  have same := iterate_eq_of_empty bound empty
  unfold start at same empty ⊢
  simp only [scan, walk_eq_iterate, same, empty, List.isEmpty_nil, Bool.not_true, Bool.or_false]

/-- Scans that see the same files and directories and have come equally far. -/
structure Alike (v w : Worklist) : Prop where
  files : ∀ dir, v.index.tree.filesIn v.index.settings dir =
    w.index.tree.filesIn w.index.settings dir
  dirs : ∀ dir, v.index.tree.dirsIn v.index.settings dir = w.index.tree.dirsIn w.index.settings dir
  pending : v.pending = w.pending
  found : v.found = w.found

theorem Alike.next {v w : Worklist} (h : Alike v w) : Alike v.next w.next := by
  obtain ⟨i, pending, found⟩ := v
  obtain ⟨j, _, _⟩ := w
  obtain ⟨files, dirs, rfl, rfl⟩ := h
  cases pending with
  | nil => exact ⟨files, dirs, rfl, rfl⟩
  | cons dir pending =>
    rw [next_cons, next_cons, dirs dir, files dir]
    exact ⟨files, dirs, rfl, rfl⟩

theorem Alike.iterate {v w : Worklist} (h : Alike v w) (n : Nat) :
    Alike (Worklist.next^[n] v) (Worklist.next^[n] w) := by
  induction n generalizing v w with
  | zero => exact h
  | succ n ih => exact ih h.next

/-- What was found, and what is still to be found below the waiting directories. -/
def due (w : Worklist) : List String :=
  w.found ++ w.pending.flatMap (w.index.tree.reached w.index.settings)

/-- A round loses nothing and finds nothing twice. -/
theorem due_next (i : Index) {dir : String} (h : i.tree.IsSolidBelow dir)
    (pending found : List String) :
    (next ⟨i, dir :: pending, found⟩).due.Perm (due ⟨i, dir :: pending, found⟩) := by
  rw [next_cons]
  change ((found ++ i.tree.filesIn i.settings dir) ++
    ((i.tree.dirsIn i.settings dir).reverse ++ pending).flatMap
      (i.tree.reached i.settings)).Perm
        (found ++ (dir :: pending).flatMap (i.tree.reached i.settings))
  rw [List.append_assoc, List.flatMap_append, List.flatMap_cons, ← List.append_assoc (filesIn ..)]
  have turned := (List.reverse_perm (i.tree.dirsIn i.settings dir)).flatMap_right
    (i.tree.reached i.settings)
  exact ((turned.append_left _).trans (reached_perm h i.settings)).append_right _
    |>.append_left found

/-- Rounds lose nothing and find nothing twice where no name is empty. -/
theorem due_iterate (w : Worklist) (solid : ∀ dir ∈ w.pending, w.index.tree.IsSolidBelow dir)
    (n : Nat) : (next^[n] w).due.Perm w.due := by
  induction n generalizing w with
  | zero => exact .refl _
  | succ n ih =>
    obtain ⟨i, pending, found⟩ := w
    cases pending with
    | nil => rw [Function.iterate_fixed (next_of_empty rfl)]
    | cons dir pending =>
      have here := solid dir List.mem_cons_self
      have later : ∀ c ∈ (next ⟨i, dir :: pending, found⟩).pending,
          (next ⟨i, dir :: pending, found⟩).index.tree.IsSolidBelow c := by
        rw [next_cons]
        intro c member
        rcases List.mem_append.1 member with new | old
        · obtain ⟨name, child, rfl, -, -⟩ := mem_dirsIn.1 (List.mem_reverse.1 new)
          exact here.child child
        · exact solid c (List.mem_cons_of_mem dir old)
      exact (ih _ later).trans (due_next i here pending found)

/-- From directories on that do not contain one another, the list runs empty. -/
theorem exists_iterate_empty (w : Worklist)
    (frontier : w.index.tree.IsFrontier w.index.settings w.pending) :
    ∃ n ≤ w.index.tree.remaining w.pending, (next^[n] w).pending = [] := by
  obtain ⟨i, pending, found⟩ := w
  -- The measure is the number of directories of the tree that lie within a waiting one.
  induction left : i.tree.remaining pending using Nat.strong_induction_on
    generalizing i pending found with
  | _ count ih =>
    cases pending with
    | nil => exact ⟨0, Nat.zero_le _, rfl⟩
    | cons dir pending =>
      have entered := frontier.step
      have fewer := remaining_enter frontier
      rw [left] at fewer
      obtain ⟨n, rounds, empty⟩ := ih _ fewer
        { i with tree := (i.tree.askChildren dir).2 } _ (found ++ i.tree.filesIn i.settings dir)
        ⟨entered.passable, entered.real, entered.apart⟩ rfl
      rw [← next_cons, ← Function.iterate_succ_apply] at empty
      exact ⟨n + 1, by omega, empty⟩

/-- A scan ends after no more rounds than one for the root and one for each directory above a file.
-/
theorem exists_rounds (i : Index) {root : String}
    (passable : i.tree.IsPassable i.settings root) :
    ∃ n ≤ i.tree.directories.length + 1, (next^[n] (start i root)).pending = [] := by
  have entered := IsFrontier.first passable
  obtain ⟨n, rounds, empty⟩ := exists_iterate_empty
    ⟨{ i with tree := (i.tree.askChildren root).2 }, (i.tree.dirsIn i.settings root).reverse ++ [],
      [] ++ i.tree.filesIn i.settings root⟩ ⟨entered.passable, entered.real, entered.apart⟩
  rw [← next_cons, ← Function.iterate_succ_apply] at empty
  exact ⟨n + 1, Nat.succ_le_succ (rounds.trans List.countP_le_length), empty⟩

/-- A way from a waiting directory to one that contains itself keeps the list from running empty:
whichever directory is taken up, one on such a way waits afterwards. -/
theorem pending_ne_nil_of_trap (w : Worklist) {dir : String} (waits : dir ∈ w.pending)
    (trap : ¬ w.index.tree.IsPassable w.index.settings dir) (n : Nat) :
    (next^[n] w).pending ≠ [] := by
  induction n generalizing w dir with
  | zero => exact List.ne_nil_of_mem waits
  | succ n ih =>
    obtain ⟨i, pending, found⟩ := w
    cases pending with
    | nil => cases waits
    | cons first pending =>
      rw [Function.iterate_succ_apply, next_cons]
      rcases List.mem_cons.1 waits with rfl | later
      · obtain ⟨c, leads, inside⟩ : ∃ c, Relation.ReflTransGen
            (fun a b => b ∈ i.tree.dirsIn i.settings a) dir c ∧ c ∈ i.tree.dirsIn i.settings c := by
          simpa [IsPassable] using trap
        have enters : ∀ d ∈ i.tree.dirsIn i.settings dir,
            ¬ i.tree.IsPassable i.settings d →
              (next^[n] ⟨{ i with tree := (i.tree.askChildren dir).2 },
                (i.tree.dirsIn i.settings dir).reverse ++ pending,
                found ++ i.tree.filesIn i.settings dir⟩).pending ≠ [] :=
          fun d member closed =>
            ih _ (List.mem_append_left _ (List.mem_reverse.2 member)) closed
        rcases leads.cases_head with rfl | ⟨d, member, rest⟩
        · exact enters dir inside trap
        · exact enters d member fun passable => passable c rest inside
      · exact ih _ (List.mem_append_right _ later) trap

theorem endless_iterate (w : Worklist) (n : Nat) :
    (next^[n] w).index.endless = w.index.endless := by
  induction n generalizing w with
  | zero => rfl
  | succ n ih =>
    rw [Function.iterate_succ_apply, ih]
    unfold next
    split <;> rfl

end Worklist

open Worklist

/-- A scan notes that it would not end exactly if no number of rounds empties the list of waiting
directories. -/
theorem scan_endless_iff (i : Index) (root : String) :
    (i.scan root).2.endless = true ↔
      i.endless = true ∨ ∀ n, (next^[n] (start i root)).pending ≠ [] := by
  have noted : (i.scan root).2.endless = (i.endless ||
      !(next^[directoryBound i.tree] (start i root)).pending.isEmpty) := by
    simp only [scan, walk_eq_iterate, endless_iterate, start]
  rw [noted, Bool.or_eq_true]
  refine or_congr_right ⟨fun left n empty => ?_, fun never => ?_⟩
  · have passable : i.tree.IsPassable i.settings root := by
      by_contra trap
      exact pending_ne_nil_of_trap (start i root) (List.mem_singleton_self root) trap n empty
    obtain ⟨m, rounds, last⟩ := exists_rounds i passable
    rw [iterate_eq_of_empty (rounds.trans i.tree.length_directories_lt) last, last] at left
    cases left
  · simpa [List.isEmpty_iff] using never (directoryBound i.tree)

/-- Where no name below the root is empty, a scan ends. -/
theorem scan_endless (i : Index) {root : String} (h : i.tree.IsSolidBelow root) :
    (i.scan root).2.endless = i.endless := by
  obtain ⟨n, -, empty⟩ := exists_rounds i (h.isPassable i.settings)
  rw [Bool.eq_iff_iff, scan_endless_iff]
  exact or_iff_left fun never => never n empty

/-- A scan sees paths only. -/
theorem scan_congr {i j : Index} (names : j.tree.files.names = i.tree.files.names)
    (settings : j.settings = i.settings) (root : String) : (j.scan root).1 = (i.scan root).1 := by
  have isFile : ∀ path, j.tree.isFile path = i.tree.isFile path := fun path => by
    rw [Bool.eq_iff_iff, FileTree.isFile_iff, FileTree.isFile_iff, names]
  have children : ∀ dir, j.tree.childNames dir = i.tree.childNames dir := fun dir => by
    rw [childNames, childNames, pathsBelow, pathsBelow, names]
  have alike : Alike (start j root) (start i root) :=
    ⟨fun dir => by simp only [start, filesIn, children, isFile, settings],
      fun dir => by simp only [start, dirsIn, children, isFile, settings], rfl, rfl⟩
  simp only [scan, directoryBound, names, walk_eq_iterate]
  exact congrArg Names.sort (alike.iterate _).found

/-- A scan lists exactly the files that a walk can come to, in order. -/
theorem scan_eq_reached (i : Index) {root : String} (h : i.tree.IsSolidBelow root) :
    (i.scan root).1 = i.tree.reached i.settings root := by
  obtain ⟨n, rounds, empty⟩ := exists_rounds i (h.isPassable i.settings)
  have gathered : (next^[n] (start i root)).found.Perm (i.tree.reached i.settings root) := by
    have kept := due_iterate (start i root) (by simpa [start] using h) n
    rw [due, empty, List.flatMap_nil, List.append_nil] at kept
    exact kept.trans (by simp [due, start])
  have ordered := i.tree.reached_ordered i.settings root
  rw [scan_eq_of_empty (rounds.trans i.tree.length_directories_lt) empty]
  refine Names.eq_of_increasing ?_ ordered fun name => ?_
  · exact Names.sort_ordered (gathered.nodup_iff.2 (Names.nodup_of_increasing ordered))
  · exact Names.mem_sort.trans gathered.mem_iff

/-- In a tree that a file system can hold, a scan lists all files that belong below the root. -/
theorem scan_eq_listed (i : Index) (h : i.tree.IsRealizable) (root : String) :
    (i.scan root).1 = i.tree.listed i.settings root :=
  (i.scan_eq_reached (h.isClean.solidBelow root)).trans (reached_eq_listed h i.settings root)

end Index
end Rehome
