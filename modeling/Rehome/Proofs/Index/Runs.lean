import Rehome.Proofs.Index.Coherence

/-!
# Runs of calls on an index

Any number of calls may follow one another on an index, questions and changes in any order. Each
answer is the one that an index without anything kept would give about the tree of that moment. The
step lemma says this of one call and that everything kept stays right; a run repeats the step.
-/
namespace Rehome.Index

open Specifier (Finder Occurrence)
open FileTree

/-- What can be asked of an index and done to it. -/
inductive Call where
  | exist (path : String)
  | read (path : String)
  | isFile (path : String)
  | invalidate (path : String)
  | sourceFiles (root : String)
  | write (path text : String)
  | delete (path : String)
  | specifiers (path : String)
  deriving DecidableEq, Repr

inductive Answer where
  | done
  | truth (b : Bool)
  | text (text? : Option String)
  | names (paths : List String)
  | found (occurrences : List Occurrence)
  deriving DecidableEq, Repr

/-- The answer of an index to a call, and the index afterwards. -/
def Call.on (f : Finder) : Call → Index → Answer × Index
  | .exist path, i => ((.truth (i.exist path).1), (i.exist path).2)
  | .read path, i => ((.text (i.read path).1), (i.read path).2)
  | .isFile path, i => (.truth (i.isFile path), i)
  | .invalidate path, i => (.done, i.invalidate path)
  | .sourceFiles root, i => ((.names (i.sourceFiles root).1), (i.sourceFiles root).2)
  | .write path text, i => (.done, i.write path text)
  | .delete path, i => (.done, i.delete path)
  | .specifiers path, i => ((.found (i.specifiers f path).1), (i.specifiers f path).2)

/-- Calls name canonical paths and any roots. A write leaves a realizable tree, and what is deleted
has no files below it. -/
def Call.IsAllowed (t : FileTree) : Call → Prop
  | .exist path | .read path | .isFile path | .invalidate path | .specifiers path =>
    Path.IsCanonical path
  | .sourceFiles _ => True
  | .write path text => Path.IsCanonical path ∧ (t.write path text).IsRealizable
  | .delete path => Path.IsCanonical path ∧ t.pathsBelow path = []

instance (t : FileTree) (c : Call) : Decidable (c.IsAllowed t) := by
  unfold Call.IsAllowed
  cases c <;> infer_instance

/-- The answers to calls that follow one another. -/
def answers (f : Finder) : List Call → Index → List Answer
  | [], _ => []
  | c :: calls, i => (c.on f i).1 :: answers f calls (c.on f i).2

/-- The index after calls. -/
def after (f : Finder) : List Call → Index → Index
  | [], i => i
  | c :: calls, i => after f calls (c.on f i).2

/-- For each call of the same run, the answer of a new index over the tree of that moment. -/
def freshAnswers (f : Finder) : List Call → Index → List Answer
  | [], _ => []
  | c :: calls, i => (c.on f (new i.tree i.settings)).1 :: freshAnswers f calls (c.on f i).2

/-- Every call of a run is allowed when it is made. -/
def RunAllowed (f : Finder) : List Call → Index → Prop
  | [], _ => True
  | c :: calls, i => c.IsAllowed i.tree ∧ RunAllowed f calls (c.on f i).2

instance decidableRunAllowed (f : Finder) : (calls : List Call) → (i : Index) → Decidable
    (RunAllowed f calls i)
  | [], _ => isTrue trivial
  | c :: calls, i =>
    have := decidableRunAllowed f calls (c.on f i).2
    inferInstanceAs (Decidable (c.IsAllowed i.tree ∧ RunAllowed f calls (c.on f i).2))

/-- Everything an index keeps agrees with its tree, which a file system can hold. -/
structure Coherent (f : Finder) (i : Index) : Prop where
  realizable : i.tree.IsRealizable
  texts : KeepsTexts f i
  existence : KeepsExistence i
  lists : KeepsLists i

theorem coherent_new (f : Finder) {t : FileTree} (h : t.IsRealizable) (s : ScanSettings) :
    Coherent f (new t s) :=
  ⟨h, keepsTexts_new f t s, by simp [KeepsExistence, new], by simp [KeepsLists, new]⟩

/-- A question that changes nothing but counters and what is kept about texts leaves the rest. -/
theorem Coherent.of_texts {f : Finder} {i j : Index} (h : Coherent f i) (texts : KeepsTexts f j)
    (files : j.tree.files = i.tree.files) (settings : j.settings = i.settings)
    (existence : j.existence = i.existence) (lists : j.lists = i.lists) : Coherent f j := by
  have names : j.tree.files.names = i.tree.files.names := by rw [files]
  refine ⟨h.realizable.of_names fun p file => names ▸ file, texts, ?_, ?_⟩
  · intro path known nonempty look
    rw [existence] at look
    rw [h.existence path known nonempty look]
    simp [holds, FileTree.isFile, pathsBelow, files]
  · intro root list look
    rw [lists] at look
    rw [h.lists root list look]
    simp [listed, files, settings]

/-- What the tree itself answers to a call. -/
def Call.answerOf (f : Finder) (s : ScanSettings) (t : FileTree) : Call → Answer
  | .exist path => .truth (t.holds path)
  | .read path => .text (t.text? path)
  | .isFile path => .truth (t.isFile path)
  | .sourceFiles root => .names (t.listed s root)
  | .specifiers path => .found (t.specifiers f path)
  | .invalidate _ | .write _ _ | .delete _ => .done

/-- One allowed call is answered as the tree answers it, and all that is kept stays right. -/
theorem on_spec {f : Finder} {i : Index} (h : Coherent f i) {c : Call}
    (allowed : c.IsAllowed i.tree) :
    (c.on f i).1 = c.answerOf f i.settings i.tree ∧ Coherent f (c.on f i).2 := by
  cases c with
  | exist path =>
    obtain ⟨answer, keeps, asked, existence, frame⟩ := exist_spec h.existence allowed.ne_empty
    refine ⟨congrArg Answer.truth answer, ?_⟩
    simp only [Call.on]
    rw [frame] at keeps ⊢
    exact ⟨⟨h.realizable.canonical, h.realizable.prefixFree⟩, h.texts.of_same rfl rfl rfl rfl,
      keeps, h.lists⟩
  | read path =>
    obtain ⟨answer, keeps, asked, texts, readings, frame⟩ := read_spec h.texts path
    refine ⟨congrArg Answer.text answer, ?_⟩
    simp only [Call.on]
    exact h.of_texts keeps (by rw [frame]) (by rw [frame]) (by rw [frame]) (by rw [frame])
  | isFile path => exact ⟨rfl, h⟩
  | invalidate path => exact ⟨rfl, h.of_texts (h.texts.invalidate path) rfl rfl rfl rfl⟩
  | sourceFiles root =>
    obtain ⟨answer, keeps⟩ := sourceFiles_spec h.lists h.realizable root
    obtain ⟨asked, lists, endless, frame⟩ := i.sourceFiles_frame root
    refine ⟨congrArg Answer.names answer, ?_⟩
    simp only [Call.on]
    rw [frame] at keeps ⊢
    exact ⟨⟨h.realizable.canonical, h.realizable.prefixFree⟩, h.texts.of_same rfl rfl rfl rfl,
      h.existence, keeps⟩
  | write path text =>
    exact ⟨rfl, allowed.2, h.texts.write path text, h.existence.write path text,
      h.lists.write path text⟩
  | delete path =>
    exact ⟨rfl, h.realizable.delete path, h.texts.delete path, h.existence.delete allowed.2,
      h.lists.delete path⟩
  | specifiers path =>
    obtain ⟨answer, keeps, asked, texts, parsed, readings, parses, frame⟩ :=
      specifiers_spec h.texts path
    refine ⟨congrArg Answer.found answer, ?_⟩
    simp only [Call.on]
    exact h.of_texts keeps (by rw [frame]) (by rw [frame]) (by rw [frame]) (by rw [frame])

/-- What is kept stays right along a run. -/
theorem after_coherent {f : Finder} (calls : List Call) {i : Index} (h : Coherent f i)
    (allowed : RunAllowed f calls i) : Coherent f (after f calls i) := by
  induction calls generalizing i with
  | nil => exact h
  | cons c calls ih => exact ih (on_spec h allowed.1).2 allowed.2

theorem answers_of_coherent {f : Finder} (calls : List Call) {i : Index} (h : Coherent f i)
    (allowed : RunAllowed f calls i) : answers f calls i = freshAnswers f calls i := by
  induction calls generalizing i with
  | nil => rfl
  | cons c calls ih =>
    obtain ⟨kept, next⟩ := on_spec h allowed.1
    -- The new index has the same tree, so the call is allowed there as well.
    have fresh := (on_spec (coherent_new f h.realizable i.settings) allowed.1).1
    simp only [answers, freshAnswers]
    rw [ih next allowed.2, kept, fresh]
    rfl

/-- Along every run of allowed calls that starts with nothing kept, in a tree that a file system can
hold, each answer is the one a new index over the current tree would give, and the lists that are
kept are strictly increasing. -/
theorem run_answers_fresh (f : Finder) (s : ScanSettings) (t : FileTree) (calls : List Call)
    (realizable : t.IsRealizable) (allowed : RunAllowed f calls (new t s)) :
    answers f calls (new t s) = freshAnswers f calls (new t s) ∧
      ∀ root list, (after f calls (new t s)).lists.get? root = some list →
        list.Pairwise (· < ·) := by
  have start := coherent_new f realizable s
  refine ⟨answers_of_coherent calls start allowed, fun root list kept => ?_⟩
  rw [(after_coherent calls start allowed).lists root list kept]
  exact listed_ordered ..

/-- A directory that comes and goes, a skipped one, and a file that changes after it was parsed. -/
theorem run_answers_fresh_comes_and_goes :
    let t := FileTree.ofList [("a/x.ts", "import './y';\n"), ("a/dist/o.js", "")]
    let calls : List Call :=
      [.sourceFiles "a", .sourceFiles "", .exist "a/b/c", .specifiers "a/x.ts",
      .write "a/b/c/w.ts" "", .exist "a/b/c", .write "a/x.ts" "", .specifiers "a/x.ts",
        .sourceFiles "a",
      .delete "a/b/c/w.ts", .exist "a/b", .write "a/dist/p.ts" "", .sourceFiles ""]
    t.IsRealizable ∧ RunAllowed .modules calls (new t (.standard 1)) ∧
      answers .modules calls (new t (.standard 1)) = freshAnswers .modules calls
        (new t (.standard 1)) := by
  intro t calls
  have realizable : t.IsRealizable := by decide +kernel
  have allowed : RunAllowed .modules calls (new t (.standard 1)) := by decide +kernel
  exact ⟨realizable, allowed,
    (run_answers_fresh .modules (.standard 1) t calls realizable allowed).1⟩

end Rehome.Index
