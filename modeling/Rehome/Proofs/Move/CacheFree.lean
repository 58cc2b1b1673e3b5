import Rehome.Proofs.Move.Parts
import Rehome.Proofs.Move.Stages

/-!
# Moves without caches

A move can be carried out on a plain state, where every question is answered from the tree as it is
and every text is parsed anew. It comes to the same result, the same files and the same journal as a
move with caches. One thing may be told differently: the lists of a move leave out the file at its
old place as soon as it is written at the new one, so a reference in the old file may be repaired
without caches only. The old file is deleted at the end, and this shows only if the new project's
own exports are kept in that very file.
-/
namespace Rehome.Move

open Specifier (Finder)
open Job (SeesAll)
open Session

/-- Moves a file of a tree; every question is answered from the tree of that moment. -/
def runPlain (s : Service) (r : Request) (options : Options) (tree : FileTree) : Result :=
  let job := (file s r options).run.run .empty
  let ((report, cache), v) := job.run (Plain.perform s.finder s.settings) ⟨tree, []⟩
  { report, loads := cache.loads, tree := v.tree, ends := true }

theorem runPlain_report (s : Service) (r : Request) (o : Options) (t : FileTree) :
    (runPlain s r o t).report =
    (play (Plain.perform s.finder s.settings) (file s r o) .empty ⟨t, []⟩).1.1 := by
  unfold runPlain play
  generalize file s r o = program
  rfl

theorem runPlain_tree (s : Service) (r : Request) (o : Options) (t : FileTree) :
    (runPlain s r o t).tree =
    (play (Plain.perform s.finder s.settings) (file s r o) .empty ⟨t, []⟩).2.tree := by
  unfold runPlain play
  generalize file s r o = program
  rfl

variable {f : Finder} {s : ScanSettings} {t : FileTree} {p : Plan}

/-! ## Both ways of answering -/

theorem Plan.not_hides {path : String} (shown : p.keeps path = true) : ¬ p.hides path :=
  fun hides => (Plan.keeps_iff.1 shown).1 hides.2

theorem index_views (scene : t.IsScene p.keeps) :
    Views (Index.perform f) (Index.Follows f s t p.keeps p.hides) (Index.Mirrors f p.hides)
      (Index.Mirrors f fun _ => False) f s t p where
  sees := ⟨Index.follows_answers, Index.follows_lists scene, fun _ => Plan.not_hides⟩
  loosen h := h.mirrors
  answers := Index.mirrors_answers f p.hides
  delete h := ⟨h.texts.delete p.source, h.agree.delete fun _ hides => hides.2⟩
  settled := Index.mirrors_answers f _
  touched h := ⟨h, h.agree.touched_eq⟩

theorem plain_views (scene : t.IsScene p.keeps) :
    Views (Plain.perform f s) (Plain.Follows t p.hides) (Plain.Agree p.hides)
      (Plain.Agree fun _ => False) f s t p where
  sees := ⟨Plain.follows_answers, Plain.follows_lists scene, fun _ => Plan.not_hides⟩
  loosen h := h.agree
  answers := Plain.agree_answers f s p.hides
  delete h := h.delete fun _ hides => hides.2
  settled := Plain.agree_answers f s _
  touched h := ⟨h, h.touched_eq⟩

/-! ## The checks -/

theorem shows_plain (f : Finder) (s : ScanSettings) (t : FileTree) :
    Shows (fun {_} op => Plain.perform f s op) t fun v => v = ⟨t, []⟩ where
  read := by
    rintro _ path rfl
    exact ⟨rfl, rfl⟩
  exist := by
    rintro _ path - rfl
    exact ⟨rfl, rfl⟩

/-! ## Putting the file at its new place -/

theorem isScene_of_realizable (h : t.IsRealizable) : t.IsScene fun _ => true :=
  ⟨h.isClean, fun _ file _ root => h.hides_eq_false file root⟩

/-- A file at a free place hides no other file, and it need not be in view itself. -/
theorem isScene_write (h : t.IsRealizable) {path : String} (canonical : Path.IsCanonical path)
    (free : t.holds path = false) (text : String) {kept : String → Bool} (out : kept path = false) :
    (t.write path text).IsScene kept := by
  constructor
  · intro other member
    rw [FileTree.names_write, Names.mem_insert] at member
    rcases member with rfl | old
    · exact canonical
    · exact h.canonical other old
  · intro other member shown root
    rw [FileTree.names_write, Names.mem_insert] at member
    rcases member with rfl | old
    · rw [shown] at out
      cases out
    · rw [← Bool.not_eq_true, FileTree.hides_eq_true_iff]
      rintro ⟨file, inside, below, above⟩
      rw [FileTree.names_write, Names.mem_insert] at inside
      rcases inside with rfl | oldFile
      · have taken : t.holds file = true := FileTree.holds_iff.2 (.inr ⟨other, old, above⟩)
        rw [taken] at free
        cases free
      · have hidden : t.hides root other = true :=
          FileTree.hides_eq_true_iff.2 ⟨file, oldFile, below, above⟩
        rw [h.hides_eq_false old root] at hidden
        cases hidden

theorem Plan.keeps_source : p.keeps p.source = false := by simp [Plan.keeps]

theorem Plan.keeps_target : p.keeps p.target = false := by simp [Plan.keeps]

/-- With the file at its new place, an index follows the tree in all that is in view. -/
theorem index_place {i : Index} (sees : SeesAll f s t i ⟨t, []⟩)
    (present : t.isFile p.source = true) (scene : (t.write p.target p.text).IsScene p.keeps) :
    ((place p).run (Index.perform f) i).2.Follows f s (t.write p.target p.text) p.keeps p.hides
      (Plain.write ⟨t, []⟩ p.target p.text) := by
  have agree : i.plain.Agree p.hides ⟨t, []⟩ := sees.mirrors.agree.hide fun path hides =>
      hides.2 ▸ present
  have written : (i.write p.target p.text).Follows f s (t.write p.target p.text) p.keeps p.hides
      (Plain.write ⟨t, []⟩ p.target p.text) := by
    refine ⟨⟨sees.mirrors.texts.write _ _, agree.write _ _⟩, sees.settings, ?_, ?_⟩
    · simp only [Index.write, FileTree.names_write, sees.names]
    · intro root list look
      simp only [Index.write, Table.get?_map] at look
      obtain ⟨old, found, rfl⟩ := Option.map_eq_some_iff.1 look
      obtain ⟨-, view⟩ := sees.lists root old found
      have whole : old = t.listed s root := by simpa [FileTree.inView] using view
      rw [whole, sees.settings, ← FileTree.listed_write t s p.target p.text root]
      exact ⟨FileTree.listed_ordered .., rfl⟩
  have once := (Index.follows_lists scene p.sourceProject.root written).1
  have twice := (Index.follows_lists scene p.targetProject.root once).1
  have nothing : ∀ new, none = some new → p.keeps new = false := by
    intro new same
    cases same
  have first := twice.relist p.sourceProject.root Plan.keeps_source nothing
  exact first.relist p.targetProject.root Plan.keeps_source fun new same =>
    Option.some.inj same ▸ Plan.keeps_target

theorem plain_place (present : t.isFile p.source = true) :
    Plain.Follows (t.write p.target p.text) p.hides ((place p).run (Plain.perform f s) ⟨t, []⟩).2
      (Plain.write ⟨t, []⟩ p.target p.text) := by
  refine ⟨.refl (fun path hides => ?_) (List.pairwise_singleton _ p.target), rfl⟩
  rw [hides.2]
  exact Plain.Agree.isFile_write ⟨t, []⟩ _ _ _ present

/-! ## Whole moves -/

theorem exists_completed {service : Service} (builtIn : service.graphSource.IsBuiltIn) {x : Route}
    (plan : p.IsFor service x) (differs : p.target ≠ p.source) (s : ScanSettings) (t : FileTree)
    (v : Plain) (options : Options) :
    ∃ updated added after, ∀ {σ : Type} {perform : {β : Type} → FileOp β → σ → β × σ}
      {follows mirrors settles : σ → Plain → Prop},
      Views @perform follows mirrors settles service.finder s t p → ∀ st, follows st v →
        settles (play @perform (complete service p options) .empty st).2 after ∧
          ∃ exportAdded, (play @perform (complete service p options) .empty st).1.1 =
              .ok ⟨p.strategy, p.source, p.target, updated, exportAdded⟩ ∧
            (¬ ExportsToSource p options → exportAdded = added) := by
  generalize own : ((repairOwn p).run (Plain.perform service.finder s) v).2 = first
  obtain ⟨needs, second, repairs⟩ := exists_repaired builtIn s t first plan.known
  obtain ⟨updated, added, after, finishes⟩ :=
    exists_finished service.finder s t second service plan.passed needs options
  refine ⟨updated, added, after, ?_⟩
  intro σ perform follows mirrors settles views st related
  obtain ⟨v', following, same⟩ := does_repairOwn views.sees differs v st related
  have here : v' = first := by rw [← own, ← same]
  subst here
  obtain ⟨o, c, v'', result, repaired, needed, rfl⟩ := repairs views.sees _ following
  rw [complete, play_onFiles_bind, play_bind]
  generalize play @perform (repair service p) .empty ((repairOwn p).run @perform st).2 =
    outcome at result repaired
  obtain ⟨answer, st'⟩ := outcome
  subst result
  obtain ⟨settled, exportAdded, final, equal⟩ := finishes views o st' needed repaired
  dsimp only
  rw [play_onFiles]
  exact ⟨settled, exportAdded, congrArg Except.ok final, equal⟩

/-- Results that tell the same, except perhaps whether an export was added, where that export would
stand in the moved file itself. -/
inductive SameResult (w : Workspace) (options : Options) :
    Except Error Report → Except Error Report → Prop
  | error (e : Error) : SameResult w options (.error e) (.error e)
  | ok (a : Report) (exportAdded : Bool)
      (only : exportAdded ≠ a.exportAdded → a.strategy = .exported ∧ options.skipExport = false ∧
        ∃ p, w.owner a.target = .ok p ∧ p.isLibrary = true ∧ p.primaryEntryPoint? = some a.source) :
      SameResult w options (.ok a) (.ok { a with exportAdded })

/-- An accepted request comes to the same with caches and without. -/
theorem accepted_same {service : Service} (builtIn : service.graphSource.IsBuiltIn) {r : Request}
    (options : Options) (h : t.IsRealizable) {x : Route}
    (accepts : Accepts service r t x.source x.target)
    (owner : service.workspace.owner x.target = .ok x.targetProject) {i : Index}
    (sees : SeesAll service.finder service.settings t i ⟨t, []⟩)
    (cached : play (Index.perform service.finder) (route service r) .empty
      (.new t service.settings) = ((.ok x, .empty), i))
    (plain : play (Plain.perform service.finder service.settings) (route service r) .empty ⟨t, []⟩ =
      ((.ok x, .empty), ⟨t, []⟩)) :
    let after := play (Index.perform service.finder) (file service r options) .empty
      (.new t service.settings)
    let plainAfter := play (Plain.perform service.finder service.settings)
      (file service r options) .empty ⟨t, []⟩
    SameResult service.workspace options after.1.1 plainAfter.1.1 ∧
      after.2.plain.Agree (fun _ => False) plainAfter.2 := by
  obtain ⟨same, seesStill, unchanged⟩ :=
    (Job.asks_survey service x).same (isScene_of_realizable h) sees rfl
  have plan := survey_isFor (Plain.perform service.finder service.settings) service x ⟨t, []⟩
  dsimp only
  rw [play_file_of_route _ options cached, play_file_of_route _ options plain, same, unchanged]
  generalize ((survey service x).run (Plain.perform service.finder service.settings) ⟨t, []⟩).1
    = p at plan
  have differs : p.target ≠ p.source := by
    rw [plan.target, plan.source]
    exact accepts.elsewhere
  have present : t.isFile p.source = true := plan.source ▸ accepts.present
  have canonical : Path.IsCanonical p.target := by
    rw [plan.target]
    exact targetPath_canonical accepts.targetPath (isSource_ne_empty accepts.targetKind)
  have scene : (t.write p.target p.text).IsScene p.keeps :=
    isScene_write h canonical (plan.target ▸ accepts.free) p.text Plan.keeps_target
  obtain ⟨updated, added, after, completes⟩ :=
    exists_completed builtIn plan differs service.settings
    (t.write p.target p.text) (Plain.write ⟨t, []⟩ p.target p.text) options
  obtain ⟨settled, exportAdded, report, equal⟩ :=
    completes (index_views scene) _ (index_place seesStill present scene)
  obtain ⟨settled', exportAdded', report', equal'⟩ :=
    completes (plain_views scene) _ (plain_place present)
  rw [report, report']
  refine ⟨.ok ⟨p.strategy, p.source, p.target, updated, exportAdded⟩ exportAdded' fun unequal => ?_,
    settled.agree.join settled'⟩
  have exports : ExportsToSource p options := by
    by_contra none
    exact unequal ((equal' none).trans (equal none).symm)
  refine ⟨exports.exported, exports.wanted, p.targetProject, ?_, exports.library, exports.entry⟩
  rw [plan.target, plan.targetProject]
  exact owner

/-- With caches a move comes to the result it has without them, and leaves the same files and the
same journal. Only whether an export was added may be told differently, and only by a move of an
exported file to a library whose first entry point is that file. -/
theorem caches_unobserved (service : Service) (r : Request) (options : Options) (t : FileTree)
    (builtIn : service.graphSource.IsBuiltIn) (h : t.IsRealizable) :
    SameResult service.workspace options (run service r options t).report
      (runPlain service r options t).report ∧
      (run service r options t).tree.files = (runPlain service r options t).tree.files ∧
      (run service r options t).tree.changes = (runPlain service r options t).tree.changes := by
  obtain ⟨cached, sees, -⟩ := route_follows (shows_index service.finder service.settings t)
    service r .empty
    ⟨seesAll_new service.finder t service.settings, by simp [Index.KeepsExistence, Index.new]⟩
  obtain ⟨plain, same⟩ := route_follows (shows_plain service.finder service.settings t)
    service r .empty rfl
  have checked := examine_spec service r t
  rw [run_report, run_tree, runPlain_report, runPlain_tree]
  cases examined : examine service r t with
  | error e =>
    rw [examined] at cached plain
    rw [play_file_of_error options (Prod.ext cached rfl),
      play_file_of_error options (Prod.ext plain same)]
    exact ⟨.error e, sees.mirrors.agree.files_eq, sees.mirrors.agree.changes_eq⟩
  | ok x =>
    rw [examined] at cached plain checked
    obtain ⟨result, agree⟩ := accepted_same builtIn options h checked.1.accepts
      checked.1.targetOwner sees (Prod.ext cached rfl)
      (Prod.ext plain same)
    exact ⟨result, agree.files_eq, agree.changes_eq⟩

/-- A file that is exported twice, is moved up, and names the alias of its project itself. -/
theorem caches_unobserved_nested :
    let s := { Service.over [⟨"a", "libs/a", none, .library, ["libs/a/index.ts"]⟩,
      ⟨"b", "libs", none, .library, ["libs/index.ts"]⟩] [("a", "@org/a")] with
      graphSource := .imports }
    let t := FileTree.ofList [("libs/a/index.ts", "export * from './x';\n"),
        ("libs/a/x.ts", "export * from '@org/a';\n")]
    let r : Request := ⟨"libs/a/x.ts", .path "libs/y.ts"⟩
    s.graphSource.IsBuiltIn ∧ t.IsRealizable ∧
      SameResult s.workspace {} (run s r {} t).report (runPlain s r {} t).report := by
  intro s t r
  have builtIn : s.graphSource.IsBuiltIn := .inr rfl
  have realizable : t.IsRealizable := by decide +kernel
  exact ⟨builtIn, realizable, (caches_unobserved s r {} t builtIn realizable).1⟩

/-- The same move, to a project whose only entry point is the moved file: with caches its reference
is not repaired before it goes, and an export is added. -/
theorem caches_observed_in_own_entry :
    let s := Service.over [⟨"a", "libs/a", none, .library, ["libs/a/index.ts"]⟩,
      ⟨"b", "libs", none, .library, ["libs/a/x.ts"]⟩] [("a", "@org/a")]
    let t := FileTree.ofList [("libs/a/index.ts", "export * from './x';\n"),
        ("libs/a/x.ts", "export * from '@org/a';\n")]
    let r : Request := ⟨"libs/a/x.ts", .path "libs/y.ts"⟩
    s.graphSource.IsBuiltIn ∧ t.IsRealizable ∧
      (run s r {} t).report ≠ (runPlain s r {} t).report := by
  intro s t r
  refine ⟨.inl ⟨_, rfl⟩, by decide +kernel, fun equal => ?_⟩
  have told := congrArg (fun report => report.toOption.map (·.exportAdded)) equal
  have added : (run s r {} t).report.toOption.map (·.exportAdded) = some true := by decide +kernel
  have notAdded : (runPlain s r {} t).report.toOption.map (·.exportAdded) = some false := by
    decide +kernel
  simp only [added, notAdded] at told
  cases told

end Rehome.Move
