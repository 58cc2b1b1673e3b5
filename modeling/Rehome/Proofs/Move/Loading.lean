import Rehome.Proofs.Graph.Loading
import Rehome.Proofs.Move.Ending

/-!
# When a move loads the graph

Loading the graph may mean to read every file of the workspace. A move asks for it in one place
only: where it repairs the files that name the alias of the old project, which it does for a file
that an entry point passed on. All other parts of a move leave the graph as they find it, and do not
look at where it would come from.
-/
namespace Rehome.Move

open Session

section Sessions

variable {σ α β : Type} (perform : {β : Type} → FileOp β → σ → β × σ)

/-- A session that leaves what is known of the graph as it finds it. -/
def LeavesGraph (x : Session α) : Prop := ∀ c st, (play @perform x c st).1.2 = c

variable {perform}

theorem leavesGraph_pure (a : α) : LeavesGraph @perform (pure a : Session α) := fun _ _ => rfl

theorem leavesGraph_onFiles (j : Job α) : LeavesGraph @perform (onFiles j) := by
  intro c st
  rw [play_onFiles]

/-- What is known of the graph after a session does not change in a part that leaves it alone. -/
theorem play_bind_of_leavesGraph {x : Session α} {k : α → Session β}
    (later : ∀ a, LeavesGraph @perform (k a)) (c : Graph.Cache) (st : σ) :
    (play @perform (x >>= k) c st).1.2 = (play @perform x c st).1.2 := by
  rw [play_bind]
  generalize play @perform x c st = outcome
  obtain ⟨⟨result, c'⟩, st'⟩ := outcome
  cases result with
  | ok a => exact later a c' st'
  | error e => rfl

theorem LeavesGraph.bind {x : Session α} {k : α → Session β} (first : LeavesGraph @perform x)
    (later : ∀ a, LeavesGraph @perform (k a)) : LeavesGraph @perform (x >>= k) :=
  fun c st => (play_bind_of_leavesGraph later c st).trans (first c st)

variable (s : Service) (p : Plan)

/-- Whether loading succeeds or not, it is tried once. -/
theorem loads_dependentsOf (name : String) (st : σ) :
    (play @perform (dependentsOf s name) .empty st).1.2.loads = 1 := by
  have asked : ((Graph.Cache.empty.get (s.graphSource s.workspace)).run @perform st).1.2 =
      Graph.Cache.empty.keep
        ((Graph.Cache.empty.get (s.graphSource s.workspace)).run @perform st).1.1 := by
    simp only [Graph.Cache.get, Graph.Cache.empty, Job.run_bind, Job.run_pure]
  unfold dependentsOf
  rw [play_bind, play_get]
  simp only [play_onFiles_bind]
  generalize (Graph.Cache.empty.get (s.graphSource s.workspace)).run @perform st = outcome at asked
  obtain ⟨⟨loaded, cache⟩, st'⟩ := outcome
  dsimp only at asked
  subst asked
  cases loaded with
  | ok g => rfl
  | error e => rfl

theorem loads_propagate (st : σ) :
    (play @perform (propagate s p) .empty st).1.2.loads =
      if p.sourceAlias?.isSome = true then 1 else 0 := by
  unfold propagate
  cases p.sourceAlias? with
  | none => rfl
  | some name =>
    have searches (dependents : List String) : LeavesGraph @perform
        (if dependents.isEmpty then onFiles (projectsNaming s p name s.workspace.projects)
          else return dependents.filterMap s.workspace.project?) := by
      split
      · exact leavesGraph_onFiles _
      · exact leavesGraph_pure _
    rw [play_bind_of_leavesGraph fun projects => leavesGraph_onFiles _, dependentProjects,
      play_bind_of_leavesGraph searches, loads_dependentsOf]
    rfl

theorem loads_repair (st : σ) :
    (play @perform (repair s p) .empty st).1.2.loads =
      if p.strategy = .exported ∧ p.sourceAlias?.isSome = true then 1 else 0 := by
  have reports (job : Job (List String)) (outcome : List String → Outcome) :
      LeavesGraph @perform (do return outcome (← onFiles job)) :=
    (leavesGraph_onFiles job).bind fun _ => leavesGraph_pure _
  rw [repair]
  cases strategy : p.strategy with
  | sameProject | default | nonExportedAliased =>
    dsimp only
    rw [reports]
    rfl
  | exported =>
    dsimp only
    rw [play_bind_of_leavesGraph, loads_propagate]
    · simp only [true_and]
    · exact fun dependents => (leavesGraph_onFiles _).bind fun entries => reports _ _

/-- Once the file is at its new place, a move loads the graph just for an exported file of a project
with an alias. -/
theorem loads_complete (o : Options) (st : σ) :
    (play @perform (complete s p o) .empty st).1.2.loads =
      if p.strategy = .exported ∧ p.sourceAlias?.isSome = true then 1 else 0 := by
  rw [complete, play_onFiles_bind, play_bind_of_leavesGraph fun outcome => leavesGraph_onFiles _,
    loads_repair]

variable {s p}

/-- Whoever does not load the graph does not mind where it would come from. -/
theorem complete_eq_of_spared (spared : ¬ (p.strategy = .exported ∧ p.sourceAlias?.isSome = true))
    (source : GraphSource) (o : Options) :
    complete { s with graphSource := source } p o = complete s p o := by
  have repairs : repair { s with graphSource := source } p = repair s p := by
    rw [repair, repair]
    cases strategy : p.strategy with
    | sameProject | default | nonExportedAliased => rfl
    | exported =>
      have unknown : p.sourceAlias? = none := by
        rw [← Option.not_isSome_iff_eq_none]
        exact fun known => spared ⟨strategy, known⟩
      rw [propagate, propagate, unknown]
  rw [complete, repairs]
  rfl

end Sessions

/-! ## Whole moves -/

/-- A request that is accepted, for a file that goes the way of exported ones, out of a project with
an alias. -/
def NeedsGraph (s : Service) (r : Request) (t : FileTree) : Prop :=
  ∃ source target home away, Accepts s r t source target ∧ s.workspace.owner source = .ok home ∧
    s.workspace.owner target = .ok away ∧
    Strategy.select (home.name = away.name) (IsPassedOn s.finder t home.entryPoints source)
      (s.workspace.alias? away.name).isSome = .exported ∧
    (s.workspace.alias? home.name).isSome = true

/-- A request that passes the checks has one route. -/
theorem needsGraph_iff_of_fits {s : Service} {r : Request} {t : FileTree} {x : Route}
    (fits : Fits s r t x) :
    NeedsGraph s r t ↔
      Strategy.select (x.sourceProject.name = x.targetProject.name)
        (IsPassedOn s.finder t x.sourceProject.entryPoints x.source)
        (s.workspace.alias? x.targetProject.name).isSome = .exported ∧
      (s.workspace.alias? x.sourceProject.name).isSome = true := by
  constructor
  · rintro ⟨source, target, home, away, accepts, leaves, arrives, strategy, known⟩
    obtain rfl : source = x.source :=
      Except.ok.inj (accepts.sourcePath.symm.trans fits.accepts.sourcePath)
    obtain rfl : target = x.target :=
      Except.ok.inj (accepts.targetPath.symm.trans fits.accepts.targetPath)
    obtain rfl : home = x.sourceProject := Except.ok.inj (leaves.symm.trans fits.sourceOwner)
    obtain rfl : away = x.targetProject := Except.ok.inj (arrives.symm.trans fits.targetOwner)
    exact ⟨strategy, known⟩
  · rintro ⟨strategy, known⟩
    exact ⟨x.source, x.target, x.sourceProject, x.targetProject, fits.accepts, fits.sourceOwner,
      fits.targetOwner, strategy, known⟩

/-- The strategy of a plan, told by the route and the files. -/
theorem Plan.IsFor.strategy_eq {s : Service} {t : FileTree} {x : Route} {p : Plan} (plan : p.IsFor s x)
    (exports : p.isExported = true ↔ IsPassedOn s.finder t x.sourceProject.entryPoints x.source) :
    p.strategy = .select (x.sourceProject.name = x.targetProject.name)
      (IsPassedOn s.finder t x.sourceProject.entryPoints x.source)
      (s.workspace.alias? x.targetProject.name).isSome := by
  have told : p.isExported = decide (IsPassedOn s.finder t x.sourceProject.entryPoints x.source) := by
    rw [Bool.eq_iff_iff, decide_eq_true_iff, exports]
  rw [Plan.strategy, Plan.isInside, told, plan.published, plan.sourceProject, plan.targetProject]

/-- Where the graph comes from makes no difference up to the point where a move ends with a
complaint, or where it has placed the file and completes its work by a plan. The plan tells whether
the graph is needed. -/
theorem file_cases (s : Service) (r : Request) (o : Options) (t : FileTree) :
    (¬ NeedsGraph s r t ∧ ∃ e st, ∀ source, play (Index.perform s.finder)
      (file { s with graphSource := source } r o) .empty (.new t s.settings) =
        ((.error e, .empty), st)) ∨
    ∃ p st, (NeedsGraph s r t ↔ p.strategy = .exported ∧ p.sourceAlias?.isSome = true) ∧
      ∀ source, play (Index.perform s.finder) (file { s with graphSource := source } r o) .empty
        (.new t s.settings) =
          play (Index.perform s.finder) (complete { s with graphSource := source } p o) .empty st := by
  obtain ⟨routed, sees, -⟩ := route_follows (shows_index s.finder s.settings t) s r .empty
    ⟨seesAll_new s.finder t s.settings, by simp [Index.KeepsExistence, Index.new]⟩
  generalize passed : play (Index.perform s.finder) (route s r) .empty (.new t s.settings) = outcome
    at routed sees
  obtain ⟨_, st⟩ := outcome
  subst routed
  have passes : ∀ source, play (Index.perform s.finder) (route { s with graphSource := source } r) .empty
      (.new t s.settings) = ((examine s r t, .empty), st) := fun _ => passed
  have checked := examine_spec s r t
  cases examined : examine s r t with
  | error e =>
    rw [examined] at passes checked
    refine .inl ⟨?_, e, st, fun source => play_file_of_error o (passes source)⟩
    rintro ⟨_, _, -, -, accepts, -⟩
    have clean := accepts.firstFault?_eq_none
    rw [firstFault?, checked.1] at clean
    cases clean
  | ok x =>
    rw [examined] at passes checked
    have surveys : ∀ source, survey { s with graphSource := source } x = survey s x := fun _ => rfl
    have plan := survey_isFor (Index.perform s.finder) s x st
    have placed := fun source => play_file_of_route (Index.perform s.finder) o (passes source)
    simp only [surveys] at placed
    refine .inr ⟨_, _, ?_, placed⟩
    rw [needsGraph_iff_of_fits checked.1, plan.strategy_eq (survey_isExported x sees), plan.known,
      plan.sourceProject]

theorem run_loads_iff (s : Service) (r : Request) (o : Options) (t : FileTree) :
    (run s r o t).loads ≤ 1 ∧ ((run s r o t).loads = 1 ↔ NeedsGraph s r t) := by
  rw [run_loads]
  rcases file_cases s r o t with ⟨refused, e, st, ends⟩ | ⟨p, st, needs, goes⟩
  · rw [ends s.graphSource]
    exact ⟨Nat.zero_le 1, by simp [Graph.Cache.empty, refused]⟩
  · rw [goes s.graphSource, loads_complete, needs]
    split
    next needed => simpa using needed
    next spared => simpa using spared

/-- A move that does not need the graph comes to the same with every source of one. -/
theorem run_eq_of_spared {s : Service} {r : Request} {t : FileTree} (spared : ¬ NeedsGraph s r t)
    (o : Options) (source : GraphSource) :
    run { s with graphSource := source } r o t = run s r o t := by
  have same : play (Index.perform s.finder) (file { s with graphSource := source } r o) .empty
      (.new t s.settings) = play (Index.perform s.finder) (file s r o) .empty (.new t s.settings) := by
    rcases file_cases s r o t with ⟨-, e, st, ends⟩ | ⟨p, st, needs, goes⟩
    · rw [ends source, ← ends s.graphSource]
    · rw [goes source, complete_eq_of_spared (mt needs.2 spared), ← goes s.graphSource]
  rw [run_eq_play, run_eq_play, same]

/-- A cache loads a graph for a call just if no call before it came to one, and every call is
answered from the first graph that was loaded before it. A move loads the graph at most once, and,
as far as it ends, just if its request is accepted, the file goes the way of exported ones, and the
project that it leaves has an alias. Otherwise the graph is not loaded, and it does not matter where
it would come from. -/
theorem graph_loaded_once :
    (∀ before call later,
      (Graph.Cache.empty.answers (before ++ call :: later))[before.length]? =
        some (call.due (Graph.Cache.firstLoaded? before))) ∧
    (∀ calls, (Graph.Cache.empty.after calls).loads =
      (Graph.Cache.empty.answers calls).countP Graph.Cache.Answer.ran) ∧
    ∀ s r o t, (run s r o t).loads ≤ 1 ∧
      ((run s r o t).ends = true → ((run s r o t).loads = 1 ↔ NeedsGraph s r t)) ∧
      (NeedsGraph s r t ∨ (run s r o t).loads = 0 ∧
        ∀ source, run { s with graphSource := source } r o t = run s r o t) ∧
      (s.graphSource.IsBuiltIn → t.IsSolidBelow "" → (run s r o t).ends = true) := by
  refine ⟨Graph.Cache.answer_due, fun calls => ?_, fun s r o t => ?_⟩
  · rw [Graph.Cache.loads_after]
    exact Nat.zero_add _
  · obtain ⟨once, needed⟩ := run_loads_iff s r o t
    refine ⟨once, fun _ => needed, or_iff_not_imp_left.2 fun spared => ?_, fun builtIn =>
      ends_of_solid builtIn r o⟩
    have none : (run s r o t).loads ≠ 1 := mt needed.1 spared
    exact ⟨by omega, run_eq_of_spared spared o⟩

/-- A file that an entry point passes on leaves a project with an alias. -/
theorem graph_loaded_once_exported :
    let s := Service.pair ["libs/a/index.ts"] [] [("a", "@org/a")]
    let r : Request := ⟨"libs/a/x.ts", .path "libs/b/x.ts"⟩
    let t := FileTree.ofList [("libs/a/index.ts", "export * from './x';\n"), ("libs/a/x.ts", "")]
    NeedsGraph s r t ∧ (run s r {} t).ends = true ∧ (run s r {} t).loads = 1 := by
  intro s r t
  have needs : NeedsGraph s r t :=
    ⟨"libs/a/x.ts", "libs/b/x.ts", ⟨"a", "libs/a", none, .library, ["libs/a/index.ts"]⟩,
      ⟨"b", "libs/b", none, .library, []⟩, ⟨by cbv, by decide, by decide, by decide +kernel, by cbv,
        by decide, by decide, by decide, by decide +kernel⟩, ok_of_toOption (by decide +kernel),
      ok_of_toOption (by decide +kernel), by decide +kernel, by decide +kernel⟩
  obtain ⟨-, loaded, -, ends⟩ := graph_loaded_once.2.2 s r {} t
  have ended := ends (.inl ⟨_, rfl⟩) (by decide +kernel)
  exact ⟨needs, ended, (loaded ended).2 needs⟩

/-- A move that needs the graph does not come to load it: while the request is looked at, the scan
of the new project comes back to its root for ever. -/
theorem graph_never_loaded :
    let s := Service.over [⟨"a", "libs/a", none, .library, ["libs/a/index.ts"]⟩,
      ⟨"b", "libs/b", some "src/b", .library, []⟩] [("a", "@org/a")]
    let r : Request := ⟨"libs/a/x.ts", .path "src/b/x.ts"⟩
    let t := FileTree.ofList [("libs/a/index.ts", "export * from './x';\n"), ("libs/a/x.ts", ""),
      ("libs/b//y.txt", "")]
    let resolved := play (Index.perform s.finder) (resolve s r) .empty (.new t s.settings)
    NeedsGraph s r t ∧ resolved.1.2.loads = 0 ∧ resolved.2.endless = true ∧
      (run s r {} t).answer? = none := by
  intro s r t resolved
  have needs : NeedsGraph s r t :=
    ⟨"libs/a/x.ts", "src/b/x.ts", ⟨"a", "libs/a", none, .library, ["libs/a/index.ts"]⟩,
      ⟨"b", "libs/b", some "src/b", .library, []⟩, ⟨by cbv, by decide, by decide, by decide +kernel,
        by cbv, by decide, by decide, by decide, by decide +kernel⟩,
      ok_of_toOption (by decide +kernel), ok_of_toOption (by decide +kernel), by decide +kernel,
      by decide +kernel⟩
  exact ⟨needs, by decide +kernel⟩

end Rehome.Move
