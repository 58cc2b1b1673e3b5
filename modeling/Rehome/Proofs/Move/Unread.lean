import Rehome.Proofs.Job.Twins
import Rehome.Proofs.Move.Keeping

/-!
# Files without specifiers do not matter

Two trees that differ only in texts without specifiers, because they are not read, cannot be read,
or hold none, take the same move. Every check, list, search and repair comes to the same on both
sides, and all that may happen to such a file is that the new project's first entry point gains an
export.
-/
namespace Rehome.Move

open Specifier (Finder)
open Job (Alike)
open Session (play)

/-! ## The parts of a move -/

section Jobs

variable {f : Finder} {hidden : String → Prop} {t u : FileTree}

theorem alike_changed {twins : Index → Index → Prop} {change : String → Job Bool}
    (each : ∀ file, Alike (Index.perform f) twins (change file) (change file))
    (files : List String) :
    Alike (Index.perform f) twins (changed change files) (changed change files) := by
  induction files with
  | nil => exact Job.alike_pure []
  | cons file rest ih =>
    refine (each file).bind fun altered => ?_
    cases altered with
    | true => exact ih.bind fun later => Job.alike_pure (file :: later)
    | false => exact ih

theorem alike_place {p : Plan} (visible : ¬ hidden p.target) :
    Alike (Index.perform f) (Index.Twins f hidden hidden t u) (place p) (place p) :=
  (Job.alike_write visible p.text).bind fun _ => (Job.alike_sourceFiles _).bind fun _ =>
    (Job.alike_sourceFiles _).bind fun _ => (Job.alike_relist _ _ _).bind fun _ =>
      Job.alike_relist _ _ _

theorem alike_listFiles (projects : List Project) :
    Alike (Index.perform f) (Index.Twins f hidden hidden t u) (listFiles projects)
      (listFiles projects) := by
  induction projects with
  | nil => exact Job.alike_pure ()
  | cons project rest ih => exact (Job.alike_sourceFiles _).bind fun _ => ih

variable (unread : t.Unread f hidden u)
include unread

theorem alike_exportedBy (source : String) (entries : List String) :
    Alike (Index.perform f) (Index.Twins f hidden hidden t u) (exportedBy source entries)
      (exportedBy source entries) := by
  induction entries with
  | nil => exact Job.alike_pure false
  | cons entry rest ih =>
    refine (Job.alike_specifiers unread entry).bind fun found => ?_
    split
    · exact Job.alike_pure true
    · exact ih

theorem alike_repairOwn (p : Plan) :
    Alike (Index.perform f) (Index.Twins f hidden hidden t u) (repairOwn p) (repairOwn p) :=
  Job.alike_replaceWhere unread p.target _ _

theorem alike_repairProject (p : Plan) (alias? : Option String) :
    Alike (Index.perform f) (Index.Twins f hidden hidden t u) (repairProject p alias?)
      (repairProject p alias?) := by
  refine (Job.alike_sourceFiles _).bind fun files => alike_changed (fun file => ?_) files
  split
  · exact Job.alike_pure false
  · exact Job.alike_replaceWhere unread file _ _

theorem alike_localize (p : Plan) (name file : String) :
    Alike (Index.perform f) (Index.Twins f hidden hidden t u) (localize p name file)
      (localize p name file) := Job.alike_replaceWhere unread file _ _

theorem alike_repairDependent (p : Plan) (name : String) (project : Project) (file : String) :
    Alike (Index.perform f) (Index.Twins f hidden hidden t u) (repairDependent p name project file)
      (repairDependent p name project file) := by
  unfold repairDependent
  split
  · exact Job.alike_pure false
  · refine (Job.alike_hasSpecifier unread file name).bind fun found => ?_
    cases found with
    | false => exact Job.alike_pure false
    | true =>
      rw [if_pos rfl]
      split
      · split
        · exact Job.alike_replaceSpecifier unread file name _
        · exact alike_localize unread p name file
      · exact alike_localize unread p name file

theorem alike_repairProjects (p : Plan) (name : String) (projects : List Project) :
    Alike (Index.perform f) (Index.Twins f hidden hidden t u) (repairProjects p name projects)
      (repairProjects p name projects) := by
  induction projects with
  | nil => exact Job.alike_pure []
  | cons project rest ih =>
    refine (Job.alike_sourceFiles _).bind fun files => ?_
    refine (alike_changed (alike_repairDependent unread p name project) files).bind fun here => ?_
    exact ih.bind fun later => Job.alike_pure (here ++ later)

theorem alike_removeFromEntryPoints (p : Plan) :
    Alike (Index.perform f) (Index.Twins f hidden hidden t u) (removeFromEntryPoints p)
      (removeFromEntryPoints p) :=
  alike_changed (fun entry => Job.alike_removeExportsWhere unread entry _) _

theorem alike_localizeTarget (p : Plan) :
    Alike (Index.perform f) (Index.Twins f hidden hidden t u) (localizeTarget p)
      (localizeTarget p) := by
  unfold localizeTarget
  split
  next => exact Job.alike_pure ()
  next name _ =>
    refine (Job.alike_sourceFiles _).bind fun files => ?_
    refine (alike_changed (fun file => ?_) files).bind fun _ => Job.alike_pure ()
    split
    · exact Job.alike_pure false
    · refine (Job.alike_hasSpecifier unread file name).bind fun found => ?_
      cases found with
      | false => exact Job.alike_pure false
      | true => exact alike_localize unread p name file

theorem alike_addFiles (aliases : List (String × String)) (project : String) (g : Graph)
    (files : List String) :
    Alike (Index.perform f) (Index.Twins f hidden hidden t u)
      (Dependencies.addFiles aliases project g files)
      (Dependencies.addFiles aliases project g files) := by
  induction files generalizing g with
  | nil => exact Job.alike_pure g
  | cons file rest ih => exact (Job.alike_specifiers unread file).bind fun found => ih _

theorem alike_addProjects (aliases : List (String × String)) (g : Graph)
    (projects : List Project) :
    Alike (Index.perform f) (Index.Twins f hidden hidden t u)
      (Dependencies.addProjects aliases g projects)
      (Dependencies.addProjects aliases g projects) := by
  induction projects generalizing g with
  | nil => exact Job.alike_pure g
  | cons project rest ih =>
    refine (Job.alike_sourceFiles _).bind fun files => ?_
    exact (alike_addFiles unread aliases project.name _ files).bind fun g => ih g

/-- Both runs learn the same graph. -/
theorem alike_graph {g : GraphSource} (builtIn : g.IsBuiltIn) (w : Workspace) :
    Alike (Index.perform f) (Index.Twins f hidden hidden t u) (g w) (g w) := by
  rcases builtIn with ⟨graph, rfl⟩ | rfl
  · exact Job.alike_pure _
  · exact (alike_addProjects unread _ .empty w.projects).bind fun graph => Job.alike_pure _

end Jobs

section Sessions

variable {s : Service} (schedule : Search.Schedule) {hidden : String → Prop} {t u : FileTree}

/-- The checks agree, as the file that is moved is not hidden. -/
theorem alike_route {r : Request}
    (visible : ∀ source, Path.normalize r.source = .ok source → ¬ hidden source) :
    Session.Alike (Index.perform s.finder) (Index.Twins s.finder hidden hidden t u)
      (route s r) (route { s with schedule } r) := by
  refine Session.alike_check_bind fun source named => ?_
  refine (Session.alike_check _).bind fun _ => ?_
  refine (Session.alike_onFiles (Job.alike_read (visible source named))).bind fun text? => ?_
  refine (Session.alike_check _).bind fun text => (Session.alike_check _).bind fun _ => ?_
  refine (Session.alike_check _).bind fun target => (Session.alike_check _).bind fun _ => ?_
  refine (Session.alike_check _).bind fun _ => ?_
  refine (Session.alike_onFiles (Job.alike_exist target)).bind fun taken => ?_
  exact (Session.alike_check _).bind fun _ => (Session.alike_check _).bind fun _ =>
    Session.alike_pure _

variable (unread : t.Unread s.finder hidden u)
include unread

theorem alike_survey (x : Route) :
    Alike (Index.perform s.finder) (Index.Twins s.finder hidden hidden t u) (survey s x)
      (survey { s with schedule } x) := by
  refine (alike_exportedBy unread _ _).bind fun isExported => Alike.bind ?_ fun _ =>
    Job.alike_pure _
  unfold importedInTarget
  cases s.workspace.alias? x.sourceProject.name with
  | none => exact Job.alike_pure false
  | some name =>
    dsimp only
    split
    · exact (Job.alike_sourceFiles _).bind fun files => Job.alike_any unread _ _ schedule _ files
    · exact Job.alike_pure false

theorem alike_projectsNaming (p : Plan) (name : String) (projects : List Project) :
    Alike (Index.perform s.finder) (Index.Twins s.finder hidden hidden t u)
      (projectsNaming s p name projects) (projectsNaming { s with schedule } p name projects) := by
  induction projects with
  | nil => exact Job.alike_pure []
  | cons project rest ih =>
    unfold projectsNaming
    split
    · exact ih
    · refine (Job.alike_sourceFiles _).bind fun files => ?_
      refine (Job.alike_any unread _ _ _ _ files).bind fun found => ?_
      cases found with
      | true => exact ih.bind fun later => Job.alike_pure (project :: later)
      | false => exact ih

variable (builtIn : s.graphSource.IsBuiltIn)
include builtIn

theorem alike_dependentsOf (name : String) :
    Session.Alike (Index.perform s.finder) (Index.Twins s.finder hidden hidden t u)
      (dependentsOf s name) (dependentsOf { s with schedule } name) := by
  refine Session.alike_get.bind fun c => ?_
  have load : Alike (Index.perform s.finder) (Index.Twins s.finder hidden hidden t u)
      (c.get (s.graphSource s.workspace)) (c.get (s.graphSource s.workspace)) := by
    unfold Graph.Cache.get
    split
    · exact Job.alike_pure _
    · exact (alike_graph unread builtIn _).bind fun loaded => Job.alike_pure _
  refine (Session.alike_onFiles load).bind fun loaded => (Session.alike_set _).bind fun _ => ?_
  exact (Session.alike_check _).bind fun _ => (Session.alike_set _).bind fun _ =>
    Session.alike_pure _

theorem alike_propagate (p : Plan) :
    Session.Alike (Index.perform s.finder) (Index.Twins s.finder hidden hidden t u)
      (propagate s p) (propagate { s with schedule } p) := by
  unfold propagate
  split
  next => exact Session.alike_pure []
  next name _ =>
    refine Session.Alike.bind ?_ fun projects => Session.alike_onFiles <|
      (alike_listFiles projects).bind fun _ => alike_repairProjects unread p name projects
    refine (alike_dependentsOf schedule unread builtIn _).bind fun dependents => ?_
    split
    · exact Session.alike_onFiles (alike_projectsNaming schedule unread p name _)
    · exact Session.alike_pure _

theorem alike_settle (p : Plan) :
    Session.Alike (Index.perform s.finder) (Index.Twins s.finder hidden hidden t u)
      (settle s p) (settle { s with schedule } p) := by
  have repairs : Session.Alike (Index.perform s.finder) (Index.Twins s.finder hidden hidden t u)
      (repair s p) (repair { s with schedule } p) := by
    unfold repair
    cases p.strategy with
    | sameProject | default | nonExportedAliased =>
      exact (Session.alike_onFiles (alike_repairProject unread p _)).bind fun _ =>
        Session.alike_pure _
    | exported =>
      refine (alike_propagate schedule unread builtIn p).bind fun dependents => ?_
      refine (Session.alike_onFiles (alike_removeFromEntryPoints unread p)).bind fun entries => ?_
      exact (Session.alike_onFiles (alike_repairProject unread p _)).bind fun _ =>
        Session.alike_pure _
  refine (Session.alike_onFiles (alike_repairOwn unread p)).bind fun _ => repairs.bind fun o => ?_
  refine (Session.alike_onFiles ?_).bind fun _ => Session.alike_pure o
  split
  · exact alike_localizeTarget unread p
  · exact Job.alike_pure ()

end Sessions

/-! ## Passing the file on -/

section

variable {s : Service} (schedule : Search.Schedule) {hidden : String → Prop} {t u : FileTree}
  {p : Plan} {options : Options} {i j : Index}

/-- Of the hidden files only the first entry point of the new project may change. -/
theorem twins_ensureExport (unread : t.Unread s.finder hidden u)
    (h : i.Twins s.finder hidden hidden t u j) (o : Outcome) (options : Options) :
    ((ensureExport p o options).run (Index.perform s.finder) j).1 =
        ((ensureExport p o options).run (Index.perform s.finder) i).1 ∧
      Index.Twins s.finder hidden
        (fun path => hidden path ∧ p.targetProject.primaryEntryPoint? ≠ some path) t u
        ((ensureExport p o options).run (Index.perform s.finder) i).2
        ((ensureExport p o options).run (Index.perform s.finder) j).2 := by
  unfold ensureExport
  cases chosen : exportingEntry? p o options with
  | none => exact ⟨rfl, h.mono fun _ => And.left⟩
  | some entry =>
    exact Job.twins_ensureWildcardExport unread h entry _ _
      (fun kept => kept.2 (exportingEntry?_eq_some chosen)) fun _ => And.left

theorem twins_passOn (unread : t.Unread s.finder hidden u)
    (h : i.Twins s.finder hidden hidden t u j) (unformatted : options.format = false)
    (visible : ¬ hidden p.source) (o : Outcome) :
    ((passOn { s with schedule } p o options).run (Index.perform s.finder) j).1 =
        ((passOn s p o options).run (Index.perform s.finder) i).1 ∧
      Index.Twins s.finder hidden
        (fun path => hidden path ∧ p.targetProject.primaryEntryPoint? ≠ some path) t u
        ((passOn s p o options).run (Index.perform s.finder) i).2
        ((passOn { s with schedule } p o options).run (Index.perform s.finder) j).2 := by
  obtain ⟨same, after⟩ := twins_ensureExport unread h o options
  rw [passOn, passOn, Job.run_bind, Job.run_bind, same]
  refine Alike.bind (Job.alike_delete fun kept => visible kept.1) (fun _ => ?_) _ _ after
  rw [formatTouched_of_unformatted unformatted, formatTouched_of_unformatted unformatted]
  exact (Job.alike_pure ()).bind fun _ => Job.alike_touched.bind fun touched => Job.alike_pure _

end

/-! ## Whole moves -/

/-- A hidden file that is not the first entry point of the project that got the moved file. -/
def IsSpared (w : Workspace) (hidden : String → Prop) (result : Except Error Report)
    (path : String) : Prop :=
  hidden path ∧ ∀ report project, result = .ok report → w.owner report.target = .ok project →
    project.primaryEntryPoint? ≠ some path

section

variable {s : Service} (schedule : Search.Schedule) {options : Options} {hidden : String → Prop}
  {t u : FileTree} (builtIn : s.graphSource.IsBuiltIn) (unformatted : options.format = false)
include builtIn unformatted

/-- What a move does once the file is at its new place. -/
theorem twins_complete (unread : t.Unread s.finder hidden u) {p : Plan}
    (visible : ¬ hidden p.source) (owner : s.workspace.owner p.target = .ok p.targetProject)
    {i j : Index} (h : i.Twins s.finder hidden hidden t u j) (c : Graph.Cache) :
    (play (Index.perform s.finder) (complete { s with schedule } p options) c j).1 =
        (play (Index.perform s.finder) (complete s p options) c i).1 ∧
      Index.Twins s.finder hidden (IsSpared s.workspace hidden
          (play (Index.perform s.finder) (complete s p options) c i).1.1) t u
        (play (Index.perform s.finder) (complete s p options) c i).2
        (play (Index.perform s.finder) (complete { s with schedule } p options) c j).2 := by
  rw [play_complete_of_settle, play_complete_of_settle]
  have settled := alike_settle schedule unread builtIn p c i j h
  generalize play (Index.perform s.finder) (settle s p) c i = outcome at settled
  generalize play (Index.perform s.finder) (settle { s with schedule } p) c j =
    outcome' at settled
  obtain ⟨answer, left⟩ := outcome
  obtain ⟨⟨result, c'⟩, right⟩ := outcome'
  obtain ⟨rfl, after⟩ := settled
  cases result with
  | error e => exact ⟨rfl, after.mono fun _ => And.left⟩
  | ok o =>
    obtain ⟨same, final⟩ := twins_passOn schedule unread after unformatted visible o
    dsimp only
    refine ⟨by rw [same], final.mono fun path kept => ⟨kept.1, kept.2 _ _ rfl ?_⟩⟩
    rw [passOn, Job.run_bind, closing, Job.run_bind, Job.run_bind, Job.run_bind]
    exact owner

/-- Both moves come to the same, and of the hidden files only the first entry point of the project
that gets the file may have changed. -/
theorem twins_file {r : Request} (differ : t.DifferUnread s.finder hidden u)
    (visible : ∀ source, Path.normalize r.source = .ok source → ¬ hidden source) :
    (play (Index.perform s.finder) (file { s with schedule } r options) .empty
          (.new u s.settings)).1 =
        (play (Index.perform s.finder) (file s r options) .empty (.new t s.settings)).1 ∧
      Index.Twins s.finder hidden (IsSpared s.workspace hidden
          (play (Index.perform s.finder) (file s r options) .empty (.new t s.settings)).1.1) t u
        (play (Index.perform s.finder) (file s r options) .empty (.new t s.settings)).2
        (play (Index.perform s.finder) (file { s with schedule } r options) .empty
          (.new u s.settings)).2 := by
  obtain ⟨same, routed⟩ := alike_route schedule visible .empty _ _
    (Index.twins_new differ s.settings)
  have result : (play (Index.perform s.finder) (route s r) .empty (.new t s.settings)).1 =
      (examine s r t, .empty) := (route_follows (shows_watches s.finder t) s r .empty
    (watches_new s.finder t s.settings)).1
  have checked := examine_spec s r t
  cases examined : examine s r t with
  | error e =>
    rw [examined] at result
    rw [play_file_of_error options (Prod.ext result rfl),
      play_file_of_error options (Prod.ext (same.trans result) rfl)]
    exact ⟨rfl, routed.mono fun _ => And.left⟩
  | ok x =>
    rw [examined] at result checked
    obtain ⟨fits, -⟩ := checked
    obtain ⟨i, reached⟩ : ∃ i, play (Index.perform s.finder) (route s r) .empty
        (.new t s.settings) = ((.ok x, .empty), i) := ⟨_, Prod.ext result rfl⟩
    obtain ⟨j, reached'⟩ : ∃ j, play (Index.perform s.finder) (route { s with schedule } r) .empty
        (.new u s.settings) = ((.ok x, .empty), j) := ⟨_, Prod.ext (same.trans result) rfl⟩
    rw [reached, reached'] at routed
    obtain ⟨plan, surveyed⟩ := alike_survey schedule differ.unread x i j routed
    have isFor := survey_isFor (Index.perform s.finder) s x i
    rw [play_file_of_route _ options reached, play_file_of_route _ options reached', plan]
    generalize ((survey s x).run (Index.perform s.finder) i).1 = p at isFor
    have away : ¬ hidden p.target := by
      intro isHidden
      have taken : t.holds p.target = true :=
        FileTree.holds_iff.2 (.inl (FileTree.isFile_iff.1 (differ.files _ isHidden)))
      rw [isFor.target, fits.accepts.free] at taken
      cases taken
    have inSight : ¬ hidden p.source := isFor.source ▸ visible _ fits.accepts.sourcePath
    have owner : s.workspace.owner p.target = .ok p.targetProject := by
      rw [isFor.target, isFor.targetProject]
      exact fits.targetOwner
    obtain ⟨-, placed⟩ := alike_place away _ _ surveyed
    exact twins_complete schedule builtIn unformatted differ.unread inSight owner placed .empty

end

/-- Two trees of the same files that differ only in files without specifiers, none of them the file
to be moved, take a move alike, whatever happens to the workers of its searches. The result is the
same, the files are the same but for those, and each of those keeps its text, unless it is the first
entry point of the project that gets the file. -/
theorem unread_files_unobserved (s : Service) (schedule : Search.Schedule) (r : Request)
    (options : Options) (hidden : String → Prop) (t u : FileTree)
    (builtIn : s.graphSource.IsBuiltIn) (unformatted : options.format = false)
    (differ : t.DifferUnread s.finder hidden u)
    (visible : ∀ source, Path.normalize r.source = .ok source → ¬ hidden source) :
    let x := run s r options t
    let y := run { s with schedule } r options u
    y.report = x.report ∧ y.loads = x.loads ∧ y.tree.files.names = x.tree.files.names ∧
      (∀ path, ¬ hidden path → y.tree.text? path = x.tree.text? path) ∧
      ∀ path, hidden path →
        (∀ report project, x.report = .ok report → s.workspace.owner report.target = .ok project →
          project.primaryEntryPoint? ≠ some path) →
        x.tree.text? path = t.text? path ∧ y.tree.text? path = u.text? path := by
  obtain ⟨same, twins⟩ := twins_file schedule builtIn unformatted differ visible
  dsimp only
  simp only [run_report, run_loads, run_tree]
  refine ⟨congrArg Prod.fst same, congrArg (·.2.loads) same, twins.names, twins.shown, ?_⟩
  exact fun path isHidden other => twins.still path ⟨isHidden, other⟩

/-- A file whose broken text mentions the moved file is left alone, and a broken entry point gains
the export, whatever their texts are. -/
theorem unread_files_unobserved_broken :
    let s := { Service.pair ["libs/a/index.ts"] ["libs/b/index.ts"] [("b", "@org/b")] with
      graphSource := .imports }
    let r : Request := ⟨"libs/a/x.ts", .path "libs/b/z.ts"⟩
    let t := FileTree.ofList [("libs/a/broken.ts", "import './x' ("),
      ("libs/a/index.ts", "export * from './x';\n"), ("libs/a/main.ts", "import './x';\n"),
      ("libs/a/x.ts", ""), ("libs/b/index.ts", "export (")]
    let u := (t.seed "libs/a/broken.ts" "import ('./x'").seed "libs/b/index.ts" "export * './z';"
    let schedule : Search.Schedule := ⟨fun _ => [], fun _ => true, fun _ => false⟩
    let after := (run { s with schedule } r {} u).tree
    (run { s with schedule } r {} u).report = (run s r {} t).report ∧
      after.text? "libs/a/main.ts" = some "import '@org/b';\n" ∧
      after.text? "libs/a/broken.ts" = some "import ('./x'" := by
  intro s r t u schedule after
  let hidden : String → Prop := fun path => path = "libs/a/broken.ts" ∨ path = "libs/b/index.ts"
  have differ : t.DifferUnread s.finder hidden u := by
    refine ⟨by decide +kernel, fun path shown => ?_, ?_, ?_⟩
    · have others : "libs/a/broken.ts" ≠ path ∧ "libs/b/index.ts" ≠ path :=
        ⟨fun same => shown (.inl same.symm), fun same => shown (.inr same.symm)⟩
      simp only [u, FileTree.seed, FileTree.text?, Table.get?_insert, if_neg others.1,
        if_neg others.2]
    · rintro path (rfl | rfl) <;> decide +kernel
    · rintro path (rfl | rfl) <;>
        exact ⟨FileTree.specifiers_of_unreadable (.inr (by decide +kernel)),
          FileTree.specifiers_of_unreadable (.inr (by decide +kernel))⟩
  have visible : ∀ source, Path.normalize r.source = .ok source → ¬ hidden source := by
    intro source named
    have clean : Path.normalize r.source = .ok "libs/a/x.ts" := ok_of_toOption (by decide +kernel)
    rw [clean] at named
    cases named
    simp [hidden]
  obtain ⟨report, -, -, shown, kept⟩ :=
    unread_files_unobserved s schedule r {} hidden t u (.inr rfl) rfl differ visible
  have outcome : (run s r {} t).report.toOption = some ⟨.exported, "libs/a/x.ts", "libs/b/z.ts",
      ["libs/a/index.ts", "libs/a/main.ts", "libs/b/index.ts"], true⟩ ∧
      (run s r {} t).tree.text? "libs/a/main.ts" = some "import '@org/b';\n" := by
    decide +kernel
  have owner : s.workspace.owner "libs/b/z.ts" =
      .ok ⟨"b", "libs/b", none, .library, ["libs/b/index.ts"]⟩ := ok_of_toOption (by decide +kernel)
  have still : after.text? "libs/a/broken.ts" = u.text? "libs/a/broken.ts" := by
    refine (kept "libs/a/broken.ts" (.inl rfl) fun told project same owned => ?_).2
    rw [ok_of_toOption outcome.1] at same
    cases same
    rw [owner] at owned
    cases owned
    decide
  exact ⟨report, (shown _ (by simp [hidden])).trans outcome.2, still.trans (by decide +kernel)⟩

end Rehome.Move
