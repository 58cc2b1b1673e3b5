import Rehome.Move.Repair
import Rehome.Proofs.Job.Standing

/-!
# Jobs that only ask

A job that only reads files, parses them and lists them leaves the files as they are. While nothing
is hidden and every file is in view, an index gives it the answers of the tree, so the job comes to
the same result with caches and without.
-/
namespace Rehome.Job

open Specifier (Finder Occurrence Query)

variable {α β : Type}

/-- A job that changes nothing. -/
inductive Asks : Job α → Prop
  | done (a : α) : Asks (.done a)
  | read {path : String} {next : Option String → Job α} (later : ∀ text?, Asks (next text?)) :
      Asks (.step (.read path) next)
  | specifiers {path : String} {next : List Occurrence → Job α}
    (later : ∀ found, Asks (next found)) :
      Asks (.step (.specifiers path) next)
  | sourceFiles {root : String} {next : List String → Job α} (later : ∀ files, Asks (next files)) :
      Asks (.step (.sourceFiles root) next)

theorem asks_pure (a : α) : Asks (pure a : Job α) := .done a

theorem asks_read (path : String) : Asks (read path) := .read fun text? => .done text?

theorem asks_specifiers (path : String) : Asks (specifiers path) :=
  .specifiers fun found => .done found

theorem asks_sourceFiles (root : String) : Asks (sourceFiles root) :=
  .sourceFiles fun files => .done files

theorem Asks.bind {j : Job α} {k : α → Job β} (first : Asks j) (later : ∀ a, Asks (k a)) :
    Asks (j >>= k) := by
  induction first with
  | done a => exact later a
  | read _ next => exact .read next
  | specifiers _ next => exact .specifiers next
  | sourceFiles _ next => exact .sourceFiles next

/-! ## Searches and surveys ask -/

theorem asks_inTurn (f : Finder) (q : Query) (extent : Search.Extent) (candidates : List String) :
    Asks (Search.inTurn f q extent candidates) := by
  induction candidates with
  | nil => exact asks_pure []
  | cons path rest ih =>
    refine (asks_read path).bind fun text? => ?_
    cases text? with
    | none => exact ih
    | some text =>
      dsimp only
      split
      · split
        · exact asks_pure [path]
        · exact ih.bind fun found => asks_pure (path :: found)
      · exact ih

theorem asks_snapshot (candidates : List String) : Asks (Search.snapshot candidates) := by
  induction candidates with
  | nil => exact asks_pure []
  | cons path rest ih =>
    refine (asks_read path).bind fun text? => ?_
    cases text? with
    | none => exact ih
    | some text => exact ih.bind fun texts => asks_pure ((path, text) :: texts)

theorem asks_any (f : Finder) (settings : ScanSettings) (s : Search.Schedule) (q : Query)
    (candidates : List String) :
    Asks (Search.any f settings s q candidates) := by
  refine .bind ?_ fun found => asks_pure (!found.isEmpty)
  unfold Search.files
  split
  · exact asks_inTurn f q .first candidates
  · refine (asks_snapshot candidates).bind fun texts => ?_
    split
    · exact asks_pure []
    · exact asks_pure _

theorem asks_exportedBy (source : String) (entries : List String) :
    Asks (Move.exportedBy source entries) := by
  induction entries with
  | nil => exact asks_pure false
  | cons entry rest ih =>
    refine (asks_specifiers entry).bind fun found => ?_
    split
    · exact asks_pure true
    · exact ih

theorem asks_importedInTarget (s : Move.Service) (x : Move.Route) (isExported : Bool) :
    Asks (Move.importedInTarget s x isExported) := by
  unfold Move.importedInTarget
  split
  · exact asks_pure false
  · split
    · exact (asks_sourceFiles _).bind fun files => asks_any ..
    · exact asks_pure false

theorem asks_survey (s : Move.Service) (x : Move.Route) : Asks (Move.survey s x) :=
  (asks_exportedBy ..).bind fun isExported => (asks_importedInTarget s x isExported).bind fun _ =>
    asks_pure _

theorem asks_projectsNaming (s : Move.Service) (p : Move.Plan) (name : String)
    (projects : List Project) :
    Asks (Move.projectsNaming s p name projects) := by
  induction projects with
  | nil => exact asks_pure []
  | cons project rest ih =>
    unfold Move.projectsNaming
    split
    · exact ih
    · refine (asks_sourceFiles _).bind fun files => (asks_any ..).bind fun found => ?_
      cases found with
      | true => exact ih.bind fun later => asks_pure (project :: later)
      | false => exact ih

theorem asks_listFiles (projects : List Project) : Asks (Move.listFiles projects) := by
  induction projects with
  | nil => exact asks_pure ()
  | cons project rest ih => exact (asks_sourceFiles _).bind fun _ => ih

theorem asks_addFiles (aliases : List (String × String)) (project : String) (g : Graph)
    (files : List String) :
    Asks (Dependencies.addFiles aliases project g files) := by
  induction files generalizing g with
  | nil => exact asks_pure g
  | cons file rest ih => exact (asks_specifiers file).bind fun found => ih _

theorem asks_addProjects (aliases : List (String × String)) (g : Graph) (projects : List Project) :
    Asks (Dependencies.addProjects aliases g projects) := by
  induction projects generalizing g with
  | nil => exact asks_pure g
  | cons project rest ih =>
    exact (asks_sourceFiles _).bind fun files => (asks_addFiles ..).bind fun _ => ih _

/-- Learning the graph asks questions only. -/
theorem asks_graph {g : Move.GraphSource} (builtIn : g.IsBuiltIn) (w : Workspace) : Asks (g w) := by
  rcases builtIn with ⟨graph, rfl⟩ | rfl
  · exact asks_pure _
  · exact (asks_addProjects ..).bind fun _ => asks_pure _

/-! ## The same answers with caches and without -/

variable {f : Finder} {s : ScanSettings} {t : FileTree} {i : Index} {v : Plain}

/-- All files are in view and none is hidden. -/
abbrev SeesAll (f : Finder) (s : ScanSettings) (t : FileTree) (i : Index) (v : Plain) : Prop :=
  i.Follows f s t (fun _ => true) (fun _ => False) v

/-- What a job that asks learns from an index and from a plain state is the same, and both stay as
they are. -/
theorem Asks.same (scene : t.IsScene fun _ => true) {j : Job α} (asks : Asks j)
    (sees : SeesAll f s t i v) (names : v.tree.files.names = t.files.names) :
    (j.run (Index.perform f) i).1 = (j.run (Plain.perform f s) v).1 ∧
      SeesAll f s t (j.run (Index.perform f) i).2 v ∧ (j.run (Plain.perform f s) v).2 = v := by
  induction asks generalizing i with
  | done a => exact ⟨rfl, sees, rfl⟩
  | @read path next _ ih =>
    obtain ⟨after, answer⟩ := Index.follows_answers.read path sees
    rw [run_step, run_step, answer id]
    exact ih _ after
  | @specifiers path next _ ih =>
    obtain ⟨after, answer⟩ := Index.follows_answers.specifiers path sees
    rw [run_step, run_step, answer id]
    exact ih _ after
  | @sourceFiles root next _ ih =>
    obtain ⟨after, answer⟩ := Index.follows_lists scene root sees
    have plain := scene.scan (Index.new v.tree s) names root
    simp only [List.filter_true] at answer plain
    rw [run_step, run_step, answer]
    simp only [Plain.perform, plain]
    exact ih _ after

end Rehome.Job
