import Rehome.Proofs.Move.CacheFree
import Rehome.Proofs.Move.Revisions
import Rehome.Proofs.Specifier.Restoring

/-!
# Moves inside a project

A file that stays in its project needs no graph and no export, so such a move cannot fail once the
request is accepted. What it leaves of every file is what one replacement of specifiers makes of the
file, and each file is looked at once.
-/
namespace Rehome.Move

open Specifier (Finder)
open Rehome.Path (resolve? resolvesTo specifierFor IsCanonical)
open Job (Does SeesAll)
open Session

variable {service : Service} {r : Request} {options : Options} {t : FileTree} {report : Report}
  {p : Plan} {f : Finder} {s : ScanSettings}

/-! ## What is written -/

/-- What replacing specifiers in a file leaves of every file. -/
theorem text?_replaceWhere (f : Finder) (s : ScanSettings) (path : String) (chosen : String → Bool)
    (change : String → String) (v : Plain) (other : String) :
    ((Job.replaceWhere path chosen change).run (Plain.perform f s) v).2.tree.text? other =
      if other = path then (v.tree.text? path).map (f.rewrite path · chosen change)
      else v.tree.text? other := by
  rw [Job.replaceWhere, Job.run_editFile]
  cases found : v.tree.text? path with
  | none =>
    simp only [Option.bind_none, Option.map_none]
    split
    next same => rw [same, found]
    next => rfl
  | some text =>
    simp only [Option.bind_some, Option.map_some, Finder.rewrite]
    cases Specifier.replace? (f.occurrences path text) text.toList chosen change with
    | none =>
      simp only [Option.getD_none, String.ofList_toList]
      split
      next same => rw [same, found]
      next => rfl
    | some updated =>
      by_cases same : other = path
      · simp [same, Plain.write]
      · simp [same, Plain.write, Ne.symm same]

/-- Jobs on one file each, done to files in turn, do to every file what its own job does. -/
theorem text?_changed {change : String → Job Bool} {edit : String → String → String}
    {files : List String}
    (each : ∀ file ∈ files, ∀ v other,
      ((change file).run (Plain.perform f s) v).2.tree.text? other =
        if other = file then (v.tree.text? file).map (edit file) else v.tree.text? other)
    (distinct : files.Nodup) (v : Plain) (path : String) :
    ((changed change files).run (Plain.perform f s) v).2.tree.text? path =
      if path ∈ files then (v.tree.text? path).map (edit path) else v.tree.text? path := by
  induction files generalizing v with
  | nil => rfl
  | cons file rest ih =>
    obtain ⟨absent, distinct⟩ := List.nodup_cons.1 distinct
    have later := ih (fun file member => each file (List.mem_cons_of_mem _ member)) distinct
      ((change file).run (Plain.perform f s) v).2
    have steps : ((changed change (file :: rest)).run (Plain.perform f s) v).2 =
        ((changed change rest).run (Plain.perform f s)
          ((change file).run (Plain.perform f s) v).2).2 := by
      rw [changed, Job.run_bind]
      split
      · rw [Job.run_bind]
        rfl
      · rfl
    rw [steps, later, each file List.mem_cons_self v path]
    by_cases here : path = file
    · subst here
      simp [absent]
    · simp [here]

/-! ## The stages -/

theorem finish_inside (inside : p.isInside = true) (plain : options.format = false) (o : Outcome) :
    finish service p o options = (do
      Job.delete p.source
      let touched ← Job.touched
      return {
        strategy := p.strategy, source := p.source, target := p.target
        updated := touched.filter fun path => path ≠ p.source && path ≠ p.target
        exportAdded := false }) := by
  have exports : ensureExport p o options = pure false := by
    simp only [ensureExport, exportingEntry?, inside, Bool.true_or, if_true]
  have unformatted : formatTouched service options = pure () := by
    rw [formatTouched, plain, if_neg Bool.false_ne_true]
  rw [finish_eq, exports, inside]
  unfold closing
  rw [unformatted]
  rfl

theorem repair_inside (service : Service) (inside : p.isInside = true) :
    repair service p = (do return ⟨← onFiles (repairProject p none), false⟩) := by
  have strategy : p.strategy = .sameProject := by simp [Plan.strategy, Strategy.select, inside]
  rw [repair, strategy]

/-- A move inside a project that is carried on with never fails. -/
theorem complete_succeeds {σ : Type} (perform : {β : Type} → FileOp β → σ → β × σ)
    (service : Service) (inside : p.isInside = true) (options : Options) :
    Succeeds @perform (complete service p options) := by
  unfold complete
  apply (succeeds_onFiles _).bind
  intro _
  rw [repair_inside service inside]
  exact ((succeeds_onFiles _).bind fun _ => succeeds_pure _).bind fun _ => succeeds_onFiles _

/-- The plain state that a move inside a project ends with, from the one with the file at its new
place. -/
def insideEnd (f : Finder) (s : ScanSettings) (t : FileTree) (p : Plan) (v : Plain) : Plain :=
  ((changed (repairReferences p none) (t.inView s p.keeps p.sourceProject.root)).run
    (Plain.perform f s) ((repairOwn p).run (Plain.perform f s) v).2).2.delete p.source

theorem complete_inside {σ : Type} {perform : {β : Type} → FileOp β → σ → β × σ}
    {follows mirrors settles : σ → Plain → Prop}
    (views : Views @perform follows mirrors settles service.finder s t p)
    (inside : p.isInside = true) (plain : options.format = false) (differs : p.target ≠ p.source)
    {v : Plain} {st : σ} (related : follows st v) :
    settles (play @perform (complete service p options) .empty st).2
      (insideEnd service.finder s t p v) := by
  obtain ⟨own, placed, first⟩ := does_repairOwn views.sees differs v st related
  obtain ⟨after, repaired, second⟩ :=
    does_repairProject_inView views.sees none own _ placed
  have same : insideEnd service.finder s t p v = after.delete p.source := by
    rw [insideEnd, ← first, ← second]
  rw [complete, play_onFiles_bind, repair_inside service inside, play_bind, play_onFiles_bind]
  simp only [play_pure, play_onFiles, finish_inside inside plain, Job.run_bind, Job.delete,
    Job.touched, Job.run_ofOp]
  rw [same]
  exact (views.touched (views.delete (views.loosen repaired))).1

/-! ## Whole moves -/

/-- A request for a move inside a project is carried out if it is accepted. -/
theorem exists_report_inside {source target : String} {home away : Project}
    (accepts : Accepts service r t source target) (sourceOwner : service.workspace.owner source =
      .ok home) (targetOwner : service.workspace.owner target = .ok away)
    (same : home.name = away.name) (options : Options) :
    ∃ report, (run service r options t).report = .ok report := by
  obtain ⟨routed, -, -⟩ := route_follows (shows_index service.finder service.settings t)
    service r .empty
    ⟨seesAll_new service.finder t service.settings, by simp [Index.KeepsExistence, Index.new]⟩
  have checked := examine_spec service r t
  cases examined : examine service r t with
  | error e =>
    rw [examined] at checked
    have clean := accepts.firstFault?_eq_none
    rw [firstFault?, checked.1] at clean
    cases clean
  | ok x =>
    rw [examined] at routed checked
    have fits := checked.1
    have origin : x.source = source :=
      Except.ok.inj (fits.accepts.sourcePath.symm.trans accepts.sourcePath)
    have destination : x.target = target := by
      have path := fits.accepts.targetPath
      rw [origin] at path
      exact Except.ok.inj (path.symm.trans accepts.targetPath)
    have owned := fits.sourceOwner
    have taken := fits.targetOwner
    rw [origin, sourceOwner] at owned
    rw [destination, targetOwner] at taken
    rw [run_report, play_file_of_route _ options (Prod.ext routed rfl)]
    have plan := survey_isFor (Index.perform service.finder) service x
      (play (Index.perform service.finder) (route service r) .empty (.new t service.settings)).2
    apply complete_succeeds
    rw [Plan.isInside, plan.sourceProject, plan.targetProject, ← Except.ok.inj owned,
      ← Except.ok.inj taken]
    exact decide_eq_true same

theorem seesAll_attends (scene : t.IsScene fun _ => true) :
    Job.Attends (Index.perform f) (SeesAll f s t) f fun v path => v.tree.isFile path = true where
  answers := Index.follows_answers
  fits := id
  lists root sees := (Index.follows_lists scene root sees).1

/-- What a move inside a project leaves of every file. -/
theorem Planned.text?_inside {i : Index} (h : Planned service r options t report p i)
    (realizable : t.IsRealizable) (inside : p.isInside = true) (plain : options.format = false)
    (path : String) :
    (run service r options t).tree.text? path =
      if path = p.source then none
      else if path = p.target then
        some (service.finder.rewrite p.target p.text Path.isRelative p.ownChange)
      else if path ∈ t.listed service.settings p.sourceProject.root then
        (t.text? path).map (service.finder.rewrite path · (resolvesTo path · p.source)
          fun specifier => specifierFor path p.target (some specifier))
      else t.text? path := by
  have scene : (t.write p.target p.text).IsScene p.keeps :=
    isScene_write realizable h.canonical h.accepts.free p.text Plan.keeps_target
  have sees : SeesAll service.finder service.settings t i ⟨t, []⟩ :=
    h.surveyed (seesAll_attends (isScene_of_realizable realizable)) fun _ sees _ => sees
  have settled := complete_inside (index_views scene) inside plain h.accepts.elsewhere
    (index_place sees h.accepts.present scene)
  have text : (run service r options t).tree.text? path =
      (insideEnd service.finder service.settings (t.write p.target p.text) p
        (Plain.write ⟨t, []⟩ p.target p.text)).tree.text? path := by
    rw [h.tree]
    generalize (play (Index.perform service.finder) (complete service p options) .empty _).2 = j
      at settled ⊢
    exact congrArg (·.get? path) settled.agree.files_eq
  have inView : ∀ other, other ∈ (t.write p.target p.text).inView service.settings p.keeps
      p.sourceProject.root ↔ (other ≠ p.source ∧ other ≠ p.target) ∧
        other ∈ t.listed service.settings p.sourceProject.root := by
    intro other
    rw [FileTree.inView, List.mem_filter, FileTree.mem_listed, FileTree.mem_listed,
      FileTree.names_write, Names.mem_insert, Plan.keeps_iff]
    constructor
    · rintro ⟨⟨same | old, lists⟩, apart⟩
      · exact absurd same apart.2
      · exact ⟨apart, old, lists⟩
    · rintro ⟨apart, old, lists⟩
      exact ⟨⟨.inr old, lists⟩, apart⟩
  have distinct : ((t.write p.target p.text).inView service.settings p.keeps
      p.sourceProject.root).Nodup :=
    Names.nodup_of_increasing ((FileTree.listed_ordered ..).filter _)
  have repaired := fun v => @text?_changed service.finder service.settings
    (repairReferences p none) (fun path text => service.finder.rewrite path text
      (resolvesTo path · p.source) fun specifier => specifierFor path p.target (some specifier))
    _ (fun file member v other => by
      have apart := ((inView file).1 member).1
      have kept : (decide (file = p.source) || decide (file = p.target)) = false := by
        simp [apart.1, apart.2]
      rw [repairReferences, kept, if_neg Bool.false_ne_true]
      exact text?_replaceWhere ..) distinct v path
  have own := text?_replaceWhere service.finder service.settings p.target Path.isRelative
    p.ownChange (Plain.write ⟨t, []⟩ p.target p.text) path
  have here : (Plain.write ⟨t, []⟩ p.target p.text).tree.text? p.target = some p.text := by
    simp [Plain.write]
  have elsewhere : path ≠ p.target →
      (Plain.write ⟨t, []⟩ p.target p.text).tree.text? path = t.text? path := by
    intro differs
    simp [Plain.write, Ne.symm differs]
  have placed : repairOwn p = Job.replaceWhere p.target Path.isRelative p.ownChange := rfl
  rw [text, insideEnd]
  by_cases atSource : path = p.source
  · simp [Plain.delete, atSource]
  · have deleted : ∀ v : Plain, (v.delete p.source).tree.text? path = v.tree.text? path := by
      intro v
      simp [Plain.delete, Ne.symm atSource]
    rw [deleted, repaired, placed, own, if_neg atSource]
    by_cases atTarget : path = p.target
    · have out : path ∉ (t.write p.target p.text).inView service.settings p.keeps
          p.sourceProject.root := fun member => ((inView path).1 member).1.2 atTarget
      rw [if_neg out, if_pos atTarget, if_pos atTarget, here]
      rfl
    · have member : path ∈ (t.write p.target p.text).inView service.settings p.keeps
          p.sourceProject.root ↔ path ∈ t.listed service.settings p.sourceProject.root := by
        rw [inView]
        exact ⟨And.right, fun listed => ⟨⟨atSource, atTarget⟩, listed⟩⟩
      rw [if_neg atTarget, if_neg atTarget, elsewhere atTarget]
      simp only [member]

end Rehome.Move
