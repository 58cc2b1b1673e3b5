import Rehome.Proofs.Job.Attending
import Rehome.Proofs.Move.Parts
import Rehome.Proofs.Move.Stages

/-!
# Conditions that a move keeps

A move changes one file after the other. A condition that each of these changes keeps is kept by the
stages of the move, whichever files and projects they come to, and so by the move.
-/
namespace Rehome.Move

open Specifier (Finder)
open Rehome.Path (resolvesTo specifierFor)
open Job (Does Attends Asks)
open Session

variable {σ : Type} {perform : {β : Type} → FileOp β → σ → β × σ} {stands : σ → Plain → Prop}
  {f : Finder} {fit : Plain → String → Prop} {s : ScanSettings} {p : Plan} {v : Plain}
  {inv : Plain → Prop}

/-! ## File after file -/

/-- What the change of one file takes from a list of files, changing all of them takes from the
whole list. -/
theorem does_changed_all (meets : List String → Plain → Prop) {change : String → Job Bool}
    {files : List String} (each : ∀ file rest v, (file :: rest) <:+ files → meets (file :: rest) v →
      Does @perform stands (change file) v fun _ v' => meets rest v')
    (start : meets files v) :
    Does @perform stands (changed change files) v fun _ v' => meets [] v' := by
  suffices all : ∀ rest v, rest <:+ files → meets rest v →
      Does @perform stands (changed change rest) v fun _ v' => meets [] v' from
    all files v List.suffix_rfl start
  intro rest
  induction rest with
  | nil => exact fun v _ here => Job.does_pure here
  | cons file rest ih =>
    intro v inside here
    have later := fun v' => ih v' ((List.suffix_cons file rest).trans inside)
    apply (each file rest v inside here).bind
    intro answer v' after
    cases answer with
    | true => exact (later v' after).bind fun _ _ done => Job.does_pure done
    | false => exact later v' after

/-- A condition that the change of every file keeps. -/
theorem does_changed_each {change : String → Job Bool} {files : List String}
    (each : ∀ file ∈ files, ∀ v, inv v → Does @perform stands (change file) v fun _ v' => inv v')
    (start : inv v) :
    Does @perform stands (changed change files) v fun _ v' => inv v' :=
  does_changed_all (fun _ => inv)
    (fun file _ v inside => each file (inside.subset List.mem_cons_self) v) start

/-! ## Stages -/

/-- Repairing a file that names the alias keeps what both ways of repairing it keep. -/
theorem repairDependent_keeps {name : String}
    (localized : ∀ file, file ≠ p.target → ∀ v, inv v →
      inv ((localize p name file).run (Plain.perform f s) v).2)
    (renamed : ∀ new ∈ p.targetAlias?, ∀ file, file ≠ p.target → ∀ v, inv v →
      inv ((Job.replaceSpecifier file name new).run (Plain.perform f s) v).2)
    (project : Project) (file : String) (h : inv v) :
    inv ((repairDependent p name project file).run (Plain.perform f s) v).2 := by
  unfold repairDependent
  split
  next => exact h
  next elsewhere =>
    rw [Job.run_bind, run_hasSpecifier]
    cases namesAlias f name v file with
    | false => exact h
    | true =>
      simp only [if_true]
      split
      next new published =>
        split
        · exact renamed new published file elsewhere v h
        · exact localized file elsewhere v h
      next => exact localized file elsewhere v h

section

variable (s) (attends : Attends @perform stands f fit)
include attends

theorem does_repairProject_keeping {alias? : Option String}
    (replaced : ∀ file, file ≠ p.source → file ≠ p.target → ∀ v, inv v →
      inv ((Job.replaceWhere file (resolvesTo file · p.source) (replacement p alias? file)).run
        (Plain.perform f s) v).2)
    (h : inv v) :
    Does @perform stands (repairProject p alias?) v fun _ v' => inv v' := by
  apply (attends.sourceFiles p.sourceProject.root v).bind
  intro files v' same
  subst same
  apply does_changed_each _ h
  intro file _ v before
  split
  next => exact Job.does_pure before
  next other =>
    simp only [Bool.or_eq_true, decide_eq_true_eq, not_or] at other
    exact attends.edits s (Job.edits_replaceWhere ..) (replaced file other.1 other.2 v before)

theorem does_removeFromEntryPoints_keeping
    (removed : ∀ entry ∈ p.sourceProject.entryPoints, ∀ v, inv v →
      inv ((Job.removeExportsWhere entry (resolvesTo entry · p.source)).run
        (Plain.perform f s) v).2)
    (h : inv v) :
    Does @perform stands (removeFromEntryPoints p) v fun _ v' => inv v' := by
  apply does_changed_each _ h
  intro entry listed v before
  exact attends.edits s (Job.edits_removeExportsWhere ..) (removed entry listed v before)

theorem does_repairProjects_keeping {name : String}
    (repaired : ∀ project file v, inv v →
      inv ((repairDependent p name project file).run (Plain.perform f s) v).2)
    (projects : List Project) (h : inv v) :
    Does @perform stands (repairProjects p name projects) v fun _ v' => inv v' := by
  induction projects generalizing v with
  | nil => exact Job.does_pure h
  | cons project rest ih =>
    apply (attends.sourceFiles project.root v).bind
    intro files v' same
    subst same
    have here : Does @perform stands (changed (repairDependent p name project) files) v'
        fun _ v' => inv v' := by
      apply does_changed_each _ h
      intro file _ v before
      exact attends.edits s (edits_repairDependent ..) (repaired project file v before)
    exact here.bind fun _ _ after => (ih after).bind fun _ _ done => Job.does_pure done

theorem does_localizeTarget_keeping
    (localized : ∀ name ∈ p.sourceAlias?, ∀ file, file ≠ p.target → ∀ v, inv v →
      inv ((localize p name file).run (Plain.perform f s) v).2)
    (h : inv v) :
    Does @perform stands (localizeTarget p) v fun _ v' => inv v' := by
  unfold localizeTarget
  cases named : p.sourceAlias? with
  | none => exact Job.does_pure h
  | some name =>
    apply (attends.sourceFiles p.targetProject.root v).bind
    intro files v' same
    subst same
    refine (does_changed_each (fun file _ v before => ?_) h).bind fun _ _ after =>
      Job.does_pure after
    split
    next => exact Job.does_pure before
    next elsewhere =>
      have asked : Does @perform stands (Job.hasSpecifier file name) v fun _ v' => v' = v :=
        attends.edits s (Job.edits_hasSpecifier file name) (by rw [run_hasSpecifier])
      apply asked.bind
      intro found v' same
      subst same
      cases found with
      | true =>
        exact attends.edits s (edits_localize ..) (localized name named file elsewhere _ before)
      | false => exact Job.does_pure before

end

/-! ## Sessions -/

section

variable (perform stands)

/-- From every state that stands for `v` the session comes to one that stands for a plain state,
which is as described if the session succeeds. -/
def Ends {α : Type} (x : Session α) (c : Graph.Cache) (v : Plain) (post : α → Plain → Prop) :
    Prop :=
  ∀ st, stands st v → ∃ v', stands (play @perform x c st).2 v' ∧
    ∀ a, (play @perform x c st).1.1 = .ok a → post a v'

end

section

variable {α β : Type} {c : Graph.Cache}

theorem ends_pure {a : α} {post : α → Plain → Prop} (holds : post a v) :
    Ends @perform stands (pure a) c v post := by
  intro st related
  refine ⟨v, related, fun b same => ?_⟩
  cases same
  exact holds

theorem ends_onFiles {j : Job α} {post : α → Plain → Prop} (does : Does @perform stands j v post) :
    Ends @perform stands (onFiles j) c v post := by
  intro st related
  obtain ⟨v', after, holds⟩ := does st related
  rw [play_onFiles]
  refine ⟨v', after, fun a same => ?_⟩
  cases same
  exact holds

theorem Ends.bind {x : Session α} {k : α → Session β} {mid : α → Plain → Prop}
    {post : β → Plain → Prop} (first : Ends @perform stands x c v mid)
    (later : ∀ a c' v', mid a v' → Ends @perform stands (k a) c' v' post) :
    Ends @perform stands (x >>= k) c v post := by
  intro st related
  obtain ⟨v', after, holds⟩ := first st related
  rw [play_bind]
  generalize play @perform x c st = outcome at after holds
  obtain ⟨⟨result, c'⟩, st'⟩ := outcome
  cases result with
  | ok a => exact later a c' v' (holds a rfl) st' after
  | error e => exact ⟨v', after, nofun⟩

end

/-- Learning the graph by questions changes nothing, whether it succeeds or not. -/
theorem ends_dependentsOf (attends : Attends @perform stands f fit) {service : Service}
    (asks : Asks (service.graphSource service.workspace)) (name : String) (c : Graph.Cache) :
    Ends @perform stands (dependentsOf service name) c v fun _ v' => v' = v := by
  have asked : Asks (c.get (service.graphSource service.workspace)) := by
    unfold Graph.Cache.get
    split
    · exact Job.asks_pure _
    · exact asks.bind fun _ => Job.asks_pure _
  intro st related
  obtain ⟨v', after, same⟩ := attends.asks asked v st related
  subst same
  unfold dependentsOf
  rw [play_bind, play_get]
  simp only [play_onFiles_bind]
  generalize (c.get (service.graphSource service.workspace)).run @perform st = outcome at after
  obtain ⟨⟨loaded, cache⟩, st'⟩ := outcome
  cases loaded with
  | ok g => exact ⟨v', after, fun _ _ => rfl⟩
  | error e => exact ⟨v', after, fun _ _ => rfl⟩

theorem strategy_eq_exported_iff (across : p.isInside = false) :
    p.strategy = .exported ↔ p.isExported = true := by
  unfold Plan.strategy Strategy.select
  cases p.isExported <;> cases p.targetAlias?.isSome <;> simp [across]

/-- A file that is reached through the alias of its old project is passed on there. -/
theorem strategy_of_imported (passed : p.importedInTarget = true → p.isExported = true)
    (imported : (!p.isInside && p.importedInTarget) = true) : p.strategy = .exported := by
  rw [Bool.and_eq_true, Bool.not_eq_true'] at imported
  exact (strategy_eq_exported_iff imported.1).2 (passed imported.2)

/-- The alias that references in the old project get, if they do not get the way to the file. -/
def Plan.repairAlias? (p : Plan) : Option String :=
  match p.strategy with
  | .exported | .nonExportedAliased => p.targetAlias?
  | .sameProject | .default => none

theorem Plan.mem_targetAlias? {name : String} (h : name ∈ p.repairAlias?) :
    name ∈ p.targetAlias? := by
  unfold Plan.repairAlias? at h
  split at h
  all_goals first | exact h | cases h

/-- A condition that every change of a file keeps by which references are repaired. -/
structure Withstands (f : Finder) (s : ScanSettings) (p : Plan) (inv : Plain → Prop) : Prop where
  localized : p.strategy = .exported → ∀ name ∈ p.sourceAlias?, ∀ file, file ≠ p.target → ∀ v,
    inv v → inv ((localize p name file).run (Plain.perform f s) v).2
  renamed : p.strategy = .exported → ∀ name ∈ p.sourceAlias?, ∀ new ∈ p.targetAlias?, ∀ file,
    file ≠ p.target → ∀ v, inv v →
      inv ((Job.replaceSpecifier file name new).run (Plain.perform f s) v).2
  removed : p.strategy = .exported → ∀ entry ∈ p.sourceProject.entryPoints, ∀ v, inv v →
    inv ((Job.removeExportsWhere entry (resolvesTo entry · p.source)).run (Plain.perform f s) v).2
  replaced : ∀ file, file ≠ p.source → file ≠ p.target → ∀ v, inv v →
    inv ((Job.replaceWhere file (resolvesTo file · p.source)
      (replacement p p.repairAlias? file)).run (Plain.perform f s) v).2

section

variable {service : Service} (attends : Attends @perform stands f fit)
  (withstands : Withstands f s p inv) (asks : Asks (service.graphSource service.workspace))
include attends withstands asks

theorem ends_propagate (exported : p.strategy = .exported) (c : Graph.Cache) (h : inv v) :
    Ends @perform stands (propagate service p) c v fun _ v' => inv v' := by
  unfold propagate
  cases named : p.sourceAlias? with
  | none => exact ends_pure h
  | some name =>
    have projects : Ends @perform stands (dependentProjects service p name) c v
        fun _ v' => v' = v := by
      apply (ends_dependentsOf attends asks p.sourceProject.name c).bind
      intro names c' v' same
      subst same
      split
      · exact ends_onFiles (attends.asks (Job.asks_projectsNaming ..) v')
      · exact ends_pure rfl
    apply projects.bind
    intro found c' v' same
    subst same
    apply ends_onFiles
    apply (attends.asks (Job.asks_listFiles found) v').bind
    intro _ w same
    subst same
    apply does_repairProjects_keeping s attends _ found h
    intro project file v before
    exact repairDependent_keeps (withstands.localized exported name named)
      (withstands.renamed exported name named) project file before

theorem ends_repair (c : Graph.Cache) (h : inv v) :
    Ends @perform stands (repair service p) c v fun _ v' => inv v' := by
  have project : ∀ alias?, alias? = p.repairAlias? → ∀ c v, inv v →
      Ends @perform stands (onFiles (repairProject p alias?)) c v fun _ v' => inv v' := by
    intro alias? same c v before
    subst same
    exact ends_onFiles (does_repairProject_keeping s attends withstands.replaced before)
  unfold repair
  cases strategy : p.strategy with
  | sameProject | default =>
    exact (project none (by rw [Plan.repairAlias?, strategy]) c v h).bind fun _ _ _ done =>
      ends_pure done
  | nonExportedAliased =>
    exact (project p.targetAlias? (by rw [Plan.repairAlias?, strategy]) c v h).bind
      fun _ _ _ done => ends_pure done
  | exported =>
    apply (ends_propagate attends withstands asks strategy c h).bind
    intro _ c v first
    apply (ends_onFiles (does_removeFromEntryPoints_keeping s attends
      (withstands.removed strategy) first)).bind
    intro _ c v second
    exact (project p.targetAlias? (by rw [Plan.repairAlias?, strategy]) c v second).bind
      fun _ _ _ done => ends_pure done

end

/-! ## The end of a move -/

/-- An entry point has to pass the file on exactly if the file changes its project, nobody asked
otherwise, the new project is a library with an entry point, and the file was passed on before or
repaired references need it. -/
theorem exportingEntry?_eq_some_iff {o : Outcome} {options : Options} {entry : String} :
    exportingEntry? p o options = some entry ↔
      p.isInside = false ∧ options.skipExport = false ∧
        (p.isExported = true ∨ o.needsExport = true) ∧ p.targetProject.isLibrary = true ∧
          p.targetProject.primaryEntryPoint? = some entry := by
  unfold exportingEntry?
  cases p.isInside <;> cases options.skipExport <;> cases p.isExported <;> cases o.needsExport <;>
    cases p.targetProject.isLibrary <;> simp

/-- An entry point may have to pass the moved file on: it is the first one of a library that the file
comes to, and the export is not to be left out. -/
structure Plan.PassesOnBy (p : Plan) (options : Options) (entry : String) : Prop where
  across : p.isInside = false
  asked : options.skipExport = false
  library : p.targetProject.isLibrary = true
  first : p.targetProject.primaryEntryPoint? = some entry

instance (p : Plan) (options : Options) (entry : String) :
    Decidable (p.PassesOnBy options entry) :=
  decidable_of_iff (p.isInside = false ∧ options.skipExport = false ∧
      p.targetProject.isLibrary = true ∧ p.targetProject.primaryEntryPoint? = some entry)
    ⟨fun ⟨across, asked, library, first⟩ => ⟨across, asked, library, first⟩,
      fun h => ⟨h.across, h.asked, h.library, h.first⟩⟩

theorem Plan.PassesOnBy.of_chosen {o : Outcome} {options : Options} {entry : String}
    (chosen : exportingEntry? p o options = some entry) : p.PassesOnBy options entry := by
  obtain ⟨across, asked, -, library, first⟩ := exportingEntry?_eq_some_iff.1 chosen
  exact ⟨across, asked, library, first⟩

theorem does_ensureExport_keeping (s : ScanSettings)
    (attends : Attends @perform stands f fun _ _ => True)
    (options : Options)
    (exported : ∀ entry, p.PassesOnBy options entry → ∀ v, inv v →
      inv ((Job.ensureWildcardExport entry (specifierFor entry p.target none)
        (resolvesTo entry · p.target)).run (Plain.perform f s) v).2)
    (o : Outcome) (h : inv v) :
    Does @perform stands (ensureExport p o options) v fun _ v' => inv v' := by
  unfold ensureExport
  cases chosen : exportingEntry? p o options with
  | none => exact Job.does_pure h
  | some entry =>
    apply (does_ensureWildcardExport attends.answers s id _ _ v).mono
    intro added v' same
    have after := exported entry (.of_chosen chosen) v h
    rw [← same] at after
    exact after

/-- Formatting keeps what writing a formatted text keeps. -/
theorem formatFiles_keeps {format : String → String → Option String} (paths : List String)
    (formatted : ∀ path ∈ paths, ∀ text new, format path text = some new → ∀ v,
      v.tree.text? path = some text → inv v → inv (v.write path new))
    (h : inv v) :
    inv ((formatFiles format paths).run (Plain.perform f s) v).2 := by
  induction paths generalizing v with
  | nil => exact h
  | cons path rest ih =>
    replace ih := fun {v} => ih (v := v) fun path member =>
      formatted path (List.mem_cons_of_mem _ member)
    rw [formatFiles, Job.run_bind]
    simp only [Job.read, Job.run_ofOp, Plain.perform]
    cases found : v.tree.text? path with
    | none => exact ih h
    | some text =>
      cases shaped : format path text with
      | none =>
        simp only [shaped]
        exact ih h
      | some new =>
        simp only [shaped]
        split
        next => exact ih (formatted path List.mem_cons_self text new shaped v found h)
        next => exact ih h

theorem formatTouched_of_unformatted {service : Service} {options : Options}
    (unformatted : options.format = false) : formatTouched service options = pure () := by
  rw [formatTouched, unformatted, if_neg Bool.false_ne_true]

/-- Formatting what was touched keeps what writing a formatted text keeps. -/
theorem formatTouched_keeps {service : Service}
    {options : Options}
    (formatted : options.format = true → ∀ format ∈ service.formatter?, ∀ path ∈ v.touched,
      ∀ text new, format path text = some new → ∀ v, v.tree.text? path = some text → inv v →
        inv (v.write path new))
    (h : inv v) :
    inv ((formatTouched service options).run (Plain.perform f s) v).2 := by
  unfold formatTouched
  split
  next asked =>
    split
    next format given =>
      rw [Job.run_bind]
      exact formatFiles_keeps v.touched (formatted asked format given) h
    next => exact h
  next => exact h

theorem does_touched (f : Finder) (v : Plain) :
    Does (Index.perform f) (Index.Mirrors f fun _ => False) Job.touched v fun touched v' =>
      v' = v ∧ touched = v.touched :=
  fun _ mirrors => ⟨v, mirrors, rfl, mirrors.agree.touched_eq⟩

/-- An index loses a file as the plain state does. -/
theorem does_delete (f : Finder) (path : String) (v : Plain) :
    Does (Index.perform f) (Index.Mirrors f fun _ => False) (Job.delete path) v fun _ v' =>
      v' = v.delete path :=
  fun _ mirrors => ⟨v.delete path,
    ⟨mirrors.texts.delete path, mirrors.agree.delete fun _ => False.elim⟩, rfl⟩

/-- The old file goes, and what is left is formatted. -/
theorem does_closing_keeping {service : Service} {options : Options}
    (formatted : options.format = true → ∀ format ∈ service.formatter?, ∀ path text new,
      format path text = some new → ∀ v, v.tree.text? path = some text → inv v →
        inv (v.write path new))
    (exportAdded : Bool) (h : inv (v.delete p.source)) :
    Does (Index.perform f) (Index.Mirrors f fun _ => False)
      (closing service p options exportAdded) v fun _ v' => inv v' := by
  apply (does_delete f p.source v).bind
  intro _ v' same
  subst same
  have rest := does_formatAndReport (Index.mirrors_answers f _) (does_touched f) service.settings
    service p options exportAdded (v.delete p.source)
  apply rest.mono
  intro _ w same
  rw [same.1]
  exact formatTouched_keeps (fun asked format given path _ => formatted asked format given path) h

/-! ## The halves of a move -/

/-- Repairs every reference once the file is at its new place. -/
def settle (service : Service) (p : Plan) : Session Outcome := do
  let _ ← onFiles (repairOwn p)
  let outcome ← repair service p
  onFiles (if !p.isInside && p.importedInTarget then localizeTarget p else pure ())
  return outcome

/-- The rest of a move: the file is passed on, and the old one goes. -/
def passOn (service : Service) (p : Plan) (o : Outcome) (options : Options) : Job Report := do
  let exportAdded ← ensureExport p o options
  closing service p options exportAdded

/-- The halves make up what a move does once the file is at its new place. -/
theorem play_complete_of_settle {σ : Type} (perform : {β : Type} → FileOp β → σ → β × σ)
    (service : Service) (p : Plan) (options : Options) (c : Graph.Cache) (st : σ) :
    play @perform (complete service p options) c st =
      match play @perform (settle service p) c st with
      | ((.ok o, c'), st') =>
        ((.ok ((passOn service p o options).run @perform st').1, c'),
          ((passOn service p o options).run @perform st').2)
      | ((.error e, c'), st') => ((.error e, c'), st') := by
  rw [complete, settle, play_onFiles_bind, play_onFiles_bind, play_bind, play_bind]
  generalize play @perform (repair service p) c ((repairOwn p).run @perform st).2 = outcome
  obtain ⟨⟨result, c'⟩, st'⟩ := outcome
  cases result with
  | error e => rfl
  | ok o =>
    dsimp only
    rw [play_onFiles, play_onFiles_bind, play_pure, finish_eq, Job.run_bind]
    rfl

section

variable {service : Service}
  (withstands : Withstands service.finder service.settings p inv)
  (asks : Asks (service.graphSource service.workspace))
  (passed : p.importedInTarget = true → p.isExported = true)
include withstands asks passed

/-- What every change of a file keeps, is kept while the references are repaired, if it holds once
the moved file itself is repaired. -/
theorem ends_settle_of_own {stands : Index → Plain → Prop}
    (attends : Attends (Index.perform service.finder) stands service.finder fit) (c : Graph.Cache)
    (h : inv ((repairOwn p).run (Plain.perform service.finder service.settings) v).2) :
    Ends (Index.perform service.finder) stands (settle service p) c v fun _ v' => inv v' := by
  have first : Does (Index.perform service.finder) stands (repairOwn p) v fun _ v' => inv v' :=
    attends.edits service.settings (Job.edits_replaceWhere ..) h
  apply (ends_onFiles first).bind
  intro _ c v placed
  apply (ends_repair attends withstands asks c placed).bind
  intro o c v repaired
  have localized : Does (Index.perform service.finder) stands
      (if !p.isInside && p.importedInTarget then localizeTarget p else pure ()) v
      fun _ v' => inv v' := by
    split
    next imported =>
      exact does_localizeTarget_keeping service.settings attends
        (withstands.localized (strategy_of_imported passed imported)) repaired
    next => exact Job.does_pure repaired
  exact (ends_onFiles localized).bind fun _ _ _ reached => ends_pure reached

variable
  (own : ∀ v, inv v → inv ((repairOwn p).run (Plain.perform service.finder service.settings) v).2)
include own

/-- What every change of a file keeps, is kept while the references are repaired. -/
theorem ends_settle (c : Graph.Cache) (h : inv v) :
    Ends (Index.perform service.finder) (Index.Mirrors service.finder fun _ => False)
      (settle service p) c v fun _ v' => inv v' :=
  ends_settle_of_own withstands asks passed (Index.mirrors_attends service.finder) c (own v h)

/-- What every change of a file keeps, a move keeps from the moment the file is at its new place. -/
theorem ends_complete {options : Options}
    (exported : ∀ entry, p.PassesOnBy options entry → ∀ v, inv v →
      inv ((Job.ensureWildcardExport entry (specifierFor entry p.target none)
        (resolvesTo entry · p.target)).run (Plain.perform service.finder service.settings) v).2)
    (deleted : ∀ v, inv v → inv (v.delete p.source))
    (formatted : options.format = true → ∀ format ∈ service.formatter?, ∀ path text new,
      format path text = some new → ∀ v, v.tree.text? path = some text → inv v →
        inv (v.write path new))
    (c : Graph.Cache) (h : inv v) :
    Ends (Index.perform service.finder) (Index.Mirrors service.finder fun _ => False)
      (complete service p options) c v fun _ v' => inv v' := by
  intro st related
  obtain ⟨v, settled, holds⟩ := ends_settle withstands asks passed own c h st related
  rw [play_complete_of_settle]
  generalize play (Index.perform service.finder) (settle service p) c st = outcome
    at settled holds
  obtain ⟨⟨result, c'⟩, st'⟩ := outcome
  cases result with
  | error e => exact ⟨v, settled, nofun⟩
  | ok o =>
    have rest : Does (Index.perform service.finder) (Index.Mirrors service.finder fun _ => False)
        (passOn service p o options) v fun _ v' => inv v' := by
      apply (does_ensureExport_keeping service.settings (Index.mirrors_attends service.finder)
        options exported o (holds o rfl)).bind
      intro exportAdded v passed
      exact does_closing_keeping formatted exportAdded (deleted v passed)
    obtain ⟨w, after, kept⟩ := rest st' settled
    exact ⟨w, after, fun _ _ => kept⟩

end

/-- Putting the file at its new place changes nothing else. -/
theorem does_place (p : Plan) (attends : Attends @perform stands f fit)
    (relists : ∀ {st v} root new?, stands st v →
      stands (perform (.relist root p.source new?) st).2 v)
    (fits : fit v p.target) :
    Does @perform stands (place p) v fun _ v' => v' = v.write p.target p.text := by
  have writes : Does @perform stands (Job.write p.target p.text) v fun _ v' =>
      v' = v.write p.target p.text := by
    intro st related
    exact ⟨_, attends.answers.write p.target p.text related id fits, rfl⟩
  have relisted : ∀ (root : String) (new? : Option String) (w : Plain),
      Does @perform stands (Job.relist root p.source new?) w fun _ v' => v' = w :=
    fun root new? w st related => ⟨w, relists root new? related, rfl⟩
  apply writes.bind
  intro _ w same
  subst same
  apply (attends.sourceFiles _ _).bind
  intro _ w same
  subst same
  apply (attends.sourceFiles _ _).bind
  intro _ w same
  subst same
  apply (relisted _ none _).bind
  intro _ w same
  subst same
  exact relisted _ (some p.target) _

theorem mirrors_relist {i : Index} (h : i.Mirrors f (fun _ => False) v) (root old : String)
    (new? : Option String) : (i.relist root old new?).Mirrors f (fun _ => False) v := by
  unfold Index.relist
  split
  · exact h
  · exact ⟨h.texts.of_same rfl rfl rfl rfl, h.agree⟩

/-! ## Moves that were accepted -/

/-- A part of a result that is known shows that there is a result. -/
theorem exists_of_part {ε α β : Type} {x : Except ε α} {part : α → β} {b : β}
    (known : x.toOption.map part = some b) : ∃ a, x = .ok a ∧ part a = b := by
  cases x with
  | error e => cases known
  | ok a => exact ⟨a, rfl, Option.some.inj known⟩

theorem ok_of_toOption {ε α : Type} {x : Except ε α} {a : α} (known : x.toOption = some a) :
    x = .ok a := by
  cases x with
  | error e => cases known
  | ok b => exact congrArg Except.ok (Option.some.inj known)

/-- A report names the strategy and the places of the plan. -/
theorem report_of_complete {service : Service} {options : Options} {c : Graph.Cache} {st : σ}
    {report : Report}
    (done : (play @perform (complete service p options) c st).1.1 = .ok report) :
    report.strategy = p.strategy ∧ report.source = p.source ∧ report.target = p.target := by
  have closes : ∀ exportAdded st',
      let report := ((closing service p options exportAdded).run @perform st').1
      report.strategy = p.strategy ∧ report.source = p.source ∧ report.target = p.target := by
    intro exportAdded st'
    rw [closing, Job.run_bind, Job.run_bind, Job.run_bind]
    exact ⟨rfl, rfl, rfl⟩
  rw [complete, play_onFiles_bind, play_bind] at done
  generalize play @perform (repair service p) c ((repairOwn p).run @perform st).2 = outcome at done
  obtain ⟨⟨result, c'⟩, st'⟩ := outcome
  cases result with
  | error e => cases done
  | ok o =>
    dsimp only at done
    rw [play_onFiles, finish_eq, Job.run_bind, Job.run_bind] at done
    cases done
    exact closes _ _

/-- An entry point passes a file on. -/
def IsPassedOn (f : Finder) (t : FileTree) (entries : List String) (source : String) : Prop :=
  ∃ entry ∈ entries, ∃ o ∈ t.specifiers f entry,
    o.kind.isExport = true ∧ resolvesTo entry o.value source = true

instance (f : Finder) (t : FileTree) (entries : List String) (source : String) :
    Decidable (IsPassedOn f t entries source) :=
  inferInstanceAs (Decidable (∃ entry ∈ entries, ∃ o ∈ t.specifiers f entry,
    o.kind.isExport = true ∧ resolvesTo entry o.value source = true))

theorem does_exportedBy (attends : Attends @perform stands f fit) (source : String)
    (entries : List String) :
    Does @perform stands (exportedBy source entries) v fun answer v' =>
      v' = v ∧ (answer = true ↔ IsPassedOn f v.tree entries source) := by
  induction entries with
  | nil => exact Job.does_pure ⟨rfl, by simp [IsPassedOn]⟩
  | cons entry rest ih =>
    apply (Job.does_specifiers attends.answers entry).bind
    intro found v' after
    rw [after.1, after.2 id]
    split
    next here =>
      obtain ⟨o, member, passes⟩ := List.any_eq_true.1 here
      rw [Bool.and_eq_true] at passes
      exact Job.does_pure ⟨rfl, by simpa using ⟨entry, List.mem_cons_self, o, member, passes⟩⟩
    next absent =>
      apply ih.mono
      intro answer w told
      refine ⟨told.1, told.2.trans ?_⟩
      have silent : ¬ ∃ o ∈ v.tree.specifiers f entry, o.kind.isExport = true ∧
          resolvesTo entry o.value source = true := by simpa using absent
      simp [IsPassedOn, silent]

/-- The plan for a request, if it is accepted. -/
def plan? (service : Service) (r : Request) (t : FileTree) : Option Plan :=
  (play (Index.perform service.finder) (resolve service r) .empty
    (.new t service.settings)).1.1.toOption

/-- A move that was accepted: its plan, and the index from which the file is put at its new place.
-/
structure Planned (service : Service) (r : Request) (options : Options) (t : FileTree)
    (report : Report) (p : Plan) (i : Index) : Prop where
  resolved : plan? service r t = some p
  accepts : Accepts service r t p.source p.target
  text : t.text? p.source = some p.text
  sourceOwner : service.workspace.owner p.source = .ok p.sourceProject
  targetOwner : service.workspace.owner p.target = .ok p.targetProject
  known : p.sourceAlias? = service.workspace.alias? p.sourceProject.name
  published : p.targetAlias? = service.workspace.alias? p.targetProject.name
  passed : p.importedInTarget = true → p.isExported = true
  exports : p.isExported = true ↔
    IsPassedOn service.finder t p.sourceProject.entryPoints p.source
  reports : report.strategy = p.strategy ∧ report.source = p.source ∧ report.target = p.target
  surveyed : ∀ {stands : Index → Plain → Prop} {fit : Plain → String → Prop},
    Attends (Index.perform service.finder) stands service.finder fit →
      (∀ j, Job.SeesAll service.finder service.settings t j ⟨t, []⟩ → j.endless = false →
        stands j ⟨t, []⟩) → stands i ⟨t, []⟩
  done : (play (Index.perform service.finder) (complete service p options) .empty
    ((place p).run (Index.perform service.finder) i).2).1.1 = .ok report
  tree : (run service r options t).tree =
    (play (Index.perform service.finder) (complete service p options) .empty
      ((place p).run (Index.perform service.finder) i).2).2.tree
  ends : (run service r options t).ends =
    !(play (Index.perform service.finder) (complete service p options) .empty
      ((place p).run (Index.perform service.finder) i).2).2.endless

section

variable {service : Service} {r : Request} {options : Options} {t : FileTree} {report : Report}

/-- The survey finds out whether an entry point passes the file on. -/
theorem survey_isExported (x : Route) {j : Index}
    (sees : Job.SeesAll service.finder service.settings t j ⟨t, []⟩) :
    ((survey service x).run (Index.perform service.finder) j).1.isExported = true ↔
      IsPassedOn service.finder t x.sourceProject.entryPoints x.source := by
  obtain ⟨v, -, same, told⟩ := does_exportedBy (Index.mirrors_attends service.finder) x.source
    x.sourceProject.entryPoints j sees.mirrors
  rw [survey, Job.run_bind, Job.run_bind]
  exact told

theorem planned_of_route {x : Route} {j : Index} (fits : Fits service r t x)
    (routed : play (Index.perform service.finder) (route service r) .empty
      (.new t service.settings) = ((.ok x, .empty), j))
    (sees : Job.SeesAll service.finder service.settings t j ⟨t, []⟩) (ends : j.endless = false)
    (accepted : (run service r options t).report = .ok report) :
    Planned service r options t report ((survey service x).run (Index.perform service.finder) j).1
      ((survey service x).run (Index.perform service.finder) j).2 := by
  have parts := play_file_of_route (Index.perform service.finder) options routed
  have resolved : plan? service r t =
      some ((survey service x).run (Index.perform service.finder) j).1 := by
    rw [plan?, resolve, play_bind, routed]
    dsimp only
    rw [play_onFiles]
    rfl
  have plan := survey_isFor (Index.perform service.finder) service x j
  have surveyed : ∀ {stands : Index → Plain → Prop} {fit : Plain → String → Prop},
      Attends (Index.perform service.finder) stands service.finder fit → stands j ⟨t, []⟩ →
        stands ((survey service x).run (Index.perform service.finder) j).2 ⟨t, []⟩ := by
    intro stands fit attends start
    obtain ⟨v, after, same⟩ := attends.asks (Job.asks_survey service x) ⟨t, []⟩ j start
    rw [same] at after
    exact after
  have exports := survey_isExported x sees
  have tree := run_tree service r options t
  have endless := run_ends service r options t
  rw [run_report, parts] at accepted
  rw [parts] at tree endless
  generalize (survey service x).run (Index.perform service.finder) j = outcome
    at resolved plan surveyed exports accepted tree endless ⊢
  obtain ⟨p, i⟩ := outcome
  dsimp only at resolved plan surveyed exports accepted tree endless ⊢
  rw [← plan.source, ← plan.sourceProject] at exports
  have reports := report_of_complete accepted
  have accepts : Accepts service r t p.source p.target := by
    rw [plan.source, plan.target]
    exact fits.accepts
  have text : t.text? p.source = some p.text := by
    rw [plan.source, plan.text]
    exact fits.text
  have sourceOwner : service.workspace.owner p.source = .ok p.sourceProject := by
    rw [plan.source, plan.sourceProject]
    exact fits.sourceOwner
  have targetOwner : service.workspace.owner p.target = .ok p.targetProject := by
    rw [plan.target, plan.targetProject]
    exact fits.targetOwner
  exact ⟨resolved, accepts, text, sourceOwner, targetOwner, plan.known, plan.published,
    plan.passed, exports, reports, fun attends starts => surveyed attends (starts j sees ends),
    accepted, tree, endless⟩

/-- An accepted request was resolved to a plan. -/
theorem exists_resolved (accepted : (run service r options t).report = .ok report) :
    ∃ p i, Planned service r options t report p i ∧
      play (Index.perform service.finder) (resolve service r) .empty (.new t service.settings) =
        ((.ok p, .empty), i) := by
  obtain ⟨routed, sees, -⟩ := route_follows (shows_index service.finder service.settings t)
    service r .empty
    ⟨seesAll_new service.finder t service.settings, by simp [Index.KeepsExistence, Index.new]⟩
  obtain ⟨-, watches⟩ := route_follows (shows_watches service.finder t) service r .empty
    (watches_new service.finder t service.settings)
  have checked := examine_spec service r t
  cases examined : examine service r t with
  | error e =>
    rw [examined] at routed
    rw [run_report, play_file_of_error options (Prod.ext routed rfl)] at accepted
    cases accepted
  | ok x =>
    rw [examined] at routed checked
    have found : play (Index.perform service.finder) (route service r) .empty
        (.new t service.settings) = ((.ok x, .empty), _) := Prod.ext routed rfl
    refine ⟨_, _, planned_of_route checked.1 found sees watches.ends accepted, ?_⟩
    rw [resolve, play_bind, found]
    exact play_onFiles ..

theorem exists_planned (accepted : (run service r options t).report = .ok report) :
    ∃ p i, Planned service r options t report p i := by
  obtain ⟨p, i, planned, -⟩ := exists_resolved accepted
  exact ⟨p, i, planned⟩

end

namespace Planned

variable {service : Service} {r : Request} {options : Options} {t : FileTree} {report : Report}
  {i : Index} (h : Planned service r options t report p i)
include h

theorem canonical : Path.IsCanonical p.target :=
  targetPath_canonical h.accepts.targetPath (isSource_ne_empty h.accepts.targetKind)

theorem sourceCanonical : Path.IsCanonical p.source :=
  Path.normalize?_canonical (normalize_eq_ok h.accepts.sourcePath)
    (isSource_ne_empty h.accepts.sourceKind)

/-- The place of the target is free. -/
theorem vacant : t.text? p.target = none := by
  have free := h.accepts.free
  rw [FileTree.holds, Bool.or_eq_false_iff, FileTree.isFile_eq_isSome] at free
  simpa using free.1

end Planned

end Rehome.Move
