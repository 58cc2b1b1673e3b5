import Rehome.Move.Service
import Rehome.Proofs.Move.Candidates

/-!
# The stages of a move

While references are repaired no file comes or goes, so states that hide the moved file follow one
plain state. An export may then be added to a file that was not there, and when the old file is
deleted nothing is hidden any more. What each stage comes to does not depend on what was hidden,
with one exception: whether an export is added to the moved file itself, at its old place.
-/
namespace Rehome.Move

open Specifier (Finder)
open Job (Does Answers)

section

variable {σ : Type} (perform : {β : Type} → FileOp β → σ → β × σ)
    (follows mirrors settles : σ → Plain → Prop)

/-- How states stand for a plain state while references are repaired, while an export is added, and
after the old file is gone. -/
structure Views (f : Finder) (s : ScanSettings) (t : FileTree) (p : Plan) : Prop where
  sees : Sees @perform follows f s t p.keeps p.hides
  loosen : ∀ {st v}, follows st v → mirrors st v
  answers : Answers @perform mirrors f p.hides fun _ _ => True
  delete : ∀ {st v}, mirrors st v → settles (perform (.delete p.source) st).2 (v.delete p.source)
  settled : Answers @perform settles f (fun _ => False) fun _ _ => True
  touched : ∀ {st v}, settles st v → settles (perform .touched st).2 v ∧
    (perform .touched st).1 = v.touched

end

variable {σ : Type} {perform : {β : Type} → FileOp β → σ → β × σ}
    {stands follows mirrors settles : σ → Plain → Prop}
  {f : Finder} {s : ScanSettings} {t : FileTree} {v : Plain} {p : Plan}

/-! ## Repairs -/

theorem does_repairOwn (sees : Sees @perform stands f s t p.keeps p.hides)
    (differs : p.target ≠ p.source) (v : Plain) :
    Does @perform stands (repairOwn p) v fun a v' => (a, v') = (repairOwn p).run
      (Plain.perform f s) v :=
  does_edits sees.answers s (fun hides => differs hides.2) (Job.edits_replaceWhere ..) v

/-- Repairs the references of a file of the old project, unless it is the moved file. -/
def repairReferences (p : Plan) (alias? : Option String) (file : String) : Job Bool :=
  if file = p.source || file = p.target then return false
  else Job.replaceWhere file (Path.resolvesTo file · p.source) (replacement p alias? file)

theorem edits_repairReferences (p : Plan) (alias? : Option String) (file : String) :
    Job.Edits file false (repairReferences p alias? file) := by
  unfold repairReferences
  split
  · exact Job.edits_pure false
  · exact Job.edits_replaceWhere ..

/-- Repairs in the old project skip the moved file, so they are those of the files in view. -/
theorem does_repairProject_inView (sees : Sees @perform stands f s t p.keeps p.hides)
    (alias? : Option String) (v : Plain) :
    Does @perform stands (repairProject p alias?) v fun found v' => (found, v') =
      (changed (repairReferences p alias?) (t.inView s p.keeps p.sourceProject.root)).run
        (Plain.perform f s) v := by
  have outside : ∀ path, p.keeps path = false → repairReferences p alias? path = pure false := by
    intro path out
    have skipped : (decide (path = p.source) || decide (path = p.target)) = true := by
      simpa using Plan.eq_of_not_keeps out
    exact if_pos skipped
  apply (Job.does_sourceFiles sees.lists p.sourceProject.root).bind
  rintro files v ⟨rfl, view⟩
  rw [← view]
  exact does_changed_only s sees.answers sees.visible
    (fun path _ => edits_repairReferences p alias? path) outside files v

/-- Repairs in the old project and their answer are the same everywhere. -/
theorem exists_repairProject (f : Finder) (s : ScanSettings) (t : FileTree) (v : Plain) (p : Plan)
    (alias? : Option String) :
    ∃ found after,
      ∀ {σ : Type} {perform : {β : Type} → FileOp β → σ → β × σ} {stands : σ → Plain → Prop},
      Sees @perform stands f s t p.keeps p.hides →
        Does @perform stands (repairProject p alias?) v fun found' v' => found' = found ∧
          v' = after :=
  ⟨_, _, fun sees => (does_repairProject_inView sees alias? v).mono fun _ _ => Prod.ext_iff.1⟩

theorem exists_removeFromEntryPoints (f : Finder) (s : ScanSettings) (t : FileTree) (v : Plain)
    {p : Plan} (exported : p.strategy = .exported) :
    ∃ after, ∀ {σ : Type} {perform : {β : Type} → FileOp β → σ → β × σ} {stands : σ → Plain → Prop},
      Sees @perform stands f s t p.keeps p.hides →
        Does @perform stands (removeFromEntryPoints p) v fun _ v' => v' = after := by
  have visible : ∀ path, decide (path ≠ p.source) = true → ¬ p.hides path := fun path shown hides =>
    of_decide_eq_true shown hides.2
  refine ⟨_, fun sees => does_changed s sees.answers visible (fun path _ => ?_)
    (fun path out v => ?_) _ v⟩
  · exact Job.edits_removeExportsWhere ..
  · have atSource : path = p.source := by simpa using out
    exact (Job.edits_removeExportsWhere ..).does_hidden sees.answers ⟨exported, atSource⟩ v

/-- What repairing comes to, and whether it needs an export, does not depend on what is hidden. -/
theorem exists_repaired {service : Service} (builtIn : service.graphSource.IsBuiltIn)
    (s : ScanSettings) (t : FileTree) (v : Plain)
    (known : p.sourceAlias? = service.workspace.alias? p.sourceProject.name) :
    ∃ needs after,
      ∀ {σ : Type} {perform : {β : Type} → FileOp β → σ → β × σ} {stands : σ → Plain → Prop},
      Sees @perform stands service.finder s t p.keeps p.hides →
        Plays @perform stands (repair service p) .empty v fun o v' => o.needsExport = needs ∧
          v' = after := by
  unfold repair
  cases strategy : p.strategy with
  | sameProject | default =>
    obtain ⟨found, after, does⟩ := exists_repairProject service.finder s t v p none
    refine ⟨false, after, fun sees => (plays_onFiles (does sees)).bind ?_⟩
    rintro found' c v' ⟨-, same⟩
    exact plays_pure ⟨rfl, same⟩
  | nonExportedAliased =>
    obtain ⟨found, after, does⟩ := exists_repairProject service.finder s t v p p.targetAlias?
    refine ⟨!found.isEmpty, after, fun sees => (plays_onFiles (does sees)).bind ?_⟩
    rintro found' c v' ⟨rfl, same⟩
    exact plays_pure ⟨rfl, same⟩
  | exported =>
    obtain ⟨propagated, first⟩ := exists_propagated builtIn strategy s t v known
    obtain ⟨removed, second⟩ := exists_removeFromEntryPoints service.finder s t propagated strategy
    obtain ⟨found, after, third⟩ := exists_repairProject service.finder s t removed p p.targetAlias?
    refine ⟨true, after, fun sees => (first sees).bind fun _ c v' same => ?_⟩
    subst same
    refine (plays_onFiles (second sees)).bind fun _ c v' same => ?_
    subst same
    refine (plays_onFiles (third sees)).bind fun _ c v' ⟨_, same⟩ => ?_
    exact plays_pure ⟨rfl, same⟩

theorem exists_localizeTarget (f : Finder) (s : ScanSettings) (t : FileTree) (v : Plain) {p : Plan}
    (exported : p.strategy = .exported) :
    ∃ after, ∀ {σ : Type} {perform : {β : Type} → FileOp β → σ → β × σ} {stands : σ → Plain → Prop},
      Sees @perform stands f s t p.keeps p.hides →
        Does @perform stands (localizeTarget p) v fun _ v' => v' = after := by
  unfold localizeTarget
  cases p.sourceAlias? with
  | none => exact ⟨v, fun _ => Job.does_pure rfl⟩
  | some name =>
    let change : String → Job Bool := fun file => do
      if file = p.target then return false
      if (← Job.hasSpecifier file name) then localize p name file else return false
    have edits : ∀ path, Job.Edits path false (change path) := by
      intro path
      dsimp only [change]
      split
      · exact Job.edits_pure false
      · refine (Job.edits_hasSpecifier path name).bind fun named => ?_
        cases named with
        | true => exact edits_localize ..
        | false => exact Job.edits_pure false
    refine ⟨((changed change (t.inView s p.keeps p.targetProject.root)).run (Plain.perform f s)
      v).2, fun sees => ?_⟩
    refine (Job.does_sourceFiles sees.lists p.targetProject.root).bind ?_
    rintro files v ⟨rfl, view⟩
    rw [← view]
    refine (does_changed s sees.answers sees.visible (fun path _ => edits path)
      (fun path out v => ?_) files v).bind
      fun _ v' same => Job.does_pure same
    rcases Plan.eq_of_not_keeps out with atSource | atTarget
    · exact (edits path).does_hidden sees.answers ⟨exported, atSource⟩ v
    · have skipped : change path = pure false := if_pos atTarget
      rw [skipped]
      exact Job.does_pure rfl

/-! ## The export -/

/-- Adding an export to a file that is not hidden is the same everywhere, also if the file is made.
-/
theorem does_ensureWildcardExport {hidden : String → Prop}
    (answers : Answers @perform stands f hidden fun _ _ => True) (s : ScanSettings) {entry : String}
    (visible : ¬ hidden entry) (specifier : String) (same : String → Bool) (v : Plain) :
    Does @perform stands (Job.ensureWildcardExport entry specifier same) v fun added v' =>
      (added, v') = (Job.ensureWildcardExport entry specifier same).run (Plain.perform f s) v := by
  refine (Job.does_read answers entry).bind ?_
  rintro text? v ⟨rfl, text⟩
  refine (Job.does_specifiers answers entry).bind ?_
  rintro found v ⟨rfl, specifiers⟩
  rw [Job.ensureWildcardExport, Job.run_bind, Job.run_bind]
  simp only [Job.read, Job.specifiers, Job.run_ofOp, Plain.perform, ← text visible,
    ← specifiers visible]
  split
  · exact Job.does_pure rfl
  · intro st related
    exact ⟨_, answers.write entry _ related visible trivial, rfl⟩

/-- Adding an export to a hidden file does not show. -/
theorem does_ensureWildcardExport_hidden {hidden : String → Prop}
    (answers : Answers @perform stands f hidden fun _ _ => True) {entry : String}
    (isHidden : hidden entry) (specifier : String) (same : String → Bool) (v : Plain) :
    Does @perform stands (Job.ensureWildcardExport entry specifier same) v fun _ v' => v' = v := by
  refine (Job.does_read answers entry).bind ?_
  rintro text? v ⟨rfl, -⟩
  refine (Job.does_specifiers answers entry).bind ?_
  rintro found v ⟨rfl, -⟩
  split
  · exact Job.does_pure rfl
  · intro st related
    exact ⟨_, answers.writeHidden entry _ related isHidden, rfl⟩

/-- A move that may add an export to the moved file itself. -/
structure ExportsToSource (p : Plan) (options : Options) : Prop where
  exported : p.strategy = .exported
  wanted : options.skipExport = false
  library : p.targetProject.isLibrary = true
  entry : p.targetProject.primaryEntryPoint? = some p.source

theorem exportingEntry?_eq_some {o : Outcome} {options : Options} {entry : String}
    (h : exportingEntry? p o options = some entry) :
    p.targetProject.primaryEntryPoint? = some entry := by
  unfold exportingEntry? at h
  split at h
  · cases h
  · split at h
    · exact h
    · cases h

theorem exportsToSource_of_hides {o : Outcome} {options : Options} {entry : String}
    (chosen : exportingEntry? p o options = some entry) (hides : p.hides entry) :
    ExportsToSource p options := by
  unfold exportingEntry? at chosen
  split at chosen
  · cases chosen
  next wanted =>
    split at chosen
    next library =>
      simp only [Bool.or_eq_true, not_or, Bool.not_eq_true] at wanted
      exact ⟨hides.1, wanted.1.2, library, hides.2 ▸ chosen⟩
    next => cases chosen

/-- What adding an export comes to does not depend on what is hidden; nor does the answer, unless
the export goes to the moved file itself. -/
theorem exists_ensureExport (f : Finder) (s : ScanSettings) (v : Plain) (p : Plan) (needs : Bool)
    (options : Options) :
    ∃ added after,
      ∀ {σ : Type} {perform : {β : Type} → FileOp β → σ → β × σ} {stands : σ → Plain → Prop},
      Answers @perform stands f p.hides (fun _ _ => True) → ∀ o : Outcome, o.needsExport = needs →
        Does @perform stands (ensureExport p o options) v fun added' v' =>
          v' = after ∧ (¬ ExportsToSource p options → added' = added) := by
  have only : ∀ o : Outcome, o.needsExport = needs →
      exportingEntry? p o options = exportingEntry? p ⟨[], needs⟩ options := by
    rintro o rfl
    rfl
  unfold ensureExport
  cases chosen : exportingEntry? p ⟨[], needs⟩ options with
  | none =>
    refine ⟨false, v, fun answers o same => ?_⟩
    rw [only o same, chosen]
    exact Job.does_pure ⟨rfl, fun _ => rfl⟩
  | some entry =>
    generalize result : (Job.ensureWildcardExport entry (Path.specifierFor entry p.target none)
      (Path.resolvesTo entry · p.target)).run (Plain.perform f s) v = outcome
    obtain ⟨added, after⟩ := outcome
    by_cases hides : p.hides entry
    · refine ⟨added, v, fun answers o same => ?_⟩
      rw [only o same, chosen]
      refine (does_ensureWildcardExport_hidden answers hides _ _ v).mono fun _ v' idle =>
        ⟨idle, fun elsewhere => ?_⟩
      exact absurd (exportsToSource_of_hides chosen hides) elsewhere
    · refine ⟨added, after, fun answers o same => ?_⟩
      rw [only o same, chosen]
      refine (does_ensureWildcardExport answers s hides _ _ v).mono fun added' v' here => ?_
      rw [result] at here
      exact ⟨(Prod.ext_iff.1 here).2, fun _ => (Prod.ext_iff.1 here).1⟩

/-! ## The end of a move -/

/-- Formatting where nothing is hidden is the same everywhere. -/
theorem does_formatFiles (answers : Answers @perform stands f (fun _ => False) fun _ _ => True)
    (s : ScanSettings) (format : String → String → Option String) (paths : List String)
    (v : Plain) :
    Does @perform stands (formatFiles format paths) v fun _ v' =>
      v' = ((formatFiles format paths).run (Plain.perform f s) v).2 := by
  induction paths generalizing v with
  | nil => exact Job.does_pure rfl
  | cons path rest ih =>
    refine (Job.does_read answers path).bind ?_
    rintro text? v ⟨rfl, known⟩
    rw [formatFiles, Job.run_bind]
    simp only [Job.read, Job.run_ofOp, Plain.perform, ← known id]
    cases text? with
    | none => exact ih v
    | some text =>
      cases shaped : format path text with
      | none =>
        simp only [shaped]
        exact ih v
      | some formatted =>
        simp only [shaped]
        split
        next changes =>
          intro st related
          have after := answers.write path formatted related id trivial
          exact ih (v.write path formatted) _ after
        next => exact ih v

theorem Views.does_touched (views : Views @perform follows mirrors settles f s t p) (v : Plain) :
    Does @perform settles Job.touched v fun touched v' => v' = v ∧ touched = v.touched := by
  intro st related
  obtain ⟨after, answer⟩ := views.touched related
  exact ⟨v, after, rfl, answer⟩

/-- A move ends by deleting the old file, formatting and reporting. -/
def closing (service : Service) (p : Plan) (options : Options) (exportAdded : Bool) :
    Job Report := do
  Job.delete p.source
  formatTouched service options
  let touched ← Job.touched
  return {
    strategy := p.strategy, source := p.source, target := p.target
    updated := touched.filter fun path => path ≠ p.source && path ≠ p.target
    exportAdded }

/-- The parts of the end of a move. -/
theorem finish_eq (service : Service) (p : Plan) (o : Outcome) (options : Options) :
    finish service p o options = (do
      (if !p.isInside && p.importedInTarget then localizeTarget p else pure ())
      let exportAdded ← ensureExport p o options
      closing service p options exportAdded) := by
  unfold finish
  split <;> rfl

/-- What a move reports at its end. -/
def Plan.reportOf (p : Plan) (touched : List String) (exportAdded : Bool) : Report where
  strategy := p.strategy
  source := p.source
  target := p.target
  updated := touched.filter fun path => path ≠ p.source && path ≠ p.target
  exportAdded

section

variable (answers : Answers @perform settles f (fun _ => False) fun _ _ => True)
  (tells : ∀ v, Does @perform settles Job.touched v fun touched v' => v' = v ∧ touched = v.touched)
include answers tells

theorem does_formatTouched (s : ScanSettings) (service : Service) (options : Options) (v : Plain) :
    Does @perform settles (formatTouched service options) v fun _ v' =>
      v' = ((formatTouched service options).run (Plain.perform f s) v).2 := by
  unfold formatTouched
  split
  next =>
    split
    next format _ =>
      refine (tells v).bind ?_
      rintro touched v ⟨rfl, rfl⟩
      exact does_formatFiles answers s format v.touched v
    next => exact Job.does_pure rfl
  next => exact Job.does_pure rfl

/-- Where nothing is hidden, formatting and the report are the same everywhere. -/
theorem does_formatAndReport (s : ScanSettings) (service : Service) (p : Plan) (options : Options)
    (exportAdded : Bool) (v : Plain) :
    let formatted := ((formatTouched service options).run (Plain.perform f s) v).2
    Does @perform settles (do
      formatTouched service options
      return p.reportOf (← Job.touched) exportAdded) v fun report v' =>
        v' = formatted ∧ report = p.reportOf formatted.touched exportAdded := by
  intro formatted
  refine (does_formatTouched answers tells s service options v).bind ?_
  rintro _ v' same
  rw [show v' = formatted from same]
  refine (tells formatted).bind ?_
  rintro touched w ⟨rfl, rfl⟩
  exact Job.does_pure ⟨rfl, rfl⟩

end

/-- Once the old file is deleted nothing is hidden, and all that is reported but the export is the
same. -/
theorem exists_closing (f : Finder) (s : ScanSettings) (v : Plain) (service : Service) (p : Plan)
    (options : Options) :
    ∃ updated after, ∀ {σ : Type} {perform : {β : Type} → FileOp β → σ → β × σ}
      {follows mirrors settles : σ → Plain → Prop} {t : FileTree},
      Views @perform follows mirrors settles f s t p → ∀ (exportAdded : Bool) (st : σ),
        mirrors st v →
        settles ((closing service p options exportAdded).run @perform st).2 after ∧
          ((closing service p options exportAdded).run @perform st).1 =
            ⟨p.strategy, p.source, p.target, updated, exportAdded⟩ := by
  let formatted := ((formatTouched service options).run (Plain.perform f s) (v.delete p.source)).2
  refine ⟨formatted.touched.filter fun path => path ≠ p.source && path ≠ p.target, formatted, ?_⟩
  intro σ perform follows mirrors settles t views exportAdded st related
  have rest := does_formatAndReport views.settled views.does_touched s service p options exportAdded
    (v.delete p.source)
  obtain ⟨w, after, rfl, report⟩ := rest _ (views.delete related)
  exact ⟨after, report⟩

/-- What the end of a move comes to does not depend on what was hidden; nor does the report, unless
an export may go to the moved file itself. -/
theorem exists_finished (f : Finder) (s : ScanSettings) (t : FileTree) (v : Plain)
    (service : Service) {p : Plan} (passed : p.importedInTarget = true → p.isExported = true)
    (needs : Bool) (options : Options) :
    ∃ updated added after, ∀ {σ : Type} {perform : {β : Type} → FileOp β → σ → β × σ}
      {follows mirrors settles : σ → Plain → Prop},
      Views @perform follows mirrors settles f s t p → ∀ (o : Outcome) (st : σ),
        o.needsExport = needs → follows st v →
        settles ((finish service p o options).run @perform st).2 after ∧
          ∃ exportAdded, ((finish service p o options).run @perform st).1 =
              ⟨p.strategy, p.source, p.target, updated, exportAdded⟩ ∧
            (¬ ExportsToSource p options → exportAdded = added) := by
  have localized : ∃ after,
      ∀ {σ : Type} {perform : {β : Type} → FileOp β → σ → β × σ} {stands : σ → Plain → Prop},
      Sees @perform stands f s t p.keeps p.hides →
        Does @perform stands (if !p.isInside && p.importedInTarget then localizeTarget p
          else pure ()) v
          fun _ v' => v' = after := by
    split
    next localizes =>
      rw [Bool.and_eq_true, Bool.not_eq_true'] at localizes
      have exported : p.strategy = .exported := by
        simp [Plan.strategy, Strategy.select, localizes.1, passed localizes.2]
      exact exists_localizeTarget f s t v exported
    next => exact ⟨v, fun _ => Job.does_pure rfl⟩
  obtain ⟨first, localizes⟩ := localized
  obtain ⟨added, second, exports⟩ := exists_ensureExport f s first p needs options
  obtain ⟨updated, after, closes⟩ := exists_closing f s second service p options
  refine ⟨updated, added, after, ?_⟩
  intro σ perform follows mirrors settles views o st same related
  rw [finish_eq, Job.run_bind, Job.run_bind]
  obtain ⟨v', following, rfl⟩ := localizes views.sees st related
  obtain ⟨v'', mirroring, rfl, answer⟩ := exports views.answers o same _ (views.loosen following)
  obtain ⟨settled, report⟩ := closes views _ _ mirroring
  exact ⟨settled, _, report, answer⟩

end Rehome.Move
