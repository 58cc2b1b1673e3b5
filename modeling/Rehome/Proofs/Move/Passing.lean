import Rehome.Proofs.Move.Keeping

/-!
# The two halves of a move

Up to the moment when the new project is to pass the file on, a move repairs references, and no file
but the new one appears. What follows is a job without lists, so the report and the files are those
of the same job on the plain state of that moment.
-/
namespace Rehome.Move

open Specifier (Finder)
open Rehome.Path (resolvesTo specifierFor)
open Job (Does Asks)
open Session

variable {service : Service} {r : Request} {options : Options} {t : FileTree} {report : Report}
  {p : Plan} {o : Outcome} {v : Plain}

/-! ## The halves -/

/-- A move up to the moment when the new project is to pass the file on. -/
def prepare (service : Service) (r : Request) : Session (Plan × Outcome) := do
  let plan ← resolve service r
  onFiles (place plan)
  let outcome ← settle service plan
  return (plan, outcome)

/-! ## What repairing came to -/

/-- References are left that need an export after every move of an exported file, and after one to
an alias that changed a file. -/
theorem needsExport_of_repair {σ : Type} {perform : {β : Type} → FileOp β → σ → β × σ}
    {c : Graph.Cache} {st : σ} (done : (play @perform (repair service p) c st).1.1 = .ok o) :
    o.needsExport = true ↔
      p.strategy = .exported ∨ p.strategy = .nonExportedAliased ∧ o.changed ≠ [] := by
  rw [repair] at done
  cases strategy : p.strategy with
  | sameProject | default =>
    simp only [strategy, play_onFiles_bind, play_pure] at done
    cases done
    simp
  | nonExportedAliased =>
    simp only [strategy, play_onFiles_bind, play_pure] at done
    cases done
    simp
  | exported =>
    simp only [strategy, play_bind, play_onFiles, play_pure] at done
    split at done
    · cases done
      simp
    · cases done

theorem needsExport_of_settle {σ : Type} {perform : {β : Type} → FileOp β → σ → β × σ}
    {c : Graph.Cache} {st : σ} (done : (play @perform (settle service p) c st).1.1 = .ok o) :
    o.needsExport = true ↔
      p.strategy = .exported ∨ p.strategy = .nonExportedAliased ∧ o.changed ≠ [] := by
  rw [settle, play_onFiles_bind, play_bind] at done
  generalize repaired : play @perform (repair service p) c ((repairOwn p).run @perform st).2 =
    outcome at done
  obtain ⟨⟨result, c'⟩, st'⟩ := outcome
  cases result with
  | error e => cases done
  | ok o' =>
    dsimp only at done
    rw [play_onFiles_bind, play_pure] at done
    cases done
    exact needsExport_of_repair (congrArg (·.1.1) repaired)

/-! ## The rest of a move on a plain state -/

theorem run_ensureExport (f : Finder) (s : ScanSettings) (v : Plain) :
    (ensureExport p o options).run (Plain.perform f s) v =
      match exportingEntry? p o options with
      | none => (false, v)
      | some entry =>
        (Job.ensureWildcardExport entry (specifierFor entry p.target none)
          (resolvesTo entry · p.target)).run (Plain.perform f s) v := by
  unfold ensureExport
  cases exportingEntry? p o options <;> rfl

/-- What the rest of a move reports and leaves. -/
theorem run_passOn (f : Finder) (s : ScanSettings) (v : Plain) :
    (passOn service p o options).run (Plain.perform f s) v =
      let (exportAdded, passed) := (ensureExport p o options).run (Plain.perform f s) v
      let last := ((formatTouched service options).run (Plain.perform f s)
        (passed.delete p.source)).2
      (p.reportOf last.touched exportAdded, last) := by
  rw [passOn, Job.run_bind, closing, Job.run_bind, Job.run_bind, Job.run_bind]
  rfl

theorem does_passOn (service : Service) (p : Plan) (o : Outcome) (options : Options) (v : Plain) :
    Does (Index.perform service.finder) (Index.Mirrors service.finder fun _ => False)
      (passOn service p o options) v fun report v' => (report, v') =
        (passOn service p o options).run (Plain.perform service.finder service.settings) v := by
  have exports : Does (Index.perform service.finder) (Index.Mirrors service.finder fun _ => False)
      (ensureExport p o options) v fun added v' => (added, v') =
        (ensureExport p o options).run (Plain.perform service.finder service.settings) v := by
    rw [run_ensureExport]
    unfold ensureExport
    cases exportingEntry? p o options with
    | none => exact Job.does_pure rfl
    | some entry =>
      exact does_ensureWildcardExport (Index.mirrors_answers service.finder _) service.settings id
        _ _ v
  apply exports.bind
  intro exportAdded passed same
  rw [run_passOn, ← same]
  apply (does_delete service.finder p.source passed).bind
  intro _ v' gone
  subst gone
  have rest := does_formatAndReport (Index.mirrors_answers service.finder _)
    (does_touched service.finder) service.settings service p options exportAdded
    (passed.delete p.source)
  apply rest.mono
  intro report last done
  rw [done.1, done.2]

/-! ## Moves that were accepted -/

/-- A move that was accepted at the moment when the new project is to pass the file on: its plan,
what repairing came to, and the plain state. -/
structure Prepared (service : Service) (r : Request) (options : Options) (t : FileTree)
    (report : Report) (p : Plan) (i : Index) (o : Outcome) (v : Plain) : Prop extends
    Planned service r options t report p i where
  reached : ∃ c j, play (Index.perform service.finder) (prepare service r) .empty
    (.new t service.settings) = ((.ok (p, o), c), j) ∧
      j.Mirrors service.finder (fun _ => False) v
  needs : o.needsExport = true ↔
    p.strategy = .exported ∨ p.strategy = .nonExportedAliased ∧ o.changed ≠ []
  told : report = ((passOn service p o options).run
    (Plain.perform service.finder service.settings) v).1
  left : (run service r options t).tree.files = ((passOn service p o options).run
    (Plain.perform service.finder service.settings) v).2.tree.files

/-- What repairing all references of a planned move comes to, it has come to at that moment. -/
theorem exists_prepared (accepted : (run service r options t).report = .ok report)
    {post : Plan → Outcome → Plain → Prop}
    (ends : ∀ p i, Planned service r options t report p i →
      Ends (Index.perform service.finder) (Index.Mirrors service.finder fun _ => False)
        (settle service p) .empty (Plain.write ⟨t, []⟩ p.target p.text) (post p)) :
    ∃ p i o v, Prepared service r options t report p i o v ∧ post p o v := by
  obtain ⟨p, i, planned, resolved⟩ := exists_resolved accepted
  have attends := Index.mirrors_attends service.finder
  have start := planned.surveyed attends fun j sees _ => sees.mirrors
  obtain ⟨w, placed, same⟩ := does_place p attends (fun root new? h => mirrors_relist h root _ new?)
    trivial i start
  subst same
  obtain ⟨v, mirrors, holds⟩ := ends p i planned _ placed
  have done := planned.done
  have tree := planned.tree
  rw [play_complete_of_settle] at done tree
  generalize settled : play (Index.perform service.finder) (settle service p) .empty
    ((place p).run (Index.perform service.finder) i).2 = outcome
      at done tree mirrors holds
  obtain ⟨⟨result, c⟩, j⟩ := outcome
  cases result with
  | error e => cases done
  | ok o =>
    obtain ⟨w, after, same⟩ := does_passOn service p o options v j mirrors
    rw [Prod.ext_iff] at same
    have whole : play (Index.perform service.finder) (prepare service r) .empty
        (.new t service.settings) = ((.ok (p, o), c), j) := by
      rw [prepare, play_bind, resolved]
      dsimp only
      rw [play_onFiles_bind, play_bind, settled]
      rfl
    refine ⟨p, i, o, v, ⟨planned, ⟨c, j, whole, mirrors⟩,
      needsExport_of_settle (congrArg (·.1.1) settled), ?_, ?_⟩, holds o rfl⟩
    · rw [← same.1]
      exact (Except.ok.inj done).symm
    · rw [← same.2, tree]
      exact after.agree.files_eq

end Rehome.Move
