import Rehome.Proofs.Job.Questions
import Rehome.Proofs.Move.Acceptance
import Rehome.Proofs.Path.Normalize

/-!
# The parts of a move

A move checks the request, surveys the files, puts the file at its new place and completes its work.
What the plan says comes from the route, and both paths are clean.
-/
namespace Rehome.Move

open Specifier (Finder)
open Job (SeesAll)
open Session

variable {f : Finder} {s : ScanSettings} {t : FileTree} {p : Plan}

/-! ## The checks -/

theorem seesAll_new (f : Finder) (t : FileTree) (s : ScanSettings) :
    SeesAll f s t (.new t s) ⟨t, []⟩ where
  mirrors := ⟨Index.keepsTexts_new f t s, .refl (fun _ => False.elim) .nil⟩
  settings := rfl
  names := rfl
  lists := by simp [Index.new]

/-- While a request is checked an index knows the truth about the tree. -/
theorem shows_index (f : Finder) (s : ScanSettings) (t : FileTree) :
    Shows (fun {_} op => Index.perform f op) t fun i => SeesAll f s t i ⟨t, []⟩ ∧
      i.KeepsExistence where
  read {i} path h := by
    obtain ⟨after, answer⟩ := Index.follows_answers.read path h.1
    obtain ⟨-, -, asked, texts, readings, frame⟩ := Index.read_spec h.1.mirrors.texts path
    refine ⟨answer id, after, ?_⟩
    simp only [Index.perform, frame]
    exact h.2
  exist {i} path nonempty h := by
    obtain ⟨answer, keeps, asked, existence, frame⟩ := Index.exist_spec h.2 nonempty
    have files : i.tree.files = t.files := h.1.mirrors.agree.files_eq
    refine ⟨?_, ?_, keeps⟩
    · rw [FileTree.holds, FileTree.isFile, FileTree.pathsBelow, ← files]
      exact answer
    · simp only [Index.perform, frame]
      exact ⟨⟨h.1.mirrors.texts.of_same rfl rfl rfl rfl, h.1.mirrors.agree.of_files rfl rfl rfl⟩,
        h.1.settings, h.1.names, h.1.lists⟩

/-! ## The plan -/

theorem importedInTarget_of_not_exported (s : Service) (x : Route) :
    importedInTarget s x false = pure false := by
  unfold importedInTarget
  split
  · rfl
  · rw [Bool.and_false]
    rfl

/-- What a plan takes over from the route, and what it knows about the aliases and the exports. -/
structure Plan.IsFor (service : Service) (x : Route) (p : Plan) : Prop where
  source : p.source = x.source
  target : p.target = x.target
  text : p.text = x.text
  sourceProject : p.sourceProject = x.sourceProject
  targetProject : p.targetProject = x.targetProject
  known : p.sourceAlias? = service.workspace.alias? p.sourceProject.name
  published : p.targetAlias? = service.workspace.alias? p.targetProject.name
  passed : p.importedInTarget = true → p.isExported = true

theorem survey_isFor {σ : Type} (perform : {β : Type} → FileOp β → σ → β × σ) (service : Service)
    (x : Route) (st : σ) :
    ((survey service x).run @perform st).1.IsFor service x := by
  rw [survey, Job.run_bind, Job.run_bind]
  refine ⟨rfl, rfl, rfl, rfl, rfl, rfl, rfl, fun imported => ?_⟩
  change ((exportedBy x.source x.sourceProject.entryPoints).run @perform st).1 = true
  by_contra notExported
  rw [Bool.not_eq_true] at notExported
  simp only [notExported, importedInTarget_of_not_exported] at imported
  cases imported

theorem normalize_eq_ok {raw path : String} (h : Path.normalize raw = .ok path) :
    Path.normalize? raw = some path := by
  unfold Path.normalize at h
  split at h
  next clean found =>
    cases h
    exact found
  next => cases h

/-- The path that a request asks for is clean. -/
theorem targetPath_canonical {w : Workspace} {source path : String} {target : Target}
    (h : targetPath w source target = .ok path) (nonempty : path ≠ "") : Path.IsCanonical path := by
  cases target with
  | path raw => exact Path.normalize?_canonical (normalize_eq_ok h) nonempty
  | project name directory? =>
    simp only [targetPath] at h
    split at h
    next => cases h
    next project _ =>
      cases directory? with
      | none => exact Path.normalize?_canonical (normalize_eq_ok h) nonempty
      | some directory =>
        cases inner : Path.normalize directory with
        | error e => simp [derivedTarget, inner, bind, Except.bind] at h
        | ok clean =>
          simp only [derivedTarget, inner, bind, Except.bind, pure, Except.pure] at h
          exact Path.normalize?_canonical (normalize_eq_ok h) nonempty

/-! ## What follows the checks -/

/-- What a move does once the file is at its new place. -/
def complete (service : Service) (p : Plan) (options : Options) : Session Report := do
  let _ ← onFiles (repairOwn p)
  let outcome ← repair service p
  onFiles (finish service p outcome options)

/-- After the checks a move surveys, puts the file at its new place and completes its work. -/
theorem play_file_of_route {σ : Type} (perform : {β : Type} → FileOp β → σ → β × σ)
    {service : Service} {r : Request} (options : Options) {x : Route} {c c' : Graph.Cache}
    {st st' : σ} (routed : play @perform (route service r) c st = ((.ok x, c'), st')) :
    play @perform (file service r options) c st =
      play @perform (complete service ((survey service x).run @perform st').1 options) c'
        ((place ((survey service x).run @perform st').1).run @perform
      ((survey service x).run @perform st').2).2 := by
  have parts : file service r options = (do
      let plan ← resolve service r
      onFiles (place plan)
      complete service plan options) := rfl
  rw [parts, resolve, play_bind, play_bind, routed]
  simp only [play_onFiles, play_onFiles_bind]

end Rehome.Move
