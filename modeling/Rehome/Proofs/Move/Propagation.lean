import Rehome.Job.Search
import Rehome.Move.Repair
import Rehome.Proofs.Job.Standing

/-!
# Repairing file after file

The repairs of a move go through lists of files. Two states that stand for the same plain state may
list different files, as long as they agree on those in view. What happens to the files in view is
then the same, and a project without a file that names the alias may be left out.
-/
namespace Rehome.Move

open Specifier (Finder)
open Job (Does Answers ListsView Edits)

section

variable {σ : Type} (perform : {β : Type} → FileOp β → σ → β × σ) (stands : σ → Plain → Prop)

/-- States that answer like the plain state they stand for about the files in view. -/
structure Sees (f : Finder) (s : ScanSettings) (t : FileTree) (kept : String → Bool)
    (hidden : String → Prop) :
    Prop where
  answers : Answers @perform stands f hidden fun v path => v.tree.isFile path = true
  lists : ListsView @perform stands s t kept
  visible : ∀ path, kept path = true → ¬ hidden path

end

variable {σ : Type} {perform : {β : Type} → FileOp β → σ → β × σ} {stands : σ → Plain → Prop}
  {f : Finder} {s : ScanSettings} {t : FileTree} {kept : String → Bool} {hidden : String → Prop}
    {v : Plain}

/-! ## Going through files -/

/-- A job on a file that is not hidden does what it does without caches. -/
theorem does_edits {α : Type} (answers : Answers @perform stands f hidden fun v path =>
      v.tree.isFile path = true)
    (s : ScanSettings) {path : String} (visible : ¬ hidden path) {j : Job α}
    (edits : Edits path false j) (v : Plain) :
    Does @perform stands j v fun a v' => (a, v') = j.run (Plain.perform f s) v :=
  edits.does s answers id visible v nofun

section

variable (s) (answers : Answers @perform stands f hidden fun v path => v.tree.isFile path = true)
  {shown : String → Bool} (visible : ∀ path, shown path = true → ¬ hidden path)
    {change : String → Job Bool}
  (edits : ∀ path, shown path = true → Edits path false (change path))
include answers visible edits

/-- What happens to the files that are shown, when nothing can be seen of what happens to others. -/
theorem does_changed
    (outside : ∀ path, shown path = false → ∀ v,
      Does @perform stands (change path) v fun _ v' => v' = v)
    (files : List String) (v : Plain) :
    Does @perform stands (changed change files) v fun _ v' =>
      v' = ((changed change (files.filter shown)).run (Plain.perform f s) v).2 := by
  induction files generalizing v with
  | nil => exact Job.does_pure rfl
  | cons path rest ih =>
    -- The answer for this file decides whether it is reported, but not what happens next.
    have next : ∀ (answer : Bool) (w : Plain),
        Does @perform stands
          (do if answer then return path :: (← changed change rest) else changed change rest) w
          fun _ v' => v' = ((changed change (rest.filter shown)).run (Plain.perform f s) w).2 := by
      intro answer w
      cases answer with
      | true => exact (ih w).bind fun _ w' same => Job.does_pure same
      | false => exact ih w
    cases here : shown path with
    | true =>
      refine (does_edits answers s (visible path here) (edits path here) v).bind
        fun answer w done => ?_
      refine (next answer w).mono fun _ v' same => ?_
      rw [same, List.filter_cons_of_pos here, changed, Job.run_bind, ← done]
      cases answer with
      | true => rw [if_pos rfl, Job.run_bind]; rfl
      | false => rfl
    | false =>
      refine (outside path here v).bind fun answer w idle => ?_
      subst idle
      rw [List.filter_cons_of_neg (by simp [here])]
      exact next answer _

/-- When other files are left alone, the files that are shown tell the answer as well. -/
theorem does_changed_only (outside : ∀ path, shown path = false → change path = pure false)
    (files : List String) (v : Plain) :
    Does @perform stands (changed change files) v fun found v' =>
      (found, v') = (changed change (files.filter shown)).run (Plain.perform f s) v := by
  induction files generalizing v with
  | nil => exact Job.does_pure rfl
  | cons path rest ih =>
    cases here : shown path with
    | true =>
      refine (does_edits answers s (visible path here) (edits path here) v).bind
        fun answer w done => ?_
      rw [List.filter_cons_of_pos here, changed, Job.run_bind, ← done]
      cases answer with
      | true =>
        refine (ih w).bind fun found w' same => Job.does_pure ?_
        rw [if_pos rfl, Job.run_bind, ← same]
        rfl
      | false => exact ih w
    | false =>
      rw [List.filter_cons_of_neg (by simp [here]), changed, outside path here]
      exact ih v

end

/-! ## Files that name the alias -/

theorem edits_localize (p : Plan) (name file : String) : Edits file false (localize p name file) :=
  Job.edits_replaceWhere ..

theorem edits_repairDependent (p : Plan) (name : String) (project : Project) (file : String) :
    Edits file false (repairDependent p name project file) := by
  unfold repairDependent
  split
  · exact Job.edits_pure false
  · refine (Job.edits_hasSpecifier file name).bind fun named => ?_
    cases named with
    | false => exact Job.edits_pure false
    | true =>
      rw [if_pos rfl]
      split
      · split
        · exact Job.edits_replaceSpecifier ..
        · exact edits_localize ..
      · exact edits_localize ..

/-- Whether a file of a plain state names the alias. -/
def namesAlias (f : Finder) (name : String) (v : Plain) (path : String) : Bool :=
  match v.tree.text? path with
  | none => false
  | some text => Search.refers f (.exact name) path text

theorem run_hasSpecifier (f : Finder) (s : ScanSettings) (path name : String) (v : Plain) :
    (Job.hasSpecifier path name).run (Plain.perform f s) v = (namesAlias f name v path, v) := by
  rw [Job.hasSpecifier, Job.run_bind, Job.run_mayHold]
  unfold namesAlias
  cases present : v.tree.text? path with
  | none => rfl
  | some text =>
    simp only [Option.any_some, Search.refers, Specifier.Query.text]
    by_cases holds : Specifier.mayContain text.toList name = true
    · rw [if_pos holds, holds, Job.hasSpecifierWhere, Job.run_bind]
      simp only [Job.specifiers, Job.run_ofOp, Plain.perform, FileTree.specifiers, present]
      rfl
    · rw [if_neg holds, Bool.eq_false_iff.2 holds]
      rfl

/-- A file that does not name the alias is left alone. -/
theorem run_repairDependent_of_not {name : String} {path : String} {v : Plain}
    (silent : namesAlias f name v path = false) (s : ScanSettings) (p : Plan) (project : Project) :
    (repairDependent p name project path).run (Plain.perform f s) v = (false, v) := by
  unfold repairDependent
  split
  · rfl
  · rw [Job.run_bind, run_hasSpecifier, silent]
    rfl

/-! ## Repairing one project after the other -/

/-- The files of a project in view after those that name the alias were repaired. -/
def repaired (f : Finder) (s : ScanSettings) (t : FileTree) (kept : String → Bool) (p : Plan)
    (name : String) (v : Plain) (project : Project) : Plain :=
  ((changed (repairDependent p name project) (t.inView s kept project.root)).run
    (Plain.perform f s) v).2

/-- A file that did not name the alias at first is as it was. -/
def Settled (f : Finder) (name : String) (start v : Plain) : Prop :=
  ∀ path, namesAlias f name start path = false → v.tree.text? path = start.tree.text? path

theorem namesAlias_congr {name path : String} {v w : Plain}
    (same : v.tree.text? path = w.tree.text? path) :
    namesAlias f name v path = namesAlias f name w path := by
  rw [namesAlias, same, namesAlias]

theorem changed_cons_run (change : String → Job Bool) (path : String) (rest : List String)
    (v : Plain) :
    ((changed change (path :: rest)).run (Plain.perform f s) v).2 =
      ((changed change rest).run (Plain.perform f s)
      ((change path).run (Plain.perform f s) v).2).2 := by
  rw [changed, Job.run_bind]
  cases ((change path).run (Plain.perform f s) v).1 with
  | true => rw [if_pos rfl, Job.run_bind]; rfl
  | false => rfl

theorem Settled.visit {name : String} {start v : Plain} (h : Settled f name start v) (p : Plan)
    (project : Project) (path : String) :
    Settled f name start ((repairDependent p name project path).run (Plain.perform f s) v).2 := by
  intro other silent
  by_cases same : other = path
  · subst same
    have quiet : namesAlias f name v other = false :=
      (namesAlias_congr (h other silent)).trans silent
    rw [run_repairDependent_of_not quiet]
    exact h other silent
  · rw [(edits_repairDependent p name project path).run_other f s v same]
    exact h other silent

theorem Settled.visitAll {name : String} {start v : Plain} (h : Settled f name start v) (p : Plan)
    (project : Project) (files : List String) :
    Settled f name start
      ((changed (repairDependent p name project) files).run (Plain.perform f s) v).2 := by
  induction files generalizing v with
  | nil => exact h
  | cons path rest ih =>
    rw [changed_cons_run]
    exact ih (h.visit p project path)

/-- Files that did not name the alias at first are left alone. -/
theorem Settled.idle {name : String} {start v : Plain} (h : Settled f name start v) (p : Plan)
    (project : Project) {files : List String}
    (silent : ∀ path ∈ files, namesAlias f name start path = false) :
    ((changed (repairDependent p name project) files).run (Plain.perform f s) v).2 = v := by
  induction files with
  | nil => rfl
  | cons path rest ih =>
    have here := silent path (by simp)
    have quiet : namesAlias f name v path = false := (namesAlias_congr (h path here)).trans here
    rw [changed_cons_run, run_repairDependent_of_not quiet]
    exact ih fun other member => silent other (by simp [member])

/-- Whether a file in view of a project names the alias. -/
def isConcerned (f : Finder) (s : ScanSettings) (t : FileTree) (kept : String → Bool)
    (name : String) (v : Plain) (project : Project) : Bool :=
  (t.inView s kept project.root).any (namesAlias f name v)

/-- Only the projects that were concerned at first matter. -/
theorem foldl_repaired {name : String} {start v : Plain} (h : Settled f name start v) (p : Plan)
    (projects : List Project) :
    projects.foldl (repaired f s t kept p name) v =
      (projects.filter (isConcerned f s t kept name start)).foldl
    (repaired f s t kept p name) v := by
  induction projects generalizing v with
  | nil => rfl
  | cons project rest ih =>
    cases concerned : isConcerned f s t kept name start project with
    | true =>
      rw [List.filter_cons_of_pos concerned, List.foldl_cons, List.foldl_cons]
      exact ih (h.visitAll p project _)
    | false =>
      have silent : ∀ path ∈ t.inView s kept project.root,
          namesAlias f name start path = false := by
        simpa [isConcerned] using concerned
      have idle : repaired f s t kept p name v project = v := h.idle p project silent
      rw [List.filter_cons_of_neg (by simp [concerned]), List.foldl_cons, idle]
      exact ih h

/-- The files that a move keeps in view: all but the moved file at both of its places. -/
def Plan.keeps (p : Plan) (path : String) : Bool := path ≠ p.source && path ≠ p.target

theorem Plan.keeps_iff {p : Plan} {path : String} : p.keeps path = true ↔ path ≠ p.source ∧
    path ≠ p.target := by
  simp [Plan.keeps]

theorem Plan.eq_of_not_keeps {p : Plan} {path : String} (out : p.keeps path = false) :
    path = p.source ∨ path = p.target := by
  by_contra neither
  rw [Plan.keeps_iff.2 (not_or.1 neither)] at out
  cases out

/-- What a move hides: the file at its old place, when others may change it there before it is
deleted. -/
def Plan.hides (p : Plan) (path : String) : Prop := p.strategy = .exported ∧ path = p.source

section

variable {p : Plan} (sees : Sees @perform stands f s t p.keeps p.hides)
include sees

theorem does_listFiles (projects : List Project) :
    Does @perform stands (listFiles projects) v fun _ v' => v' = v := by
  induction projects with
  | nil => exact Job.does_pure rfl
  | cons project rest ih =>
    refine (Job.does_sourceFiles sees.lists project.root).bind ?_
    rintro files v ⟨rfl, -⟩
    exact ih

theorem does_repairDependents (exported : p.strategy = .exported) (name : String)
    (project : Project) (files : List String) (v : Plain) :
    Does @perform stands (changed (repairDependent p name project) files) v fun _ v' =>
      v' = ((changed (repairDependent p name project) (files.filter p.keeps)).run
        (Plain.perform f s) v).2 := by
  refine does_changed s sees.answers sees.visible (fun path _ =>
    edits_repairDependent p name project path)
    (fun path out v => ?_) files v
  rcases Plan.eq_of_not_keeps out with atSource | atTarget
  · exact (edits_repairDependent p name project path).does_hidden sees.answers
      ⟨exported, atSource⟩ v
  · rw [repairDependent, if_pos atTarget]
    exact Job.does_pure rfl

theorem does_repairProjects (exported : p.strategy = .exported) (name : String)
    (projects : List Project) (v : Plain) :
    Does @perform stands (repairProjects p name projects) v fun _ v' =>
      v' = projects.foldl (repaired f s t p.keeps p name) v := by
  induction projects generalizing v with
  | nil => exact Job.does_pure rfl
  | cons project rest ih =>
    refine (Job.does_sourceFiles sees.lists project.root).bind ?_
    rintro files v ⟨rfl, view⟩
    refine (does_repairDependents sees exported name project files v).bind fun here w same => ?_
    rw [view] at same
    subst same
    exact (ih _).bind fun later w same => Job.does_pure same

end

end Rehome.Move
