import Rehome.Proofs.Move.Keeping

/-!
# Moves that end

The only part of a move that may go on for ever is a scan for the files of a project. Where no path
of the tree has an empty segment every scan ends, because a move writes only at places that are
there, at its target, and, when it scans no more, at an entry point. So a request is carried out
exactly if it passes the checks and its scans end, and a request that fails a check is answered
without any scan.
-/
namespace Rehome

open Specifier (Finder)

/-! ## Scans in a tree without empty segments -/

/-- What holds below the workspace holds below every directory. -/
theorem FileTree.IsSolidBelow.everywhere {t : FileTree} (h : t.IsSolidBelow "") (dir : String) :
    t.IsSolidBelow dir := by
  intro path file starts
  obtain ⟨rest, cut⟩ := List.isPrefixOf_iff_prefix.1 starts
  have solid : Path.AreSolid path.toList := h.rest file path.toList rfl
  rw [← cut] at solid ⊢
  rw [List.drop_left]
  exact FileTree.solid_rest solid

namespace Index

variable {f : Finder} {i : Index} {v : Plain}

/-- An index over paths without empty segments that has come to the end of every scan. -/
structure Paces (f : Finder) (i : Index) (v : Plain) : Prop where
  mirrors : i.Mirrors f (fun _ => False) v
  solid : i.tree.IsSolidBelow ""
  ends : i.endless = false

theorem Paces.relist (h : i.Paces f v) (root old : String) (new? : Option String) :
    (i.relist root old new?).Paces f v := by
  refine ⟨Move.mirrors_relist h.mirrors root old new?, ?_, ?_⟩ <;> unfold Index.relist <;> split
  all_goals first | exact h.solid | exact h.ends

theorem Paces.write (h : i.Paces f v) {path : String}
    (fits : v.tree.isFile path = true ∨ Path.IsCanonical path) (text : String) :
    (i.write path text).Paces f (v.write path text) := by
  refine ⟨(mirrors_answers f _).write path text h.mirrors id trivial, ?_, h.ends⟩
  intro other member starts
  rw [Index.write, FileTree.names_write, Names.mem_insert] at member
  rcases member with rfl | before
  · rcases fits with there | canonical
    · rw [← h.mirrors.agree.isFile] at there
      exact h.solid other (FileTree.isFile_iff.1 there) starts
    · exact FileTree.solid_of_canonical canonical starts
  · exact h.solid other before starts

theorem Paces.sourceFiles (h : i.Paces f v) (root : String) :
    (i.sourceFiles root).2.Paces f v := by
  refine ⟨(mirrors_attends f).lists root h.mirrors, ?_, ?_⟩
  · obtain ⟨asked, lists, endless, frame⟩ := i.sourceFiles_frame root
    rw [frame]
    exact h.solid
  · unfold Index.sourceFiles
    split
    · exact h.ends
    · exact (i.scan_endless (h.solid.everywhere root)).trans h.ends

/-- Questions and changes of files that are there leave such an index such. -/
theorem paces_attends (f : Finder) :
    Job.Attends (Index.perform f) (Paces f) f fun v path =>
      v.tree.isFile path = true ∨ Path.IsCanonical path where
  answers := {
    read {i v} path h := by
      obtain ⟨mirrors, answer⟩ := (mirrors_answers f _).read path h.mirrors
      obtain ⟨-, -, asked, texts, readings, frame⟩ := read_spec h.mirrors.texts path
      refine ⟨⟨mirrors, ?_, ?_⟩, answer⟩
      all_goals simp only [Index.perform, frame]
      · exact h.solid
      · exact h.ends
    specifiers {i v} path h := by
      obtain ⟨mirrors, answer⟩ := (mirrors_answers f _).specifiers path h.mirrors
      obtain ⟨-, -, asked, texts, parsed, readings, parses, frame⟩ :=
        specifiers_spec h.mirrors.texts path
      refine ⟨⟨mirrors, ?_, ?_⟩, answer⟩
      all_goals simp only [Index.perform, frame]
      · exact h.solid
      · exact h.ends
    write _ text h _ fits := h.write fits text
    writeHidden _ _ _ hidden := hidden.elim }
  fits := .inl
  lists root h := h.sourceFiles root

end Index

namespace Move

open Session
open Index (Paces)
open Index.Worklist (next start)

variable {α β : Type} {s : Service} {t : FileTree} {f : Finder}

/-! ## Jobs that scan nothing -/

/-- A job after which the same is known about the end of scans. -/
def ScansNothing (f : Finder) (j : Job α) : Prop :=
  ∀ i, (j.run (Index.perform f) i).2.endless = i.endless

namespace ScansNothing

theorem pure (a : α) : ScansNothing f (Pure.pure a : Job α) := fun _ => rfl

theorem bind {j : Job α} {k : α → Job β} (first : ScansNothing f j)
    (later : ∀ a, ScansNothing f (k a)) : ScansNothing f (j >>= k) := by
  intro i
  rw [Job.run_bind]
  exact (later _ _).trans (first i)

theorem endless_reading (i : Index) (path : String) : (i.reading path).2.endless = i.endless := by
  unfold Index.reading
  split <;> rfl

theorem read (path : String) : ScansNothing f (Job.read path) :=
  fun i => endless_reading i path

theorem specifiers (path : String) : ScansNothing f (Job.specifiers path) := by
  intro i
  have same := endless_reading i path
  change (i.specifiers f path).2.endless = _
  unfold Index.specifiers
  generalize i.reading path = answer at same ⊢
  obtain ⟨_ | reading, j⟩ := answer
  · exact same
  · dsimp only
    split
    · split <;> exact same
    · exact same

theorem ensureWildcardExport (path specifier : String) (same : String → Bool) :
    ScansNothing f (Job.ensureWildcardExport path specifier same) := by
  unfold Job.ensureWildcardExport
  refine (read path).bind fun text? => (specifiers path).bind fun found => ?_
  split
  · exact pure false
  · exact bind (fun _ => rfl) fun _ => pure true

theorem formatFiles (format : String → String → Option String) (paths : List String) :
    ScansNothing f (formatFiles format paths) := by
  induction paths with
  | nil => exact pure ()
  | cons path rest ih =>
    refine (read path).bind fun text? => ?_
    split
    · exact ih
    · split
      · exact ih
      · split
        · exact bind (fun _ => rfl) fun _ => ih
        · exact ih

/-- Once the references are repaired, no files are listed any more. -/
theorem passOn (s : Service) (p : Plan) (outcome : Outcome) (o : Options) :
    ScansNothing f (passOn s p outcome o) := by
  have exported : ScansNothing f (ensureExport p outcome o) := by
    unfold ensureExport
    split
    · exact pure false
    · exact ensureWildcardExport _ _ _
  have formatted : ScansNothing f (formatTouched s o) := by
    unfold formatTouched
    split
    · split
      · exact bind (fun _ => rfl) fun touched => formatFiles _ touched
      · exact pure ()
    · exact pure ()
  exact exported.bind fun _ => bind (fun _ => rfl) fun _ => formatted.bind fun _ =>
    bind (fun _ => rfl) fun _ => pure _

end ScansNothing

/-! ## Whole moves -/

/-- A move ends if no path has an empty segment. -/
theorem ends_of_solid (builtIn : s.graphSource.IsBuiltIn) (r : Request) (o : Options)
    (solid : t.IsSolidBelow "") : (run s r o t).ends = true := by
  have outcome := run_cases builtIn r o t
  cases examined : examine s r t with
  | error e =>
    rw [examined] at outcome
    exact outcome.2.1
  | ok x =>
    rw [examined] at outcome
    obtain ⟨report, accepted⟩ := outcome
    obtain ⟨p, i, planned⟩ := exists_planned accepted
    have attends := Index.paces_attends s.finder
    have surveyed : i.Paces s.finder ⟨t, []⟩ :=
      planned.surveyed attends fun j sees ends =>
        ⟨sees.mirrors, solid.mono fun path file => sees.names ▸ file, ends⟩
    obtain ⟨v, placed, -⟩ := does_place p attends
      (fun root new? h => h.relist root p.source new?) (.inr planned.canonical) i surveyed
    have anything : Withstands s.finder s.settings p fun _ => True := by
      constructor <;> intros <;> trivial
    obtain ⟨w, settled, -⟩ := ends_settle_of_own anything (Job.asks_graph builtIn s.workspace)
      planned.passed attends .empty trivial _ placed
    rw [planned.ends, play_complete_of_settle]
    generalize play (Index.perform s.finder) (settle s p) .empty _ = outcome at settled
    obtain ⟨⟨result, c⟩, j⟩ := outcome
    cases result with
    | error e => rw [settled.ends]; rfl
    | ok outcome =>
      dsimp only
      rw [ScansNothing.passOn s p outcome o j, settled.ends]
      rfl

end Move
end Rehome
