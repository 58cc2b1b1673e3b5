import Rehome.Proofs.Move.Frame

/-!
# Moves between trees that a file system can hold

A tree can be written to disk if no file lies below another one. A request is refused if something
is at the target, but not if a file lies above it, so a move may put a file below another file. It
leaves a tree that a file system can hold exactly if it does not do that. The old place may lie above
the new one: the old file is gone in the end.
-/
namespace Rehome.Move

open Job (Asks)
open Rehome.Path (below? isSome_below?_iff)

variable {service : Service} {r : Request} {options : Options} {t : FileTree} {report : Report}

/-- The files after a move, if no entry point has to be made. -/
theorem mem_names_after_move (asks : Asks (service.graphSource service.workspace))
    (entries : ∀ project ∈ service.workspace.projects, ∀ entry ∈ project.entryPoints,
      t.isFile entry = true)
    (accepted : (run service r options t).report = .ok report) {path : String} :
    path ∈ (run service r options t).tree.files.names ↔
      path ≠ report.source ∧ (path ∈ t.files.names ∨ path = report.target) := by
  obtain ⟨p, i, o, v, prepared, settled⟩ := exists_prepared accepted fun p _ planned =>
    ends_settle_framed asks p planned.passed ⟨t, []⟩
  obtain ⟨-, atSource, atTarget⟩ := prepared.reports
  have exports := framed_ensureExport service.finder service.settings p o options v
  have left := prepared.left
  rw [run_passOn] at left
  generalize (ensureExport p o options).run (Plain.perform service.finder service.settings) v =
    outcome at exports left
  obtain ⟨added, passed⟩ := outcome
  have formats := framed_formatTouched service.finder service.settings service options
    (passed.delete p.source)
  -- The entry point that takes an export is a file of the tree before the move.
  have known : ∀ entry, p.targetProject.primaryEntryPoint? = some entry → t.isFile entry = true :=
    fun entry first => entries _ (service.workspace.owner_mem prepared.targetOwner) entry
      (List.mem_of_head? first)
  have still : passed.tree.isFile path = true ↔ t.isFile path = true ∨ path = p.target := by
    rw [exports.files, settled.files, or_iff_left_of_imp]
    rintro ⟨-, first⟩
    exact .inl (known path first)
  rw [left, ← FileTree.isFile_iff, formats.files, or_false, FileTree.isFile_iff, Plain.delete,
    FileTree.mem_names_delete, ← FileTree.isFile_iff, still, FileTree.isFile_iff, atSource, atTarget]

/-- A move from a tree that a file system can hold, in a workspace whose entry points are there,
leaves such a tree exactly if no file but the moved one lies above the target. -/
theorem realizable_after_move_iff (asks : Asks (service.graphSource service.workspace))
    (realizable : t.IsRealizable)
    (entries : ∀ project ∈ service.workspace.projects, ∀ entry ∈ project.entryPoints,
      t.isFile entry = true)
    (accepted : (run service r options t).report = .ok report) :
    (run service r options t).tree.IsRealizable ↔
      ∀ file ∈ t.files.names, (below? file report.target).isSome = true → file = report.source := by
  have files : ∀ path, path ∈ (run service r options t).tree.files.names ↔
      path ≠ report.source ∧ (path ∈ t.files.names ∨ path = report.target) :=
    fun path => mem_names_after_move asks entries accepted
  obtain ⟨p, i, planned⟩ := exists_planned accepted
  obtain ⟨-, atSource, atTarget⟩ := planned.reports
  rw [atSource, atTarget] at files ⊢
  have free := planned.accepts.free
  constructor
  · intro after file member above
    by_contra other
    have no := after.prefixFree file ((files file).2 ⟨other, .inl member⟩) p.target
      ((files _).2 ⟨planned.accepts.elsewhere, .inr rfl⟩)
    rw [above] at no
    cases no
  · intro clear
    refine ⟨fun path member => ?_, fun path member other inside => Bool.eq_false_iff.2 fun above => ?_⟩
    · rcases ((files path).1 member).2 with old | rfl
      · exact realizable.canonical path old
      · exact planned.canonical
    · obtain ⟨remains, old | rfl⟩ := (files path).1 member
      · rcases ((files other).1 inside).2 with before | rfl
        · exact absurd above (Bool.eq_false_iff.1 (realizable.prefixFree path old other before))
        · exact remains (clear path old above)
      · -- Nothing lies below the target, or the request would have been refused.
        rcases ((files other).1 inside).2 with before | rfl
        · have vacant := (FileTree.holds_eq_false_iff planned.canonical.ne_empty).1 free
          exact absurd above (Bool.eq_false_iff.1 (vacant.2 other before))
        · exact absurd (isSome_below?_iff.1 above) (by simp)

/-- A file moves into the directory that takes its name, and the tree can still be written. -/
theorem realizable_after_move_inward :
    let s := Service.over [⟨"a", "libs/a", none, .library, ["libs/a/index.ts"]⟩] []
    let t := FileTree.ofList
      [("libs/a/index.ts", "export * from './x';\n"), ("libs/a/x.ts", "export const x = 1;\n")]
    let after := (run s ⟨"libs/a/x.ts", .path "libs/a/x.ts/z.ts"⟩ {} t).tree
    t.IsRealizable ∧ after.IsRealizable := by
  intro s t after
  have accepted : (run s ⟨"libs/a/x.ts", .path "libs/a/x.ts/z.ts"⟩ {} t).report =
      .ok ⟨.sameProject, "libs/a/x.ts", "libs/a/x.ts/z.ts", ["libs/a/index.ts"], false⟩ :=
    ok_of_toOption (by decide +kernel)
  have realizable : t.IsRealizable := by decide +kernel
  exact ⟨realizable, (realizable_after_move_iff (Job.asks_graph (.inl ⟨_, rfl⟩) s.workspace) realizable
    (by decide +kernel) accepted).2 (by decide +kernel)⟩

/-- A file may move to a path below another file. -/
theorem moved_below_file :
    let s := Service.over [⟨"a", "libs/a", none, .library, []⟩] []
    let t := FileTree.ofList [("libs/a/x.ts", ""), ("libs/a/y.ts", "")]
    let r : Request := ⟨"libs/a/x.ts", .path "libs/a/y.ts/z.ts"⟩
    t.IsRealizable ∧
    (run s r {} t).report.toOption =
      some ⟨.sameProject, "libs/a/x.ts", "libs/a/y.ts/z.ts", [], false⟩ ∧
    (run s r {} t).tree.files.names = ["libs/a/y.ts", "libs/a/y.ts/z.ts"] ∧
    ¬ (run s r {} t).tree.IsRealizable := by
  intro s t r
  have names : (run s r {} t).tree.files.names = ["libs/a/y.ts", "libs/a/y.ts/z.ts"] := by
    decide +kernel
  refine ⟨by decide +kernel, by decide +kernel, names, fun realizable => ?_⟩
  have apart := realizable.prefixFree "libs/a/y.ts" (by simp [names]) "libs/a/y.ts/z.ts"
    (by simp [names])
  revert apart
  decide +kernel

end Rehome.Move
