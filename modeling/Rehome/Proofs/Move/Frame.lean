import Rehome.Proofs.Move.Passing

/-!
# What a move leaves alone

Every change of a file is noted, and files are made at two places only: where the file goes, and
where the new project passes it on. So the report tells which files may have changed.
-/
namespace Rehome

open Specifier (Finder appendLine wildcardExport dominantQuote?)

/-! ## States that are framed -/

/-- What may lie between two states: files were made where `made` says, none was deleted, and every
file that changed was noted. -/
structure Plain.Framed (made : String → Prop) (a b : Plain) : Prop where
  files : ∀ path, b.tree.isFile path = true ↔ a.tree.isFile path = true ∨ made path
  noted : ∀ path ∈ a.touched, path ∈ b.touched
  text : ∀ path, path ∉ b.touched → b.tree.text? path = a.tree.text? path
  ordered : a.touched.Pairwise (· < ·) → b.touched.Pairwise (· < ·)

namespace Plain.Framed

variable {made more : String → Prop} {a b c v : Plain} {path : String}

theorem refl (v : Plain) : Framed (fun _ => False) v v :=
  ⟨fun _ => by simp, fun _ => id, fun _ _ => rfl, id⟩

theorem trans (first : Framed made a b) (later : Framed more b c) :
    Framed (fun path => made path ∨ more path) a c where
  files path := by rw [later.files, first.files, or_assoc]
  noted path member := later.noted path (first.noted path member)
  text path quiet := by
    have before : path ∉ b.touched := fun member => quiet (later.noted path member)
    rw [later.text path quiet, first.text path before]
  ordered increasing := later.ordered (first.ordered increasing)

theorem congr (h : Framed made a b) (same : ∀ path, made path ↔ more path) : Framed more a b :=
  ⟨fun path => by rw [h.files, same], h.noted, h.text, h.ordered⟩

/-- A file that is written is made if it was not there. -/
theorem write (v : Plain) (path text : String) : Framed (· = path) v (v.write path text) where
  files other := by
    simp only [Plain.write, FileTree.write, FileTree.isFile, Table.contains_insert,
      Bool.or_eq_true, decide_eq_true_eq]
    exact or_comm.trans (or_congr_right eq_comm)
  noted other member := Names.mem_insert.2 (.inr member)
  text other quiet := by
    have differs : path ≠ other := fun same => quiet (Names.mem_insert.2 (.inl same.symm))
    simp [Plain.write, differs]
  ordered := Names.insert_ordered

/-- Writing a file that is there makes none. -/
theorem rewrite (h : Framed made a v) (there : v.tree.isFile path = true) (text : String) :
    Framed made a (v.write path text) := by
  have step := h.trans (write v path text)
  refine ⟨fun other => ?_, step.noted, step.text, step.ordered⟩
  rw [step.files other, ← or_assoc, ← h.files other]
  exact or_iff_left_of_imp fun same => same ▸ there

/-- A job on one file makes none. -/
theorem edits {α : Type} {f : Finder} {s : ScanSettings} {j : Job α} {known : Bool}
    (h : Framed made a v) (edits : Job.Edits path known j)
    (present : known = true → v.tree.isFile path = true) :
    Framed made a (j.run (Plain.perform f s) v).2 := by
  induction edits generalizing v with
  | done a => exact h
  | read _ _ missing found =>
    rw [Job.run_step, Plain.perform]
    cases here : v.tree.text? path with
    | none => exact missing h present
    | some text =>
      have there : v.tree.isFile path = true := by rw [FileTree.isFile_eq_isSome, here]; rfl
      exact found text h fun _ => there
  | specifiers _ later => exact later _ h present
  | @write text _ _ later =>
    have still : (v.write path text).tree.isFile path = true := by
      simp [Plain.write, FileTree.isFile_eq_isSome]
    exact later (h.rewrite (present rfl) text) fun _ => still

end Plain.Framed

namespace Move

open Job (Asks)
open Plain (Framed)
open Session

variable {service : Service} {r : Request} {options : Options} {t : FileTree} {report : Report}

/-! ## The stages -/

/-- A condition that jobs on one file keep is kept by every change that repairs references. -/
theorem withstands_of_edits {f : Finder} {s : ScanSettings} {p : Plan} {inv : Plain → Prop}
    (each : ∀ (path : String) (j : Job Bool), Job.Edits path false j → ∀ v, inv v →
      inv (j.run (Plain.perform f s) v).2) : Withstands f s p inv where
  localized _ _ _ file _ := each file _ (edits_localize ..)
  renamed _ _ _ _ _ file _ := each file _ (Job.edits_replaceSpecifier ..)
  removed _ entry _ := each entry _ (Job.edits_removeExportsWhere ..)
  replaced file _ _ := each file _ (Job.edits_replaceWhere ..)

/-- Until the file is passed on, a move makes the new file and no other. -/
theorem ends_settle_framed (asks : Asks (service.graphSource service.workspace)) (p : Plan)
    (passed : p.importedInTarget = true → p.isExported = true) (v : Plain) :
    Ends (Index.perform service.finder) (Index.Mirrors service.finder fun _ => False)
      (settle service p) .empty (v.write p.target p.text) fun _ v' =>
        Framed (· = p.target) v v' := by
  have each : ∀ (path : String) (j : Job Bool), Job.Edits path false j → ∀ w,
      Framed (· = p.target) v w →
        Framed (· = p.target) v (j.run (Plain.perform service.finder service.settings) w).2 :=
    fun path j edits w framed => framed.edits edits nofun
  exact ends_settle (withstands_of_edits each) asks passed
    (each p.target _ (Job.edits_replaceWhere ..)) .empty (.write v p.target p.text)

/-- Passing the file on makes at most the entry point, and only if an export was added. -/
theorem framed_ensureExport (f : Finder) (s : ScanSettings) (p : Plan) (o : Outcome)
    (options : Options) (v : Plain) :
    let (added, passed) := (ensureExport p o options).run (Plain.perform f s) v
    Framed (fun path => added = true ∧ p.targetProject.primaryEntryPoint? = some path) v
      passed := by
  rw [run_ensureExport]
  cases chosen : exportingEntry? p o options with
  | none => exact (Framed.refl v).congr fun _ => by simp
  | some entry =>
    have first := exportingEntry?_eq_some chosen
    simp only [Job.run_ensureWildcardExport]
    split
    next => exact (Framed.refl v).congr fun _ => by simp
    next => exact (Framed.write v entry _).congr fun path => by simp [first, eq_comm]

/-- Formatting makes no file. -/
theorem framed_formatTouched (f : Finder) (s : ScanSettings) (service : Service)
    (options : Options) (v : Plain) :
    Framed (fun _ => False) v ((formatTouched service options).run (Plain.perform f s) v).2 := by
  refine formatTouched_keeps (fun _ format _ path _ text new _ w found framed => ?_) (.refl v)
  exact framed.rewrite (by rw [FileTree.isFile_eq_isSome, found]; rfl) new

/-! ## The whole move -/

/-- A move that succeeds takes the file from its old place to the new one. It makes no other file,
except for the entry point of the new project if an export was added to it, and it deletes none.
Every other file that is not reported as updated has its old text, and the report of updated files
is increasing and names neither place of the moved file. -/
theorem changes_only_reported_files (asks : Asks (service.graphSource service.workspace))
    (accepted : (run service r options t).report = .ok report) :
    let after := (run service r options t).tree
    (∀ path, after.isFile path = true ↔ path ≠ report.source ∧
      (t.isFile path = true ∨ path = report.target ∨ report.exportAdded = true ∧
        ∃ home, service.workspace.owner report.target = .ok home ∧
          home.primaryEntryPoint? = some path)) ∧
    (∀ path, path ≠ report.source → path ≠ report.target → path ∉ report.updated →
      after.text? path = t.text? path) ∧
    report.updated.Pairwise (· < ·) ∧ report.source ∉ report.updated ∧
      report.target ∉ report.updated := by
  intro after
  obtain ⟨p, i, o, v, prepared, settled⟩ := exists_prepared accepted fun p _ planned =>
    ends_settle_framed asks p planned.passed ⟨t, []⟩
  have told := prepared.told
  have left : after.files = _ := prepared.left
  have exports := framed_ensureExport service.finder service.settings p o options v
  rw [run_passOn] at told left
  generalize (ensureExport p o options).run (Plain.perform service.finder service.settings) v =
    outcome at told left exports
  obtain ⟨added, passed⟩ := outcome
  dsimp only at told left exports
  have formats := framed_formatTouched service.finder service.settings service options
    (passed.delete p.source)
  generalize ((formatTouched service options).run (Plain.perform service.finder service.settings)
    (passed.delete p.source)).2 = last at told left formats
  subst told
  have framed := settled.trans exports
  have file : ∀ path, after.isFile path = last.tree.isFile path := fun path => by
    rw [FileTree.isFile, left, FileTree.isFile]
  have increasing : last.touched.Pairwise (· < ·) :=
    formats.ordered (Names.insert_ordered (framed.ordered .nil))
  refine ⟨fun path => ?_, fun path notSource notTarget quiet => ?_, increasing.filter _, ?_, ?_⟩
  · have entry : (∃ home, service.workspace.owner p.target = .ok home ∧
        home.primaryEntryPoint? = some path) ↔ p.targetProject.primaryEntryPoint? = some path := by
      simp [prepared.targetOwner]
    have gone : (passed.delete p.source).tree.isFile path = true ↔
        path ≠ p.source ∧ passed.tree.isFile path = true := by
      rw [FileTree.isFile_iff, FileTree.isFile_iff]
      exact FileTree.mem_names_delete
    rw [file, formats.files, or_false, gone, framed.files]
    simp only [Plan.reportOf, entry]
  · change path ≠ p.source at notSource
    change path ≠ p.target at notTarget
    have still : path ∉ last.touched := by
      intro member
      exact quiet (List.mem_filter.2 ⟨member, by simp [notSource, notTarget]⟩)
    have before : path ∉ passed.touched := fun member =>
      still (formats.noted path (Names.mem_insert.2 (.inr member)))
    calc after.text? path
      _ = last.tree.text? path := congrArg (·.get? path) left
      _ = (passed.delete p.source).tree.text? path := formats.text path still
      _ = passed.tree.text? path := by simp [Plain.delete, Ne.symm notSource]
      _ = t.text? path := framed.text path before
  · simp [Plan.reportOf]
  · simp [Plan.reportOf]

/-- A file goes to a project whose entry point is not there yet: one file moves, one is made, and
the files that are not reported are as they were. -/
theorem changes_only_reported_files_exported :
    let s := Service.pair ["libs/a/index.ts"] ["libs/b/index.ts"]
      [("a", "@org/a"), ("b", "@org/b")]
    let t := FileTree.ofList
      [("libs/a/index.ts", "export * from './x';\n"), ("libs/a/main.ts", "import './x';\n"),
        ("libs/a/x.ts", "export const x = 1;\n"), ("libs/a/y.ts", "export const y = 1;\n")]
    let after := (run s ⟨"libs/a/x.ts", .path "libs/b/z.ts"⟩ {} t).tree
    (∀ path, after.isFile path = true ↔ path ≠ "libs/a/x.ts" ∧
      (t.isFile path = true ∨ path = "libs/b/z.ts" ∨ path = "libs/b/index.ts")) ∧
    ∀ path, path ≠ "libs/a/x.ts" → path ≠ "libs/b/z.ts" →
      path ∉ ["libs/a/index.ts", "libs/a/main.ts", "libs/b/index.ts"] →
        after.text? path = t.text? path := by
  intro s t after
  have accepted : (run s ⟨"libs/a/x.ts", .path "libs/b/z.ts"⟩ {} t).report =
      .ok ⟨.exported, "libs/a/x.ts", "libs/b/z.ts",
        ["libs/a/index.ts", "libs/a/main.ts", "libs/b/index.ts"], true⟩ :=
    ok_of_toOption (by decide +kernel)
  have owner : s.workspace.owner "libs/b/z.ts" =
      .ok ⟨"b", "libs/b", none, .library, ["libs/b/index.ts"]⟩ := ok_of_toOption (by decide +kernel)
  obtain ⟨files, texts, -⟩ :=
    changes_only_reported_files (Job.asks_graph (.inl ⟨_, rfl⟩) s.workspace) accepted
  refine ⟨fun path => ?_, texts⟩
  have entry : (∃ home, s.workspace.owner "libs/b/z.ts" = .ok home ∧
      home.primaryEntryPoint? = some path) ↔ path = "libs/b/index.ts" := by
    rw [owner]
    constructor
    · rintro ⟨home, same, first⟩
      cases same
      exact (Option.some.inj first).symm
    · rintro rfl
      exact ⟨_, rfl, rfl⟩
  rw [files path]
  simp only [entry, true_and]

end Move
end Rehome
