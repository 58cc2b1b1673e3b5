import Rehome.Proofs.Move.Frame
import Rehome.Proofs.Path.Resolution
import Rehome.Proofs.Specifier.Restoring

/-!
# Passing a moved file on

A file that changes its project is passed on by the entry point of its new project, if that is
wanted. An export is added unless one is there that leads to the file, and the specifier that is
written leads there.
-/
namespace Rehome

/-! ## A statement at the end of a text -/

namespace Specifier

theorem appendLine_eq (text : String) (statement : List Char) :
    appendLine text.toList statement = text.toList ++
      (if text = "" ∨ text.toList.getLast? = some '\n' then [] else ['\n']) ++ statement := by
  have same : (text.toList.isEmpty || text.toList.getLast? = some '\n') = true ↔
      text = "" ∨ text.toList.getLast? = some '\n' := by simp
  unfold appendLine
  split
  next closed => rw [if_pos (same.1 closed), List.append_nil]
  next unclosed => rw [if_neg (mt same.2 unclosed), List.append_assoc, List.singleton_append]

/-- An export is added on a line of its own. -/
theorem ofList_appendLine (text specifier : String) (quote : Quote) :
    String.ofList (appendLine text.toList (wildcardExport quote specifier)) =
      text ++ (if text = "" ∨ text.toList.getLast? = some '\n' then "" else "\n") ++
        "export * from " ++ String.ofList (quote.literal specifier.toList) ++ ";\n" := by
  rw [appendLine_eq]
  unfold wildcardExport
  apply String.toList_inj.1
  split <;> simp

/-- Without a majority of double quotes an export is written in single ones. -/
theorem dominantQuote?_getD_single (found : List Occurrence) :
    (dominantQuote? found).getD .single =
      if found.countP (·.quote = .single) < found.countP (·.quote = .double) then .double
      else .single := by
  have parts := countP_single_add_countP_double found
  cases most : dominantQuote? found with
  | none =>
    have tied : ¬ found.length < 2 * found.countP (·.quote = .double) := by
      rw [← dominantQuote?_eq_some_iff, most]
      exact Option.some_ne_none _ ∘ Eq.symm
    rw [if_neg (by omega)]
    rfl
  | some q =>
    have more := dominantQuote?_eq_some_iff.1 most
    cases q with
    | single =>
      rw [if_neg (by omega)]
      rfl
    | double =>
      rw [if_pos (by omega)]
      rfl

/-- A parser that reports the export that is added to a text, if it can read the text then. -/
def Finder.ReportsAdded (f : Finder) (path text specifier : String) : Prop :=
  ∀ quote found,
    f.read? path (String.ofList (appendLine text.toList (wildcardExport quote specifier))) =
      some found → ∃ o ∈ found, o.kind.isExport = true ∧ o.value = specifier

instance (f : Finder) (path text specifier : String) :
    Decidable (f.ReportsAdded path text specifier) :=
  decidable_of_iff
    (∀ quote ∈ [Quote.single, .double], ∀ found ∈ f.read? path (String.ofList
      (appendLine text.toList (wildcardExport quote specifier))),
        ∃ o ∈ found, o.kind.isExport = true ∧ o.value = specifier)
    ⟨fun all quote => all quote (by cases quote <;> simp), fun all quote _ => all quote⟩

end Specifier

namespace Move

open Specifier (Finder Quote dominantQuote?_getD_single ofList_appendLine)
open Rehome.Path (resolvesTo specifierFor IsCanonical IsModule)
open Job (Asks)
open Session

variable {service : Service} {r : Request} {options : Options} {t : FileTree} {report : Report}
  {p : Plan} {o : Outcome} {v : Plain} {i : Index} {entry : String}

/-! ## When the file has to be passed on -/

/-- The new project has to pass the file on: nobody asked otherwise, it is a library with an entry
point, and the old project passed the file on, or references were changed to the alias. -/
structure WantsExport (service : Service) (options : Options) (t : FileTree) (report : Report)
    (home away : Project) (o : Outcome) (entry : String) : Prop where
  asked : options.skipExport = false
  library : away.isLibrary = true
  first : away.primaryEntryPoint? = some entry
  needed : IsPassedOn service.finder t home.entryPoints report.source ∨
    report.strategy = .nonExportedAliased ∧ o.changed ≠ []

theorem Prepared.exportingEntry?_eq_some_iff (h : Prepared service r options t report p i o v)
    (across : p.isInside = false) :
    exportingEntry? p o options = some entry ↔
      WantsExport service options t report p.sourceProject p.targetProject o entry := by
  have needed : (p.isExported = true ∨ o.needsExport = true) ↔
      IsPassedOn service.finder t p.sourceProject.entryPoints report.source ∨
        report.strategy = .nonExportedAliased ∧ o.changed ≠ [] := by
    rw [h.needs, strategy_eq_exported_iff across, ← or_assoc, or_self, h.exports, h.reports.1,
      h.reports.2.1]
  rw [Move.exportingEntry?_eq_some_iff, needed]
  exact ⟨fun ⟨_, asked, needed, library, first⟩ => ⟨asked, library, first, needed⟩,
    fun wants => ⟨across, wants.asked, wants.needed, wants.library, wants.first⟩⟩

/-! ## What the entry point holds then -/

/-- Making a canonical file pass on a module leaves an export that leads there, as far as the parser
can read the file and reports what is added to it. -/
theorem isPassedOn_of_ensured (f : Finder) (s : ScanSettings) {target : String}
    (canonical : IsCanonical entry) (module : IsModule target)
    (reports : f.ReportsAdded entry ((v.tree.text? entry).getD "") (specifierFor entry target none))
    {text : String}
    (now : ((Job.ensureWildcardExport entry (specifierFor entry target none)
      (resolvesTo entry · target)).run (Plain.perform f s) v).2.tree.text? entry = some text)
    (handled : f.handles entry = true) (readable : (f.read? entry text).isSome = true) :
    ∃ o ∈ f.occurrences entry text, o.kind.isExport = true ∧
      resolvesTo entry o.value target = true := by
  have leads : resolvesTo entry (specifierFor entry target none) target = true :=
    Path.resolvesTo_specifierFor canonical module nofun
  obtain ⟨found, read⟩ := Option.isSome_iff_exists.1 readable
  have seen : f.occurrences entry text = found := by simp [Finder.occurrences, handled, read]
  rw [Job.run_ensureWildcardExport] at now
  dsimp only at now
  split at now
  next passes =>
    -- An export was there that is spelled like the new one or leads to the same file.
    have same : v.tree.specifiers f entry = f.occurrences entry text := by
      rw [FileTree.specifiers, now]
    obtain ⟨o, member, passes⟩ := List.any_eq_true.1 passes
    rw [Bool.and_eq_true, Bool.or_eq_true, decide_eq_true_eq] at passes
    rw [same] at member
    refine ⟨o, member, passes.1, passes.2.elim (fun spelled => ?_) id⟩
    rw [spelled]
    exact leads
  next =>
    rw [Plain.write, FileTree.text?_write, if_pos rfl] at now
    cases now
    obtain ⟨o, member, exports, value⟩ := reports _ found read
    rw [seen]
    refine ⟨o, member, exports, ?_⟩
    rw [value]
    exact leads

/-- What the end of a move does for the entry point that has to pass the file on. -/
structure PassesOn (f : Finder) (before after : FileTree) (report : Report) (entry : String) :
    Prop where
  /-- An export is added unless one is there that is spelled like it or leads to the file. -/
  added : report.exportAdded = true ↔
    ∀ o ∈ before.specifiers f entry, o.kind.isExport = true →
      o.value ≠ specifierFor entry report.target none ∧
        resolvesTo entry o.value report.target = false
  /-- It stands on a line of its own, in the quotes that most literals have. -/
  text : after.text? entry =
    if report.exportAdded then
      let old := (before.text? entry).getD ""
      let found := before.specifiers f entry
      let quote : Quote :=
        if found.countP (·.quote = .single) < found.countP (·.quote = .double) then .double
        else .single
      some (old ++ (if old = "" ∨ old.toList.getLast? = some '\n' then "" else "\n") ++
        "export * from " ++
          String.ofList (quote.literal (specifierFor entry report.target none).toList) ++ ";\n")
    else before.text? entry
  others : ∀ path, path ≠ report.source → path ≠ entry → after.text? path = before.text? path
  leads : IsModule report.target →
    f.ReportsAdded entry ((before.text? entry).getD "") (specifierFor entry report.target none) →
      ∀ text, after.text? entry = some text → f.handles entry = true →
        (f.read? entry text).isSome = true → IsPassedOn f after [entry] report.target

/-- Without formatting, the rest of a move passes the file on and deletes the old one. -/
theorem run_passOn_unformatted (unformatted : options.format = false) (f : Finder)
    (s : ScanSettings) (v : Plain) :
    (passOn service p o options).run (Plain.perform f s) v =
      let (exportAdded, passed) := (ensureExport p o options).run (Plain.perform f s) v
      (p.reportOf (passed.delete p.source).touched exportAdded, passed.delete p.source) := by
  rw [run_passOn, formatTouched_of_unformatted unformatted]
  rfl

section

variable (h : Prepared service r options t report p i o v) (unformatted : options.format = false)
  {before : FileTree} (same : before.files = v.tree.files)
include h unformatted same

/-- A move that has nobody to pass the file on leaves the other files as they are. -/
theorem Prepared.idle (nobody : exportingEntry? p o options = none) :
    report.exportAdded = false ∧ ∀ path, path ≠ report.source →
      (run service r options t).tree.text? path = before.text? path := by
  have told := h.told
  have left := h.left
  rw [run_passOn_unformatted unformatted, run_ensureExport, nobody] at told left
  dsimp only at told left
  subst told
  refine ⟨rfl, fun path other => ?_⟩
  change path ≠ p.source at other
  rw [FileTree.text?, left]
  change (v.delete p.source).tree.text? path = before.files.get? path
  rw [same, Plain.delete, FileTree.text?_delete, if_neg other.symm]
  rfl

theorem Prepared.passesOn (chosen : exportingEntry? p o options = some entry)
    (canonical : IsCanonical entry) (differs : entry ≠ report.source) :
    PassesOn service.finder before (run service r options t).tree report entry := by
  have texts : ∀ path, before.text? path = v.tree.text? path := fun path =>
    congrArg (·.get? path) same
  have found : before.specifiers service.finder entry = v.tree.specifiers service.finder entry :=
    FileTree.specifiers_congr service.finder (texts entry)
  have told := h.told
  have left := h.left
  rw [run_passOn_unformatted unformatted, run_ensureExport, chosen] at told left
  dsimp only at told left
  generalize ran : (Job.ensureWildcardExport entry (specifierFor entry p.target none)
    (resolvesTo entry · p.target)).run (Plain.perform service.finder service.settings) v =
      outcome at told left
  obtain ⟨added, passed⟩ := outcome
  dsimp only at told left
  subst told
  change entry ≠ p.source at differs
  have after : ∀ path, path ≠ p.source →
      (run service r options t).tree.text? path = passed.tree.text? path := by
    intro path other
    rw [FileTree.text?, left]
    change (passed.delete p.source).tree.text? path = _
    rw [Plain.delete, FileTree.text?_delete, if_neg other.symm]
  have leads : IsModule p.target →
      service.finder.ReportsAdded entry ((before.text? entry).getD "")
        (specifierFor entry p.target none) →
      ∀ text, (run service r options t).tree.text? entry = some text →
        service.finder.handles entry = true → (service.finder.read? entry text).isSome = true →
          IsPassedOn service.finder (run service r options t).tree [entry] p.target := by
    intro module reports text now handled readable
    rw [texts entry] at reports
    have here : passed.tree.text? entry = some text := by rw [← after entry differs, now]
    rw [← show _ = passed from congrArg Prod.snd ran] at here
    obtain ⟨o, member, passes⟩ := isPassedOn_of_ensured service.finder service.settings canonical
      module reports here handled readable
    refine ⟨entry, List.mem_singleton_self entry, o, ?_, passes⟩
    rw [FileTree.specifiers, now]
    exact member
  rw [Job.run_ensureWildcardExport, ← found, ← texts entry] at ran
  dsimp only at ran
  split at ran
  next passes =>
    cases ran
    refine ⟨⟨fun added => ?_, fun none => ?_⟩, ?_, fun path other _ => ?_, leads⟩
    · cases added
    · obtain ⟨o, member, passes⟩ := List.any_eq_true.1 passes
      rw [Bool.and_eq_true, Bool.or_eq_true, decide_eq_true_eq] at passes
      obtain ⟨spelled, elsewhere⟩ := none o member passes.1
      exact absurd passes.2 (by simpa [Plan.reportOf] using ⟨spelled, elsewhere⟩)
    · rw [after entry differs, ← texts entry]
      rfl
    · rw [after path other, texts path]
  next fresh =>
    cases ran
    refine ⟨⟨fun _ o member exports => ?_, fun _ => rfl⟩, ?_, fun path other elsewhere => ?_, leads⟩
    · simp only [List.any_eq_true, not_exists, not_and, Bool.and_eq_true, Bool.or_eq_true,
        decide_eq_true_eq, not_or, Bool.not_eq_true] at fresh
      exact fresh o member exports
    · rw [after entry differs, Plain.write, FileTree.text?_write, if_pos rfl,
        dominantQuote?_getD_single, ofList_appendLine]
      rfl
    · rw [after path other, texts path, Plain.write, FileTree.text?_write, if_neg elsewhere.symm]

end

/-! ## The whole move -/

/-- What repairing the references came to, and the files at the moment when the new project is to
pass the file on. -/
def beforeExport? (service : Service) (r : Request) (t : FileTree) : Option (Outcome × FileTree) :=
  match play (Index.perform service.finder) (prepare service r) .empty
    (.new t service.settings) with
  | ((.ok (_, o), _), i) => some (o, i.tree)
  | _ => none

/-- A move to another project without formatting adds an export exactly if one is wanted and none
leads to the file yet. The entry point then passes the file on, and every other file but the old one
is as it was at that moment; if no export is wanted, the entry point is as well. -/
theorem exports_exactly_if_wanted (asks : Asks (service.graphSource service.workspace))
    (accepted : (run service r options t).report = .ok report)
    (unformatted : options.format = false) {home away : Project}
    (leaves : service.workspace.owner report.source = .ok home)
    (arrives : service.workspace.owner report.target = .ok away) (across : home.name ≠ away.name)
    (entries : ∀ entry ∈ away.primaryEntryPoint?, IsCanonical entry ∧ entry ≠ report.source) :
    ∃ o before, beforeExport? service r t = some (o, before) ∧
      (∀ entry, WantsExport service options t report home away o entry →
        PassesOn service.finder before (run service r options t).tree report entry) ∧
      ((∀ entry, ¬ WantsExport service options t report home away o entry) →
        report.exportAdded = false ∧ ∀ path, path ≠ report.source →
          (run service r options t).tree.text? path = before.text? path) := by
  obtain ⟨p, i, o, v, prepared, -⟩ := exists_prepared accepted fun p _ planned =>
    ends_settle_framed asks p planned.passed ⟨t, []⟩
  obtain ⟨c, j, reached, mirrors⟩ := prepared.reached
  obtain ⟨-, atSource, atTarget⟩ := prepared.reports
  rw [atSource, prepared.sourceOwner] at leaves
  rw [atTarget, prepared.targetOwner] at arrives
  cases leaves
  cases arrives
  have outside : p.isInside = false := decide_eq_false across
  have same : j.tree.files = v.tree.files := mirrors.agree.files_eq
  refine ⟨o, j.tree, by rw [beforeExport?, reached], fun entry wants => ?_, fun unwanted => ?_⟩
  · have chosen := (prepared.exportingEntry?_eq_some_iff outside).2 wants
    obtain ⟨canonical, differs⟩ := entries entry wants.first
    exact prepared.passesOn unformatted same chosen canonical differs
  · have nobody : exportingEntry? p o options = none := by
      rw [Option.eq_none_iff_forall_ne_some]
      intro entry chosen
      exact unwanted entry ((prepared.exportingEntry?_eq_some_iff outside).1 chosen)
    exact prepared.idle unformatted same nobody

/-- An export is added in double quotes after a text that ends within a line, and the entry point
passes the file on. -/
theorem exports_exactly_if_wanted_exported :
    let s := Service.pair ["libs/a/index.ts"] ["libs/b/index.ts"] []
    let t := FileTree.ofList
      [("libs/a/index.ts", "export * from './x';\n"), ("libs/a/x.ts", "export const x = 1;\n"),
        ("libs/b/index.ts", "import \"q\";\nexport const b = 1")]
    let after := (run s ⟨"libs/a/x.ts", .path "libs/b/z.ts"⟩ {} t).tree
    after.text? "libs/b/index.ts" =
        some "import \"q\";\nexport const b = 1\nexport * from \"./z\";\n" ∧
      IsPassedOn .modules after ["libs/b/index.ts"] "libs/b/z.ts" := by
  intro s t after
  let b : Project := ⟨"b", "libs/b", none, .library, ["libs/b/index.ts"]⟩
  have outcome : (run s ⟨"libs/a/x.ts", .path "libs/b/z.ts"⟩ {} t).report.toOption =
        some ⟨.exported, "libs/a/x.ts", "libs/b/z.ts", ["libs/a/index.ts", "libs/b/index.ts"],
          true⟩ ∧
      after.text? "libs/b/index.ts" =
        some "import \"q\";\nexport const b = 1\nexport * from \"./z\";\n" := by
    decide +kernel
  obtain ⟨reported, text⟩ := outcome
  have accepted := ok_of_toOption reported
  have entries : ∀ entry ∈ b.primaryEntryPoint?, IsCanonical entry ∧ entry ≠ "libs/a/x.ts" := by
    intro entry first
    cases first
    decide +kernel
  obtain ⟨o, before, reached, wanted, -⟩ := exports_exactly_if_wanted
    (Job.asks_graph (.inl ⟨_, rfl⟩) s.workspace) accepted rfl
    (ok_of_toOption (by decide +kernel) : s.workspace.owner "libs/a/x.ts" =
      .ok ⟨"a", "libs/a", none, .library, ["libs/a/index.ts"]⟩)
    (ok_of_toOption (by decide +kernel) : s.workspace.owner "libs/b/z.ts" = .ok b) (by decide)
    entries
  have passes := wanted "libs/b/index.ts" ⟨rfl, rfl, rfl, .inl (by decide +kernel)⟩
  have known : (beforeExport? s ⟨"libs/a/x.ts", .path "libs/b/z.ts"⟩ t).map
      (fun moment => moment.2.text? "libs/b/index.ts") =
        some (some "import \"q\";\nexport const b = 1") := by decide +kernel
  rw [reached, Option.map_some, Option.some_inj] at known
  refine ⟨text, passes.leads (by decide +kernel) ?_ _ text (by decide +kernel) (by decide +kernel)⟩
  rw [known]
  decide +kernel

/-- An export that was added need not lead to the file: a file whose name without extension is a dot
is not reached by what is written for it, and in an entry point that ends within a comment the
parser does not find the export. -/
theorem export_leads_elsewhere :
    let s := Service.pair ["libs/a/index.ts"] ["libs/b/index.ts"] []
    (let t := FileTree.ofList [("libs/a/index.ts", "export * from './x';\n"), ("libs/a/x.ts", ""),
        ("libs/b/index.ts", "")]
      let moved := run s ⟨"libs/a/x.ts", .path "libs/b/..ts"⟩ {} t
      moved.report.toOption.map (·.exportAdded) = some true ∧
        Path.sourceExtension? (Path.stem "libs/b/..ts") = none ∧
        moved.tree.text? "libs/b/index.ts" = some "export * from '.';\n" ∧
        (s.finder.read? "libs/b/index.ts" "export * from '.';\n").isSome = true ∧
        ¬ IsPassedOn s.finder moved.tree ["libs/b/index.ts"] "libs/b/..ts") ∧
    (let t := FileTree.ofList [("libs/a/index.ts", "export * from './x';\n"), ("libs/a/x.ts", ""),
        ("libs/b/index.ts", "/*")]
      let moved := run s ⟨"libs/a/x.ts", .path "libs/b/x.ts"⟩ {} t
      moved.report.toOption.map (·.exportAdded) = some true ∧
        moved.tree.text? "libs/b/index.ts" = some "/*\nexport * from './x';\n" ∧
        (s.finder.read? "libs/b/index.ts" "/*\nexport * from './x';\n").isSome = true ∧
        ¬ s.finder.ReportsAdded "libs/b/index.ts" "/*" "./x" ∧
        ¬ IsPassedOn s.finder moved.tree ["libs/b/index.ts"] "libs/b/x.ts") := by
  decide +kernel

end Move
end Rehome
