import Rehome.Proofs.Move.Frame
import Rehome.Proofs.Move.Listings
import Rehome.Proofs.Path.Spelling

/-!
# Files that refer to themselves

A move writes relative specifiers into the moved file, into files that refer to it, and into the
entry point that passes it on. A file refers to itself afterwards only if a path that such a
specifier stands for means the file as well: because both files have the same stem, because one is
the entry file of a directory that has the other's name, or because it is one and the same file.
-/
namespace Rehome

open Specifier (Finder)
open Rehome.Path (resolvesTo)

/-- No file has a specifier that leads to the file itself. -/
def FileTree.IsSelfless (f : Finder) (t : FileTree) : Prop :=
  ∀ path ∈ t.files.names, ∀ o ∈ t.specifiers f path, resolvesTo path o.value path = false

instance (f : Finder) (t : FileTree) : Decidable (t.IsSelfless f) :=
  inferInstanceAs (Decidable (∀ path ∈ t.files.names, ∀ o ∈ t.specifiers f path,
    resolvesTo path o.value path = false))

namespace Move

open Job (Asks)
open Rehome.Path (IsCanonical Means Shadows InDottedDirectory Spells spelled)
open Rehome.Path (isRelative resolve? specifierFor sourceExtension? stem)

variable {service : Service} {r : Request} {options : Options} {t : FileTree} {report : Report}
  {p : Plan} {v : Plain}

/-- Specifiers for the target can be written into a file without meaning that file. -/
@[mk_iff]
structure Takes (target file : String) : Prop where
  distinct : ¬ Shadows target file
  plain : ¬ InDottedDirectory file

instance (target file : String) : Decidable (Takes target file) :=
  decidable_of_iff _ (takes_iff target file).symm

theorem Takes.resolvesTo {target file : String} (h : Takes target file)
    (canonical : IsCanonical file) (clean : IsCanonical (stem target)) (model : Option String) :
    resolvesTo file (specifierFor file target model) file = false := by
  rw [← Bool.not_eq_true]
  intro own
  rcases Path.means_of_specifierFor canonical clean.spells own with means | dotted
  · exact h.distinct ⟨_, Path.spelled_mem target model, means⟩
  · exact h.plain dotted

/-- What a specifier of the moved file, as it is at the old place, has to be like. -/
def Turns (source target value : String) : Prop :=
  match resolve? source value with
  | none => resolvesTo target value target = false
  | some path =>
    ¬ Means (spelled path (some value)) target ∧
      ((sourceExtension? path).isSome → IsCanonical (stem path))

instance (source target value : String) : Decidable (Turns source target value) := by
  unfold Turns
  split <;> infer_instance

/-- A specifier of another file stays as it is, or the file can take one for the moved file. -/
def Yields (service : Service) (home : Project) (report : Report) (file value : String) : Prop :=
  resolvesTo file value report.source = true ∨ value ∈ service.workspace.alias? home.name →
    Takes report.target file

instance (service : Service) (home : Project) (report : Report) (file value : String) :
    Decidable (Yields service home report file value) :=
  inferInstanceAs (Decidable (_ ∨ _ → Takes report.target file))

/-- A move none of whose specifiers is written into a file that it means. -/
@[mk_iff]
structure IsTactful (service : Service) (t : FileTree) (report : Report) : Prop where
  /-- The stem of the target is a clean path. -/
  clean : IsCanonical (stem report.target)
  plain : ¬ InDottedDirectory report.target
  /-- The alias of the new project is no relative specifier. -/
  named : ∀ home ∈ (service.workspace.owner report.target).toOption,
    ∀ name ∈ service.workspace.alias? home.name, isRelative name = false
  /-- The files that refer to the moved file or to its project. -/
  others : ∀ home ∈ (service.workspace.owner report.source).toOption,
    ∀ file ∈ t.files.names, file ≠ report.source → ∀ o ∈ t.specifiers service.finder file,
      Yields service home report file o.value
  /-- The moved file itself. -/
  own : ∀ text ∈ t.text? report.source, ∀ o ∈ service.finder.occurrences report.target text,
    isRelative o.value = true → Turns report.source report.target o.value
  /-- The entry point that passes the file on. -/
  passing : report.exportAdded = true →
    ∀ home ∈ (service.workspace.owner report.target).toOption,
      ∀ entry ∈ home.primaryEntryPoint?, IsCanonical entry ∧ Takes report.target entry

instance (service : Service) (t : FileTree) (report : Report) :
    Decidable (IsTactful service t report) :=
  decidable_of_iff _ (isTactful_iff service t report).symm

/-! ## Changes that keep files from referring to themselves -/

/-- A specifier that does not lead to its own file. If it may be replaced, what replaces it does not
either. The old file does not count. -/
def Selfless (p : Plan) (path value : String) : Prop :=
  path ≠ p.source → resolvesTo path value path = false ∧
    (path ≠ p.target → resolvesTo path value p.source = true ∨ value ∈ p.sourceAlias? →
      Takes p.target path)

/-- A move in which no file refers to itself. -/
abbrev Minds (service : Service) (options : Options) (t : FileTree) (p : Plan) (v : Plain) : Prop :=
  v.Meets service.finder (p.history service options t) (fun _ => False) IsCanonical (Selfless p)

theorem selfless_specifierFor {path : String} (canonical : IsCanonical path)
    (clean : IsCanonical (stem p.target)) (takes : Takes p.target path) (model : Option String) :
    Selfless p path (specifierFor path p.target model) :=
  fun _ => ⟨takes.resolvesTo canonical clean model, fun _ _ => takes⟩

theorem withstands_minds (followed : p.IsFollowed service options t)
    (clean : IsCanonical (stem p.target))
    (plain : ∀ name ∈ p.targetAlias?, isRelative name = false) :
    Withstands service.finder service.settings p (Minds service options t p) where
  localized exported name named file elsewhere v h := by
    refine h.replaceWhere service.settings (Plan.localize_mem exported named elsewhere)
      (followed.only file) (fun _ _ _ => id) fun canonical value fine => ?_
    split
    next chosen =>
      intro differs
      have takes := (fine differs).2 elsewhere (.inr (of_decide_eq_true chosen ▸ named))
      exact selfless_specifierFor canonical clean takes none differs
    next => exact fine
  renamed exported name named new published file elsewhere v h := by
    by_cases same : name = new
    · rw [Job.run_replaceSpecifier, if_neg fun both => both.1 same]
      exact h
    · refine h.replaceSpecifier service.settings
        (Plan.rename_mem exported named published elsewhere) (followed.only file) fun _ _ => ?_
      have outside := Path.resolvesTo_of_not_relative (plain new published) file
      refine ⟨outside file, fun _ => ?_⟩
      rintro (leads | alike)
      · rw [outside] at leads
        cases leads
      · exact absurd (Option.some.inj (Eq.trans (Eq.symm named) alike)) same
  removed exported entry listed v h :=
    h.removeExportsWhere service.settings (Plan.remove_mem exported listed) (followed.only entry)
  replaced file differs elsewhere v h := by
    refine h.replaceWhere service.settings (Plan.reference_mem differs elsewhere)
      (followed.only file) (fun _ _ _ => id) fun canonical value fine => ?_
    split
    next chosen =>
      have takes := (fine differs).2 elsewhere (.inl chosen)
      unfold replacement
      split
      next name given =>
        have outside := Path.resolvesTo_of_not_relative (plain name (Plan.mem_targetAlias? given))
          file
        exact fun _ => ⟨outside file, fun _ _ => takes⟩
      next => exact selfless_specifierFor canonical clean takes (some value)
    next => exact fine

/-- What the moved file says at its new place does not lead to it. -/
theorem resolvesTo_turned {source target value : String} (canonical : IsCanonical target)
    (plain : ¬ InDottedDirectory target) (relative : isRelative value = true)
    (turns : Turns source target value) :
    resolvesTo target
      (match resolve? source value with
      | some path => specifierFor target path (some value)
      | none => value) target = false := by
  unfold Turns at turns
  cases found : resolve? source value with
  | none =>
    rw [found] at turns
    exact turns
  | some path =>
    rw [found] at turns
    obtain ⟨apart, clean⟩ := turns
    obtain ⟨names, spells⟩ : ∃ names, Spells (stem path) names := by
      cases ending : sourceExtension? path with
      | some ext => exact ⟨_, (clean (by simp [ending])).spells⟩
      | none =>
        rw [Path.stem_of_none ending]
        rw [resolve?, if_pos relative] at found
        exact Path.normalize?_spells found
    rw [← Bool.not_eq_true]
    intro own
    exact (Path.means_of_specifierFor canonical spells own).elim apart plain

/-- Once the moved file is repaired at its new place, no file refers to itself. -/
theorem minds_own (followed : p.IsFollowed service options t) (canonical : IsCanonical p.target)
    (plain : ¬ InDottedDirectory p.target)
    (h : v.Meets service.finder (p.history service options t) (fun _ => False) IsCanonical
      fun path value =>
        (path = p.target → isRelative value = true → Turns p.source p.target value) ∧
          (path ≠ p.target → Selfless p path value))
    (there : v.tree.text? p.target = some p.text) :
    Minds service options t p
      ((repairOwn p).run (Plain.perform service.finder service.settings) v).2 := by
  refine meets_repairOwn followed h there (fun other differs value fine => fine.2 differs)
    fun _ value fine => ?_
  intro _
  refine ⟨?_, fun elsewhere => absurd rfl elsewhere⟩
  split
  next relative => exact resolvesTo_turned canonical plain relative (fine.1 rfl relative)
  next other => exact Path.resolvesTo_of_not_relative (Bool.eq_false_iff.2 other) _ _

/-! ## The whole move -/

/-- When the file is at its new place, its own specifiers are the only ones that may lead to it. -/
theorem minds_start {i : Index} (planned : Planned service r options t report p i)
    (clean : t.IsClean) (selfless : t.IsSelfless service.finder)
    (tactful : IsTactful service t report) :
    (Plain.write ⟨t, []⟩ p.target p.text).Meets service.finder (p.history service options t)
      (fun _ => False) IsCanonical fun path value =>
        (path = p.target → isRelative value = true → Turns p.source p.target value) ∧
          (path ≠ p.target → Selfless p path value) := by
  obtain ⟨-, atSource, atTarget⟩ := planned.reports
  have before : Plain.Meets service.finder (p.history service options t) (fun _ => False)
      IsCanonical (Selfless p) ⟨t, []⟩ := by
    have named : ∀ path text, t.text? path = some text → path ∈ t.files.names :=
      fun path text found => FileTree.isFile_iff.1 (by simp [FileTree.isFile_eq_isSome, found])
    refine ⟨fun _ => False.elim, fun path text found => clean path (named path text found),
      fun path text found => .start (Plan.tree_mem found), fun path text found o member differs => ?_⟩
    have file := named path text found
    have inside : o ∈ t.specifiers service.finder path := by
      simpa [FileTree.specifiers, show t.text? path = some text from found] using member
    refine ⟨selfless path file o inside, fun _ chosen => ?_⟩
    have takes := tactful.others p.sourceProject
      (by rw [atSource, planned.sourceOwner]; rfl) path file (atSource ▸ differs) o inside
      (by rwa [atSource, ← planned.known])
    rwa [atTarget] at takes
  refine before.write planned.canonical (.start (Plan.own_mem List.mem_cons_self))
    (fun o member => ?_)
    fun other differs value fine => ⟨fun same => absurd same differs, fun _ => fine⟩
  refine ⟨fun _ relative => ?_, fun elsewhere => absurd rfl elsewhere⟩
  have turns := tactful.own p.text (by rw [atSource]; exact planned.text) o
    (by rwa [atTarget]) relative
  rwa [atSource, atTarget] at turns

/-- The entry point that passes the file on does not refer to itself either. -/
theorem minds_passed {o : Outcome} (followed : p.IsFollowed service options t)
    (clean : IsCanonical (stem p.target)) (h : Minds service options t p v)
    (passing : ((ensureExport p o options).run
      (Plain.perform service.finder service.settings) v).1 = true →
        ∀ entry ∈ p.targetProject.primaryEntryPoint?,
          IsCanonical entry ∧ Takes p.target entry) :
    Minds service options t p ((ensureExport p o options).run
      (Plain.perform service.finder service.settings) v).2 := by
  rw [run_ensureExport] at passing ⊢
  cases chosen : exportingEntry? p o options with
  | none => exact h
  | some entry =>
    rw [chosen] at passing
    dsimp only at passing ⊢
    have passes := Plan.PassesOnBy.of_chosen chosen
    by_cases added : ((Job.ensureWildcardExport entry (specifierFor entry p.target none)
        (resolvesTo entry · p.target)).run
          (Plain.perform service.finder service.settings) v).1 = true
    · obtain ⟨canonical, takes⟩ := passing added entry passes.first
      exact h.ensureWildcardExport service.settings (Plan.export_mem passes) (followed.only entry)
        ⟨Plan.entry_mem passes.first, followed.silent entry passes.first⟩ canonical
        (selfless_specifierFor canonical clean takes none)
    · rw [Job.run_ensureWildcardExport] at added ⊢
      dsimp only at added ⊢
      split at added
      next there => rwa [if_pos there]
      next => exact absurd rfl added

/-- A move never makes a file refer to itself, unless a specifier that it writes stands for a path
that means the file it is written into, or the parser finds in a text what the move did not leave
there. -/
theorem selfless_after_move (asks : Asks (service.graphSource service.workspace))
    (clean : t.IsClean) (selfless : t.IsSelfless service.finder)
    (accepted : (run service r options t).report = .ok report)
    (tactful : IsTactful service t report)
    (followed : ∀ p ∈ plan? service r t, p.IsFollowed service options t) :
    (run service r options t).tree.IsSelfless service.finder := by
  have ends : ∀ p i, Planned service r options t report p i →
      Ends (Index.perform service.finder) (Index.Mirrors service.finder fun _ => False)
        (settle service p) .empty (Plain.write ⟨t, []⟩ p.target p.text)
        fun _ v => Minds service options t p v := by
    intro p i planned
    have resolved := planned.resolved
    obtain ⟨-, atSource, atTarget⟩ := planned.reports
    have aliases : ∀ name ∈ p.targetAlias?, isRelative name = false := by
      intro name published
      rw [planned.published] at published
      exact tactful.named p.targetProject (by rw [atTarget, planned.targetOwner]; rfl) name published
    refine ends_settle_of_own
      (withstands_minds (followed p resolved) (atTarget ▸ tactful.clean) aliases) asks
      planned.passed (Index.mirrors_attends service.finder) _ ?_
    exact minds_own (followed p resolved) planned.canonical (atTarget ▸ tactful.plain)
      (minds_start planned clean selfless tactful) (by simp [Plain.write])
  obtain ⟨p, i, o, v, prepared, minds⟩ := exists_prepared accepted ends
  have resolved := prepared.resolved
  obtain ⟨-, -, atTarget⟩ := prepared.reports
  have told := prepared.told
  have left := prepared.left
  rw [run_passOn] at told left
  have passed := minds_passed (followed p resolved) (atTarget ▸ tactful.clean) minds
    fun added entry first => by
      have exported : report.exportAdded = true := by rw [told]; exact added
      have takes := tactful.passing exported p.targetProject
        (by rw [atTarget, prepared.targetOwner]; rfl) entry first
      rwa [atTarget] at takes
  generalize (ensureExport p o options).run (Plain.perform service.finder service.settings) v =
    outcome at left passed
  obtain ⟨_, w⟩ := outcome
  have formatted : ((formatTouched service options).run
      (Plain.perform service.finder service.settings) (w.delete p.source)).2.Meets service.finder
        (p.history service options t) (fun _ => False)
        (fun path => IsCanonical path ∧ path ≠ p.source) (Selfless p) := by
    apply formatTouched_keeps _ (passed.delete id)
    intro asked format given path _ text new shaped w found before
    exact before.formatted (Plan.format_mem asked given) ((followed p resolved).only path) found
      shaped
  have last := formatted.of_files left []
  generalize (run service r options t).tree = after at last ⊢
  intro path file o member
  exact (last.fine_of_mem member (last.known_of_mem file).2).1

/-- A file goes to another project that passes it on; its own specifier is turned, and so is one in
its old project, which names the new one. -/
theorem selfless_after_move_exported :
    let s : Service := .pair ["libs/a/index.ts"] ["libs/b/index.ts"] [("b", "@org/b")]
    let t := FileTree.ofList
      [("libs/a/index.ts", "export * from './x';\n"), ("libs/a/main.ts", "import './x';\n"),
        ("libs/a/x.ts", "import './y';\n"), ("libs/a/y.ts", "")]
    let after := (run s ⟨"libs/a/x.ts", .path "libs/b/x.ts"⟩ {} t).tree
    t.IsSelfless s.finder ∧ after.text? "libs/a/main.ts" = some "import '@org/b';\n" ∧
      after.text? "libs/b/x.ts" = some "import '../a/y';\n" ∧
      after.text? "libs/b/index.ts" = some "export * from './x';\n" ∧
      after.IsSelfless s.finder := by
  intro s t after
  have outcome : (run s ⟨"libs/a/x.ts", .path "libs/b/x.ts"⟩ {} t).report.toOption =
        some ⟨.exported, "libs/a/x.ts", "libs/b/x.ts",
          ["libs/a/index.ts", "libs/a/main.ts", "libs/b/index.ts"], true⟩ ∧
      after.text? "libs/a/main.ts" = some "import '@org/b';\n" ∧
      after.text? "libs/b/x.ts" = some "import '../a/y';\n" ∧
      after.text? "libs/b/index.ts" = some "export * from './x';\n" := by
    decide +kernel
  obtain ⟨reported, main, moved, entry⟩ := outcome
  have accepted := ok_of_toOption reported
  have selfless : t.IsSelfless s.finder := by decide +kernel
  have lines : s.WritesLines := ⟨rfl, by decide +kernel, rfl⟩
  have followed := followed_of_lines lines (forall_text (by decide +kernel)) accepted
    (by decide +kernel)
  exact ⟨selfless, main, moved, entry,
    selfless_after_move (Job.asks_graph (.inl ⟨_, rfl⟩) s.workspace) (by decide +kernel) selfless
      accepted (by decide +kernel) followed⟩

/-- A file may refer to itself after a move: if it goes to the place of the entry point that passes
it on; if it refers to the place that it goes to; or if it differs from the target in its extension
and refers to the moved file. So may an entry point from which the move removes an export that kept
a name apart from a regular expression: what the expression holds is a call from then on. -/
theorem self_reference_after_move :
    (let s : Service := .pair ["libs/a/index.ts"] ["libs/b/index.ts"] []
      let t := FileTree.ofList
        [("libs/a/index.ts", "export * from './x';\n"), ("libs/a/x.ts", "")]
      let moved := run s ⟨"libs/a/x.ts", .path "libs/b/index.ts"⟩ {} t
      t.IsSelfless .modules ∧ moved.report.isOk = true ∧
        moved.tree.text? "libs/b/index.ts" = some "export * from './index';\n" ∧
        ¬ moved.tree.IsSelfless .modules) ∧
    (let s : Service := .pair [] [] []
      let t := FileTree.ofList [("libs/a/x.ts", "import './z';\n")]
      let moved := run s ⟨"libs/a/x.ts", .path "libs/a/z.ts"⟩ {} t
      t.IsSelfless .modules ∧ moved.report.isOk = true ∧
        moved.tree.text? "libs/a/z.ts" = some "import './z';\n" ∧
        ¬ moved.tree.IsSelfless .modules) ∧
    (let s : Service := .pair [] [] []
      let t := FileTree.ofList [("libs/a/x.ts", ""), ("libs/a/z.js", "import './x';\n")]
      let moved := run s ⟨"libs/a/x.ts", .path "libs/a/z.ts"⟩ {} t
      t.IsSelfless .modules ∧ moved.report.isOk = true ∧
        moved.tree.text? "libs/a/z.js" = some "import './z';\n" ∧
        ¬ moved.tree.IsSelfless .modules) ∧
    (let s : Service := .pair ["libs/a/index.ts"] [] []
      let t := FileTree.ofList
        [("libs/a/index.ts", "a\nexport * from './x';\n/require('.\\/index')/g\n"),
          ("libs/a/x.ts", "")]
      let moved := run s ⟨"libs/a/x.ts", .path "libs/b/x.ts"⟩ {} t
      t.IsClean ∧ t.IsSelfless .modules ∧
        (∃ report ∈ moved.report.toOption, IsTactful s t report) ∧
        moved.tree.text? "libs/a/index.ts" = some "a\n/require('.\\/index')/g\n" ∧
        ¬ moved.tree.IsSelfless .modules) := by
  decide +kernel

end Move
end Rehome
