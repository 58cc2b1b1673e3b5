import Rehome.Proofs.Move.Closure
import Rehome.Proofs.Move.Listings
import Rehome.Proofs.Path.Detours
import Rehome.Proofs.Specifier.Verbatim

/-!
# References by the alias of the old project

A file that an entry point passes on may be reached by the alias of its project. When it goes to
another project, the files of all other projects that name the alias are repaired: whether their
projects come from the graph or from a search, none is missed. No later stage of the move writes the
alias again, so after the move no file of another project names it.
-/
namespace Rehome.Move

open Specifier (Finder)
open Rehome.Path (IsCanonical isRelative isWithin resolvesTo specifierFor sourceExtensions)
open Job (Does)
open Session

/-! ## Files that still name the alias -/

/-- A file that another project than the old one lists, or that is new. Where a walk would not end
there is no list. -/
def IsAbroad (service : Service) (t : FileTree) (p : Plan) (path : String) : Prop :=
  t.isFile path = true → ∃ project ∈ service.workspace.projects,
    project.name ≠ p.sourceProject.name ∧ t.IsSolidBelow project.root ∧
      path ∈ t.reached service.settings project.root

/-- A file that one of some projects lists. -/
def IsListedIn (service : Service) (t : FileTree) (projects : List Project) (path : String) :
    Prop :=
  ∃ q ∈ projects, t.IsSolidBelow q.root ∧ path ∈ t.reached service.settings q.root

/-- A specifier of a file abroad, the moved file apart, is the alias only while the file is pending.
-/
def Drops (service : Service) (t : FileTree) (p : Plan) (name : String) (pending : String → Prop)
    (path value : String) : Prop :=
  path ≠ p.source → path ≠ p.target → IsAbroad service t p path → value = name → pending path

/-- The files that may be there while references are repaired. -/
def IsThere (t : FileTree) (p : Plan) (path : String) : Prop :=
  t.isFile path = true ∨ path = p.target

/-- A move after which only pending files name the alias. -/
abbrev Dropping (service : Service) (options : Options) (known : String → Prop) (t : FileTree)
    (p : Plan) (name : String) (pending : String → Prop) (v : Plain) : Prop :=
  v.Meets service.finder (p.history service options t) (Stays t p) known
    (Drops service t p name pending)

variable {service : Service} {options : Options} {t : FileTree} {p : Plan}
  {known pending : String → Prop}
  {name path value : String} {v : Plain}

theorem drops_of_ne (other : value ≠ name) : Drops service t p name pending path value :=
  fun _ _ _ same => absurd same other

theorem drops_target : Drops service t p name pending p.target value :=
  fun _ elsewhere => absurd rfl elsewhere

theorem Dropping.mono {pending' : String → Prop}
    (h : Dropping service options known t p name pending v)
    (weaker : ∀ path, path ≠ p.source → path ≠ p.target → pending path → pending' path) :
    Dropping service options known t p name pending' v :=
  Plain.Meets.mono h (fun _ => id) fun path _ _ _ drops atSource atTarget abroad same =>
    weaker path atSource atTarget (drops atSource atTarget abroad same)

theorem Dropping.solidBelow (h : Dropping service options (IsThere t p) t p name pending v)
    (canonical : IsCanonical p.target) {root : String} (solid : t.IsSolidBelow root) :
    v.tree.IsSolidBelow root := by
  intro path file
  rcases h.known_of_mem file with old | rfl
  · exact solid path (FileTree.isFile_iff.1 old)
  · exact FileTree.solid_of_canonical canonical

/-- For a parser whose values stand in their texts, no file that has the alias is overlooked. -/
theorem namesAlias_of_mem {f : Finder} (verbatim : f.IsVerbatim) {text : String}
    (found : v.tree.text? path = some text) {o : Specifier.Occurrence}
    (member : o ∈ f.occurrences path text) (same : o.value = name) :
    namesAlias f name v path = true := by
  have any : (f.occurrences path text).any ((Specifier.Query.exact name).matches ·.value) = true :=
    List.any_eq_true.2 ⟨o, member, by simp [Specifier.Query.matches, same]⟩
  simp only [namesAlias, found, Search.refers, Bool.and_eq_true]
  exact ⟨Specifier.mayContain_of_matches verbatim any, any⟩

theorem mayContain_of_namesAlias {f : Finder} (named : namesAlias f name v path = true) :
    (v.tree.text? path).any (fun text => Specifier.mayContain text.toList name) = true := by
  unfold namesAlias at named
  split at named
  · cases named
  next text found =>
    rw [Search.refers, Bool.and_eq_true] at named
    rw [found]
    exact named.1

/-- A file that does not name the alias is not pending. -/
theorem Dropping.silent (verbatim : service.finder.IsVerbatim) {file : String}
    (h : Dropping service options known t p name pending v)
    (unnamed : namesAlias service.finder name v file = false) :
    Dropping service options known t p name (fun path => pending path ∧ path ≠ file) v := by
  refine ⟨h.present, h.known, h.texts, fun path text found o member => ?_⟩
  by_cases here : path = file
  · subst here
    apply drops_of_ne
    intro same
    rw [namesAlias_of_mem verbatim found member same] at unnamed
    cases unnamed
  · intro atSource atTarget abroad same
    exact ⟨h.values path text found o member atSource atTarget abroad same, here⟩

theorem specifierFor_none_ne (plain : isRelative name = false) (file : String) :
    specifierFor file p.target none ≠ name := by
  rintro rfl
  rw [Path.specifierFor_none, Path.isRelative_relative] at plain
  cases plain

/-- What a reference to the moved file becomes is not the alias of the old project. -/
theorem replacement_ne (plain : isRelative name = false) (apart : name ∉ p.targetAlias?)
    (spelled : p.targetAlias? = none →
      ∀ ext ∈ sourceExtensions, name ≠ ".." ++ ext ∧ name ≠ "..." ++ ext) (file value : String) :
    replacement p p.targetAlias? file value ≠ name := by
  cases published : p.targetAlias? with
  | none =>
    rw [replacement]
    exact Path.specifierFor_ne plain (spelled published) file p.target (some value)
  | some new =>
    rintro rfl
    exact apart published

section

variable (followed : p.IsFollowed service options t)
include followed

theorem Dropping.renamed (h : Dropping service options known t p name pending v) {file new : String}
    (listed : .replace (· = name) (fun _ => new) ∈ p.revisions service options file)
    (other : new ≠ name) :
    Dropping service options known t p name (fun path => pending path ∧ path ≠ file)
      ((Job.replaceWhere file (· = name) fun _ => new).run
        (Plain.perform service.finder service.settings) v).2 := by
  apply Plain.Meets.replaceWhere service.settings h listed (followed.only file)
  · intro path differs value drops atSource atTarget abroad same
    exact ⟨drops atSource atTarget abroad same, differs⟩
  · intro _ value _
    split
    next => exact drops_of_ne other
    next kept => exact drops_of_ne (by simpa using kept)

/-- Values other than the alias leave the pending files as they are. -/
theorem Dropping.replaced (h : Dropping service options known t p name pending v) {file : String}
    {chosen : String → Bool} {change : String → String}
    (listed : .replace chosen change ∈ p.revisions service options file)
    (other : ∀ value, change value ≠ name) :
    Dropping service options known t p name pending
      ((Job.replaceWhere file chosen change).run
        (Plain.perform service.finder service.settings) v).2 := by
  apply Plain.Meets.replaceWhere service.settings h listed (followed.only file) fun _ _ _ => id
  intro _ value drops
  split
  · exact drops_of_ne (other value)
  · exact drops

theorem Dropping.repairOwn (h : Dropping service options known t p name pending v)
    (there : v.tree.text? p.target = some p.text) :
    Dropping service options known t p name pending
      ((repairOwn p).run (Plain.perform service.finder service.settings) v).2 :=
  meets_repairOwn followed h there (fun _ _ _ => id) fun _ _ _ => drops_target

/-- Repairing a file takes it off the pending ones. -/
theorem Dropping.repairDependent (verbatim : service.finder.IsVerbatim)
    (plain : isRelative name = false) (apart : name ∉ p.targetAlias?)
    (exported : p.strategy = .exported) (own : name ∈ p.sourceAlias?)
    (h : Dropping service options known t p name pending v) (project : Project) (file : String) :
    Dropping service options known t p name (fun path => pending path ∧ path ≠ file)
      ((repairDependent p name project file).run
        (Plain.perform service.finder service.settings) v).2 := by
  unfold Move.repairDependent
  split
  next atTarget =>
    subst atTarget
    exact h.mono fun path _ elsewhere old => ⟨old, elsewhere⟩
  next elsewhere =>
    rw [Job.run_bind, run_hasSpecifier]
    cases named : namesAlias service.finder name v file with
    | false => exact h.silent verbatim named
    | true =>
      simp only [if_true]
      have localized : Dropping service options known t p name
          (fun path => pending path ∧ path ≠ file)
          ((localize p name file).run (Plain.perform service.finder service.settings) v).2 :=
        h.renamed followed (Plan.localize_mem exported own elsewhere)
          (specifierFor_none_ne plain file)
      split
      next new published =>
        split
        · have other : new ≠ name := fun same => apart (same ▸ published)
          rw [Job.run_replaceSpecifier, if_pos ⟨other.symm, mayContain_of_namesAlias named⟩]
          exact h.renamed followed (Plan.rename_mem exported own published elsewhere) other
        · exact localized
      next => exact localized

/-! ## Stages -/

variable (verbatim : service.finder.IsVerbatim) (plain : isRelative name = false)
  (apart : name ∉ p.targetAlias?) (free : t.holds p.target = false)
  (canonical : IsCanonical p.target) (exported : p.strategy = .exported)
  (own : p.sourceAlias? = some name)
include verbatim plain apart free canonical exported own

/-- After the projects were repaired, none of the files they list is pending. -/
theorem does_repairProjects_dropping (projects : List Project)
    (h : Dropping service options (IsThere t p) t p name (IsListedIn service t projects) v) :
    Does (Index.perform service.finder) (Stands service p) (repairProjects p name projects) v
      fun _ v' => Dropping service options (IsThere t p) t p name (fun _ => False) v' := by
  induction projects generalizing v with
  | nil =>
    apply Job.does_pure
    apply h.mono
    rintro path - - ⟨q, none, -⟩
    cases none
  | cons project rest ih =>
    apply (Index.does_sourceFiles project.root).bind
    rintro files v ⟨rfl, listed⟩
    -- What remains are the files of this list and those of the projects that follow.
    have start : Dropping service options (IsThere t p) t p name
        (fun path => path ∈ files ∨ IsListedIn service t rest path) v := by
      apply h.mono
      rintro path atSource - ⟨q, member, solid, reached⟩
      rcases List.mem_cons.1 member with rfl | later
      · have now := mem_reached_of_meets h (fun _ => id) free reached atSource
        exact .inl ((listed (h.solidBelow canonical solid)).2 path now atSource)
      · exact .inr ⟨q, later, solid, reached⟩
    have here : Does (Index.perform service.finder) (Stands service p)
        (changed (repairDependent p name project) files) v fun _ v' =>
          Dropping service options (IsThere t p) t p name
            (fun path => path ∈ [] ∨ IsListedIn service t rest path) v' := by
      refine does_changed_all (fun left v => Dropping service options (IsThere t p) t p name
        (fun path => path ∈ left ∨ IsListedIn service t rest path) v) ?_ start
      intro file left v _ before
      apply Index.covers_attends.edits service.settings (edits_repairDependent ..)
      apply (before.repairDependent followed verbatim plain apart exported own project file).mono
      rintro path - - ⟨member | later, differs⟩
      · exact .inl ((List.mem_cons.1 member).resolve_left differs)
      · exact .inr later
    refine here.bind fun _ v' after => (ih ?_).bind fun _ _ done => Job.does_pure done
    apply after.mono
    rintro path - - (none | later)
    · cases none
    · exact later

/-- Whichever way the projects are looked for, none that names the alias is missed. -/
theorem plays_propagate_dropping (isOpen : service.graphSource.IsOpen p.sourceProject.name)
    (published : service.workspace.alias? p.sourceProject.name = some name)
    (h : Dropping service options (IsThere t p) t p name (fun _ => True) v) :
    Plays (Index.perform service.finder) (Stands service p) (propagate service p) .empty v
      fun _ v' => Dropping service options (IsThere t p) t p name (fun _ => False) v' := by
  unfold propagate
  rw [own]
  apply (plays_dependentProjects isOpen (Index.covers_presents v) published).bind
  rintro projects c v ⟨rfl, selects⟩
  have start : Dropping service options (IsThere t p) t p name (IsListedIn service t projects) v := by
    refine ⟨h.present, h.known, h.texts, fun path text found o member => ?_⟩
    intro atSource atTarget abroad same
    obtain ⟨project, registered, other, solid, reached⟩ :=
      abroad ((h.known path text found).resolve_right atTarget)
    have now := mem_reached_of_meets h (fun _ => id) free reached atSource
    have named := namesAlias_of_mem verbatim found member same
    exact ⟨project, selects.complete project registered other
      ⟨path, ⟨h.solidBelow canonical solid, now, atSource⟩, named⟩, solid, reached⟩
  apply plays_onFiles
  apply (Index.covers_attends.asks (Job.asks_listFiles projects) v).bind
  intro _ v' same
  subst same
  exact does_repairProjects_dropping followed verbatim plain apart free canonical exported own projects
    start

/-- After the repairs no file abroad names the alias. -/
theorem plays_repair_dropping (isOpen : service.graphSource.IsOpen p.sourceProject.name)
    (published : service.workspace.alias? p.sourceProject.name = some name)
    (spelled : p.targetAlias? = none →
      ∀ ext ∈ sourceExtensions, name ≠ ".." ++ ext ∧ name ≠ "..." ++ ext)
    (h : Dropping service options (IsThere t p) t p name (fun _ => True) v) :
    Plays (Index.perform service.finder) (Stands service p) (repair service p) .empty v
      fun _ v' => Dropping service options (IsThere t p) t p name (fun _ => False) v' := by
  have alias? : p.repairAlias? = p.targetAlias? := by rw [Plan.repairAlias?, exported]
  unfold repair
  rw [exported]
  apply (plays_propagate_dropping followed verbatim plain apart free canonical exported own isOpen
    published h).bind
  intro _ c v dropped
  have removed : Does (Index.perform service.finder) (Stands service p) (removeFromEntryPoints p) v
      fun _ v' => Dropping service options (IsThere t p) t p name (fun _ => False) v' := by
    apply does_removeFromEntryPoints_keeping service.settings Index.covers_attends _ dropped
    intro entry listed v before
    exact before.removeExportsWhere service.settings (Plan.remove_mem exported listed)
      (followed.only entry)
  apply (plays_onFiles removed).bind
  intro _ c v left
  have replaced : Does (Index.perform service.finder) (Stands service p)
      (repairProject p p.targetAlias?) v
      fun _ v' => Dropping service options (IsThere t p) t p name (fun _ => False) v' := by
    apply does_repairProject_keeping service.settings Index.covers_attends _ left
    intro file atSource atTarget v before
    rw [← alias?]
    refine before.replaced followed (Plan.reference_mem atSource atTarget) ?_
    rw [alias?]
    exact replacement_ne plain apart spelled file
  apply (plays_onFiles replaced).bind
  intro _ c v done
  exact plays_pure done

end

/-! ## Whole moves -/

variable {r : Request} {report : Report} {home away : Project}

/-- When the file is at its new place, every file may still name the alias. -/
theorem dropping_start :
    Dropping service options (IsThere t p) t p name (fun _ => True)
      (Plain.write ⟨t, []⟩ p.target p.text) := by
  have before : Plain.Meets service.finder (p.history service options t)
      (fun file => t.isFile file = true ∧ file ≠ p.source) (IsThere t p)
      (Drops service t p name fun _ => True) ⟨t, []⟩ := by
    refine ⟨fun file there => there.1, fun path text found => .inl ?_,
      fun path text found => .start (Plan.tree_mem found), fun _ _ _ _ _ _ _ _ _ => trivial⟩
    simp [FileTree.isFile_eq_isSome, show t.text? path = some text from found]
  exact meets_placed before (.inr rfl) (.start (Plan.own_mem List.mem_cons_self))
    (fun _ _ => drops_target) fun _ _ _ => id

/-- A move to another project leaves no file abroad that names the alias. -/
theorem Planned.drops {i : Index} (h : Planned service r options t report p i)
    (followed : p.IsFollowed service options t) (verbatim : service.finder.IsVerbatim)
    (exported : p.strategy = .exported) (own : p.sourceAlias? = some name)
    (plain : isRelative name = false) (apart : name ∉ p.targetAlias?)
    (spelled : p.targetAlias? = none →
      ∀ ext ∈ sourceExtensions, name ≠ ".." ++ ext ∧ name ≠ "..." ++ ext)
    (isOpen : service.graphSource.IsOpen p.sourceProject.name) :
    Dropping service options (· ≠ p.source) t p name (fun _ => False)
      ⟨(run service r options t).tree, []⟩ := by
  have free := h.accepts.free
  have published : service.workspace.alias? p.sourceProject.name = some name := h.known ▸ own
  have stands : Stands service p i ⟨t, []⟩ :=
    h.surveyed Index.covers_attends fun j sees _ => sees.covers p.source
  obtain ⟨v, placed, same⟩ := does_place p Index.covers_attends
    (fun root new? covers => covers.relist root new?) trivial i stands
  subst same
  have localized : ∀ v, Dropping service options (IsThere t p) t p name (fun _ => False) v →
      Does (Index.perform service.finder) (Stands service p) (localizeTarget p) v fun _ v' =>
        Dropping service options (IsThere t p) t p name (fun _ => False) v' := by
    intro v before
    apply does_localizeTarget_keeping service.settings Index.covers_attends _ before
    intro other named file elsewhere v before
    exact before.replaced followed (Plan.localize_mem exported named elsewhere) fun _ =>
      specifierFor_none_ne plain file
  have passed : ∀ o v, Dropping service options (IsThere t p) t p name (fun _ => False) v →
      Does (Index.perform service.finder) (Index.Mirrors service.finder fun _ => False)
        (ensureExport p o options) v fun _ v' =>
          Dropping service options (fun _ => True) t p name (fun _ => False) v' := by
    intro o v before
    have there : Dropping service options (fun _ => True) t p name (fun _ => False) v :=
      Plain.Meets.mono before (fun _ _ => trivial) fun _ _ _ _ => id
    apply does_ensureExport_keeping service.settings (Index.mirrors_attends _) options _ o there
    intro entry passes v before
    exact before.ensureWildcardExport service.settings (Plan.export_mem passes) (followed.only entry)
      ⟨Plan.entry_mem passes.first, followed.silent entry passes.first⟩ trivial
      (drops_of_ne (specifierFor_none_ne plain entry))
  have start : Dropping service options (IsThere t p) t p name (fun _ => True)
      (Plain.write ⟨t, []⟩ p.target p.text) := dropping_start
  have repaired := Dropping.repairOwn followed start (by simp [Plain.write])
  obtain ⟨v, mirrors, dropped⟩ := play_stages _
    (plays_repair_dropping followed verbatim plain apart free h.canonical exported own isOpen
      published spelled repaired)
    (fun _ => localized) passed
    (fun exportAdded v before => does_closing followed h.accepts.elsewhere exportAdded before)
    placed
  have left : Dropping service options (· ≠ p.source) t p name (fun _ => False) v :=
    Plain.Meets.mono dropped (fun _ known => known.2) fun _ _ _ _ => id
  rw [h.tree]
  generalize (play (Index.perform service.finder) (complete service p options) .empty
    ((place p).run (Index.perform service.finder) i).2).2 = j at mirrors
  exact left.of_files mirrors.agree.files_eq []

/-- After a file that an entry point passes on went to another project, no file that a project other
than the old one lists has the old project's alias among its specifiers, the moved file and files
below its old place apart. -/
theorem no_alias_reference_missed (verbatim : service.finder.IsVerbatim)
    (followed : ∀ p ∈ plan? service r t, p.IsFollowed service options t)
    (accepted : (run service r options t).report = .ok report)
    (leaves : service.workspace.owner report.source = .ok home)
    (arrives : service.workspace.owner report.target = .ok away) (across : home.name ≠ away.name)
    (exported : IsPassedOn service.finder t home.entryPoints report.source)
    (published : service.workspace.alias? home.name = some name)
    (plain : isRelative name = false) (apart : service.workspace.alias? away.name ≠ some name)
    (spelled : service.workspace.alias? away.name = none →
      ∀ ext ∈ sourceExtensions, name ≠ ".." ++ ext ∧ name ≠ "..." ++ ext)
    (isOpen : service.graphSource.IsOpen home.name) {project : Project}
    (registered : project ∈ service.workspace.projects) (other : project.name ≠ home.name)
    (ends : (run service r options t).tree.IsSolidBelow project.root)
    (listed : path ∈ listedFor service (run service r options t).tree project)
    (elsewhere : path ≠ report.target) (outside : isWithin path report.source = false) :
    ∀ o ∈ (run service r options t).tree.specifiers service.finder path, o.value ≠ name := by
  obtain ⟨p, i, planned⟩ := exists_planned accepted
  obtain ⟨-, atSource, atTarget⟩ := planned.reports
  rw [atSource] at leaves exported outside
  rw [atTarget] at arrives elsewhere
  cases planned.sourceOwner.symm.trans leaves
  cases planned.targetOwner.symm.trans arrives
  rw [← planned.known] at published
  rw [← planned.published] at apart spelled
  have strategy : p.strategy = .exported := by
    have isOutside : p.isInside = false := decide_eq_false across
    rw [Plan.strategy, isOutside, planned.exports.2 exported]
    rfl
  have dropped := planned.drops (followed p planned.resolved) verbatim strategy published plain apart
    spelled isOpen
  generalize (run service r options t).tree = u at dropped ends listed ⊢
  have present : ∀ file, Stays t p file → file ∈ u.files.names := fun file stays =>
    FileTree.isFile_iff.1 (dropped.present file stays)
  have solid : t.IsSolidBelow project.root := by
    intro file old
    by_cases gone : file = p.source
    · rw [gone]
      exact FileTree.solid_of_canonical planned.sourceCanonical
    · exact ends file (present file (.inl ⟨FileTree.isFile_iff.2 old, gone⟩))
  have reached := (mem_listedFor ends).1 listed
  have differs := dropped.known_of_mem (FileTree.mem_reached.1 reached).1
  have abroad : IsAbroad service t p path := fun file =>
    ⟨project, registered, other, solid, mem_reached_before solid present reached outside file⟩
  exact fun o member same => dropped.fine_of_mem member differs elsewhere abroad same

/-- A file goes to a project that named the alias, and a third project names it as well. -/
theorem no_alias_reference_missed_third :
    let a : Project := ⟨"a", "libs/a", none, .library, ["libs/a/index.ts"]⟩
    let b : Project := ⟨"b", "libs/b", none, .library, []⟩
    let c : Project := ⟨"c", "libs/c", none, .library, []⟩
    let s : Service := {
      Service.over [a, b, c] [("a", "@org/a"), ("b", "@org/b")] with graphSource := .imports }
    let t := FileTree.ofList
      [("libs/a/index.ts", "export * from './x';\n"), ("libs/a/x.ts", ""),
        ("libs/b/main.ts", "import '@org/a';\n"), ("libs/c/main.ts", "import '@org/a';\n")]
    let after := (run s ⟨"libs/a/x.ts", .path "libs/b/z.ts"⟩ {} t).tree
    after.text? "libs/b/main.ts" = some "import './z';\n" ∧
      after.text? "libs/c/main.ts" = some "import '@org/b';\n" ∧
      ∀ project ∈ s.workspace.projects, project.name ≠ "a" → ∀ path ∈ listedFor s after project,
        path ≠ "libs/b/z.ts" → isWithin path "libs/a/x.ts" = false →
          ∀ o ∈ after.specifiers s.finder path, o.value ≠ "@org/a" := by
  intro a b c s t after
  have lines : s.WritesLines := ⟨rfl, by decide +kernel, rfl⟩
  have outcome : (run s ⟨"libs/a/x.ts", .path "libs/b/z.ts"⟩ {} t).report.toOption.map
        (fun report => (report.source, report.target)) = some ("libs/a/x.ts", "libs/b/z.ts") ∧
      (∀ project ∈ s.workspace.projects, after.IsSolidBelow project.root) ∧
      after.text? "libs/b/main.ts" = some "import './z';\n" ∧
      after.text? "libs/c/main.ts" = some "import '@org/b';\n" := by
    decide +kernel
  obtain ⟨told, ends, inTarget, inThird⟩ := outcome
  obtain ⟨report, accepted, places⟩ := exists_of_part told
  have followed := followed_of_lines lines (forall_text (by decide +kernel)) accepted
    (by decide +kernel)
  have source : report.source = "libs/a/x.ts" := congrArg Prod.fst places
  have target : report.target = "libs/b/z.ts" := congrArg Prod.snd places
  have leaves : s.workspace.owner report.source = .ok a := by
    rw [source]
    exact ok_of_toOption (by decide +kernel)
  have arrives : s.workspace.owner report.target = .ok b := by
    rw [target]
    exact ok_of_toOption (by decide +kernel)
  have exported : IsPassedOn s.finder t a.entryPoints report.source := by
    rw [source]
    decide +kernel
  refine ⟨inTarget, inThird, ?_⟩
  intro project registered other path listed elsewhere outside
  rw [← target] at elsewhere
  rw [← source] at outside
  exact no_alias_reference_missed Specifier.Finder.modules_isVerbatim followed accepted leaves
    arrives (by decide) exported (by decide +kernel) (by decide +kernel) (by decide +kernel)
    (fun none => nomatch none) (.inl rfl) registered other (ends project registered) listed
    elsewhere outside

/-- A file below the moved one is first listed when that is gone, an ending after a dot may spell
the alias, and a formatter may let the alias be read. -/
theorem alias_reference_missed :
    (let a : Project := ⟨"a", "libs/a", none, .library, ["libs/a/index.ts"]⟩
      let c : Project := ⟨"c", "libs", none, .library, []⟩
      let s : Service := {
        Service.over [a, c] [("a", "@org/a")] with graphSource := .imports }
      let t := FileTree.ofList [("libs/a/index.ts", "export * from './x';\n"), ("libs/a/x.ts", ""),
        ("libs/a/x.ts/y.ts", "import '@org/a';\n")]
      let moved := run s ⟨"libs/a/x.ts", .path "libs/c/x.ts"⟩ {} t
      moved.report.toOption.map (·.strategy) = some .exported ∧
        "libs/a/x.ts/y.ts" ∈ listedFor s moved.tree c ∧
        s.finder.values "libs/a/x.ts/y.ts" ((moved.tree.text? "libs/a/x.ts/y.ts").getD "") =
          ["@org/a"]) ∧
    (let a : Project := ⟨"a", "libs", none, .library, ["libs/index.ts"]⟩
      let b : Project := ⟨"b", "libs/b", none, .library, []⟩
      let s : Service := {
        Service.over [a, b] [("a", "..js")] with graphSource := .imports }
      let t := FileTree.ofList [("libs/index.ts", "export * from './x';\n"), ("libs/x.ts", ""),
        ("libs/b/z/y.ts", "import '../../x.js';\n")]
      let moved := run s ⟨"libs/x.ts", .path "libs/b/z.ts"⟩ {} t
      isRelative "..js" = false ∧ moved.report.toOption.map (·.strategy) = some .exported ∧
        "libs/b/z/y.ts" ∈ listedFor s moved.tree b ∧
        s.finder.values "libs/b/z/y.ts" ((moved.tree.text? "libs/b/z/y.ts").getD "") =
          ["..js"]) ∧
    (let b : Project := ⟨"b", "libs/b", none, .library, ["libs/b/index.ts"]⟩
      let dropBlank : String → String → Option String := fun _ text =>
        some (String.ofList (((text.toList.splitOn '\n').filter (!·.isEmpty)).flatMap (· ++ ['\n'])))
      let s : Service := {
        Service.pair ["libs/a/index.ts"] ["libs/b/index.ts"] [("a", "@org/a")] with
        graphSource := .imports, formatter? := some dropBlank }
      let t := FileTree.ofList [("libs/a/index.ts", "export * from './x';\n"), ("libs/a/x.ts", ""),
        ("libs/b/index.ts", "import '@org\\\n\n/a';\n")]
      let moved := run s ⟨"libs/a/x.ts", .path "libs/b/x.ts"⟩ ⟨false, true⟩ t
      moved.report.toOption.map (·.strategy) = some .exported ∧
        "libs/b/index.ts" ∈ listedFor s moved.tree b ∧
        s.finder.values "libs/b/index.ts" ((moved.tree.text? "libs/b/index.ts").getD "") =
          ["@org/a", "./x"]) := by
  decide +kernel

end Rehome.Move
