import Rehome.Proofs.Move.Listings
import Rehome.Proofs.Specifier.Survival

/-!
# References to other files

A move gives other values only to specifiers that mean the moved file and to those that are the
alias of its old project. A specifier means the moved file also if its path has another extension,
or is a directory whose entry file the moved file is. All other specifiers of all other files come
through, with their values and in their order, where the parser finds first what the move left.
-/
namespace Rehome.Move

open Specifier (Finder History IsListing Occurrence Revision Survive)
open Rehome.Path (resolve? resolvesTo stem join specifierFor)
open Job (Asks)
open Session

/-- A file is there with a text that it may come to have, and the safe specifiers of its first text
have come through. -/
def Spares (f : Finder) (history : History) (path before : String) (safe : String → Prop)
    (v : Plain) : Prop :=
  ∃ text, v.tree.text? path = some text ∧ history.Version f path text ∧
    Survive safe (f.values path before) (f.values path text)

namespace Spares

variable {f : Finder} {s : ScanSettings} {history : History} {path before file : String}
  {safe : String → Prop} {v : Plain}

theorem write_other (h : Spares f history path before safe v) (other : file ≠ path)
    (new : String) : Spares f history path before safe (v.write file new) := by
  obtain ⟨text, found, version, survive⟩ := h
  exact ⟨text, by simpa [Plain.write, other] using found, version, survive⟩

/-- A revision of the file lets the safe specifiers survive if it leaves them alone. -/
theorem write_revised (h : Spares f history path before safe v) {c : Revision}
    (listed : c ∈ history.revisions path) (first : history.Always f path (f.FindsFirst path))
    (only : ∀ o, c.keeps o = false ∨ c.turn o.value ≠ o.value → ¬ safe o.value)
    {text new : String} (found : v.tree.text? path = some text)
    (made : c.revise? (f.occurrences path text) text = some new) :
    Spares f history path before safe (v.write path new) := by
  obtain ⟨text', found', version, survive⟩ := h
  cases found.symm.trans found'
  have here := Survive.of_findsFirst (first text version c listed) (fun o _ => only o) made
  exact ⟨new, by simp [Plain.write], version.changed listed made, survive.trans here⟩

theorem editFile (h : Spares f history path before safe v)
    {edit : List Occurrence → List Char → Option (List Char)} {c : Revision}
    (makes : ∀ text found, c.revise? found text = (edit found text.toList).map String.ofList)
    (listed : file = path → c ∈ history.revisions path)
    (first : history.Always f path (f.FindsFirst path))
    (only : file = path → ∀ o, c.keeps o = false ∨ c.turn o.value ≠ o.value → ¬ safe o.value) :
    Spares f history path before safe ((Job.editFile file edit).run (Plain.perform f s) v).2 := by
  rw [Job.run_editFile]
  split
  next => exact h
  next updated edited =>
    obtain ⟨text, found, made⟩ := Option.bind_eq_some_iff.1 edited
    by_cases same : file = path
    · subst same
      exact h.write_revised (listed rfl) first (only rfl) found (by rw [makes, made]; rfl)
    · exact h.write_other same _

theorem replaceWhere (h : Spares f history path before safe v) {chosen : String → Bool}
    {change : String → String} (listed : file = path → .replace chosen change ∈ history.revisions path)
    (first : history.Always f path (f.FindsFirst path))
    (only : file = path → ∀ value, chosen value = true → ¬ safe value) :
    Spares f history path before safe
      ((Job.replaceWhere file chosen change).run (Plain.perform f s) v).2 := by
  refine h.editFile (fun _ _ => rfl) listed first fun same o => ?_
  rintro (gone | differs)
  · cases gone
  · cases picked : chosen o.value with
    | true => exact only same o.value picked
    | false => simp [Revision.turn, picked] at differs

theorem removeExportsWhere (h : Spares f history path before safe v) {chosen : String → Bool}
    (listed : file = path → .removeExports chosen ∈ history.revisions path)
    (first : history.Always f path (f.FindsFirst path))
    (only : file = path → ∀ value, chosen value = true → ¬ safe value) :
    Spares f history path before safe
      ((Job.removeExportsWhere file chosen).run (Plain.perform f s) v).2 := by
  refine h.editFile (fun _ _ => rfl) listed first fun same o => ?_
  rintro (gone | differs)
  · simp only [Revision.keeps, Bool.not_eq_false', Bool.and_eq_true] at gone
    exact only same o.value gone.2
  · exact absurd rfl differs

theorem replaceSpecifier (h : Spares f history path before safe v) {old new : String}
    (listed : file = path → .replace (· = old) (fun _ => new) ∈ history.revisions path)
    (first : history.Always f path (f.FindsFirst path)) (only : file = path → ¬ safe old) :
    Spares f history path before safe
      ((Job.replaceSpecifier file old new).run (Plain.perform f s) v).2 := by
  rw [Job.run_replaceSpecifier]
  split
  next =>
    refine h.replaceWhere listed first fun same value chosen => ?_
    rw [of_decide_eq_true chosen]
    exact only same
  next => exact h

theorem ensureWildcardExport (h : Spares f history path before safe v) {specifier : String}
    {same : String → Bool}
    (listed : file = path → .addExport specifier same ∈ history.revisions path)
    (first : history.Always f path (f.FindsFirst path)) :
    Spares f history path before safe
      ((Job.ensureWildcardExport file specifier same).run (Plain.perform f s) v).2 := by
  rw [Job.run_ensureWildcardExport]
  dsimp only
  split
  next => exact h
  next absent =>
    by_cases here : file = path
    · subst here
      obtain ⟨text, found, -⟩ := id h
      have read : v.tree.specifiers f file = f.occurrences file text := by
        simp [FileTree.specifiers, found]
      rw [read] at absent
      refine h.write_revised (listed rfl) first ?_ found ?_
      · rintro o (gone | differs)
        · cases gone
        · exact absurd rfl differs
      · rw [read, found, Option.getD_some]
        exact Revision.revise?_addExport.2 ⟨Bool.eq_false_iff.2 absent, rfl⟩
    · exact h.write_other here _

theorem formatted (h : Spares f history path before safe v) {shape : String → Option String}
    (listed : file = path → .format shape ∈ history.revisions path)
    (first : history.Always f path (f.FindsFirst path)) {text new : String}
    (found : v.tree.text? file = some text) (made : shape text = some new) :
    Spares f history path before safe (v.write file new) := by
  by_cases same : file = path
  · subst same
    refine h.write_revised (listed rfl) first ?_ found made
    rintro o (gone | differs)
    · cases gone
    · exact absurd rfl differs
  · exact h.write_other same new

theorem delete (h : Spares f history path before safe v) (other : file ≠ path) :
    Spares f history path before safe (v.delete file) := by
  obtain ⟨text, found, rest⟩ := h
  exact ⟨text, by simpa [Plain.delete, other] using found, rest⟩

end Spares

variable {service : Service} {r : Request} {options : Options} {t : FileTree} {report : Report}
  {p : Plan} {path before : String}

/-- A specifier of a file that a move lets alone: it does not mean the moved file, and it is not the
alias of the old project. -/
def Plan.Leaves (p : Plan) (path value : String) : Prop :=
  resolvesTo path value p.source = false ∧ value ∉ p.sourceAlias?

theorem withstands_spares (first : (p.history service options t).Always service.finder path
    (service.finder.FindsFirst path)) :
    Withstands service.finder service.settings p
      (Spares service.finder (p.history service options t) path before (p.Leaves path)) where
  localized exported name named file elsewhere v h := by
    refine h.replaceWhere (fun same => ?_) first fun _ value chosen leaves => ?_
    · exact same ▸ Plan.localize_mem exported named elsewhere
    · rw [of_decide_eq_true chosen] at leaves
      exact leaves.2 named
  renamed exported name named new published file elsewhere v h :=
    h.replaceSpecifier (fun same => same ▸ Plan.rename_mem exported named published elsewhere) first
      fun _ leaves => leaves.2 named
  removed exported entry listed v h := by
    refine h.removeExportsWhere (fun same => same ▸ Plan.remove_mem exported listed) first ?_
    rintro rfl value chosen leaves
    rw [leaves.1] at chosen
    cases chosen
  replaced file atSource atTarget v h := by
    refine h.replaceWhere (fun same => same ▸ Plan.reference_mem atSource atTarget) first ?_
    rintro rfl value chosen leaves
    rw [leaves.1] at chosen
    cases chosen

/-- A move that was accepted lets the specifiers of another file alone that it should. -/
theorem Planned.spares {i : Index} (h : Planned service r options t report p i)
    (first : (p.history service options t).Always service.finder path
      (service.finder.FindsFirst path))
    (asks : Asks (service.graphSource service.workspace)) (other : path ≠ p.source)
    (found : t.text? path = some before) :
    ∃ v, (run service r options t).tree.files = v.tree.files ∧
      Spares service.finder (p.history service options t) path before (p.Leaves path) v := by
  have elsewhere : p.target ≠ path := by
    rintro rfl
    rw [h.vacant] at found
    cases found
  have mirrors : i.Mirrors service.finder (fun _ => False) ⟨t, []⟩ :=
    h.surveyed (Index.mirrors_attends _) fun j sees _ => sees.mirrors
  obtain ⟨v, placed, same⟩ := does_place p (Index.mirrors_attends service.finder)
    (fun root new? related => mirrors_relist related root p.source new?) trivial i mirrors
  have start : Spares service.finder (p.history service options t) path before (p.Leaves path)
      v := by
    rw [same]
    refine Spares.write_other ?_ elsewhere p.text
    exact ⟨before, found, .start (Plan.tree_mem found), .of_front List.prefix_rfl⟩
  have ends : Ends (Index.perform service.finder) (Index.Mirrors service.finder fun _ => False)
      (complete service p options) .empty v fun _ v' =>
        Spares service.finder (p.history service options t) path before (p.Leaves path) v' := by
    refine ends_complete (withstands_spares first) asks h.passed ?_ ?_ ?_ ?_ .empty start
    · intro v kept
      exact kept.replaceWhere (absurd · elsewhere) first (absurd · elsewhere)
    · intro entry passes v kept
      exact kept.ensureWildcardExport (fun same => same ▸ Plan.export_mem passes) first
    · exact fun v kept => kept.delete (Ne.symm other)
    · intro asked format given file text new shaped v there kept
      exact kept.formatted (fun same => same ▸ Plan.format_mem asked given) first there shaped
  have done := h.done
  obtain ⟨w, final, spares⟩ := ends _ placed
  rw [h.tree]
  generalize play (Index.perform service.finder) (complete service p options) .empty
    ((place p).run (Index.perform service.finder) i).2 = outcome at done final spares
  exact ⟨w, final.agree.files_eq, spares report done⟩

/-- After a move every other file is there. A specifier of it has its value unless it meant the moved
file, up to extensions and entry files, or was the alias of the old project, as long as the parser
finds first, in every text of the file, what the move left there. -/
theorem references_elsewhere_survive (asks : Asks (service.graphSource service.workspace))
    (accepted : (run service r options t).report = .ok report)
    (other : path ≠ report.source) (found : t.text? path = some before)
    (first : ∀ p ∈ plan? service r t, (p.history service options t).Always service.finder path
      (service.finder.FindsFirst path)) :
    ∃ after, (run service r options t).tree.text? path = some after ∧
      Survive
        (fun value =>
          (∀ place, resolve? path value = some place → place ≠ report.source ∧
            stem place ≠ stem report.source ∧ join place "index" ≠ stem report.source) ∧
          ∀ home, service.workspace.owner report.source = .ok home →
            service.workspace.alias? home.name ≠ some value)
        (service.finder.values path before) (service.finder.values path after) := by
  obtain ⟨p, i, planned⟩ := exists_planned accepted
  obtain ⟨-, atSource, -⟩ := planned.reports
  rw [atSource] at other ⊢
  obtain ⟨v, files, after, now, -, survive⟩ :=
    planned.spares (first p planned.resolved) asks other found
  refine ⟨after, ?_, survive.mono ?_⟩
  · rw [FileTree.text?, files]
    exact now
  · intro value safe
    constructor
    · unfold resolvesTo
      cases led : resolve? path value with
      | none => rfl
      | some place =>
        obtain ⟨differs, stems, entry⟩ := safe.1 place led
        simp [differs, stems, entry]
    · intro named
      rw [planned.known] at named
      exact safe.2 p.sourceProject planned.sourceOwner named

/-- A file that others refer to goes to another project: the reference to it changes, the one to its
neighbour comes through. -/
theorem references_elsewhere_survive_exported :
    let s : Service := .pair ["libs/a/index.ts"] [] [("a", "@org/a"), ("b", "@org/b")]
    let r : Request := ⟨"libs/a/x.ts", .path "libs/b/z.ts"⟩
    let t := FileTree.ofList
      [("libs/a/index.ts", "export * from './x';\nexport * from './y.ts';\n"),
        ("libs/a/main.ts", "import './x';\nimport './y.ts';\nf();\n"), ("libs/a/x.ts", ""),
        ("libs/a/y.ts", "")]
    let after := (run s r {} t).tree
    after.text? "libs/a/main.ts" = some "import '@org/b';\nimport './y.ts';\nf();\n" ∧
      ∃ text, after.text? "libs/a/main.ts" = some text ∧
        Survive (· = "./y.ts") ["./x", "./y.ts"] (s.finder.values "libs/a/main.ts" text) := by
  intro s r t after
  have asks : Asks (s.graphSource s.workspace) := Job.asks_graph (.inl ⟨_, rfl⟩) s.workspace
  have outcome : (run s r {} t).report.toOption.map (·.source) = some "libs/a/x.ts" ∧
      after.text? "libs/a/main.ts" = some "import '@org/b';\nimport './y.ts';\nf();\n" := by
    decide +kernel
  have found : t.text? "libs/a/main.ts" = some "import './x';\nimport './y.ts';\nf();\n" := by
    decide +kernel
  have values : s.finder.values "libs/a/main.ts" "import './x';\nimport './y.ts';\nf();\n" =
      ["./x", "./y.ts"] := by decide +kernel
  have settles : ∀ p ∈ plan? s r t, (p.history s {} t).Settles s.finder "libs/a/main.ts" 1
      (s.finder.FindsFirst "libs/a/main.ts") := by decide +kernel
  obtain ⟨report, accepted, source⟩ := exists_of_part outcome.1
  have other : "libs/a/main.ts" ≠ report.source := by
    rw [source]
    decide
  obtain ⟨text, now, survive⟩ := references_elsewhere_survive asks accepted other found
    fun p planned => (settles p planned).always
  rw [source] at survive
  refine ⟨outcome.2, text, now, ?_⟩
  rw [← values]
  apply survive.mono
  intro value isNeighbour
  subst isNeighbour
  constructor
  · intro place led
    have here : resolve? "libs/a/main.ts" "./y.ts" = some "libs/a/y.ts" := by decide +kernel
    cases here.symm.trans led
    decide +kernel
  · intro home owned
    have owner : s.workspace.owner "libs/a/x.ts" =
        .ok ⟨"a", "libs/a", none, .library, ["libs/a/index.ts"]⟩ :=
      ok_of_toOption (by decide +kernel)
    cases owner.symm.trans owned
    decide +kernel

/-- Files that differ from the moved file in their extension, or are called like the alias of its
project, lose their references to it. And where a move removes an export between a name and a
regular expression, a literal may open in what was the expression: it covers a reference to another
file, and is replaced as a whole if it leads to the moved file. -/
theorem reference_captured :
    (let s : Service := .pair [] [] []
      let t := FileTree.ofList [("libs/a/main.ts", "import './x.js';\n"),
        ("libs/a/x.js", "export const x = 1;\n"), ("libs/a/x.ts", "export const x = 2;\n")]
      let moved := run s ⟨"libs/a/x.ts", .path "libs/a/z.ts"⟩ {} t
      resolve? "libs/a/main.ts" "./x.js" = some "libs/a/x.js" ∧ moved.report.isOk = true ∧
        moved.tree.text? "libs/a/main.ts" = some "import './z.js';\n") ∧
    (let a : Project := ⟨"a", "libs/a", none, .library, ["libs/a/index.ts"]⟩
      let c : Project := ⟨"c", "libs", none, .library, []⟩
      let s : Service := .over [a, c] [("a", "./y.ts")]
      let t := FileTree.ofList [("libs/a/index.ts", "export * from './x';\n"),
        ("libs/a/main.ts", "import './y.ts';\n"), ("libs/a/x.ts", ""), ("libs/a/y.ts", "")]
      let moved := run s ⟨"libs/a/x.ts", .path "libs/z.ts"⟩ {} t
      resolve? "libs/a/main.ts" "./y.ts" = some "libs/a/y.ts" ∧ moved.report.isOk = true ∧
        moved.tree.text? "libs/a/main.ts" = some "import '../z';\n") ∧
    (let s : Service := .pair ["libs/a/index.ts"] [] []
      let text := "a\nexport * from './x';\n/require('.\\/k/; require(\"./y\") // /../../../../x')\n"
      let t := FileTree.ofList
        [("libs/a/index.ts", text), ("libs/a/x.ts", ""), ("libs/a/y.ts", "")]
      let moved := run s ⟨"libs/a/x.ts", .path "libs/b/x.ts"⟩ {} t
      s.finder.values "libs/a/index.ts" text = ["./x", "./y"] ∧
        resolve? "libs/a/index.ts" "./y" = some "libs/a/y" ∧ moved.report.isOk = true ∧
          moved.tree.text? "libs/a/index.ts" = some "a\n/require('../b/x')\n") := by
  decide +kernel

end Rehome.Move
