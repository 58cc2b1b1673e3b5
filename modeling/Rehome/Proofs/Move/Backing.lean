import Rehome.Proofs.Move.Export
import Rehome.Proofs.Move.Inside
import Rehome.Proofs.Path.Detours

/-!
# Aliases lead to exports

A move may put the alias of the new project in the place of references to the file. Whoever follows
such a reference comes to the entry point of the new project, so the entry point has to pass the
file on. Where it does not, no file names the alias more often than before.
-/
namespace Rehome

/-! ## Parsers -/

namespace Specifier

/-- A parser that finds the same specifiers in two texts, up to their places and quotes, or can read
neither. -/
def Finder.ReadsAlike (f : Finder) (path old new : String) : Prop :=
  (f.read? path new).map (·.map fun o => (o.kind, o.value)) =
    (f.read? path old).map (·.map fun o => (o.kind, o.value))

variable {f : Finder} {path old new : String}

theorem Finder.ReadsAlike.readable (alike : f.ReadsAlike path old new) :
    (f.read? path new).isSome = (f.read? path old).isSome := by
  simpa using congrArg Option.isSome alike

theorem Finder.ReadsAlike.occurrences (alike : f.ReadsAlike path old new) :
    (f.occurrences path new).map (fun o => (o.kind, o.value)) =
      (f.occurrences path old).map fun o => (o.kind, o.value) := by
  unfold Finder.occurrences
  unfold ReadsAlike at alike
  split
  · cases now : f.read? path new <;> cases before : f.read? path old <;> simp_all
  · rfl

theorem Finder.ReadsAlike.values (alike : f.ReadsAlike path old new) :
    f.values path new = f.values path old := by
  have same := congrArg (List.map Prod.snd) alike.occurrences
  rwa [List.map_map, List.map_map] at same

/-- An edit that gives nothing else the value `name` does not make it more frequent. -/
theorem Finder.FindsExactly.count_replaced_le {text name : String} {chosen : String → Bool}
    {change : String → String} {updated : List Char}
    (exact : f.FindsExactly path text (.replace chosen change))
    (avoids : ∀ value, change value = name → value = name)
    (edited : replace? (f.occurrences path text) text.toList chosen change = some updated) :
    (f.values path (String.ofList updated)).count name ≤ (f.values path text).count name := by
  have made : (Revision.replace chosen change).revise? (f.occurrences path text) text =
      some (String.ofList updated) := by rw [Revision.revise?, edited, Option.map_some]
  have nothing : (Revision.replace chosen change).added = [] := rfl
  rw [exact _ made, nothing, List.append_nil, Revision.left_of_keeps fun _ => rfl, List.count,
    List.countP_map]
  apply List.countP_mono_left
  intro value _ same
  simp only [Function.comp_apply, Revision.turn, beq_iff_eq] at same ⊢
  split at same
  · exact avoids value same
  · exact same

end Specifier

namespace Move

open Specifier (Finder History)
open Rehome.Path (resolvesTo specifierFor isRelative sourceExtensions IsCanonical IsModule)
open Job (Does Asks)
open Session

variable {service : Service} {r : Request} {options : Options} {t : FileTree} {report : Report}
  {p : Plan} {o : Outcome} {v : Plain} {i : Index} {f : Finder} {s : ScanSettings}
  {name path : String}

/-! ## Files that name the alias no more often -/

/-- The text of a file before a move; the moved file had its text at its old place. -/
def textBefore? (t : FileTree) (source target path : String) : Option String :=
  if path = target then t.text? source else t.text? path

/-- What happens to the files where paths take the place of all references to the moved file. -/
def Plan.referenceHistory (t : FileTree) (p : Plan) : History where
  starts path := (t.text? path).toList
  revisions path := [.replace (resolvesTo path · p.source) (replacement p none path)]

/-- The parser finds in a file exactly what is left there where paths take the place of all
references. -/
structure Plan.IsReadExactly (f : Finder) (t : FileTree) (p : Plan) (path : String) : Prop where
  own : path = p.target → f.FindsExactly path p.text p.ownRevision
  references : path ≠ p.target → (p.referenceHistory t).Always f path (f.FindsExactly path)

/-- A file names the alias no more often than before the move. -/
def NamesNoMore (f : Finder) (name : String) (t : FileTree) (p : Plan) (path : String)
    (v : Plain) : Prop :=
  ∀ old new, textBefore? t p.source p.target path = some old → v.tree.text? path = some new →
    (f.values path new).count name ≤ (f.values path old).count name

/-- Unless it is the moved file, a file has a text that replacing references leads to. -/
def HasVersion (f : Finder) (t : FileTree) (p : Plan) (path : String) (v : Plain) : Prop :=
  path ≠ p.target → ∀ text, v.tree.text? path = some text →
    (p.referenceHistory t).Version f path text

namespace NamesNoMore

theorem start (found : t.text? p.source = some p.text) :
    NamesNoMore f name t p path (Plain.write ⟨t, []⟩ p.target p.text) := by
  intro old new before now
  rw [textBefore?] at before
  rw [Plain.write, FileTree.text?_write] at now
  by_cases same : path = p.target
  · rw [if_pos same, found] at before
    rw [if_pos same.symm] at now
    cases before
    cases now
    exact le_rfl
  · rw [if_neg same] at before
    rw [if_neg (Ne.symm same), before] at now
    cases now
    exact le_rfl

theorem write (h : NamesNoMore f name t p path v) {file old new : String}
    (found : v.tree.text? file = some old)
    (less : file = path → (f.values path new).count name ≤ (f.values path old).count name) :
    NamesNoMore f name t p path (v.write file new) := by
  intro first last before now
  rw [Plain.write, FileTree.text?_write] at now
  split at now
  next same =>
    subst same
    cases now
    exact (less rfl).trans (h first old before found)
  next => exact h first last before now

theorem delete (h : NamesNoMore f name t p path v) (gone : String) :
    NamesNoMore f name t p path (v.delete gone) := by
  intro old new before now
  rw [Plain.delete, FileTree.text?_delete] at now
  split at now
  · cases now
  · exact h old new before now

theorem replaceWhere (h : NamesNoMore f name t p path v) {file : String} {chosen : String → Bool}
    {change : String → String}
    (exact : file = path → ∀ text, v.tree.text? path = some text →
      f.FindsExactly path text (.replace chosen change))
    (avoids : ∀ value, change value = name → value = name) :
    NamesNoMore f name t p path
      ((Job.replaceWhere file chosen change).run (Plain.perform f s) v).2 := by
  rw [Job.replaceWhere, Job.run_editFile]
  cases found : v.tree.text? file with
  | none => exact h
  | some text =>
    rw [Option.bind_some]
    cases edited : Specifier.replace? (f.occurrences file text) text.toList chosen change with
    | none => exact h
    | some updated =>
      apply h.write found
      rintro rfl
      exact (exact rfl text found).count_replaced_le avoids edited

end NamesNoMore

namespace HasVersion

theorem start : HasVersion f t p path (Plain.write ⟨t, []⟩ p.target p.text) := by
  intro elsewhere text found
  rw [Plain.write, FileTree.text?_write, if_neg (Ne.symm elsewhere)] at found
  exact .start (Option.mem_toList.2 found)

theorem replaceWhere (h : HasVersion f t p path v) {file : String} {chosen : String → Bool}
    {change : String → String}
    (listed : file = path → path ≠ p.target →
      .replace chosen change ∈ (p.referenceHistory t).revisions path) :
    HasVersion f t p path ((Job.replaceWhere file chosen change).run (Plain.perform f s) v).2 := by
  intro elsewhere text now
  rw [Job.replaceWhere, Job.run_editFile] at now
  split at now
  next => exact h elsewhere text now
  next updated edited =>
    rw [Plain.write, FileTree.text?_write] at now
    split at now
    next same =>
      subst same
      cases now
      obtain ⟨old, found, made⟩ := Option.bind_eq_some_iff.1 edited
      refine .changed (h elsewhere old found) (listed rfl elsewhere) ?_
      rw [Specifier.Revision.revise?, made, Option.map_some]
    next => exact h elsewhere text now

end HasVersion

/-- A name that is not written in the place of a path: it is not relative, and no way to a path with
an extension is spelled like it. -/
structure IsNoPath (name : String) : Prop where
  plain : isRelative name = false
  spelled : ∀ ext ∈ sourceExtensions, name ≠ ".." ++ ext ∧ name ≠ "..." ++ ext

/-- A move that leaves the new project alone repairs the moved file and then the references to it.
-/
theorem ends_settle_quiet (quiet : (!p.isInside && p.importedInTarget) = false) (c : Graph.Cache)
    {post : Outcome → Plain → Prop}
    (repairs : ∀ c, Ends (Index.perform service.finder)
      (Index.Mirrors service.finder fun _ => False) (repair service p) c
      ((repairOwn p).run (Plain.perform service.finder service.settings) v).2 post) :
    Ends (Index.perform service.finder) (Index.Mirrors service.finder fun _ => False)
      (settle service p) c v post := by
  have own : Does (Index.perform service.finder) (Index.Mirrors service.finder fun _ => False)
      (repairOwn p) v fun _ v' =>
        v' = ((repairOwn p).run (Plain.perform service.finder service.settings) v).2 :=
    (Index.mirrors_attends service.finder).edits service.settings (Job.edits_replaceWhere ..) rfl
  unfold settle
  rw [quiet]
  apply (ends_onFiles own).bind
  intro _ c w placed
  subst placed
  apply (repairs c).bind
  intro o c w done
  have still : Does (Index.perform service.finder) (Index.Mirrors service.finder fun _ => False)
      (if false = true then localizeTarget p else pure ()) w fun _ v' => post o v' :=
    Job.does_pure done
  exact (ends_onFiles still).bind fun _ _ _ done => ends_pure done

theorem ownChange_cases (p : Plan) (value : String) :
    p.ownChange value = value ∨
      ∃ path, p.ownChange value = specifierFor p.target path (some value) := by
  unfold Plan.ownChange
  split
  next path _ => exact .inr ⟨path, rfl⟩
  next => exact .inl rfl

section

variable (exact : p.IsReadExactly service.finder t path) (noPath : IsNoPath name)
include exact noPath

/-- The specifiers of the moved file become paths. -/
theorem namesNoMore_repairOwn (found : t.text? p.source = some p.text) :
    NamesNoMore service.finder name t p path ((repairOwn p).run
      (Plain.perform service.finder service.settings) (Plain.write ⟨t, []⟩ p.target p.text)).2 := by
  have avoids : ∀ value, p.ownChange value = name → value = name := by
    intro value same
    rcases ownChange_cases p value with unchanged | ⟨path, becomes⟩
    · rw [← same, unchanged]
    · exact absurd (becomes.symm.trans same)
        (Path.specifierFor_ne noPath.plain noPath.spelled p.target path (some value))
  refine (NamesNoMore.start found).replaceWhere (fun here text now => ?_) avoids
  subst here
  rw [Plain.write, FileTree.text?_write, if_pos rfl, Option.some_inj] at now
  subst now
  exact exact.own rfl

/-- Inside a project the references to the moved file become paths. -/
theorem ends_settle_inside (inside : p.isInside = true) (found : t.text? p.source = some p.text) :
    Ends (Index.perform service.finder) (Index.Mirrors service.finder fun _ => False)
      (settle service p) .empty (Plain.write ⟨t, []⟩ p.target p.text) fun _ v' =>
        NamesNoMore service.finder name t p path v' := by
  apply ends_settle_quiet (by rw [inside]; rfl) .empty
  intro c
  have replaced : ∀ file, file ≠ p.source → file ≠ p.target → ∀ v,
      NamesNoMore service.finder name t p path v ∧ HasVersion service.finder t p path v →
      NamesNoMore service.finder name t p path
          ((Job.replaceWhere file (resolvesTo file · p.source) (replacement p none file)).run
            (Plain.perform service.finder service.settings) v).2 ∧
        HasVersion service.finder t p path
          ((Job.replaceWhere file (resolvesTo file · p.source) (replacement p none file)).run
            (Plain.perform service.finder service.settings) v).2 := by
    rintro file - elsewhere v ⟨before, version⟩
    have listed : file = path → path ≠ p.target →
        .replace (resolvesTo file · p.source) (replacement p none file) ∈
          (p.referenceHistory t).revisions path := by
      rintro rfl _
      exact List.mem_singleton_self _
    refine ⟨before.replaceWhere (fun here text now => ?_) fun value same => ?_,
      version.replaceWhere listed⟩
    · have other : path ≠ p.target := here ▸ elsewhere
      exact exact.references other text (version other text now) _ (listed here other)
    · exact absurd same
        (Path.specifierFor_ne noPath.plain noPath.spelled file p.target (some value))
  have version : HasVersion service.finder t p path ((repairOwn p).run
      (Plain.perform service.finder service.settings) (Plain.write ⟨t, []⟩ p.target p.text)).2 :=
    HasVersion.start.replaceWhere fun here other => absurd here.symm other
  have repaired := does_repairProject_keeping service.settings
    (Index.mirrors_attends service.finder) replaced
    ⟨namesNoMore_repairOwn exact noPath found, version⟩
  rw [repair_inside service inside]
  exact (ends_onFiles repaired).bind fun _ _ _ done => ends_pure done.1

end

/-! ## Strategies that change nothing -/

/-- Changes of files that answer truly whether they changed something. -/
theorem does_changed_idle {σ : Type} {perform : {β : Type} → FileOp β → σ → β × σ}
    {stands : σ → Plain → Prop} {change : String → Job Bool} {files : List String}
    (each : ∀ file v,
      Does @perform stands (change file) v fun answer v' => answer = false → v' = v) :
    Does @perform stands (changed change files) v fun found v' => found = [] → v' = v := by
  induction files generalizing v with
  | nil => exact Job.does_pure fun _ => rfl
  | cons file rest ih =>
    apply (each file v).bind
    intro answer w idle
    cases answer with
    | true => exact Does.bind ih fun _ _ _ => Job.does_pure nofun
    | false =>
      rw [idle rfl]
      exact ih

/-- A move to an alias that changed no other file has repaired the moved file only. -/
theorem ends_settle_idle (p : Plan) (strategy : p.strategy = .nonExportedAliased)
    (passed : p.importedInTarget = true → p.isExported = true) (v : Plain) :
    Ends (Index.perform service.finder) (Index.Mirrors service.finder fun _ => False)
      (settle service p) .empty v fun o v' => o.changed = [] →
        v' = ((repairOwn p).run (Plain.perform service.finder service.settings) v).2 := by
  have quiet : (!p.isInside && p.importedInTarget) = false := by
    cases imported : p.importedInTarget with
    | false => rw [Bool.and_false]
    | true =>
      have exported := passed imported
      unfold Plan.strategy Strategy.select at strategy
      cases inside : p.isInside <;> simp [inside, exported] at strategy
  apply ends_settle_quiet quiet
  intro c
  generalize ((repairOwn p).run (Plain.perform service.finder service.settings) v).2 = v
  have attends := Index.mirrors_attends service.finder
  have repaired : Does (Index.perform service.finder) (Index.Mirrors service.finder fun _ => False)
      (repairProject p p.targetAlias?) v fun found v' => found = [] → v' = v := by
    apply (attends.sourceFiles p.sourceProject.root v).bind
    intro files w same
    subst same
    apply does_changed_idle
    intro file v
    split
    next => exact Job.does_pure fun _ => rfl
    next =>
      apply ((Job.edits_replaceWhere ..).does service.settings attends.answers attends.fits id v
        nofun).mono
      intro answer v' told unchanged
      rw [Job.replaceWhere, Job.run_editFile] at told
      split at told
      next => exact (Prod.ext_iff.1 told).2
      next => cases unchanged.symm.trans (Prod.ext_iff.1 told).1
  rw [repair, strategy]
  exact (ends_onFiles repaired).bind fun _ _ _ done => ends_pure done

/-! ## The entry point -/

/-- A file that was made to pass on a module is there. -/
theorem isFile_of_ensured (f : Finder) (s : ScanSettings) (entry specifier : String)
    (same : String → Bool) (v : Plain) :
    ((Job.ensureWildcardExport entry specifier same).run (Plain.perform f s) v).2.tree.isFile
      entry = true := by
  rw [Job.run_ensureWildcardExport]
  dsimp only
  split
  next passes =>
    obtain ⟨o, member, -⟩ := List.any_eq_true.1 passes
    rw [FileTree.isFile_eq_isSome]
    unfold FileTree.specifiers at member
    cases found : v.tree.text? entry with
    | none => rw [found] at member; cases member
    | some text => rfl
  next => simp [Plain.write, FileTree.isFile_eq_isSome]

/-- As far as the entry point can be read, it passes on the module. -/
def Reexports (f : Finder) (entry target : String) (v : Plain) : Prop :=
  ∀ text, v.tree.text? entry = some text → (f.read? entry text).isSome = true →
    ∃ o ∈ f.occurrences entry text, o.kind.isExport = true ∧ resolvesTo entry o.value target = true

theorem Reexports.delete {entry target : String} (h : Reexports f entry target v) (gone : String) :
    Reexports f entry target (v.delete gone) := by
  intro text now
  rw [Plain.delete, FileTree.text?_delete] at now
  split at now
  · cases now
  · exact h text now

/-- A text may take the place of one that reads alike. -/
theorem Reexports.write {entry target old new : String} (h : Reexports f entry target v)
    (found : v.tree.text? path = some old) (alike : f.ReadsAlike path old new) :
    Reexports f entry target (v.write path new) := by
  intro text now readable
  rw [Plain.write, FileTree.text?_write] at now
  split at now
  next same =>
    subst same
    cases now
    obtain ⟨o, member, passes⟩ := h old found (alike.readable ▸ readable)
    have still : (o.kind, o.value) ∈
        (f.occurrences path new).map fun o => (o.kind, o.value) := by
      rw [alike.occurrences]
      exact List.mem_map_of_mem member
    obtain ⟨o', member', same⟩ := List.mem_map.1 still
    rw [Prod.mk.injEq] at same
    rw [← same.1, ← same.2] at passes
    exact ⟨o', member', passes⟩
  next => exact h text now readable

/-- After a move the entry point is there, if it is not the file that went, and passes the moved
file on, as far as it can be read. -/
structure IsBacked (f : Finder) (after : FileTree) (report : Report) (entry : String) : Prop where
  there : entry ≠ report.source → after.isFile entry = true
  passes : ∀ text, after.text? entry = some text → f.handles entry = true →
    (f.read? entry text).isSome = true → IsPassedOn f after [entry] report.target

/-- An entry point that has to pass the file on does so at the end. -/
theorem Prepared.backed (h : Prepared service r options t report p i o v) {entry : String}
    (formats : ∀ format ∈ service.formatter?, ∀ path text new, format path text = some new →
      service.finder.ReadsAlike path text new)
    (chosen : exportingEntry? p o options = some entry) (canonical : IsCanonical entry)
    (module : IsModule report.target)
    (reports : service.finder.ReportsAdded entry ((v.tree.text? entry).getD "")
      (specifierFor entry report.target none)) :
    IsBacked service.finder (run service r options t).tree report entry := by
  obtain ⟨-, atSource, atTarget⟩ := h.reports
  rw [atTarget] at module reports
  have left := h.left
  rw [run_passOn, run_ensureExport, chosen] at left
  dsimp only at left
  have there := isFile_of_ensured service.finder service.settings entry
    (specifierFor entry p.target none) (resolvesTo entry · p.target) v
  have passes : service.finder.handles entry = true → Reexports service.finder entry p.target
      ((Job.ensureWildcardExport entry (specifierFor entry p.target none)
        (resolvesTo entry · p.target)).run (Plain.perform service.finder service.settings) v).2 :=
    fun handled _ now => isPassedOn_of_ensured service.finder service.settings canonical module
      reports now handled
  generalize ((Job.ensureWildcardExport entry (specifierFor entry p.target none)
    (resolvesTo entry · p.target)).run (Plain.perform service.finder service.settings) v).2 =
      passed at left there passes
  have framed := framed_formatTouched service.finder service.settings service options
    (passed.delete p.source)
  constructor
  · rw [atSource]
    intro differs
    have still : (passed.delete p.source).tree.isFile entry = true := by
      rw [FileTree.isFile_iff] at there ⊢
      exact FileTree.mem_names_delete.2 ⟨differs, there⟩
    rw [FileTree.isFile, left]
    exact (framed.files entry).2 (.inl still)
  · rw [atTarget]
    intro text now handled readable
    have formatted : Reexports service.finder entry p.target
        ((formatTouched service options).run (Plain.perform service.finder service.settings)
          (passed.delete p.source)).2 :=
      formatTouched_keeps (fun _ format given path _ text new shaped w found shows =>
        shows.write found (formats format given path text new shaped))
        ((passes handled).delete p.source)
    have last := now
    rw [FileTree.text?, left] at last
    obtain ⟨o, member, passes⟩ := formatted text last readable
    refine ⟨entry, List.mem_singleton_self entry, o, ?_, passes⟩
    rw [FileTree.specifiers, now]
    exact member

/-! ## Moves that pass nothing on -/

/-- Only files at some places were written or deleted. -/
def TouchesOnly (places : String → Prop) (v : Plain) : Prop := ∀ path ∈ v.touched, places path

theorem TouchesOnly.write {places : String → Prop} (h : TouchesOnly places v) (inside : places path)
    (text : String) : TouchesOnly places (v.write path text) := by
  intro other member
  rcases Names.mem_insert.1 member with same | earlier
  · rw [same]
    exact inside
  · exact h other earlier

section

variable (h : Prepared service r options t report p i o v)
  (nobody : exportingEntry? p o options = none)
include h nobody

theorem Prepared.namesNoMore
    (formats : ∀ format ∈ service.formatter?, ∀ path text new, format path text = some new →
      service.finder.ReadsAlike path text new)
    (spares : NamesNoMore service.finder name t p path v) {old new : String}
    (before : textBefore? t p.source p.target path = some old)
    (now : (run service r options t).tree.text? path = some new) :
    (service.finder.values path new).count name ≤ (service.finder.values path old).count name := by
  have left := h.left
  rw [run_passOn, run_ensureExport, nobody] at left
  rw [FileTree.text?, left] at now
  have formatted : NamesNoMore service.finder name t p path
      ((formatTouched service options).run (Plain.perform service.finder service.settings)
        (v.delete p.source)).2 := by
    apply formatTouched_keeps _ (spares.delete p.source)
    intro _ format given file _ text new shaped w found before
    apply before.write found
    rintro rfl
    rw [(formats format given file text new shaped).values]
  exact formatted old new before now

/-- Where only the new file was written, none is updated, because formatting writes no file but
those that were touched. -/
theorem Prepared.updated_eq_nil (only : TouchesOnly (· = p.target) v) : report.updated = [] := by
  have told := h.told
  rw [run_passOn, run_ensureExport, nobody] at told
  dsimp only at told
  have places : TouchesOnly (fun path => path = p.source ∨ path = p.target)
      (v.delete p.source) := by
    intro path member
    exact (Names.mem_insert.1 member).imp_right (only path)
  have touched : TouchesOnly (fun path => path = p.source ∨ path = p.target)
      ((formatTouched service options).run (Plain.perform service.finder service.settings)
        (v.delete p.source)).2 := by
    apply formatTouched_keeps _ places
    intro _ format _ path member text new _ w _ before
    exact before.write (places path member) new
  rw [told]
  apply List.filter_eq_nil_iff.2
  intro path member
  rcases touched path member with rfl | rfl <;> simp

end

/-! ## The whole move -/

/-- A move that put the alias of the new project in the place of references. Its strategy shows it:
the file was passed on before, or it was not and other files were updated. Or a file names the alias
more often than before, and the parser finds there what replacing references leaves. -/
inductive PutsAlias (service : Service) (r : Request) (t after : FileTree) (report : Report)
    (name : String) : Prop
  | exported (strategy : report.strategy = .exported)
  | aliased (strategy : report.strategy = .nonExportedAliased) (updated : report.updated ≠ [])
  | gained (noPath : IsNoPath name) {path old new : String}
      (exact : ∀ p ∈ plan? service r t, p.IsReadExactly service.finder t path)
      (before : textBefore? t report.source report.target path = some old)
      (now : after.text? path = some new)
      (more : (service.finder.values path old).count name <
        (service.finder.values path new).count name)

theorem strategy_eq_sameProject_iff : p.strategy = .sameProject ↔ p.isInside = true := by
  unfold Plan.strategy Strategy.select
  cases p.isInside <;> cases p.isExported <;> cases p.targetAlias?.isSome <;> simp

theorem isInside_of_strategy (other : p.strategy ≠ .sameProject) : p.isInside = false := by
  rw [Bool.eq_false_iff, ne_eq, ← strategy_eq_sameProject_iff]
  exact other

theorem targetAlias?_of_default (strategy : p.strategy = .default) : p.targetAlias? = none := by
  unfold Plan.strategy Strategy.select at strategy
  cases published : p.targetAlias? with
  | none => rfl
  | some name =>
    rw [published] at strategy
    split at strategy
    · cases strategy
    · split at strategy <;> cases strategy

theorem touchesOnly_repairOwn {s : ScanSettings} (h : TouchesOnly (· = p.target) v) :
    TouchesOnly (· = p.target) ((repairOwn p).run (Plain.perform f s) v).2 := by
  rw [repairOwn, Job.replaceWhere, Job.run_editFile]
  split
  next => exact h
  next => exact h.write rfl _

/-- A move to an alias needs an export, or it changed nothing but the moved file. -/
theorem exists_prepared_aliased (accepted : (run service r options t).report = .ok report)
    (strategy : report.strategy = .nonExportedAliased) :
    ∃ p i o v, Prepared service r options t report p i o v ∧ p.isInside = false ∧
      (o.needsExport = true ∨ exportingEntry? p o options = none ∧
        v = ((repairOwn p).run (Plain.perform service.finder service.settings)
          (Plain.write ⟨t, []⟩ p.target p.text)).2) := by
  obtain ⟨p, i, o, v, prepared, idle⟩ := exists_prepared accepted fun p _ planned =>
    ends_settle_idle p (planned.reports.1.symm.trans strategy) planned.passed
      (Plain.write ⟨t, []⟩ p.target p.text)
  rw [prepared.reports.1] at strategy
  have outside : p.isInside = false := isInside_of_strategy (by simp [strategy])
  refine ⟨p, i, o, v, prepared, outside, ?_⟩
  by_cases unchanged : o.changed = []
  · right
    refine ⟨?_, idle unchanged⟩
    have needless : ¬ (p.isExported = true ∨ o.needsExport = true) := by
      rw [prepared.needs, ← strategy_eq_exported_iff outside, strategy]
      simp [unchanged]
    rw [Option.eq_none_iff_forall_ne_some]
    intro entry chosen
    exact needless (exportingEntry?_eq_some_iff.1 chosen).2.2.1
  · exact .inl (prepared.needs.2 (.inr ⟨strategy, unchanged⟩))

/-- A file that has to be passed on, to a library with an entry point, is passed on at the end. -/
theorem Prepared.backed_of_needed (h : Prepared service r options t report p i o v)
    (formats : ∀ format ∈ service.formatter?, ∀ path text new, format path text = some new →
      service.finder.ReadsAlike path text new)
    (outside : p.isInside = false) (needed : p.isExported = true ∨ o.needsExport = true)
    (asked : options.skipExport = false) (library : p.targetProject.isLibrary = true)
    {entry : String} (first : p.targetProject.primaryEntryPoint? = some entry)
    (canonical : IsCanonical entry) (module : IsModule report.target)
    (reports : ∀ o before, beforeExport? service r t = some (o, before) →
      service.finder.ReportsAdded entry ((before.text? entry).getD "")
        (specifierFor entry report.target none)) :
    IsBacked service.finder (run service r options t).tree report entry := by
  obtain ⟨c, j, reached, mirrors⟩ := h.reached
  have chosen := Move.exportingEntry?_eq_some_iff.2 ⟨outside, asked, needed, library, first⟩
  have moment := reports o j.tree (by rw [beforeExport?, reached])
  have same : j.tree.text? entry = v.tree.text? entry := mirrors.agree.text entry id
  rw [same] at moment
  exact h.backed formats chosen canonical module moment

/-- After a move inside a project no file spells the alias more often than before. -/
theorem count_le_of_sameProject (accepted : (run service r options t).report = .ok report)
    (formats : ∀ format ∈ service.formatter?, ∀ path text new, format path text = some new →
      service.finder.ReadsAlike path text new)
    (strategy : report.strategy = .sameProject)
    (exact : ∀ p ∈ plan? service r t, p.IsReadExactly service.finder t path)
    (noPath : IsNoPath name) {old new : String}
    (before : textBefore? t report.source report.target path = some old)
    (now : (run service r options t).tree.text? path = some new) :
    (service.finder.values path new).count name ≤ (service.finder.values path old).count name := by
  have inside : ∀ {p i}, Planned service r options t report p i → p.isInside = true :=
    fun planned => strategy_eq_sameProject_iff.1 (planned.reports.1.symm.trans strategy)
  obtain ⟨p, i, o, v, prepared, spares⟩ := exists_prepared accepted fun p _ planned =>
    ends_settle_inside (exact p planned.resolved) noPath (inside planned) planned.text
  have nobody : exportingEntry? p o options = none := by
    unfold exportingEntry?
    rw [inside prepared.toPlanned]
    rfl
  rw [prepared.reports.2.1, prepared.reports.2.2] at before
  exact prepared.namesNoMore nobody formats spares before now

/-- A reference that a move changed to the alias of a library leads to the moved file: the entry
point of the library passes it on, as far as the entry point can be read. -/
theorem alias_backed_by_export (asks : Asks (service.graphSource service.workspace))
    (formats : ∀ format ∈ service.formatter?, ∀ path text new, format path text = some new →
      service.finder.ReadsAlike path text new)
    (accepted : (run service r options t).report = .ok report) {away : Project} {entry : String}
    (arrives : service.workspace.owner report.target = .ok away)
    (published : service.workspace.alias? away.name = some name)
    (asked : options.skipExport = false) (library : away.isLibrary = true)
    (first : away.primaryEntryPoint? = some entry) (canonical : IsCanonical entry)
    (module : IsModule report.target)
    (reports : ∀ o before, beforeExport? service r t = some (o, before) →
      service.finder.ReportsAdded entry ((before.text? entry).getD "")
        (specifierFor entry report.target none))
    (puts : PutsAlias service r t (run service r options t).tree report name) :
    IsBacked service.finder (run service r options t).tree report entry := by
  have backed : ∀ {p i o v}, Prepared service r options t report p i o v → p.isInside = false →
      (p.isExported = true ∨ o.needsExport = true) →
        IsBacked service.finder (run service r options t).tree report entry := by
    intro p i o v h outside needed
    rw [h.reports.2.2, h.targetOwner] at arrives
    cases arrives
    exact h.backed_of_needed formats outside needed asked library first canonical module reports
  have exported : report.strategy = .exported →
      IsBacked service.finder (run service r options t).tree report entry := by
    intro strategy
    obtain ⟨p, i, o, v, prepared, -⟩ := exists_prepared accepted fun p _ planned =>
      ends_settle_framed asks p planned.passed ⟨t, []⟩
    rw [prepared.reports.1] at strategy
    have outside : p.isInside = false := isInside_of_strategy (by simp [strategy])
    exact backed prepared outside (.inl ((strategy_eq_exported_iff outside).1 strategy))
  cases puts with
  | exported strategy => exact exported strategy
  | aliased strategy updated =>
    obtain ⟨p, i, o, v, prepared, outside, needed | ⟨nobody, own⟩⟩ :=
      exists_prepared_aliased accepted strategy
    · exact backed prepared outside (.inr needed)
    · have start : TouchesOnly (· = p.target) ⟨t, []⟩ := by simp [TouchesOnly]
      have only : TouchesOnly (· = p.target) v :=
        own ▸ touchesOnly_repairOwn (start.write rfl p.text)
      exact absurd (prepared.updated_eq_nil nobody only) updated
  | gained noPath exact before now more =>
    cases strategy : report.strategy with
    | exported => exact exported strategy
    | nonExportedAliased =>
      obtain ⟨p, i, o, v, prepared, outside, needed | ⟨nobody, own⟩⟩ :=
        exists_prepared_aliased accepted strategy
      · exact backed prepared outside (.inr needed)
      · have spares : NamesNoMore service.finder name t p _ v :=
          own ▸ namesNoMore_repairOwn (exact p prepared.resolved) noPath prepared.text
        rw [prepared.reports.2.1, prepared.reports.2.2] at before
        exact absurd more (Nat.not_lt.2 (prepared.namesNoMore nobody formats spares before now))
    | sameProject =>
      have less := count_le_of_sameProject accepted formats strategy exact noPath before now
      exact absurd more (Nat.not_lt.2 less)
    | default =>
      obtain ⟨p, i, planned⟩ := exists_planned accepted
      have none := targetAlias?_of_default (planned.reports.1.symm.trans strategy)
      rw [planned.reports.2.2, planned.targetOwner] at arrives
      cases arrives
      rw [planned.published, published] at none
      cases none

/-- The other files of the old project reach the moved file by the alias, and the entry point that
the alias stands for is made to pass it on. -/
theorem alias_backed_by_export_aliased :
    let s := Service.pair [] ["libs/b/index.ts"] [("b", "@org/b")]
    let t := FileTree.ofList
      [("libs/a/main.ts", "import './x';\n"), ("libs/a/x.ts", ""),
        ("libs/b/index.ts", "export * from './y';\n")]
    let after := (run s ⟨"libs/a/x.ts", .path "libs/b/z.ts"⟩ {} t).tree
    after.text? "libs/a/main.ts" = some "import '@org/b';\n" ∧
      after.text? "libs/b/index.ts" = some "export * from './y';\nexport * from './z';\n" ∧
      IsPassedOn s.finder after ["libs/b/index.ts"] "libs/b/z.ts" := by
  intro s t after
  have outcome : (run s ⟨"libs/a/x.ts", .path "libs/b/z.ts"⟩ {} t).report.toOption =
        some ⟨.nonExportedAliased, "libs/a/x.ts", "libs/b/z.ts",
          ["libs/a/main.ts", "libs/b/index.ts"], true⟩ ∧
      after.text? "libs/a/main.ts" = some "import '@org/b';\n" ∧
      after.text? "libs/b/index.ts" = some "export * from './y';\nexport * from './z';\n" := by
    decide +kernel
  obtain ⟨reported, texts⟩ := outcome
  have accepted := ok_of_toOption reported
  have known : (beforeExport? s ⟨"libs/a/x.ts", .path "libs/b/z.ts"⟩ t).map
      (fun moment => moment.2.text? "libs/b/index.ts") = some (some "export * from './y';\n") := by
    decide +kernel
  have reports : ∀ o before, beforeExport? s ⟨"libs/a/x.ts", .path "libs/b/z.ts"⟩ t =
      some (o, before) → s.finder.ReportsAdded "libs/b/index.ts"
        ((before.text? "libs/b/index.ts").getD "")
        (specifierFor "libs/b/index.ts" "libs/b/z.ts" none) := by
    intro o before reached
    rw [reached, Option.map_some, Option.some_inj] at known
    rw [known]
    decide +kernel
  have noPath : IsNoPath "@org/b" := ⟨by decide +kernel, by decide +kernel⟩
  have settles : ∀ p ∈ plan? s ⟨"libs/a/x.ts", .path "libs/b/z.ts"⟩ t,
      "libs/a/main.ts" ≠ p.target ∧ (p.referenceHistory t).Settles s.finder "libs/a/main.ts" 1
        (s.finder.FindsExactly "libs/a/main.ts") := by
    decide +kernel
  have exact : ∀ p ∈ plan? s ⟨"libs/a/x.ts", .path "libs/b/z.ts"⟩ t,
      p.IsReadExactly s.finder t "libs/a/main.ts" :=
    fun p planned => ⟨fun here => absurd here (settles p planned).1,
      fun _ => (settles p planned).2.always⟩
  have puts : PutsAlias s ⟨"libs/a/x.ts", .path "libs/b/z.ts"⟩ t after ⟨.nonExportedAliased,
      "libs/a/x.ts", "libs/b/z.ts", ["libs/a/main.ts", "libs/b/index.ts"], true⟩ "@org/b" :=
    .gained noPath exact
      (by decide +kernel : textBefore? t "libs/a/x.ts" "libs/b/z.ts" "libs/a/main.ts" =
        some "import './x';\n") texts.1 (by decide +kernel)
  have formats : ∀ format ∈ s.formatter?, ∀ path text new, format path text = some new →
      s.finder.ReadsAlike path text new := fun _ none => nomatch none
  have backed := alias_backed_by_export (Job.asks_graph (.inl ⟨_, rfl⟩) s.workspace) formats accepted
    (ok_of_toOption (by decide +kernel) : s.workspace.owner "libs/b/z.ts" =
      .ok ⟨"b", "libs/b", none, .library, ["libs/b/index.ts"]⟩)
    (by decide +kernel) rfl rfl rfl (by decide +kernel) (by decide +kernel) reports puts
  exact ⟨texts.1, texts.2, backed.passes _ texts.2 (by decide +kernel) (by decide +kernel)⟩

/-- References to a moved file become an alias that does not lead to it: of an application, of a
library without entry points, of one whose entry point is not written as a clean path, for a file
whose name without extension is a dot, where the formatter drops the export, and where the alias is
spelled like the new path. -/
theorem alias_without_export :
    (let s := Service.over [⟨"a", "libs/a", none, .library, []⟩,
        ⟨"b", "apps/b", none, .application, ["apps/b/index.ts"]⟩] [("b", "@org/b")]
      let t := FileTree.ofList [("apps/b/index.ts", ""), ("libs/a/main.ts", "import './x';\n"),
        ("libs/a/x.ts", "")]
      let after := (run s ⟨"libs/a/x.ts", .path "apps/b/z.ts"⟩ {} t).tree
      after.text? "libs/a/main.ts" = some "import '@org/b';\n" ∧
        ¬ IsPassedOn s.finder after ["apps/b/index.ts"] "apps/b/z.ts") ∧
    (let b : Project := ⟨"b", "libs/b", none, .library, []⟩
      let s := Service.pair [] [] [("b", "@org/b")]
      let t := FileTree.ofList [("libs/a/main.ts", "import './x';\n"), ("libs/a/x.ts", "")]
      let after := (run s ⟨"libs/a/x.ts", .path "libs/b/z.ts"⟩ {} t).tree
      after.text? "libs/a/main.ts" = some "import '@org/b';\n" ∧ b.primaryEntryPoint? = none) ∧
    (let s := Service.pair [] ["libs/b/../b/index.ts"] [("b", "@org/b")]
      let t := FileTree.ofList [("libs/a/main.ts", "import './x';\n"), ("libs/a/x.ts", ""),
        ("libs/b/../b/index.ts", "")]
      let after := (run s ⟨"libs/a/x.ts", .path "libs/b/z.ts"⟩ {} t).tree
      after.text? "libs/a/main.ts" = some "import '@org/b';\n" ∧
        ¬ IsPassedOn s.finder after ["libs/b/../b/index.ts"] "libs/b/z.ts") ∧
    (let s := Service.pair [] ["libs/b/index.ts"] [("b", "@org/b")]
      let t := FileTree.ofList [("libs/a/main.ts", "import './x';\n"), ("libs/a/x.ts", "")]
      let after := (run s ⟨"libs/a/x.ts", .path "libs/b/..ts"⟩ {} t).tree
      after.text? "libs/a/main.ts" = some "import '@org/b';\n" ∧
        ¬ IsPassedOn s.finder after ["libs/b/index.ts"] "libs/b/..ts") ∧
    (let s := { Service.pair [] ["libs/b/index.ts"] [("b", "@org/b")] with
        formatter? := some fun path text => some (if path = "libs/b/index.ts" then "" else text) }
      let t := FileTree.ofList [("libs/a/main.ts", "import './x';\n"), ("libs/a/x.ts", "")]
      let after := (run s ⟨"libs/a/x.ts", .path "libs/b/z.ts"⟩ { format := true } t).tree
      after.text? "libs/a/main.ts" = some "import '@org/b';\n" ∧
        ¬ IsPassedOn s.finder after ["libs/b/index.ts"] "libs/b/z.ts") ∧
    (let s := Service.over [⟨"a", "libs/a", none, .library, ["libs/a/index.ts"]⟩] [("a", "./z")]
      let t := FileTree.ofList [("libs/a/index.ts", ""), ("libs/a/main.ts", "import './x';\n"),
        ("libs/a/x.ts", "")]
      let after := (run s ⟨"libs/a/x.ts", .path "libs/a/z.ts"⟩ {} t).tree
      after.text? "libs/a/main.ts" = some "import './z';\n" ∧
        ¬ IsPassedOn s.finder after ["libs/a/index.ts"] "libs/a/z.ts") := by
  decide +kernel

end Move
end Rehome
