import Rehome.Proofs.Job.Dependencies
import Rehome.Proofs.Job.Questions
import Rehome.Proofs.Job.Shortcuts
import Rehome.Proofs.Workspace.Longest

/-!
# The graph of the imports

An index that is only asked gives the same answers all the time, whatever it keeps in between. So
the graph that is read off the specifiers is the one that three nested loops make of these answers,
over the projects, their files and the specifiers in them; and what a loop adds to a graph is what
its steps add.
-/
namespace Rehome

open Specifier (Finder isUnderAlias)

/-! ## Answers that stay the same -/

namespace Index

variable {f : Finder} {i j : Index}

/-- The answer is the list that is kept, or else a new one. -/
theorem sourceFiles_fst (i : Index) (root : String) :
    (i.sourceFiles root).1 = (i.lists.get? root).getD (i.scan root).1 := by
  unfold sourceFiles
  cases i.lists.get? root <;> rfl

theorem sourceFiles_congr (names : j.tree.files.names = i.tree.files.names)
    (settings : j.settings = i.settings) (lists : j.lists = i.lists) (root : String) :
    (j.sourceFiles root).1 = (i.sourceFiles root).1 := by
  rw [sourceFiles_fst, sourceFiles_fst, lists, scan_congr names settings]

/-- Making a list changes no other list, and not this one when it is asked for again. -/
theorem sourceFiles_sourceFiles (i : Index) (root other : String) :
    ((i.sourceFiles root).2.sourceFiles other).1 = (i.sourceFiles other).1 := by
  cases known : i.lists.get? root with
  | some list =>
    have same : (i.sourceFiles root).2 = i := by simp only [sourceFiles, known]
    rw [same]
  | none =>
    obtain ⟨asked, endless, frame⟩ := i.scan_frame root
    have after : (i.sourceFiles root).2 = { i with
        tree := { i.tree with asked }, lists := i.lists.insert root (i.scan root).1, endless } := by
      simp only [sourceFiles, known, frame]
    rw [after, sourceFiles_fst, sourceFiles_fst, Table.get?_insert]
    by_cases same : root = other
    · rw [if_pos same, ← same, known, Option.getD_some, Option.getD_none]
    · rw [if_neg same]
      apply congrArg
      apply scan_congr
      · rfl
      · rfl

/-- An index that gives all the answers that `i` gives. -/
structure Recalls (f : Finder) (i j : Index) : Prop where
  keeps : j.KeepsTexts f
  files : j.tree.files = i.tree.files
  lists : ∀ root, (j.sourceFiles root).1 = (i.sourceFiles root).1

theorem Recalls.refl (keeps : i.KeepsTexts f) : i.Recalls f i := ⟨keeps, rfl, fun _ => rfl⟩

theorem Recalls.text? (h : i.Recalls f j) (path : String) :
    j.tree.text? path = i.tree.text? path := by
  rw [FileTree.text?, FileTree.text?, h.files]

theorem Recalls.read (h : i.Recalls f j) (path : String) :
    (j.read path).1 = i.tree.text? path ∧ i.Recalls f (j.read path).2 := by
  obtain ⟨answer, keeps, asked, texts, readings, frame⟩ := read_spec h.keeps path
  refine ⟨answer.trans (h.text? path), keeps, by rw [frame]; exact h.files, fun root => ?_⟩
  rw [← h.lists root]
  exact sourceFiles_congr (by rw [frame]) (by rw [frame]) (by rw [frame]) root

theorem Recalls.specifiers (h : i.Recalls f j) (path : String) :
    (j.specifiers f path).1 = i.tree.specifiers f path ∧ i.Recalls f (j.specifiers f path).2 := by
  obtain ⟨answer, keeps, asked, texts, parsed, readings, parses, frame⟩ :=
    specifiers_spec h.keeps path
  refine ⟨answer.trans (FileTree.specifiers_congr f (h.text? path)), keeps,
    by rw [frame]; exact h.files, fun root => ?_⟩
  rw [← h.lists root]
  exact sourceFiles_congr (by rw [frame]) (by rw [frame]) (by rw [frame]) root

theorem Recalls.sourceFiles (h : i.Recalls f j) (root : String) :
    i.Recalls f (j.sourceFiles root).2 := by
  obtain ⟨asked, lists, endless, frame⟩ := j.sourceFiles_frame root
  refine ⟨?_, by rw [frame]; exact h.files, fun other => ?_⟩
  · rw [frame]
    exact h.keeps.of_same rfl rfl rfl rfl
  · rw [sourceFiles_sourceFiles, h.lists]

/-- Answers a step of a job without any change to the index. -/
def reply (f : Finder) (i : Index) {β : Type} (op : FileOp β) (_ : Unit) : β × Unit :=
  ((perform f op i).1, ())

end Index

/-- A job that only asks comes to the same result if nothing that it learns is kept. -/
theorem Job.Asks.run_reply {α : Type} {f : Finder} {i j : Index} {x : Job α} (asks : Asks x)
    (keeps : i.KeepsTexts f) (recalls : i.Recalls f j) :
    (x.run (Index.perform f) j).1 = (x.run (i.reply f) ()).1 := by
  -- The index `j` goes along with the job, and `i` stays what it was at the start.
  induction asks generalizing j with
  | done a => rfl
  | @read path next _ ih =>
    obtain ⟨answer, after⟩ := recalls.read path
    have same : (j.read path).1 = (i.read path).1 :=
      answer.trans ((Index.Recalls.refl keeps).read path).1.symm
    refine (ih _ after).trans ?_
    change (run (i.reply f) (next (j.read path).1) ()).1 = (run (i.reply f) (next (i.read path).1) ()).1
    rw [same]
  | @specifiers path next _ ih =>
    obtain ⟨answer, after⟩ := recalls.specifiers path
    have same : (j.specifiers f path).1 = (i.specifiers f path).1 :=
      answer.trans ((Index.Recalls.refl keeps).specifiers path).1.symm
    refine (ih _ after).trans ?_
    change (run (i.reply f) (next (j.specifiers f path).1) ()).1 =
      (run (i.reply f) (next (i.specifiers f path).1) ()).1
    rw [same]
  | @sourceFiles root next _ ih =>
    refine (ih _ (recalls.sourceFiles root)).trans ?_
    change (run (i.reply f) (next (j.sourceFiles root).1) ()).1 =
      (run (i.reply f) (next (i.sourceFiles root).1) ()).1
    rw [recalls.lists root]

/-! ## The owner of a specifier -/

/-- The specifier is the alias, or goes on from it with a slash. -/
def Specifier.Continues (specifier name : String) : Prop :=
  specifier = name ∨ ∃ rest, specifier = name ++ "/" ++ rest

/-- A project whose alias the specifier continues, while every other such alias is shorter, or just as
long and of a project with an earlier name. -/
def Workspace.IsAliasOwner (w : Workspace) (specifier : String) (q : Project) : Prop :=
  ∃ name ∈ w.alias? q.name, Specifier.Continues specifier name ∧
    ∀ r ∈ w.projects, ∀ other ∈ w.alias? r.name, Specifier.Continues specifier other →
      other.utf8ByteSize < name.utf8ByteSize ∨
        other.utf8ByteSize = name.utf8ByteSize ∧ r.name ≤ q.name

theorem Specifier.isUnderAlias_iff_continues {name specifier : String} :
    isUnderAlias name specifier = true ↔ Continues specifier name := by
  rw [Dependencies.isUnderAlias_iff]
  refine or_congr_right ⟨?_, ?_⟩
  · rintro ⟨rest, whole⟩
    refine ⟨String.ofList rest, ?_⟩
    rw [← String.toList_inj, whole]
    simp
  · rintro ⟨rest, rfl⟩
    exact ⟨rest.toList, by simp⟩

instance (specifier name : String) : Decidable (Specifier.Continues specifier name) :=
  decidable_of_iff _ Specifier.isUnderAlias_iff_continues

instance (w : Workspace) (specifier : String) (q : Project) :
    Decidable (w.IsAliasOwner specifier q) :=
  inferInstanceAs (Decidable (∃ name ∈ w.alias? q.name, Specifier.Continues specifier name ∧
    ∀ r ∈ w.projects, ∀ other ∈ w.alias? r.name, Specifier.Continues specifier other → _ ∨ _ ∧ _))

namespace Dependencies

theorem aliasOwner?_published {w : Workspace} {q : Project} (member : q ∈ w.projects)
    (specifier : String) :
    (∃ name, aliasOwner? specifier (published w) = some (name, q.name)) ↔
      w.IsAliasOwner specifier q := by
  have ordered := (published_ordered w).filter (isUnderAlias ·.1 specifier)
  refine exists_congr fun name => ?_
  rw [aliasOwner?_eq_lastLargest, lastLargest_eq_some_iff ordered]
  simp only [List.mem_filter, Prod.forall, mem_published, Specifier.isUnderAlias_iff_continues,
    Prod.Lex.toLex_le_toLex]
  constructor
  · rintro ⟨⟨⟨p, -, same, known⟩, under⟩, greatest⟩
    exact ⟨same ▸ known, under, fun r inside other has above =>
      greatest other r.name ⟨⟨r, inside, rfl, has⟩, above⟩⟩
  · rintro ⟨known, under, greatest⟩
    refine ⟨⟨⟨q, member, rfl, known⟩, under⟩, ?_⟩
    rintro other _ ⟨⟨r, inside, rfl, has⟩, above⟩
    exact greatest r inside other has above

/-! ## The graph of an index -/

variable {f : Finder} {i : Index} {aliases : List (String × String)}

/-- The owners of the specifiers in a file, each with its alias. -/
def owners (f : Finder) (i : Index) (aliases : List (String × String)) (file : String) :
    List (String × String) :=
  (i.specifiers f file).1.filterMap fun o => aliasOwner? o.value aliases

/-- Gives a project the dependencies that one file shows. -/
def withFile (f : Finder) (i : Index) (aliases : List (String × String)) (project : String)
    (g : Graph) (file : String) : Graph :=
  (owners f i aliases file).foldl (fun g o => g.addDependency project o.2) g

/-- Adds one project with the dependencies that its files show. -/
def withProject (f : Finder) (i : Index) (aliases : List (String × String)) (g : Graph)
    (p : Project) : Graph :=
  (i.sourceFiles p.root).1.foldl (withFile f i aliases p.name) (g.addProject p.name).2

theorem reply_addFiles (project : String) (g : Graph) (files : List String) :
    ((addFiles aliases project g files).run (i.reply f) ()).1 =
      files.foldl (withFile f i aliases project) g := by
  induction files generalizing g with
  | nil => rfl
  | cons file rest ih => exact ih _

theorem reply_addProjects (g : Graph) (projects : List Project) :
    ((addProjects aliases g projects).run (i.reply f) ()).1 =
      projects.foldl (withProject f i aliases) g := by
  induction projects generalizing g with
  | nil => rfl
  | cons p rest ih =>
    rw [List.foldl_cons, ← ih, withProject, ← reply_addFiles]
    exact congrArg Prod.fst (Job.run_bind (i.reply f)
      (addFiles aliases p.name (g.addProject p.name).2 (i.sourceFiles p.root).1)
      (addProjects aliases · rest) ())

/-- Some file of the project has a specifier that another project, of this name, owns. -/
def Shows (f : Finder) (i : Index) (aliases : List (String × String)) (p : Project)
    (name : String) : Prop :=
  ∃ file ∈ (i.sourceFiles p.root).1, ∃ o ∈ owners f i aliases file, p.name ≠ o.2 ∧ name = o.2

theorem gains_withFile (f : Finder) (i : Index) (aliases : List (String × String)) (project : String)
    (g : Graph) (file : String) :
    g.Gains (withFile f i aliases project g file)
      (fun name => ∃ o ∈ owners f i aliases file, project ≠ o.2 ∧ (name = project ∨ name = o.2))
      (fun e => ∃ o ∈ owners f i aliases file, project ≠ o.2 ∧ e = (project, o.2)) :=
  Graph.gains_foldl (fun g o => g.gains_addDependency project o.2) _ g

theorem gains_withProject (f : Finder) (i : Index) (aliases : List (String × String)) (g : Graph)
    (p : Project) :
    g.Gains (withProject f i aliases g p) (fun name => name = p.name ∨ Shows f i aliases p name)
      (fun e => e.1 = p.name ∧ Shows f i aliases p e.2) := by
  have loop := (g.gains_addProject p.name).trans
    (Graph.gains_foldl (gains_withFile f i aliases p.name) (i.sourceFiles p.root).1 _)
  refine ⟨fun name => ?_, fun e => ?_⟩
  · refine (loop.projects name).trans (or_congr_right ?_)
    by_cases same : name = p.name
    · simp only [same, true_or]
    · simp only [same, false_or, Shows]
  · refine (loop.pairs e).trans (or_congr_right ?_)
    obtain ⟨dependent, dependency⟩ := e
    simp only [false_or, Shows, Prod.mk.injEq]
    constructor
    · rintro ⟨file, inside, o, owner, differ, rfl, rfl⟩
      exact ⟨rfl, file, inside, o, owner, differ, rfl⟩
    · rintro ⟨rfl, file, inside, o, owner, differ, rfl⟩
      exact ⟨file, inside, o, owner, differ, rfl, rfl⟩

theorem exists_of_shows {w : Workspace} {p : Project} {name : String}
    (shows : Shows f i (published w) p name) : ∃ q ∈ w.projects, q.name = name := by
  obtain ⟨file, -, o, owner, -, rfl⟩ := shows
  obtain ⟨_, -, found⟩ := List.mem_filterMap.1 owner
  obtain ⟨q, member, same, -⟩ := mem_published.1 (aliasOwner?_spec found).1
  exact ⟨q, member, same⟩

theorem shows_iff (keeps : i.KeepsTexts f) {w : Workspace} {q : Project} (member : q ∈ w.projects)
    (p : Project) : Shows f i (published w) p q.name ↔ p.name ≠ q.name ∧
      ∃ file ∈ (i.sourceFiles p.root).1, ∃ o ∈ i.tree.specifiers f file, w.IsAliasOwner o.value q := by
  have answer (file : String) : (i.specifiers f file).1 = i.tree.specifiers f file :=
    (Index.specifiers_spec keeps file).1
  simp only [Shows, owners, answer, List.mem_filterMap, ← aliasOwner?_published member]
  constructor
  · rintro ⟨file, inside, ⟨name, _⟩, ⟨o, reported, owner⟩, differ, rfl⟩
    exact ⟨differ, file, inside, o, reported, name, owner⟩
  · rintro ⟨differ, file, inside, o, reported, name, owner⟩
    exact ⟨file, inside, (name, q.name), ⟨o, reported, owner⟩, differ, rfl⟩

/-- The graph that the loops make of the answers of an index. -/
def imported (f : Finder) (i : Index) (w : Workspace) : Graph :=
  w.projects.foldl (withProject f i (published w)) .empty

theorem run_imports (keeps : i.KeepsTexts f) (w : Workspace) :
    (i.run f (Move.GraphSource.imports w)).1 = .ok (imported f i w) := by
  have asked : (i.run f (load w)).1 = imported f i w :=
    ((Job.asks_addProjects (published w) .empty w.projects).run_reply keeps (.refl keeps)).trans
      (reply_addProjects .empty w.projects)
  rw [← asked]
  exact congrArg Prod.fst (Job.run_bind (Index.perform f) (load w) (fun g => pure (Except.ok g)) i)

/-- Each project is mentioned once, and no other name: whatever owns a specifier is registered. -/
theorem projects_imported (f : Finder) (i : Index) (w : Workspace) :
    (imported f i w).projects.Perm (w.projects.map (·.name)) := by
  have gains := Graph.gains_foldl (gains_withProject f i (published w)) w.projects .empty
  have registered : (w.projects.map (·.name)).Nodup :=
    Names.nodup_of_increasing (List.pairwise_map.2 w.projects_ordered)
  refine (List.perm_ext_iff_of_nodup (Graph.projects_nodup _) registered).2 fun name => ?_
  rw [imported, gains.projects, List.mem_map]
  constructor
  · rintro (none | ⟨p, member, rfl | shows⟩)
    · cases none
    · exact ⟨p, member, rfl⟩
    · exact exists_of_shows shows
  · rintro ⟨p, member, rfl⟩
    exact .inr ⟨p, member, .inl rfl⟩

theorem mem_dependents_imported {w : Workspace} {p : Project} (member : p ∈ w.projects)
    (name : String) :
    p.name ∈ (imported f i w).dependents name ↔ Shows f i (published w) p name := by
  have gains := Graph.gains_foldl (gains_withProject f i (published w)) w.projects .empty
  rw [Graph.mem_dependents, imported, gains.pairs]
  constructor
  · rintro (none | ⟨r, inside, same, shows⟩)
    · cases none
    · rwa [Workspace.eq_of_name_eq member inside same]
  · intro shows
    exact .inr ⟨p, member, rfl, shows⟩

/-- The graph of the imports has the registered projects for its nodes. One of them depends on another
just if a specifier in one of its files leads to the other one. -/
theorem imports_give_dependents (w : Workspace) {f : Finder} {i : Index} (reached : i.Reached f) :
    ∃ graph, (i.run f (Move.GraphSource.imports w)).1 = .ok graph ∧
      graph.projects.Perm (w.projects.map (·.name)) ∧
      ∀ p ∈ w.projects, ∀ q ∈ w.projects, p.name ∈ graph.dependents q.name ↔
        p ≠ q ∧ ∃ file ∈ (i.sourceFiles p.root).1, ∃ o ∈ i.tree.specifiers f file,
          w.IsAliasOwner o.value q := by
  have keeps : i.KeepsTexts f := reached.mirrors.texts
  refine ⟨imported f i w, run_imports keeps w, projects_imported f i w, fun p member q inside => ?_⟩
  have named : p.name ≠ q.name ↔ p ≠ q :=
    not_congr ⟨Workspace.eq_of_name_eq member inside, congrArg Project.name⟩
  rw [mem_dependents_imported member, shows_iff keeps inside, named]

/-- Of two projects with the longest alias the later one is meant. The files of a project inside
another one are files of both, and the outer one does not depend on itself. One of the files was
written after it had been listed. -/
theorem imports_give_dependents_nested :
    let app : Project := ⟨"app", "apps/a", none, .application, []⟩
    let core : Project := ⟨"core", "libs", none, .library, []⟩
    let early : Project := ⟨"early", "packages/e", none, .library, []⟩
    let late : Project := ⟨"late", "libs/late", none, .library, []⟩
    let plain := [app, core, early, late].foldl Workspace.addProject .empty
    let w := ((plain.setAlias "core" "@x").setAlias "early" "@x/y").setAlias "late" "@x/y"
    let t := FileTree.ofList [("apps/a/i.ts", "import '@x/y/z';\n"), ("libs/late/k.ts", "")]
    let opened := ((Index.new t (.standard 1)).perform .modules (.sourceFiles "libs/late")).2
    let i := (opened.perform .modules (.write "libs/late/k.ts" "import '@x';\n")).2
    ∃ graph, (i.run .modules (Move.GraphSource.imports w)).1 = .ok graph ∧
      graph.projects.Perm ["app", "core", "early", "late"] ∧
      "app" ∈ graph.dependents "late" ∧ "app" ∉ graph.dependents "early" ∧
      "app" ∉ graph.dependents "core" ∧ "late" ∈ graph.dependents "core" ∧
      "core" ∉ graph.dependents "core" := by
  intro app core early late plain w t opened i
  have reached : i.Reached .modules := .perform _ (.perform _ (.new t _))
  obtain ⟨graph, loaded, nodes, edges⟩ := imports_give_dependents w reached
  have all : w.projects = [app, core, early, late] := by decide +kernel
  rw [all] at nodes edges
  refine ⟨graph, loaded, nodes, (edges app (by simp) late (by simp)).2 ?_,
    (edges app (by simp) early (by simp)).not.2 ?_, (edges app (by simp) core (by simp)).not.2 ?_,
    (edges late (by simp) core (by simp)).2 ?_, (edges core (by simp) core (by simp)).not.2 ?_⟩
  all_goals decide +kernel

end Dependencies
end Rehome
