import Rehome.Proofs.Job.Dependencies
import Rehome.Proofs.Job.Run
import Rehome.Proofs.Job.Search
import Rehome.Proofs.Move.Propagation
import Rehome.Proofs.Workspace.Claims

/-!
# Which projects are repaired

The projects that name an alias come from the graph or, if that knows none, from a search. Both may
differ between states that list different files, but every project with a file in view that names
the alias is found each time, and in the order of names. So the repairs come to the same.
-/
namespace Rehome.Move

open Specifier (Finder)
open Job (Does Presents)

variable {σ : Type} {perform : {β : Type} → FileOp β → σ → β × σ} {stands : σ → Plain → Prop}
  {f : Finder} {s : ScanSettings} {t : FileTree} {v : Plain} {p : Plan}

/-! ## A search for projects -/

/-- A file that names the alias refers to it in every search. -/
theorem refersIn_of_namesAlias {name path : String} (named : namesAlias f name v path = true) :
    Search.RefersIn f (.aliased name) v path := by
  unfold namesAlias at named
  split at named
  · cases named
  next text present =>
    refine ⟨text, present, ?_⟩
    rw [Search.refers, Bool.and_eq_true] at named ⊢
    refine ⟨named.1, ?_⟩
    obtain ⟨o, member, equal⟩ := List.any_eq_true.1 named.2
    refine List.any_eq_true.2 ⟨o, member, ?_⟩
    have same : o.value = name := by simpa [Specifier.Query.matches] using equal
    rw [same]
    exact Dependencies.isUnderAlias_refl name

/-- A project with a file due in its list that names the alias. -/
def Concerned (f : Finder) (due : String → String → Prop) (name : String) (v : Plain)
    (project : Project) : Prop :=
  ∃ path, due project.root path ∧ namesAlias f name v path = true

theorem isConcerned_iff {kept : String → Bool} {name : String} {project : Project} :
    isConcerned f s t kept name v project = true ↔
      Concerned f (fun root path => path ∈ t.inView s kept root) name v project := by
  rw [isConcerned, List.any_eq_true, Concerned]

variable {hidden : String → Prop} {fit : Plain → String → Prop} {due : String → String → Prop}

/-- A search finds all other projects that are concerned, and keeps their order. -/
theorem does_projectsNaming {service : Service}
    (presents : Presents @perform stands service.finder hidden fit v due) (name : String)
    (projects : List Project) :
    Does @perform stands (projectsNaming service p name projects) v fun found v' =>
      v' = v ∧ found.Sublist projects ∧ (∀ q ∈ found, q.name ≠ p.sourceProject.name) ∧
        ∀ q ∈ projects, q.name ≠ p.sourceProject.name → Concerned service.finder due name v q →
          q ∈ found := by
  induction projects with
  | nil => exact Job.does_pure ⟨rfl, .slnil, by simp, by simp⟩
  | cons project rest ih =>
    rw [projectsNaming]
    split
    next own =>
      refine ih.mono fun found w ⟨same, sublist, others, complete⟩ =>
        ⟨same, sublist.cons project, others, fun q member differs concerned => ?_⟩
      rcases List.mem_cons.1 member with rfl | tail
      · exact absurd own differs
      · exact complete q tail differs concerned
    next other =>
      refine (presents.lists project.root).bind ?_
      rintro files v ⟨rfl, listed⟩
      refine (Search.does_any
        presents.answers service.settings service.schedule (.aliased name) files).bind ?_
      rintro answer v ⟨rfl, tells⟩
      have yes : Concerned service.finder due name v project → answer = true := by
        rintro ⟨path, isDue, named⟩
        exact tells.complete path (listed path isDue) (presents.visible isDue)
          (refersIn_of_namesAlias named)
      cases answer with
      | true =>
        refine Does.bind ih fun found w ⟨same, sublist, others, complete⟩ =>
          Job.does_pure ⟨same, sublist.cons_cons project, fun q member => ?_,
            fun q member differs concerned => ?_⟩
        · rcases List.mem_cons.1 member with rfl | tail
          · exact other
          · exact others q tail
        · rcases List.mem_cons.1 member with rfl | tail
          · exact List.mem_cons_self
          · exact List.mem_cons_of_mem project (complete q tail differs concerned)
      | false =>
        refine ih.mono fun found w ⟨same, sublist, others, complete⟩ =>
          ⟨same, sublist.cons project, others, fun q member differs concerned => ?_⟩
        rcases List.mem_cons.1 member with rfl | tail
        · cases yes concerned
        · exact complete q tail differs concerned

/-- Other projects in the order of their names, with all that are concerned among them. -/
structure Selects (f : Finder) (due : String → String → Prop) (p : Plan) (name : String)
    (w : Workspace) (v : Plain) (found : List Project) : Prop where
  ordered : found.Pairwise (fun q r => q.name < r.name)
  others : ∀ q ∈ found, q ∈ w.projects ∧ q.name ≠ p.sourceProject.name
  complete : ∀ q ∈ w.projects, q.name ≠ p.sourceProject.name → Concerned f due name v q → q ∈ found

/-- The other projects that are concerned. -/
def concerned (f : Finder) (s : ScanSettings) (t : FileTree) (p : Plan) (name : String)
    (w : Workspace) (v : Plain) :
    List Project :=
  w.projects.filter fun q => q.name ≠ p.sourceProject.name && isConcerned f s t p.keeps name v q

theorem Selects.filter_eq_concerned {name : String} {w : Workspace} {found : List Project}
    (h : Selects f (fun root path => path ∈ t.inView s p.keeps root) p name w v found) :
    found.filter (isConcerned f s t p.keeps name v) = concerned f s t p name w v := by
  refine Workspace.eq_of_names_increasing (h.ordered.filter _) (w.projects_ordered.filter _)
    fun q => ?_
  simp only [concerned, List.mem_filter, Bool.and_eq_true, decide_eq_true_eq, ne_eq]
  constructor
  · rintro ⟨member, here⟩
    exact ⟨(h.others q member).1, (h.others q member).2, here⟩
  · rintro ⟨member, differs, here⟩
    exact ⟨h.complete q member differs (isConcerned_iff.1 here), here⟩

/-! ## The graph -/

variable {name : String} {w : Workspace}

/-- What a graph must have to find all projects that are concerned: without an edge to the old
project nothing is promised, with one every such project has an edge. -/
structure Finds (f : Finder) (due : String → String → Prop) (p : Plan) (name : String)
    (w : Workspace) (v : Plain) (g : Graph) : Prop where
  others : ∀ n ∈ g.dependents p.sourceProject.name, n ≠ p.sourceProject.name
  complete : g.dependents p.sourceProject.name ≠ [] → ∀ q ∈ w.projects,
    q.name ≠ p.sourceProject.name → Concerned f due name v q →
      q.name ∈ g.dependents p.sourceProject.name

/-- A file that names the alias has a specifier that is the alias. -/
theorem exists_specifier {path : String} (named : namesAlias f name v path = true) :
    ∃ o ∈ v.tree.specifiers f path, o.value = name := by
  unfold namesAlias at named
  split at named
  · cases named
  next text present =>
    rw [Search.refers, Bool.and_eq_true] at named
    obtain ⟨o, member, equal⟩ := List.any_eq_true.1 named.2
    rw [FileTree.specifiers, present]
    exact ⟨o, member, by simpa [Specifier.Query.matches] using equal⟩

/-- The graph of all specifiers that are shown finds the projects that are concerned. -/
theorem does_load (presents : Presents @perform stands f hidden fit v due)
    (known : w.alias? p.sourceProject.name = some name) :
    Does @perform stands (Dependencies.load w) v fun g v' => v' = v ∧ Finds f due p name w v g := by
  refine (Dependencies.does_addProjects presents w.projects .empty).mono ?_
  rintro g v ⟨rfl, grows, edges⟩
  have owned : ∀ n ∈ g.dependents p.sourceProject.name, n ≠ p.sourceProject.name ∧
      Dependencies.aliasOwner? name (Dependencies.published w) =
        some (name, p.sourceProject.name) := by
    intro n member
    rcases grows.owned _ (Graph.mem_dependents.1 member) with old | ⟨differs, specifier, a, owner⟩
    · cases old
    · have published := Workspace.alias_of_published (Dependencies.aliasOwner?_spec owner).1
      have same : name = a := Option.some.inj (known.symm.trans published)
      exact ⟨differs, same ▸ Dependencies.aliasOwner?_self owner⟩
  refine ⟨rfl, fun n member => (owned n member).1, fun nonempty q registered differs concerned => ?_⟩
  obtain ⟨n, member⟩ := List.exists_mem_of_ne_nil _ nonempty
  obtain ⟨path, isDue, named⟩ := concerned
  obtain ⟨o, occurs, value⟩ := exists_specifier named
  exact Graph.mem_dependents.2 (edges q registered path isDue o occurs _
    (value ▸ (owned n member).2) differs)

/-! ## Sessions -/

section

variable (perform stands)

/-- From every state that stands for `v` the session succeeds and comes to one that stands for a
plain state as described. -/
def Plays {α : Type} (x : Session α) (c : Graph.Cache) (v : Plain)
    (post : α → Plain → Prop) : Prop :=
  ∀ st, stands st v → ∃ a c' v', (Session.play @perform x c st).1 = (.ok a, c') ∧
    stands (Session.play @perform x c st).2 v' ∧ post a v'

end

variable {α β : Type} {c : Graph.Cache}

theorem plays_pure {a : α} {post : α → Plain → Prop} (holds : post a v) :
    Plays @perform stands (pure a) c v post := fun _ related => ⟨a, c, v, rfl, related, holds⟩

theorem Plays.mono {x : Session α} {mid post : α → Plain → Prop}
    (plays : Plays @perform stands x c v mid) (weaker : ∀ a v', mid a v' → post a v') :
    Plays @perform stands x c v post := by
  intro st related
  obtain ⟨a, c', v', result, after, holds⟩ := plays st related
  exact ⟨a, c', v', result, after, weaker a v' holds⟩

theorem plays_onFiles {j : Job α} {post : α → Plain → Prop} (does : Does @perform stands j v post) :
    Plays @perform stands (onFiles j) c v post := by
  intro st related
  obtain ⟨v', after, holds⟩ := does st related
  rw [Session.play_onFiles]
  exact ⟨_, c, v', rfl, after, holds⟩

theorem Plays.bind {x : Session α} {k : α → Session β} {mid : α → Plain → Prop}
    {post : β → Plain → Prop} (first : Plays @perform stands x c v mid)
    (later : ∀ a c' v', mid a v' → Plays @perform stands (k a) c' v' post) :
    Plays @perform stands (x >>= k) c v post := by
  intro st related
  obtain ⟨a, c', v', result, after, holds⟩ := first st related
  rw [Session.play_bind]
  generalize Session.play @perform x c st = outcome at result after
  obtain ⟨answer, st'⟩ := outcome
  subst result
  exact later a c' v' holds st' after

variable {service : Service}

/-- The dependents are those of the graph that was loaded. -/
theorem plays_dependentsOf {project : String} {good : Graph → Prop}
    (loads : Does @perform stands (service.graphSource service.workspace) v fun loaded v' =>
      v' = v ∧ ∃ g, loaded = .ok g ∧ good g) :
    Plays @perform stands (dependentsOf service project) .empty v fun names v' =>
      v' = v ∧ ∃ g, good g ∧ names = g.dependents project := by
  intro st related
  obtain ⟨v', after, rfl, g, loaded, holds⟩ := loads st related
  unfold dependentsOf
  rw [Session.play_bind, Session.play_get]
  simp only [Session.play_onFiles_bind]
  have got : (Graph.Cache.empty.get (service.graphSource service.workspace)).run @perform st =
      ((.ok g, Graph.Cache.empty.keep (.ok g)),
        ((service.graphSource service.workspace).run @perform st).2) := by
    simp only [Graph.Cache.get, Graph.Cache.empty]
    rw [Job.run_bind, loaded]
    rfl
  rw [got]
  exact ⟨g.dependents project, _, _, rfl, after, rfl, g, holds, rfl⟩

/-- Dependents that are registered, in the order of their names. -/
theorem filterMap_dependents_ordered (g : Graph) (w : Workspace) (project : String) :
    ((g.dependents project).filterMap w.project?).Pairwise (fun q r => q.name < r.name) := by
  rw [List.pairwise_filterMap]
  refine (g.neighbours_ordered _ _ project).imp fun less q first r second => ?_
  rwa [(Workspace.project?_eq_some_iff.1 first).2, (Workspace.project?_eq_some_iff.1 second).2]

/-- A graph that finds the projects concerned leads to them, and so does the search in its place. -/
theorem plays_dependentProjects_of_finds
    (presents : Presents @perform stands service.finder hidden fit v due)
    (loads : Does @perform stands (service.graphSource service.workspace) v fun loaded v' =>
      v' = v ∧ ∃ g, loaded = .ok g ∧ Finds service.finder due p name service.workspace v g) :
    Plays @perform stands (dependentProjects service p name) .empty v fun projects v' =>
      v' = v ∧ Selects service.finder due p name service.workspace v projects := by
  refine (plays_dependentsOf loads).bind ?_
  rintro names c v ⟨rfl, g, finds, rfl⟩
  split
  next =>
    refine plays_onFiles ((does_projectsNaming presents name service.workspace.projects).mono ?_)
    rintro found v ⟨rfl, sublist, others, complete⟩
    exact ⟨rfl, service.workspace.projects_ordered.sublist sublist,
      fun q member => ⟨sublist.subset member, others q member⟩, complete⟩
  next nonempty =>
    have someDepends : g.dependents p.sourceProject.name ≠ [] := by simpa using nonempty
    refine plays_pure ⟨rfl, filterMap_dependents_ordered .., fun q member => ?_, ?_⟩
    · obtain ⟨n, dependent, found⟩ := List.mem_filterMap.1 member
      obtain ⟨registered, same⟩ := Workspace.project?_eq_some_iff.1 found
      exact ⟨registered, same ▸ finds.others n dependent⟩
    · intro q registered differs here
      have depends := finds.complete someDepends q registered differs here
      exact List.mem_filterMap.2 ⟨q.name, depends,
        Workspace.project?_eq_some_iff.2 ⟨registered, rfl⟩⟩

/-- A graph source that shows either what the specifiers show or no project that depends on the
given one. -/
def GraphSource.IsOpen (source : GraphSource) (project : String) : Prop :=
  source = .imports ∨ ∃ g, source = .fixed g ∧ g.dependents project = []

/-- With such a graph source the projects that are concerned are found. -/
theorem plays_dependentProjects (isOpen : service.graphSource.IsOpen p.sourceProject.name)
    (presents : Presents @perform stands service.finder hidden fit v due)
    (known : service.workspace.alias? p.sourceProject.name = some name) :
    Plays @perform stands (dependentProjects service p name) .empty v fun projects v' =>
      v' = v ∧ Selects service.finder due p name service.workspace v projects := by
  apply plays_dependentProjects_of_finds presents
  rcases isOpen with imports | ⟨g, fixed, none⟩
  · rw [imports]
    apply (does_load presents known).bind
    intro g v' after
    rw [after.1]
    exact Job.does_pure ⟨rfl, g, rfl, after.2⟩
  · rw [fixed]
    exact Job.does_pure ⟨rfl, g, rfl, by simp [none], fun some => absurd none some⟩

/-- With a graph of either kind, the projects found that matter do not depend on what is hidden. -/
theorem exists_candidates (builtIn : service.graphSource.IsBuiltIn) (s : ScanSettings)
    (t : FileTree) (v : Plain) (known : service.workspace.alias? p.sourceProject.name = some name) :
    ∃ chosen,
      ∀ {σ : Type} {perform : {β : Type} → FileOp β → σ → β × σ} {stands : σ → Plain → Prop},
      Sees @perform stands service.finder s t p.keeps p.hides →
        Plays @perform stands (dependentProjects service p name) .empty v fun projects v' =>
          v' = v ∧ projects.filter (isConcerned service.finder s t p.keeps name v) = chosen := by
  by_cases isOpen : service.graphSource.IsOpen p.sourceProject.name
  · refine ⟨concerned service.finder s t p name service.workspace v, fun sees => ?_⟩
    have presents := Job.ListsView.presents sees.lists sees.answers sees.visible v
    exact (plays_dependentProjects isOpen presents known).mono fun _ _ after =>
      ⟨after.1, after.2.filter_eq_concerned⟩
  · rcases builtIn with ⟨g, fixed⟩ | imports
    · have some : g.dependents p.sourceProject.name ≠ [] := fun none =>
        isOpen (.inr ⟨g, fixed, none⟩)
      refine ⟨((g.dependents p.sourceProject.name).filterMap service.workspace.project?).filter
        (isConcerned service.finder s t p.keeps name v), fun {_ perform stands} sees => ?_⟩
      have loads : Does @perform stands (service.graphSource service.workspace) v fun loaded v' =>
          v' = v ∧ ∃ g', loaded = .ok g' ∧ g' = g := by
        rw [fixed]
        exact Job.does_pure ⟨rfl, g, rfl, rfl⟩
      refine (plays_dependentsOf loads).bind ?_
      rintro names c v ⟨rfl, g', rfl, rfl⟩
      rw [if_neg (by simpa using some)]
      exact plays_pure ⟨rfl, rfl⟩
    · exact absurd (.inl imports) isOpen

/-- What propagation comes to does not depend on what is hidden. -/
theorem exists_propagated (builtIn : service.graphSource.IsBuiltIn)
    (exported : p.strategy = .exported) (s : ScanSettings) (t : FileTree) (v : Plain)
    (known : p.sourceAlias? = service.workspace.alias? p.sourceProject.name) :
    ∃ after, ∀ {σ : Type} {perform : {β : Type} → FileOp β → σ → β × σ} {stands : σ → Plain → Prop},
      Sees @perform stands service.finder s t p.keeps p.hides →
        Plays @perform stands (propagate service p) .empty v fun _ v' => v' = after := by
  unfold propagate
  cases named : p.sourceAlias? with
  | none => exact ⟨v, fun _ => plays_pure rfl⟩
  | some name =>
    obtain ⟨chosen, found⟩ := exists_candidates builtIn s t v (known.symm.trans named)
    refine ⟨chosen.foldl (repaired service.finder s t p.keeps p name) v, fun sees =>
      (found sees).bind ?_⟩
    rintro projects c v ⟨rfl, matter⟩
    refine plays_onFiles ((does_listFiles sees projects).bind ?_)
    rintro _ v rfl
    refine (does_repairProjects sees exported name projects v).mono fun _ v' same => ?_
    have settled : Settled service.finder name v v := fun _ _ => rfl
    rw [same, foldl_repaired settled, matter]

end Rehome.Move
