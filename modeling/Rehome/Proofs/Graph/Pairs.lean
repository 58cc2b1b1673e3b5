import Rehome.Graph.Basic
import Rehome.Proofs.Table
import Mathlib.Data.Set.Card

/-!
# Graphs as sets of pairs

Edges join numbers of projects. Since a number stands for one name and a name for one number, a
graph is known by the names of its projects and the pairs of names that its edges stand for. What a
call adds to these does not depend on the graph. So after any number of calls a graph holds just the
projects that were mentioned and the pairs that were made dependent, each once, and its answers do
not show in which order the calls came or how often.
-/
namespace Rehome.Graph

variable {g g' g'' : Graph}

/-! ## Names and numbers -/

/-- A name has one number. -/
theorem number_unique {name : String} {i j : ℕ} (left : g.projects[i]? = some name)
    (right : g.projects[j]? = some name) : i = j :=
  Option.some.inj (((g.numbered name i).2 left).symm.trans ((g.numbered name j).2 right))

theorem projects_nodup (g : Graph) : g.projects.Nodup := by
  rw [List.nodup_iff_getElem?_ne_getElem?]
  intro i j less bound same
  rw [List.getElem?_eq_getElem bound] at same
  exact less.ne (number_unique same (List.getElem?_eq_getElem bound))

/-- The names that an edge joins. -/
def named? (g : Graph) (e : ℕ × ℕ) : Option (String × String) := do
  return (← g.projects[e.1]?, ← g.projects[e.2]?)

/-- The pairs of names that the edges stand for. -/
def pairs (g : Graph) : List (String × String) := g.edges.filterMap g.named?

theorem named?_eq_some_iff {e : ℕ × ℕ} {a b : String} :
    g.named? e = some (a, b) ↔ g.projects[e.1]? = some a ∧ g.projects[e.2]? = some b := by
  simp [named?, Option.bind_eq_some_iff]

theorem mem_pairs {a b : String} : (a, b) ∈ g.pairs ↔
    ∃ e ∈ g.edges, g.projects[e.1]? = some a ∧ g.projects[e.2]? = some b := by
  simp only [pairs, List.mem_filterMap, named?_eq_some_iff]

theorem named?_injective {e e' : ℕ × ℕ} {p : String × String} (left : g.named? e = some p)
    (right : g.named? e' = some p) : e = e' := by
  obtain ⟨a, b⟩ := p
  obtain ⟨first, second⟩ := named?_eq_some_iff.1 left
  obtain ⟨first', second'⟩ := named?_eq_some_iff.1 right
  exact Prod.ext (number_unique first first') (number_unique second second')

/-- Each edge stands for a pair of its own. -/
theorem pairs_nodup (g : Graph) : g.pairs.Nodup :=
  g.simple.filterMap fun _ _ _ left right => named?_injective left right

theorem length_pairs (g : Graph) : g.pairs.length = g.edges.length := by
  rw [pairs, List.length_filterMap_eq_countP, List.countP_eq_length]
  intro e member
  obtain ⟨left, right⟩ := g.joined e member
  simp [named?, left, right]

/-! ## Answers -/

/-- The neighbours of a project are found through its number. -/
theorem mem_neighbours {near far : ℕ × ℕ → ℕ} {name other : String} :
    other ∈ g.neighbours near far name ↔
      ∃ e ∈ g.edges, g.projects[near e]? = some name ∧ g.projects[far e]? = some other := by
  unfold neighbours
  split
  next unknown =>
    have absent : ∀ i, g.projects[i]? ≠ some name := fun i there => by
      rw [(g.numbered name i).2 there] at unknown
      cases unknown
    simp [absent]
  next i known =>
    have here := (g.numbered name i).1 known
    simp only [Names.mem_ofList, List.mem_filterMap, List.mem_filter, decide_eq_true_eq]
    constructor
    · rintro ⟨e, ⟨inside, rfl⟩, there⟩
      exact ⟨e, inside, here, there⟩
    · rintro ⟨e, inside, here', there⟩
      exact ⟨e, ⟨inside, number_unique here' here⟩, there⟩

/-- The projects that depend on one are those paired with it. -/
theorem mem_dependents {name other : String} :
    other ∈ g.dependents name ↔ (other, name) ∈ g.pairs := by
  rw [dependents, mem_neighbours, mem_pairs]
  simp only [and_comm]

theorem mem_dependencies {name other : String} :
    other ∈ g.dependencies name ↔ (name, other) ∈ g.pairs := by
  rw [dependencies, mem_neighbours, mem_pairs]

theorem neighbours_ordered (g : Graph) (near far : ℕ × ℕ → ℕ) (name : String) :
    (g.neighbours near far name).Pairwise (· < ·) := by
  unfold neighbours
  split
  · exact .nil
  · exact Names.ofList_ordered _

/-! ## What is added to a graph -/

/-- `g'` has what `g` has, and besides just these projects and pairs. -/
structure Gains (g g' : Graph) (names : String → Prop) (links : String × String → Prop) : Prop where
  projects : ∀ name, name ∈ g'.projects ↔ name ∈ g.projects ∨ names name
  pairs : ∀ e, e ∈ g'.pairs ↔ e ∈ g.pairs ∨ links e

/-- Edges stand for the same pairs when projects are numbered after the others. -/
theorem pairs_of_extends
    (more : ∀ (i : ℕ) name, g.projects[i]? = some name → g'.projects[i]? = some name)
    (same : g'.edges = g.edges) : g'.pairs = g.pairs := by
  unfold pairs
  rw [same]
  refine List.filterMap_congr fun e member => ?_
  obtain ⟨left, right⟩ := g.joined e member
  have first := List.getElem?_eq_getElem left
  have second := List.getElem?_eq_getElem right
  rw [named?_eq_some_iff.2 ⟨first, second⟩]
  exact named?_eq_some_iff.2 ⟨more _ _ first, more _ _ second⟩

theorem edges_addProject (g : Graph) (name : String) : (g.addProject name).2.edges = g.edges := by
  unfold addProject
  split <;> rfl

theorem pairs_addProject (g : Graph) (name : String) : (g.addProject name).2.pairs = g.pairs :=
  pairs_of_extends (fun _ _ there => getElem?_addProject_of_getElem? there name)
    (g.edges_addProject name)

theorem gains_addProject (g : Graph) (name : String) :
    g.Gains (g.addProject name).2 (· = name) (fun _ => False) := by
  refine ⟨fun other => ?_, by simp [pairs_addProject]⟩
  unfold addProject
  split
  next i known =>
    refine ⟨.inl, ?_⟩
    rintro (old | rfl)
    · exact old
    · exact List.mem_of_getElem? ((g.numbered _ i).1 known)
  next => simp

theorem Gains.trans {names names' : String → Prop} {links links' : String × String → Prop}
    (first : g.Gains g' names links) (second : g'.Gains g'' names' links') :
    g.Gains g'' (fun name => names name ∨ names' name) (fun e => links e ∨ links' e) where
  projects name := by rw [second.projects, first.projects, or_assoc]
  pairs e := by rw [second.pairs, first.pairs, or_assoc]

theorem projects_updateEdge {i j : ℕ} (left : i < g.projects.length) (right : j < g.projects.length)
    (differ : i ≠ j) : (g.updateEdge i j left right differ).projects = g.projects := by
  unfold updateEdge
  split <;> rfl

theorem mem_edges_updateEdge {i j : ℕ} (left : i < g.projects.length) (right : j < g.projects.length)
    (differ : i ≠ j) {e : ℕ × ℕ} :
    e ∈ (g.updateEdge i j left right differ).edges ↔ e ∈ g.edges ∨ e = (i, j) := by
  unfold updateEdge
  split
  next known =>
    refine ⟨.inl, ?_⟩
    rintro (old | rfl)
    · exact old
    · exact known
  next => simp

/-- A new edge adds the pair of names at its ends. -/
theorem gains_updateEdge {i j : ℕ} {a b : String} (first : g.projects[i]? = some a)
    (second : g.projects[j]? = some b) (left : i < g.projects.length) (right : j < g.projects.length)
    (differ : i ≠ j) :
    g.Gains (g.updateEdge i j left right differ) (fun _ => False) (· = (a, b)) := by
  refine ⟨by simp [projects_updateEdge], fun ⟨c, d⟩ => ?_⟩
  simp only [mem_pairs, mem_edges_updateEdge, projects_updateEdge, or_and_right, exists_or,
    exists_eq_left, first, second, Option.some.injEq, Prod.mk.injEq]
  exact or_congr_right (and_congr eq_comm eq_comm)

theorem gains_addDependency (g : Graph) (dependent dependency : String) :
    g.Gains (g.addDependency dependent dependency)
      (fun name => dependent ≠ dependency ∧ (name = dependent ∨ name = dependency))
      (fun e => dependent ≠ dependency ∧ e = (dependent, dependency)) := by
  unfold addDependency
  split
  next same => exact ⟨by simp [same], by simp [same]⟩
  next differ =>
    have both := (g.gains_addProject dependent).trans (gains_addProject _ dependency)
    have joins (left right apart) := both.trans (gains_updateEdge
      (getElem?_addProject_of_getElem? (g.getElem?_addProject dependent) dependency)
      (getElem?_addProject _ dependency) left right apart)
    exact ⟨by simpa [differ] using (joins _ _ _).projects, by simpa [differ] using (joins _ _ _).pairs⟩

/-- A loop adds what its steps add. -/
theorem gains_foldl {α : Type} {step : Graph → α → Graph} {names : α → String → Prop}
    {links : α → String × String → Prop} (gains : ∀ g a, Gains g (step g a) (names a) (links a))
    (l : List α) (g : Graph) :
    g.Gains (l.foldl step g) (fun name => ∃ a ∈ l, names a name) (fun e => ∃ a ∈ l, links a e) := by
  induction l generalizing g with
  | nil => exact ⟨by simp, by simp⟩
  | cons a rest ih => simpa using (gains g a).trans (ih (step g a))

/-! ## Runs of calls -/

/-- What can be done to a graph. -/
inductive Call where
  | project (name : String)
  | dependency (dependent dependency : String)
  deriving DecidableEq, Repr

def Call.on (g : Graph) : Call → Graph
  | .project name => (g.addProject name).2
  | .dependency name other => g.addDependency name other

/-- The graph that calls make of the empty one. -/
def ofCalls (calls : List Call) : Graph := calls.foldl Call.on empty

/-- The pairs of different projects that calls make dependent. -/
def linked (calls : List Call) : Set (String × String) :=
  {e | e.1 ≠ e.2 ∧ .dependency e.1 e.2 ∈ calls}

/-- The names that calls mention, those of a project that is to depend on itself left out. -/
def mentioned (calls : List Call) : Set String :=
  {name | .project name ∈ calls ∨ ∃ other, name ≠ other ∧
    (.dependency name other ∈ calls ∨ .dependency other name ∈ calls)}

/-- One call adds what it alone links and mentions. -/
theorem gains_on (g : Graph) (c : Call) :
    g.Gains (c.on g) (· ∈ mentioned [c]) (· ∈ linked [c]) := by
  cases c with
  | project name =>
    have gains := g.gains_addProject name
    refine ⟨fun other => (gains.projects other).trans (or_congr_right ?_), fun e =>
      (gains.pairs e).trans (or_congr_right ?_)⟩
    · simp [mentioned]
    · simp [linked]
  | dependency dependent dependency =>
    have gains := g.gains_addDependency dependent dependency
    refine ⟨fun name => (gains.projects name).trans (or_congr_right ?_), fun e =>
      (gains.pairs e).trans (or_congr_right ?_)⟩
    · simp only [mentioned, Set.mem_ofPred_eq, List.mem_singleton, reduceCtorEq, false_or,
        Call.dependency.injEq]
      constructor
      · rintro ⟨differ, rfl | rfl⟩
        · exact ⟨dependency, differ, .inl ⟨rfl, rfl⟩⟩
        · exact ⟨dependent, differ.symm, .inr ⟨rfl, rfl⟩⟩
      · rintro ⟨other, differ, ⟨rfl, rfl⟩ | ⟨rfl, rfl⟩⟩
        · exact ⟨differ, .inl rfl⟩
        · exact ⟨differ.symm, .inr rfl⟩
    · simp only [linked, Set.mem_ofPred_eq, List.mem_singleton, Call.dependency.injEq, Prod.ext_iff]
      constructor
      · rintro ⟨differ, rfl, rfl⟩
        exact ⟨differ, rfl, rfl⟩
      · rintro ⟨differ, rfl, rfl⟩
        exact ⟨differ, rfl, rfl⟩

theorem mem_pairs_ofCalls {calls : List Call} {e : String × String} :
    e ∈ (ofCalls calls).pairs ↔ e ∈ linked calls := by
  rw [ofCalls, (gains_foldl gains_on calls empty).pairs]
  simp only [linked, Set.mem_ofPred_eq, List.mem_singleton]
  constructor
  · rintro (none | ⟨c, member, differ, rfl⟩)
    · cases none
    · exact ⟨differ, member⟩
  · rintro ⟨differ, member⟩
    exact .inr ⟨_, member, differ, rfl⟩

theorem mem_projects_ofCalls {calls : List Call} {name : String} :
    name ∈ (ofCalls calls).projects ↔ name ∈ mentioned calls := by
  rw [ofCalls, (gains_foldl gains_on calls empty).projects]
  simp only [mentioned, Set.mem_ofPred_eq, List.mem_singleton]
  constructor
  · rintro (none | ⟨c, member, rfl | ⟨other, differ, rfl | rfl⟩⟩)
    · cases none
    · exact .inl member
    · exact .inr ⟨other, differ, .inl member⟩
    · exact .inr ⟨other, differ, .inr member⟩
  · rintro (member | ⟨other, differ, member | member⟩)
    · exact .inr ⟨_, member, .inl rfl⟩
    · exact .inr ⟨_, member, .inr ⟨other, differ, .inl rfl⟩⟩
    · exact .inr ⟨_, member, .inr ⟨other, differ, .inr rfl⟩⟩

/-- A list without repetitions is as long as the set of its members is large. -/
theorem length_eq_ncard {α : Type} {l : List α} {s : Set α} (distinct : l.Nodup)
    (members : ∀ a, a ∈ l ↔ a ∈ s) : l.length = s.ncard := by
  classical
  have same : s = (l.toFinset : Set α) := by
    ext a
    rw [← members, Finset.mem_coe, List.mem_toFinset]
  rw [same, Set.ncard_coe_finset, List.toFinset_card_of_nodup distinct]

theorem length_projects_ofCalls (calls : List Call) :
    (ofCalls calls).projects.length = (mentioned calls).ncard :=
  length_eq_ncard (projects_nodup _) fun _ => mem_projects_ofCalls

/-- There are as many edges as pairs. -/
theorem length_edges_ofCalls (calls : List Call) :
    (ofCalls calls).edges.length = (linked calls).ncard :=
  (length_pairs _).symm.trans (length_eq_ncard (pairs_nodup _) fun _ => mem_pairs_ofCalls)

/-- Two graphs that cannot be told apart by asking for dependents, dependencies and numbers. -/
structure Agrees (g h : Graph) : Prop where
  dependents : ∀ name, g.dependents name = h.dependents name
  dependencies : ∀ name, g.dependencies name = h.dependencies name
  projects : g.projects.length = h.projects.length
  edges : g.edges.length = h.edges.length

theorem linked_mono {calls others : List Call} (sub : calls ⊆ others) :
    linked calls ⊆ linked others :=
  fun _ ⟨differ, member⟩ => ⟨differ, sub member⟩

theorem mentioned_mono {calls others : List Call} (sub : calls ⊆ others) :
    mentioned calls ⊆ mentioned others := by
  rintro name (member | ⟨other, differ, member⟩)
  · exact .inl (sub member)
  · exact .inr ⟨other, differ, member.imp (sub ·) (sub ·)⟩

/-- The same calls in another order, or more or less often, make a graph that cannot be told apart. -/
theorem agrees_ofCalls {calls others : List Call} (sub : calls ⊆ others) (sup : others ⊆ calls) :
    (ofCalls calls).Agrees (ofCalls others) := by
  have links : linked calls = linked others := (linked_mono sub).antisymm (linked_mono sup)
  have names : mentioned calls = mentioned others :=
    (mentioned_mono sub).antisymm (mentioned_mono sup)
  refine ⟨fun name => ?_, fun name => ?_, ?_, ?_⟩
  · refine Names.eq_of_increasing (neighbours_ordered ..) (neighbours_ordered ..) fun other => ?_
    rw [mem_dependents, mem_dependents, mem_pairs_ofCalls, mem_pairs_ofCalls, links]
  · refine Names.eq_of_increasing (neighbours_ordered ..) (neighbours_ordered ..) fun other => ?_
    rw [mem_dependencies, mem_dependencies, mem_pairs_ofCalls, mem_pairs_ofCalls, links]
  · rw [length_projects_ofCalls, names, length_projects_ofCalls]
  · rw [length_edges_ofCalls, links, length_edges_ofCalls]

/-- After any calls a project is a dependent of another one, and the other one a dependency of it,
just if the two differ and some call made it depend on the other one. Each such pair and each name
that was mentioned counts once, and neither the order of the calls nor repetitions show. A list of
edges is the run of its calls. -/
theorem calls_make_set_of_pairs (calls : List Call) :
    (∀ dependent dependency,
      (dependent ∈ (ofCalls calls).dependents dependency ↔
        dependency ∈ (ofCalls calls).dependencies dependent) ∧
      (dependency ∈ (ofCalls calls).dependencies dependent ↔
        dependent ≠ dependency ∧ .dependency dependent dependency ∈ calls)) ∧
      (ofCalls calls).edges.length = (linked calls).ncard ∧
      (ofCalls calls).projects.length = (mentioned calls).ncard ∧
      (∀ others, calls ⊆ others → others ⊆ calls → (ofCalls calls).Agrees (ofCalls others)) ∧
      ∀ edges, ofEdges edges = ofCalls (edges.map fun e => .dependency e.1 e.2) := by
  refine ⟨fun dependent dependency => ⟨?_, ?_⟩, length_edges_ofCalls calls,
    length_projects_ofCalls calls, fun others => agrees_ofCalls, fun edges => ?_⟩
  · rw [mem_dependents, mem_dependencies]
  · rw [mem_dependencies, mem_pairs_ofCalls]
    rfl
  · rw [ofCalls, List.foldl_map]
    rfl

/-- A project that is named by an edge before it is added, a repeated edge and one of a project to
itself, and the same calls backwards. -/
theorem calls_make_set_of_pairs_backwards :
    let calls : List Call := [.dependency "app" "lib", .dependency "core" "core", .project "lib",
      .dependency "lib" "base", .dependency "app" "lib"]
    let others : List Call := [.project "lib", .dependency "lib" "base", .dependency "core" "core",
      .dependency "app" "lib"]
    calls ⊆ others ∧ others ⊆ calls ∧ (ofCalls calls).Agrees (ofCalls others) ∧
      "app" ∈ (ofCalls calls).dependents "lib" ∧ (linked calls).ncard = 2 ∧
      (mentioned calls).ncard = 3 := by
  intro calls others
  have sub : calls ⊆ others := by decide
  have sup : others ⊆ calls := by decide
  obtain ⟨pairs, edges, projects, agree, -⟩ := calls_make_set_of_pairs calls
  refine ⟨sub, sup, agree others sub sup, ?_, ?_, ?_⟩
  · exact (pairs "app" "lib").1.2 ((pairs "app" "lib").2.2 (by decide))
  · rw [← edges]
    decide +kernel
  · rw [← projects]
    decide +kernel

end Rehome.Graph
