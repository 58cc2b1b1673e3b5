import Rehome.Names
import Rehome.Table

/-!
# Dependencies between projects

Projects are numbered in the order of their first mention. A table finds the number of a project by
its name, and edges join numbers. A project depends on another one, never on itself, and at most
once.
-/
namespace Rehome

/-- Projects by number, the numbers by name, and the pairs of a project and one it depends on. -/
structure Graph where
  projects : List String
  numbers : Table Nat
  edges : List (Nat × Nat)
  numbered : ∀ name i, numbers.get? name = some i ↔ projects[i]? = some name
  joined : ∀ e ∈ edges, e.1 < projects.length ∧ e.2 < projects.length
  loopless : ∀ e ∈ edges, e.1 ≠ e.2
  simple : edges.Nodup

namespace Graph

def empty : Graph where
  projects := []
  numbers := .empty
  edges := []
  numbered := by simp
  joined := by simp
  loopless := by simp
  simple := .nil

/-- A name without a number gets the next one. -/
theorem numbered_insert (g : Graph) {name : String} (fresh : g.numbers.get? name = none)
    (other : String) (i : Nat) :
    (g.numbers.insert name g.projects.length).get? other = some i ↔
      (g.projects ++ [name])[i]? = some other := by
  have absent : ∀ i, g.projects[i]? ≠ some name := fun i there => by
    rw [(g.numbered name i).2 there] at fresh
    cases fresh
  have bound : ∀ {i}, g.projects[i]? = some other → i < g.projects.length := fun there =>
    (List.getElem?_eq_some_iff.1 there).1
  rw [Table.get?_insert, List.getElem?_append, List.getElem?_singleton]
  by_cases same : name = other
  · subst same
    rw [if_pos rfl]
    split <;> grind
  · rw [if_neg same, g.numbered]
    split <;> grind

/-- The number of a project, which gets the next one if it has none. -/
def addProject (g : Graph) (name : String) : Nat × Graph :=
  match known : g.numbers.get? name with
  | some i => (i, g)
  | none =>
    (g.projects.length,
      { g with
        projects := g.projects ++ [name]
        numbers := g.numbers.insert name g.projects.length
        numbered := g.numbered_insert known
        joined := fun e member => by
          have bounds := g.joined e member
          rw [List.length_append]
          omega })

/-- Joins two projects, unless they are. -/
def updateEdge (g : Graph) (i j : Nat) (left : i < g.projects.length) (right : j < g.projects.length)
    (differ : i ≠ j) : Graph :=
  if known : (i, j) ∈ g.edges then g
  else
    { g with
      edges := g.edges ++ [(i, j)]
      joined := by
        simp only [List.mem_append, List.mem_singleton]
        rintro e (old | rfl)
        · exact g.joined e old
        · exact ⟨left, right⟩
      loopless := by
        simp only [List.mem_append, List.mem_singleton]
        rintro e (old | rfl)
        · exact g.loopless e old
        · exact differ
      simple := by
        rw [List.nodup_append]
        refine ⟨g.simple, by simp, ?_⟩
        rintro e old _ (new : _ ∈ [(i, j)]) rfl
        rw [List.mem_singleton] at new
        exact known (new ▸ old) }

/-- A project stands at its number. -/
theorem getElem?_addProject (g : Graph) (name : String) :
    (g.addProject name).2.projects[(g.addProject name).1]? = some name := by
  unfold addProject
  split
  next i known => exact (g.numbered name i).1 known
  next => simp

/-- A number stays with its project. -/
theorem getElem?_addProject_of_getElem? {g : Graph} {i : Nat} {other : String}
    (there : g.projects[i]? = some other) (name : String) :
    (g.addProject name).2.projects[i]? = some other := by
  unfold addProject
  split
  next => exact there
  next => rw [List.getElem?_append_left (List.getElem?_eq_some_iff.1 there).1, there]

/-- Makes a project depend on another one. -/
def addDependency (g : Graph) (dependent dependency : String) : Graph :=
  if same : dependent = dependency then g
  else
    let first := g.addProject dependent
    let second := first.2.addProject dependency
    have here : second.2.projects[first.1]? = some dependent :=
      getElem?_addProject_of_getElem? (g.getElem?_addProject dependent) dependency
    have there : second.2.projects[second.1]? = some dependency :=
      first.2.getElem?_addProject dependency
    second.2.updateEdge first.1 second.1 (List.getElem?_eq_some_iff.1 here).1
      (List.getElem?_eq_some_iff.1 there).1 fun equal => same (by
        rw [equal, there] at here
        exact (Option.some.inj here).symm)

def ofEdges (edges : List (String × String)) : Graph :=
  edges.foldl (fun g e => g.addDependency e.1 e.2) empty

/-- The projects at the far ends of the edges with a project at the near end, in order. -/
def neighbours (g : Graph) (near far : Nat × Nat → Nat) (name : String) : List String :=
  match g.numbers.get? name with
  | none => []
  | some i => Names.ofList ((g.edges.filter (near · = i)).filterMap (g.projects[far ·]?))

/-- The projects that depend on one, in order. -/
def dependents (g : Graph) (name : String) : List String := g.neighbours (·.2) (·.1) name

/-- The projects that one depends on, in order. -/
def dependencies (g : Graph) (name : String) : List String := g.neighbours (·.1) (·.2) name

end Graph
end Rehome
