import Rehome.Error
import Rehome.Graph.Basic
import Rehome.Table

/-!
# Loading a graph once

The graph is loaded when it is first asked for; a failed attempt is made again. Answers about
dependents are kept once the graph is there.
-/
namespace Rehome.Graph

structure Cache where
  graph? : Option Graph
  dependents : Table (List String)
  /-- How often loading was attempted. -/
  loads : Nat

namespace Cache

def empty : Cache := ⟨none, .empty, 0⟩

/-- Keeps the result of an attempt to load the graph. -/
def keep (c : Cache) (loaded : Except Error Graph) : Cache :=
  match loaded with
  | .ok g => { c with graph? := some g, loads := c.loads + 1 }
  | .error _ => { c with loads := c.loads + 1 }

/-- The graph, loaded by `load` if it is not there yet. -/
def get.{u} {m : Type → Type u} [Monad m] (c : Cache) (load : m (Except Error Graph)) :
    m (Except Error Graph × Cache) :=
  match c.graph? with
  | some g => return (.ok g, c)
  | none => do
    let loaded ← load
    return (loaded, c.keep loaded)

/-- The projects that depend on one, and whether an earlier answer is given again. Before
the graph is loaded there are none. -/
def dependentsOf (c : Cache) (name : String) : Bool × List String × Cache :=
  match c.graph? with
  | none => (false, [], c)
  | some g =>
    match c.dependents.get? name with
    | some names => (true, names, c)
    | none =>
      let names := g.dependents name
      (false, names, { c with dependents := c.dependents.insert name names })

end Cache
end Rehome.Graph
