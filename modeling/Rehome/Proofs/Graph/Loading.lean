import Rehome.Graph.Cache

/-!
# Runs of calls on a graph that is loaded once

A cache is asked for its graph, each time with a way to load one, and for the dependents of
projects. What it keeps about dependents is taken from the graph that it keeps, so nothing is kept
before a graph was loaded. A call is answered from the first graph that was loaded before it, and a
run repeats this step.
-/
namespace Rehome.Graph.Cache

/-- What a cache can be asked: its graph, with what loading one would come to, and the dependents of a
project. -/
inductive Call where
  | graph (outcome : Except Error Graph)
  | dependents (name : String)

/-- Answers of a cache. One about the graph tells whether the graph was loaded for it. -/
inductive Answer where
  | graph (ran : Bool) (result : Except Error Graph)
  | dependents (names : List String)

/-- Whether a graph was loaded for an answer. -/
def Answer.ran : Answer → Bool
  | .graph ran _ => ran
  | .dependents _ => false

/-- Comes to an outcome, and notes that it was run. -/
def noted (outcome : Except Error Graph) : StateM Bool (Except Error Graph) := do
  set true
  return outcome

/-- The answer of a cache to a call, and the cache afterwards. -/
def Call.on (c : Cache) : Call → Answer × Cache
  | .graph outcome =>
    let ((result, c), ran) := (c.get (noted outcome)).run false
    (.graph ran result, c)
  | .dependents name =>
    let (_, names, c) := c.dependentsOf name
    (.dependents names, c)

/-- The answers to calls that follow one another. -/
def answers (c : Cache) : List Call → List Answer
  | [] => []
  | call :: calls => (call.on c).1 :: answers (call.on c).2 calls

/-- The cache after calls. -/
def after (c : Cache) : List Call → Cache
  | [] => c
  | call :: calls => after (call.on c).2 calls

/-! ## What is due to a call -/

/-- The graph that a call loads, if it is run. -/
def Call.loaded? : Call → Option Graph
  | .graph (.ok g) => some g
  | _ => none

/-- The first graph that is loaded along some calls. -/
def firstLoaded? (calls : List Call) : Option Graph := calls.findSome? Call.loaded?

/-- The answer that is due to a call once this graph is loaded, or before there is one: a graph is
loaded only if there is none, and before that nobody depends on anything. -/
def Call.due : Option Graph → Call → Answer
  | none, .graph outcome => .graph true outcome
  | some g, .graph _ => .graph false (.ok g)
  | none, .dependents _ => .dependents []
  | some g, .dependents name => .dependents (g.dependents name)

/-- A cache with this graph, or without one, that keeps only dependents in its graph. -/
structure Keeps (c : Cache) (known? : Option Graph) : Prop where
  graph : c.graph? = known?
  dependents : ∀ name names, c.dependents.get? name = some names →
    ∃ g, known? = some g ∧ names = g.dependents name

theorem keeps_empty : empty.Keeps none := by
  refine ⟨rfl, fun name names kept => ?_⟩
  cases kept

variable {c : Cache} {known? : Option Graph}

/-- The graph that is there is the answer, and nothing is run. -/
theorem on_graph_of_some {g : Graph} (known : c.graph? = some g) (outcome : Except Error Graph) :
    (Call.graph outcome).on c = (.graph false (.ok g), c) := by
  simp only [Call.on, get, known]
  rfl

theorem on_graph_of_none (unknown : c.graph? = none) (outcome : Except Error Graph) :
    (Call.graph outcome).on c = (.graph true outcome, c.keep outcome) := by
  simp only [Call.on, get, unknown]
  rfl

/-- Asking for dependents leaves the graph alone and loads nothing. -/
theorem on_dependents_frame (c : Cache) (name : String) :
    ∃ dependents, ((Call.dependents name).on c).2 = { c with dependents } := by
  simp only [Call.on, dependentsOf]
  split
  · exact ⟨c.dependents, rfl⟩
  · split
    · exact ⟨c.dependents, rfl⟩
    · exact ⟨_, rfl⟩

/-- One call is given the answer that is due to it. If there was no graph before, there is one
afterwards just if the call loaded it. -/
theorem Keeps.on (h : c.Keeps known?) (call : Call) :
    (call.on c).1 = call.due known? ∧ (call.on c).2.Keeps (known?.or call.loaded?) := by
  obtain ⟨graph, kept⟩ := h
  cases call with
  | graph outcome =>
    cases known? with
    | some g =>
      rw [on_graph_of_some graph]
      exact ⟨rfl, graph, kept⟩
    | none =>
      rw [on_graph_of_none graph]
      refine ⟨rfl, ?_, fun name names found => ?_⟩
      · cases outcome with
        | ok g => rfl
        | error e => exact graph
      · have early : c.dependents.get? name = some names := by
          cases outcome <;> exact found
        obtain ⟨g, absent, -⟩ := kept name names early
        cases absent
  | dependents name =>
    cases known? with
    | none =>
      have same : (Call.dependents name).on c = (.dependents [], c) := by
        simp only [Call.on, dependentsOf, graph]
      rw [same]
      exact ⟨rfl, graph, kept⟩
    | some g =>
      cases found : c.dependents.get? name with
      | some names =>
        obtain ⟨_, same, rfl⟩ := kept name names found
        cases same
        have again : (Call.dependents name).on c = (.dependents (g.dependents name), c) := by
          simp only [Call.on, dependentsOf, graph, found]
        rw [again]
        exact ⟨rfl, graph, kept⟩
      | none =>
        have keeps : (Call.dependents name).on c = (.dependents (g.dependents name),
            { c with dependents := c.dependents.insert name (g.dependents name) }) := by
          simp only [Call.on, dependentsOf, graph, found]
        rw [keeps]
        refine ⟨rfl, graph, fun other names known => ?_⟩
        rw [Table.get?_insert] at known
        split at known
        next here => exact ⟨g, rfl, by rw [← Option.some.inj known, here]⟩
        next => exact kept other names known

theorem Keeps.after (h : c.Keeps known?) (calls : List Call) :
    (c.after calls).Keeps (known?.or (firstLoaded? calls)) := by
  induction calls generalizing c known? with
  | nil => rwa [firstLoaded?, List.findSome?_nil, Option.or_none]
  | cons call calls ih =>
    have next := ih (h.on call).2
    rw [Option.or_assoc] at next
    have first : firstLoaded? (call :: calls) = call.loaded?.or (firstLoaded? calls) := by
      rw [firstLoaded?, List.findSome?_cons]
      cases call.loaded? <;> rfl
    rw [first]
    exact next

/-- The answers to the calls before one do not depend on it, and its own depends on them only
through the cache that they leave. -/
theorem answers_append (c : Cache) (before later : List Call) :
    c.answers (before ++ later) = c.answers before ++ (c.after before).answers later := by
  induction before generalizing c with
  | nil => rfl
  | cons call before ih =>
    rw [List.cons_append, answers, ih]
    rfl

theorem length_answers (c : Cache) (calls : List Call) : (c.answers calls).length = calls.length := by
  induction calls generalizing c with
  | nil => rfl
  | cons call calls ih => rw [answers, List.length_cons, List.length_cons, ih]

/-- Every call of a run is given the answer that is due after the calls before it. -/
theorem answer_due (before : List Call) (call : Call) (later : List Call) :
    (empty.answers (before ++ call :: later))[before.length]? =
      some (call.due (firstLoaded? before)) := by
  have keeps := keeps_empty.after before
  rw [Option.none_or] at keeps
  rw [answers_append, List.getElem?_append_right (Nat.le_of_eq (length_answers empty before)),
    length_answers, Nat.sub_self, answers, List.getElem?_cons_zero, (keeps.on call).1]

/-- Each time a graph is loaded counts. -/
theorem loads_after (c : Cache) (calls : List Call) :
    (c.after calls).loads = c.loads + (c.answers calls).countP Answer.ran := by
  induction calls generalizing c with
  | nil => rfl
  | cons call calls ih =>
    have step : (call.on c).2.loads = c.loads + if (call.on c).1.ran then 1 else 0 := by
      cases call with
      | graph outcome =>
        cases known : c.graph? with
        | some g =>
          rw [on_graph_of_some known]
          rfl
        | none =>
          rw [on_graph_of_none known]
          cases outcome <;> rfl
      | dependents name =>
        obtain ⟨dependents, frame⟩ := c.on_dependents_frame name
        rw [frame]
        rfl
    rw [after, ih, step, answers, List.countP_cons]
    omega

end Rehome.Graph.Cache
