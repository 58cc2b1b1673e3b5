import Rehome.Move.Request

/-!
# Running jobs and sessions

A job is run by answering its steps one after the other, so running a composed job is running its
parts in turn. A session adds the graph and failures; what follows a failure is not run.
-/
namespace Rehome

namespace Job

variable {σ α β : Type} (perform : {β : Type} → FileOp β → σ → β × σ)

@[simp] theorem run_pure (a : α) (s : σ) : run @perform (pure a : Job α) s = (a, s) := rfl

theorem run_step (op : FileOp β) (next : β → Job α) (s : σ) :
    run @perform (.step op next) s = run @perform (next (perform op s).1) (perform op s).2 := rfl

theorem run_bind (t : Job α) (k : α → Job β) (s : σ) :
    run @perform (t >>= k) s = run @perform (k (run @perform t s).1) (run @perform t s).2 := by
  change run @perform (t.bind k) s = _
  induction t generalizing s with
  | done a => rfl
  | step op next ih => exact ih (perform op s).1 (perform op s).2

@[simp] theorem run_ofOp (op : FileOp α) (s : σ) : run @perform (ofOp op) s = perform op s := rfl

end Job

namespace Move

namespace Session

variable {σ α β : Type} (perform : {β : Type} → FileOp β → σ → β × σ)

/-- Runs a session: the result, the graph as far as it is known then, and the state. -/
def play (x : Session α) (c : Graph.Cache) (s : σ) : (Except Error α × Graph.Cache) × σ :=
  Job.run @perform (x.run.run c) s

@[simp] theorem play_pure (a : α) (c : Graph.Cache) (s : σ) :
    play @perform (pure a : Session α) c s = ((.ok a, c), s) := rfl

theorem play_bind (x : Session α) (k : α → Session β) (c : Graph.Cache) (s : σ) :
    play @perform (x >>= k) c s =
      match play @perform x c s with
      | ((.ok a, c'), s') => play @perform (k a) c' s'
      | ((.error e, c'), s') => ((.error e, c'), s') := by
  have parts : play @perform (x >>= k) c s =
      Job.run @perform (ExceptT.bindCont k (play @perform x c s).1.1 (play @perform x c s).1.2)
        (play @perform x c s).2 := Job.run_bind @perform (x.run.run c) _ s
  rw [parts]
  generalize play @perform x c s = outcome
  obtain ⟨⟨result, c'⟩, s'⟩ := outcome
  cases result with
  | ok a => rfl
  | error e => rfl

@[simp] theorem play_onFiles (t : Job α) (c : Graph.Cache) (s : σ) :
    play @perform (onFiles t) c s = ((.ok (t.run @perform s).1, c), (t.run @perform s).2) := by
  change Job.run @perform ((t >>= fun a => pure (a, c)) >>= fun r =>
    pure (Except.ok r.1, r.2)) s = _
  rw [Job.run_bind, Job.run_bind]
  rfl

theorem play_onFiles_bind (t : Job α) (k : α → Session β) (c : Graph.Cache) (s : σ) :
    play @perform (onFiles t >>= k) c s = play @perform (k (t.run @perform s).1) c
      (t.run @perform s).2 := by
  rw [play_bind, play_onFiles]

@[simp] theorem play_check (e : Except Error α) (c : Graph.Cache) (s : σ) :
    play @perform (check e) c s = ((e, c), s) := rfl

@[simp] theorem play_get (c : Graph.Cache) (s : σ) :
    play @perform (get : Session Graph.Cache) c s = ((.ok c, c), s) := rfl

@[simp] theorem play_set (next c : Graph.Cache) (s : σ) :
    play @perform (set next : Session PUnit) c s = ((.ok ⟨⟩, next), s) := rfl

end Session

/-- The graph is known beforehand or read off the specifiers. -/
def GraphSource.IsBuiltIn (g : GraphSource) : Prop := (∃ graph, g = .fixed graph) ∨ g = .imports

end Move
end Rehome
