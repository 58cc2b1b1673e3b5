import Rehome.Specifier.Basic

/-!
# Jobs on files

A job is a program of questions about files and changes to them. Keeping it as data separates what
is done from how the questions are answered: the same job runs on a plain tree and on an index with
caches, and what holds for every single step holds for every job.
-/
namespace Rehome

open Specifier (Occurrence)

/-- What a job may ask or do. -/
inductive FileOp : Type → Type where
  /-- Whether a path is a file or a directory with files. -/
  | exist (path : String) : FileOp Bool
  /-- The text of a file. -/
  | read (path : String) : FileOp (Option String)
  | write (path text : String) : FileOp Unit
  | delete (path : String) : FileOp Unit
  /-- The source files below a root, in order. -/
  | sourceFiles (root : String) : FileOp (List String)
  /-- Corrects the list of a root for a file that goes from one path to another. -/
  | relist (root old : String) (new? : Option String) : FileOp Unit
  /-- The specifiers of a file; none if it is missing or cannot be read. -/
  | specifiers (path : String) : FileOp (List Occurrence)
  /-- The paths written or deleted so far, in order. -/
  | touched : FileOp (List String)

inductive Job (α : Type) : Type 1 where
  | done (a : α)
  | step {β : Type} (op : FileOp β) (next : β → Job α)

namespace Job

def bind {α β : Type} : Job α → (α → Job β) → Job β
  | done a, k => k a
  | step op next, k => step op fun b => bind (next b) k

instance : Monad Job where
  pure := done
  bind := bind

/-- The job of one step. -/
def ofOp {α : Type} (op : FileOp α) : Job α := step op done

/-- Runs a job; `perform` answers each step and changes the state. -/
def run {σ : Type} (perform : {β : Type} → FileOp β → σ → β × σ) {α : Type} :
    Job α → σ → α × σ
  | done a, s => (a, s)
  | step op next, s =>
    let (b, s) := perform op s
    run perform (next b) s

def exist (path : String) : Job Bool := ofOp (.exist path)

def read (path : String) : Job (Option String) := ofOp (.read path)

def write (path text : String) : Job Unit := ofOp (.write path text)

def delete (path : String) : Job Unit := ofOp (.delete path)

def sourceFiles (root : String) : Job (List String) := ofOp (.sourceFiles root)

def relist (root old : String) (new? : Option String) : Job Unit := ofOp (.relist root old new?)

def specifiers (path : String) : Job (List Occurrence) := ofOp (.specifiers path)

def touched : Job (List String) := ofOp .touched

end Job
end Rehome
