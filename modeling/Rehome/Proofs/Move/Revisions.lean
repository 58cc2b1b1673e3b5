import Rehome.Proofs.Job.Rereading
import Rehome.Proofs.Move.Keeping

/-!
# What a move may do to a file

The plan of a move says how the text of every file may be revised: the moved file at its new place,
references to it and to the alias of its old project, the entry points of both projects, and
whatever is formatted. These are the texts that the parser has to read again.
-/
namespace Rehome.Move

open Specifier (Finder Revision History)
open Rehome.Path (isRelative resolve? resolvesTo specifierFor)
open Session

namespace Plan

/-- What the specifiers of the moved file become. -/
def ownChange (p : Plan) (specifier : String) : String :=
  match resolve? p.source specifier with
  | some path => specifierFor p.target path (some specifier)
  | none => specifier

/-- How the moved file is revised at its new place, before anything else happens to it. -/
def ownRevision (p : Plan) : Revision := .replace isRelative p.ownChange

/-- The alias of the old project gives way to the path of the file, or to the alias of the new
project. -/
def aliasRevisions (p : Plan) (path : String) : List Revision :=
  match p.sourceAlias? with
  | none => []
  | some name =>
    .replace (· = name) (fun _ => specifierFor path p.target none) ::
      p.targetAlias?.toList.map fun new => .replace (· = name) fun _ => new

/-- How a move may revise a file, once the moved file is repaired at its new place. -/
def revisions (service : Service) (options : Options) (p : Plan) (path : String) : List Revision :=
  (if path ≠ p.source ∧ path ≠ p.target then
    [.replace (resolvesTo path · p.source) (replacement p p.repairAlias? path)] else []) ++
  (if p.strategy = .exported ∧ path ≠ p.target then p.aliasRevisions path else []) ++
  (if p.strategy = .exported ∧ path ∈ p.sourceProject.entryPoints then
    [.removeExports (resolvesTo path · p.source)] else []) ++
  (if p.PassesOnBy options path then
    [.addExport (specifierFor path p.target none) (resolvesTo path · p.target)] else []) ++
  (if options.format then service.formatter?.toList.map fun format => .format (format path)
    else [])

/-- The texts of the moved file at its new place, before and after it is repaired. -/
def ownTexts (f : Finder) (p : Plan) : List String :=
  p.text :: (p.ownRevision.revise? (f.occurrences p.target p.text) p.text).toList

/-- The texts that a move starts from, and its revisions. The entry point of the new project may be
made. -/
def history (service : Service) (options : Options) (t : FileTree) (p : Plan) : History where
  starts path := (t.text? path).toList ++
    (if path = p.target then p.ownTexts service.finder else []) ++
    (if p.targetProject.primaryEntryPoint? = some path then [""] else [])
  revisions := p.revisions service options

section

variable {service : Service} {options : Options} {t : FileTree} {p : Plan} {path : String}

theorem tree_mem {text : String} (found : t.text? path = some text) :
    text ∈ (p.history service options t).starts path := by
  simp [history, found]

theorem own_mem {text : String} (member : text ∈ p.ownTexts service.finder) :
    text ∈ (p.history service options t).starts p.target := by
  simp [history, member]

theorem entry_mem (first : p.targetProject.primaryEntryPoint? = some path) :
    "" ∈ (p.history service options t).starts path := by
  simp [history, first]

theorem mem_starts {text : String} (h : text ∈ (p.history service options t).starts path) :
    t.text? path = some text ∨ path = p.target ∧ text ∈ p.ownTexts service.finder ∨
      p.targetProject.primaryEntryPoint? = some path ∧ text = "" := by
  simpa [history, or_assoc] using h

theorem reference_mem (atSource : path ≠ p.source) (atTarget : path ≠ p.target) :
    .replace (resolvesTo path · p.source) (replacement p p.repairAlias? path) ∈
      p.revisions service options path := by
  simp [revisions, atSource, atTarget]

theorem localize_mem (exported : p.strategy = .exported) {name : String}
    (named : name ∈ p.sourceAlias?) (atTarget : path ≠ p.target) :
    .replace (· = name) (fun _ => specifierFor path p.target none) ∈
      p.revisions service options path := by
  rw [Option.mem_def] at named
  simp [revisions, aliasRevisions, exported, atTarget, named]

theorem rename_mem (exported : p.strategy = .exported) {name new : String}
    (named : name ∈ p.sourceAlias?) (published : new ∈ p.targetAlias?)
    (atTarget : path ≠ p.target) :
    .replace (· = name) (fun _ => new) ∈ p.revisions service options path := by
  rw [Option.mem_def] at named published
  simp [revisions, aliasRevisions, exported, atTarget, named, published]

theorem remove_mem (exported : p.strategy = .exported)
    (entry : path ∈ p.sourceProject.entryPoints) :
    .removeExports (resolvesTo path · p.source) ∈ p.revisions service options path := by
  simp [revisions, exported, entry]

theorem export_mem (passes : p.PassesOnBy options path) :
    .addExport (specifierFor path p.target none) (resolvesTo path · p.target) ∈
      p.revisions service options path := by
  simp [revisions, passes]

theorem format_mem (asked : options.format = true) {format : String → String → Option String}
    (given : format ∈ service.formatter?) :
    .format (format path) ∈ p.revisions service options path := by
  rw [Option.mem_def] at given
  simp [revisions, asked, given]

end

/-- The parser finds nothing in the texts of a move but what the move left there, and nothing in the
empty text of an entry point that is made. -/
structure IsFollowed (service : Service) (options : Options) (t : FileTree) (p : Plan) : Prop where
  own : service.finder.FindsOnly p.target p.text p.ownRevision
  only : ∀ path, (p.history service options t).Always service.finder path
    (service.finder.FindsOnly path)
  silent : ∀ entry ∈ p.targetProject.primaryEntryPoint?, service.finder.occurrences entry "" = []

/-- The files that have a text in a move. -/
def files (t : FileTree) (p : Plan) : List String :=
  t.files.names ++ p.target :: p.targetProject.primaryEntryPoint?.toList

/-- Where the texts of the files of a move were computed, the parser can be seen to follow it. -/
theorem isFollowed_of_settles {service : Service} {options : Options} {t : FileTree} {p : Plan}
    (n : Nat) (own : service.finder.FindsOnly p.target p.text p.ownRevision)
    (settles : ∀ path ∈ p.files t, (p.history service options t).Settles service.finder path n
      (service.finder.FindsOnly path))
    (silent : ∀ entry ∈ p.targetProject.primaryEntryPoint?,
      service.finder.occurrences entry "" = []) : p.IsFollowed service options t := by
  refine ⟨own, fun path => ?_, silent⟩
  by_cases member : path ∈ p.files t
  · exact (settles path member).always
  · apply History.always_of_no_start
    simp only [files, List.mem_append, List.mem_cons, Option.mem_toList, not_or] at member
    have absent : t.text? path = none := by
      have missing := mt FileTree.isFile_iff.1 member.1
      rw [FileTree.isFile_eq_isSome] at missing
      simpa using missing
    simp [history, absent, member.2.1, member.2.2]

end Plan

/-- Repairing the moved file itself asks for the new condition of what its specifiers become. -/
theorem meets_repairOwn {service : Service} {options : Options} {t : FileTree} {p : Plan} {v : Plain}
    {files known : String → Prop} {fine fine' : String → String → Prop}
    (followed : p.IsFollowed service options t)
    (h : v.Meets service.finder (p.history service options t) files known fine)
    (there : v.tree.text? p.target = some p.text)
    (others : ∀ other, other ≠ p.target → ∀ value, fine other value → fine' other value)
    (here : known p.target → ∀ value, fine p.target value →
      fine' p.target (if isRelative value then p.ownChange value else value)) :
    ((repairOwn p).run (Plain.perform service.finder service.settings) v).2.Meets service.finder
      (p.history service options t) files known fine' := by
  refine h.replaceText service.settings ?_ ?_ others here
  · intro text updated found made
    cases found.symm.trans there
    exact .start (Plan.own_mem (List.mem_cons_of_mem _ (Option.mem_toList.2 made)))
  · intro text found
    cases found.symm.trans there
    exact followed.own

end Rehome.Move
