import Rehome.Proofs.Move.Closure
import Rehome.Proofs.Move.Listings

/-!
# Moves in a row leave no dangling references

A careful move that the parser follows keeps a tree closed, so every row of such moves does. The
parser for modules follows all moves among texts of lines. A move is not careful if a file of
another project refers to the moved file by a relative specifier: such specifiers are not looked at,
and dangle afterwards. Nor can anything be said if a text means something else once a statement was
removed from it.
-/
namespace Rehome.Move

open Specifier (IsListing)
open Rehome.Path (IsCanonical isRelative isWithin)
open Session

variable {service : Service} {t u : FileTree} {p : Plan} {options : Options} {v : Plain}

/-- A closed tree of clean paths. -/
structure IsSound (service : Service) (t : FileTree) : Prop where
  clean : t.IsClean
  closed : IsClosed service t

/-- What a move leaves is closed, if the files that stay and the repaired specifiers are as they
should be. -/
theorem isSound_of_repaired {touched : List String} (before : t.IsClean)
    (alone : ∀ file ∈ t.files.names, isWithin file p.source = true → file = p.source)
    (h : Repaired service options (fun path => IsCanonical path ∧ path ≠ p.source) t p
      ⟨u, touched⟩) :
    IsSound service u := by
  have present : ∀ file, Stays t p file → file ∈ u.files.names := fun file stays =>
    FileTree.isFile_iff.1 (h.present file stays)
  have clean : u.IsClean := fun path member => (h.known_of_mem member).1
  refine ⟨clean, ?_⟩
  intro project registered path listed o member relative
  have reached := (mem_listedFor (clean.solidBelow _)).1 listed
  have differs := (h.known_of_mem (FileTree.mem_reached.1 reached).1).2
  have matters : Matters service t path := by
    intro file
    have outside : isWithin path p.source = false := Bool.eq_false_iff.2 fun within =>
      differs (alone path (FileTree.isFile_iff.1 file) within)
    exact ⟨project, registered, mem_reached_before (before.solidBelow _) present reached outside file⟩
  obtain ⟨⟨file, stays | ⟨never, -⟩, leads⟩, -⟩ := h.fine_of_mem member differs matters relative
  · exact ⟨file, present file stays, leads⟩
  · exact never.elim

section

variable (builtIn : service.graphSource.IsBuiltIn) (plain : HasPlainNames service.workspace)
include builtIn plain

/-- A careful move keeps a tree closed if the parser follows it, and the texts that it leaves are
those that the parser was followed through. -/
theorem IsSound.move (h : IsSound service t) {r : Request} {report : Report} {i : Index}
    (planned : Planned service r options t report p i)
    (careful : Careful service t report.source report.target)
    (followed : p.IsFollowed service options t) :
    IsSound service (run service r options t).tree ∧
      ∀ path text, (run service r options t).tree.text? path = some text →
        (p.history service options t).Version service.finder path text := by
  obtain ⟨-, atSource, atTarget⟩ := planned.reports
  rw [atSource, atTarget] at careful
  have aliases : ∀ name ∈ p.targetAlias?, isRelative name = false := by
    intro name published
    rw [planned.published] at published
    have entry := (Workspace.lookup_eq_some_iff service.workspace.aliases.ordered).1 published
    exact plain.aliases name (List.mem_map.2 ⟨_, entry, rfl⟩)
  have entries := plain.entries _ (service.workspace.owner_mem planned.targetOwner)
  have start := meets_start options h.clean h.closed careful planned.sourceOwner planned.text
    planned.canonical
  have stands : Stands service p i ⟨t, []⟩ :=
    planned.surveyed Index.covers_attends fun j sees _ => sees.covers p.source
  obtain ⟨v, placed, same⟩ := does_place p Index.covers_attends
    (fun root new? covers => covers.relist root new?) trivial i stands
  subst same
  obtain ⟨v', mirrors, repaired⟩ := play_complete followed builtIn planned.passed careful.module
    planned.canonical planned.accepts.free planned.accepts.elsewhere aliases entries placed start
    (by simp [Plain.write])
  rw [planned.tree]
  generalize (play (Index.perform service.finder) (complete service p options) .empty
    ((place p).run (Index.perform service.finder) i).2).2 = j at mirrors
  have left := repaired.of_files mirrors.agree.files_eq []
  exact ⟨isSound_of_repaired h.clean careful.alone left, left.texts⟩

end

/-! ## Rows of moves -/

/-- The trees that careful moves with plans of some kind lead to, one after the other. -/
inductive Reaches (service : Service) (fits : Options → FileTree → Plan → Prop) (t : FileTree) :
    FileTree → Prop
  | start : Reaches service fits t t
  | move {u : FileTree} {r : Request} {options : Options} {report : Report}
      (before : Reaches service fits t u) (accepted : (run service r options u).report = .ok report)
      (careful : Careful service u report.source report.target)
      (plans : ∀ p ∈ plan? service r u, fits options u p) :
      Reaches service fits t (run service r options u).tree

theorem Reaches.moved {fits : Options → FileTree → Plan → Prop} {r : Request}
    (before : Reaches service fits t u) (planned : plan? service r u = some p)
    (done : (run service r options u).report.isOk = true)
    (careful : Careful service u p.source p.target) (plans : fits options u p) :
    Reaches service fits t (run service r options u).tree := by
  cases result : (run service r options u).report with
  | error e =>
    rw [result] at done
    cases done
  | ok report =>
    obtain ⟨p', i, facts⟩ := exists_planned result
    cases planned.symm.trans facts.resolved
    obtain ⟨-, atSource, atTarget⟩ := facts.reports
    refine before.move result (atSource ▸ atTarget ▸ careful) fun p' planned' => ?_
    cases planned.symm.trans planned'
    exact plans

/-- A row of moves that the parser follows keeps a tree closed. -/
theorem IsSound.followed (h : IsSound service t) (builtIn : service.graphSource.IsBuiltIn)
    (plain : HasPlainNames service.workspace)
    (moves : Reaches service (Plan.IsFollowed service) t u) : IsSound service u := by
  induction moves with
  | start => exact h
  | move _ accepted careful plans ih =>
    obtain ⟨p, i, planned⟩ := exists_planned accepted
    exact (ih.move builtIn plain planned careful (plans p planned.resolved)).1

/-- A row of moves among texts of lines keeps a tree closed and leaves texts of lines. -/
theorem IsSound.inLines (h : IsSound service t) (builtIn : service.graphSource.IsBuiltIn)
    (plain : HasPlainNames service.workspace) (lines : service.WritesLines)
    (texts : ∀ path text, t.text? path = some text → IsListing text)
    (moves : Reaches service (fun _ _ => Plan.IsOnLines) t u) :
    IsSound service u ∧ ∀ path text, u.text? path = some text → IsListing text := by
  induction moves with
  | start => exact ⟨h, texts⟩
  | @move u r options report _ accepted careful plans ih =>
    obtain ⟨sound, listings⟩ := ih
    obtain ⟨p, i, planned⟩ := exists_planned accepted
    have onLines := plans p planned.resolved
    obtain ⟨after, versions⟩ := sound.move builtIn plain planned careful
      (planned.isFollowed lines onLines listings)
    exact ⟨after, fun path text found =>
      planned.isListing lines onLines listings (versions path text found)⟩

/-- Every tree that careful moves lead to is closed, if the parser follows the moves. The parser for
modules does so in a tree of lines, with no line breaks in paths and aliases. -/
theorem closed_after_moves (builtIn : service.graphSource.IsBuiltIn)
    (plain : HasPlainNames service.workspace) (clean : t.IsClean) (closed : IsClosed service t) :
    (∀ u, Reaches service (Plan.IsFollowed service) t u → IsClosed service u) ∧
      (service.WritesLines → (∀ path text, t.text? path = some text → IsListing text) →
        ∀ u, Reaches service (fun _ _ => Plan.IsOnLines) t u → IsClosed service u) := by
  have sound : IsSound service t := ⟨clean, closed⟩
  constructor
  · intro u moves
    exact (sound.followed builtIn plain moves).closed
  · intro lines texts u moves
    exact (sound.inLines builtIn plain lines texts moves).1.closed

/-- A file that a module with code imports goes to another project, which is made to pass it on; and
so does one that lines import. -/
theorem closed_after_moves_to_library :
    let s : Service := .pair [] ["libs/b/index.ts"] [("b", "@org/b")]
    let r : Request := ⟨"libs/a/x.ts", .path "libs/b/x.ts"⟩
    let code := FileTree.ofList [("libs/a/main.ts", "import './x';\nf();\n"), ("libs/a/x.ts", "")]
    let lines := FileTree.ofList
      [("libs/a/main.ts", "import './x';\n"), ("libs/a/x.ts", "import './y';\n"),
        ("libs/a/y.ts", "")]
    (run s r {} code).tree.text? "libs/a/main.ts" = some "import '@org/b';\nf();\n" ∧
      IsClosed s (run s r {} code).tree ∧ IsClosed s (run s r {} lines).tree := by
  intro s r code lines
  have plain : HasPlainNames s.workspace := by decide +kernel
  have builtIn : s.graphSource.IsBuiltIn := .inl ⟨_, rfl⟩
  have writes : s.WritesLines := ⟨rfl, by decide +kernel, rfl⟩
  let p (text : String) : Plan := {
    source := "libs/a/x.ts", target := "libs/b/x.ts", text
    sourceProject := ⟨"a", "libs/a", none, .library, []⟩
    targetProject := ⟨"b", "libs/b", none, .library, ["libs/b/index.ts"]⟩
    isExported := false, sourceAlias? := none, targetAlias? := some "@org/b"
    importedInTarget := false }
  refine ⟨by decide +kernel, ?_, ?_⟩
  · have followed : (p "").IsFollowed s {} code :=
      Plan.isFollowed_of_settles 1 (by decide +kernel) (by decide +kernel) (by decide +kernel)
    have moves : Reaches s (Plan.IsFollowed s) code (run s r {} code).tree :=
      Reaches.start.moved (by decide +kernel) (by decide +kernel) (by decide +kernel) followed
    exact (closed_after_moves builtIn plain (by decide +kernel) (by decide +kernel)).1 _ moves
  · have texts : ∀ path text, lines.text? path = some text → IsListing text :=
      forall_text (by decide +kernel)
    have planned : plan? s r lines = some (p "import './y';\n") := by decide +kernel
    have moves : Reaches s (fun _ _ => Plan.IsOnLines) lines (run s r {} lines).tree :=
      Reaches.start.moved planned (by decide +kernel) (by decide +kernel) (by decide +kernel)
    exact (closed_after_moves builtIn plain (by decide +kernel) (by decide +kernel)).2 writes texts _
      moves

/-- A file that went to another project refers back to a file that it needs. If that file moves in
turn, the reference dangles. And where a move removes an export between a name and a regular
expression, the name is divided by what the expression holds: a call in it counts from then on, and
may lead nowhere. -/
theorem dangling_after_moves :
    (let s : Service := .pair [] [] []
      let t := FileTree.ofList
        [("libs/a/x.ts", "import './y';\n"), ("libs/a/y.ts", "export const y = 1;\n")]
      let first := run s ⟨"libs/a/x.ts", .path "libs/b/x.ts"⟩ {} t
      let second := run s ⟨"libs/a/y.ts", .path "libs/a/z.ts"⟩ {} first.tree
      (∀ project ∈ s.workspace.projects, IsCanonical project.root) ∧ t.IsClean ∧ IsClosed s t ∧
        first.report.isOk = true ∧ IsClosed s first.tree ∧ second.report.isOk = true ∧
          ¬IsClosed s second.tree) ∧
    (let s : Service := .pair ["libs/a/index.ts"] [] []
      let t := FileTree.ofList
        [("libs/a/index.ts", "a\nexport * from './x';\n/require('..')/g\n"), ("libs/a/x.ts", "")]
      let moved := run s ⟨"libs/a/x.ts", .path "libs/b/x.ts"⟩ {} t
      HasPlainNames s.workspace ∧ t.IsClean ∧ IsClosed s t ∧
        Careful s t "libs/a/x.ts" "libs/b/x.ts" ∧ moved.report.isOk = true ∧
          moved.tree.text? "libs/a/index.ts" = some "a\n/require('..')/g\n" ∧
            ¬IsClosed s moved.tree) := by
  decide +kernel

end Rehome.Move
