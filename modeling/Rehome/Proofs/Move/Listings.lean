import Rehome.Proofs.Move.Revisions
import Rehome.Proofs.Specifier.Lines

/-!
# Moves among texts of lines

In a tree whose texts are lines of imports and of exports of everything, all that a move writes is
such lines, as long as no path and no alias has a line break. The parser for modules follows such a
move: it finds in every text what the move left there.
-/
namespace Rehome.Move

open Specifier (Finder History IsListing Revision)
open Rehome.Path (resolve?)
open Text (IsLine)

variable {s : Service} {options : Options} {t : FileTree} {p : Plan}

/-- A service that reads modules, and writes neither an alias with a line break nor what a formatter
makes of a text. -/
structure Service.WritesLines (s : Service) : Prop where
  parser : s.finder = .modules
  aliases : ∀ name ∈ s.workspace.aliases.values, IsLine name.toList
  unformatted : s.formatter? = none

/-- A move between paths without line breaks. -/
structure Plan.IsOnLines (p : Plan) : Prop where
  source : IsLine p.source.toList
  target : IsLine p.target.toList

instance (p : Plan) : Decidable p.IsOnLines :=
  decidable_of_iff (IsLine p.source.toList ∧ IsLine p.target.toList)
    ⟨fun ⟨source, target⟩ => ⟨source, target⟩, fun h => ⟨h.source, h.target⟩⟩

theorem Service.WritesLines.isLine_alias (h : s.WritesLines) {project name : String}
    (published : s.workspace.alias? project = some name) : IsLine name.toList := by
  have entry := (Workspace.lookup_eq_some_iff s.workspace.aliases.ordered).1 published
  exact h.aliases name (List.mem_map.2 ⟨_, entry, rfl⟩)

theorem Plan.IsOnLines.ownRevision (lines : p.IsOnLines) : p.ownRevision.WritesLines := by
  intro value fits _
  unfold Plan.ownChange
  split
  next place led => exact Path.isLine_specifierFor _ _ (Path.isLine_resolve? lines.source fits led)
  next => exact fits

theorem Service.WritesLines.silent (h : s.WritesLines) (path : String) :
    s.finder.occurrences path "" = [] := by
  rw [h.parser, Finder.occurrences]
  split
  next =>
    have plain : ∀ l ∈ ([] : List Specifier.Line), l.IsPlain := by simp
    exact congrArg (Option.getD · []) (Specifier.Line.occurrences?_print path plain)
  next => rfl

/-- All that a move writes stands on one line. -/
theorem Plan.IsOnLines.writesLines (lines : p.IsOnLines) (h : s.WritesLines)
    (published : ∀ name ∈ p.targetAlias?, IsLine name.toList) {path : String} {c : Revision}
    (member : c ∈ p.revisions s options path) : c.WritesLines := by
  have way : ∀ model, IsLine (Path.specifierFor path p.target model).toList :=
    fun model => Path.isLine_specifierFor _ _ lines.target
  have references : (Revision.replace (Path.resolvesTo path · p.source)
      (replacement p p.repairAlias? path)).WritesLines := by
    intro value _ _
    unfold replacement
    split
    next name given => exact published name (Plan.mem_targetAlias? given)
    next => exact way (some value)
  have aliases : ∀ c ∈ p.aliasRevisions path, c.WritesLines := by
    intro c member
    unfold Plan.aliasRevisions at member
    split at member
    next => cases member
    next name _ =>
      rcases List.mem_cons.1 member with rfl | renamed
      · exact fun _ _ _ => way none
      · obtain ⟨new, given, rfl⟩ := List.mem_map.1 renamed
        exact fun _ _ _ => published new (Option.mem_toList.1 given)
  simp only [Plan.revisions, h.unformatted, List.mem_append, List.mem_ite_nil_right,
    List.mem_singleton, Option.toList_none, List.map_nil, List.not_mem_nil, and_false,
    or_false] at member
  rcases member with (((⟨-, rfl⟩ | ⟨-, listed⟩) | ⟨-, rfl⟩) | ⟨-, rfl⟩)
  · exact references
  · exact aliases c listed
  · trivial
  · exact way none

/-- What holds of the text of every file that a tree lists holds of all its texts. -/
theorem forall_text {holds : String → Prop}
    (all : ∀ path ∈ t.files.names, ∀ text ∈ t.text? path, holds text) (path text : String)
    (found : t.text? path = some text) : holds text := by
  refine all path (FileTree.isFile_iff.1 ?_) text found
  rw [FileTree.isFile_eq_isSome, found]
  rfl

section

variable {r : Request} {report : Report} {i : Index} (h : s.WritesLines)
  (planned : Planned s r options t report p i) (lines : p.IsOnLines)
include h planned lines

theorem Planned.writesLines {path : String} {c : Revision}
    (member : c ∈ p.revisions s options path) : c.WritesLines := by
  refine lines.writesLines h (fun name given => ?_) member
  rw [planned.published] at given
  exact h.isLine_alias given

variable (texts : ∀ path text, t.text? path = some text → IsListing text)
include texts

/-- Every text of such a move is a text of lines. -/
theorem Planned.isListing {path text : String}
    (version : (p.history s options t).Version s.finder path text) : IsListing text := by
  have moved := texts p.source p.text planned.text
  refine version.among ?_ ?_
  · intro text starts
    rcases Plan.mem_starts starts with there | ⟨-, own⟩ | ⟨-, rfl⟩
    · exact texts path text there
    · rcases List.mem_cons.1 own with rfl | made
      · exact moved
      · rw [Option.mem_toList, h.parser] at made
        exact (moved.revised lines.ownRevision made).1
    · exact ⟨[], rfl, by simp⟩
  · intro text listing c member updated made
    rw [h.parser] at made
    exact (listing.revised (planned.writesLines h lines member) made).1

/-- The parser for modules follows such a move. -/
theorem Planned.isFollowed : p.IsFollowed s options t where
  own := by
    rw [h.parser]
    exact (texts p.source p.text planned.text).findsOnly lines.ownRevision
  only path text version c member := by
    have listing := planned.isListing h lines texts version
    rw [h.parser]
    exact listing.findsOnly (planned.writesLines h lines member)
  silent entry _ := h.silent entry

end

theorem followed_of_lines {r : Request} {report : Report} (h : s.WritesLines)
    (texts : ∀ path text, t.text? path = some text → IsListing text)
    (accepted : (run s r options t).report = .ok report)
    (lines : ∀ p ∈ plan? s r t, p.IsOnLines) : ∀ p ∈ plan? s r t, p.IsFollowed s options t := by
  obtain ⟨p, i, planned⟩ := exists_planned accepted
  intro p' resolved
  cases planned.resolved.symm.trans resolved
  exact planned.isFollowed h (lines p resolved) texts

end Rehome.Move
