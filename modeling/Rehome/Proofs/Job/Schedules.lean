import Rehome.Proofs.Job.Run
import Rehome.Proofs.Job.Search
import Rehome.Proofs.Specifier.Verbatim

/-!
# Every schedule finds the same files

A search for all files answers the candidates that refer to what it looks for, in their order and as
often as they are given, whether it goes through them in turn or shares them between workers, and
whatever happens to the workers. Nothing is assumed of the index that is searched: reading a file
does not change what the index gives out as its texts.
-/
namespace Rehome

/-! ## Reading from an index -/

namespace Index

/-- The index gives out these texts, whatever it keeps. -/
def Shows (i : Index) (texts : String → Option String) : Prop :=
  ∀ path, (i.read path).1 = texts path

theorem Shows.read {i : Index} {texts : String → Option String} (shows : i.Shows texts)
    (path : String) : (i.read path).2.Shows texts := by
  intro other
  rw [← shows other]
  unfold Index.read Index.reading
  cases known : i.texts.get? path with
  | some answer => simp
  | none =>
    by_cases same : path = other
    · subst same
      simp [known, FileTree.askText]
    · simp only [Table.get?_insert, same]
      cases i.texts.get? other with
      | some answer => simp
      | none => simp [FileTree.askText, FileTree.text?, Function.comp_def]

end Index

namespace Search

open Specifier

variable {f : Finder} {q : Query} {i : Index} {texts : String → Option String}

/-- The candidates that can be read, with their texts. -/
def pairs (texts : String → Option String) (candidates : List String) : List (String × String) :=
  candidates.filterMap fun path => (texts path).map (path, ·)

theorem pairs_cons_none {path : String} (missing : texts path = none) (rest : List String) :
    pairs texts (path :: rest) = pairs texts rest := by
  simp [pairs, missing]

theorem pairs_cons_some {path text : String} (shown : texts path = some text)
    (rest : List String) : pairs texts (path :: rest) = (path, text) :: pairs texts rest := by
  simp [pairs, shown]

theorem run_inTurn (shows : i.Shows texts) (extent : Extent) (candidates : List String) :
    ((inTurn f q extent candidates).run (Index.perform f) i).1 =
      inTexts f q extent (pairs texts candidates) := by
  induction candidates generalizing i with
  | nil => rfl
  | cons path rest ih =>
    have later := ih (shows.read path)
    have here : (i.read path).1 = texts path := shows path
    rw [inTurn, Job.run_bind, Job.read, Job.run_ofOp, Index.perform, here]
    cases shown : texts path with
    | none => rwa [pairs_cons_none shown]
    | some text =>
      rw [pairs_cons_some shown, inTexts]
      dsimp only
      by_cases refersTo : refers f q path text = true
      · cases extent with
        | first => simp [refersTo]
        | all =>
          simp only [refersTo, if_true, reduceCtorEq, if_false, Job.run_bind]
          exact congrArg (path :: ·) later
      · simpa [refersTo] using later

theorem run_snapshot (shows : i.Shows texts) (candidates : List String) :
    ((snapshot candidates).run (Index.perform f) i).1 = pairs texts candidates := by
  induction candidates generalizing i with
  | nil => rfl
  | cons path rest ih =>
    have later := ih (shows.read path)
    have here : (i.read path).1 = texts path := shows path
    rw [snapshot, Job.run_bind, Job.read, Job.run_ofOp, Index.perform, here]
    cases shown : texts path with
    | none => rwa [pairs_cons_none shown]
    | some text =>
      rw [pairs_cons_some shown]
      dsimp only
      rw [Job.run_bind]
      exact congrArg ((path, text) :: ·) later

/-! ## Gathering all finds -/

theorem inTexts_all (l : List (String × String)) :
    inTexts f q .all l = (l.filter fun e => refers f q e.1 e.2).map (·.1) := by
  induction l with
  | nil => rfl
  | cons e rest ih =>
    rw [inTexts, List.filter_cons]
    cases refers f q e.1 e.2 with
    | true => simp [ih]
    | false => simp [ih]

theorem inTexts_flatten (parts : List (List (String × String))) :
    inTexts f q .all parts.flatten = parts.flatMap (inTexts f q .all) := by
  induction parts with
  | nil => rfl
  | cons part parts ih => 
    rw [List.flatten_cons, List.flatMap_cons, ← ih]
    simp [inTexts_all]

/-- All finds are put together only if every worker reported, and then in the workers' order. -/
theorem gather_all {reports : List (Option (List String))} {heard arrival : List Nat}
    {found : List String} (reported : ∀ w ∈ heard, ∃ r, reports[w]? = some (some r))
    (gathered : gather .all reports heard arrival = some found) :
    (∀ r ∈ reports, r ≠ none) ∧ found = reports.flatMap (·.getD []) := by
  induction arrival generalizing heard with
  | nil =>
    rw [gather] at gathered
    split at gathered
    next all =>
      cases gathered
      refine ⟨fun r inside => ?_, rfl⟩
      obtain ⟨w, bound, here⟩ := List.mem_iff_getElem.1 inside
      have known : w ∈ heard := by simpa using List.all_eq_true.1 all w (List.mem_range.2 bound)
      obtain ⟨report, there⟩ := reported w known
      rw [List.getElem?_eq_getElem bound, here] at there
      simp [Option.some.inj there]
    next => cases gathered
  | cons w arrival ih =>
    rw [gather] at gathered
    split at gathered
    next => exact ih reported gathered
    next => cases gathered
    next here report =>
      have together : gather .all reports (w :: heard) arrival = some found := by
        simpa using gathered
      refine ih (fun other member => ?_) together
      rcases List.mem_cons.1 member with rfl | old
      · exact ⟨here, report⟩
      · exact reported other old

/-- Workers that all report have searched all parts. -/
theorem flatMap_reports {s : Schedule} {parts : List (List (String × String))}
    (reported : ∀ r ∈ reports f q .all s parts, r ≠ none) :
    (reports f q .all s parts).flatMap (·.getD []) = inTexts f q .all parts.flatten := by
  have each : reports f q .all s parts = parts.map fun part => some (inTexts f q .all part) := by
    refine List.ext_getElem (by simp [reports]) fun w bound _ => ?_
    have fine := reported _ (List.getElem_mem bound)
    simp only [reports, List.getElem_mapIdx, List.getElem_map] at fine ⊢
    split at fine
    · exact absurd rfl fine
    · rw [if_neg ‹_›]
  rw [each, List.flatMap_map, inTexts_flatten]
  rfl

theorem shared_all {s : Schedule} {workers : Nat} {l : List (String × String)}
    {found : List String} (gathered : shared f q .all s workers l = some found) :
    found = inTexts f q .all l := by
  unfold shared at gathered
  dsimp only at gathered
  split at gathered
  · cases gathered
  · obtain ⟨reported, rfl⟩ := gather_all (by simp) gathered
    rw [flatMap_reports reported, chunks_flatten]

/-! ## The whole search -/

theorem run_files_all (shows : i.Shows texts) (settings : ScanSettings) (s : Schedule)
    (candidates : List String) :
    ((files f settings s q .all candidates).run (Index.perform f) i).1 =
      inTexts f q .all (pairs texts candidates) := by
  unfold files
  split
  · exact run_inTurn shows .all candidates
  · rw [Job.run_bind, run_snapshot shows]
    split
    next none =>
      rw [List.isEmpty_iff.1 none]
      rfl
    next =>
      rw [Job.run_pure]
      cases gathered : shared f q .all s settings.workers (pairs texts candidates) with
      | none => rfl
      | some found => exact shared_all gathered

theorem run_any (shows : i.Shows texts) (settings : ScanSettings) (s : Schedule)
    (candidates : List String) :
    ((any f settings s q candidates).run (Index.perform f) i).1 =
      (pairs texts candidates).any fun e => refers f q e.1 e.2 := by
  rw [any, Job.run_bind, Job.run_pure]
  unfold files
  split
  · rw [run_inTurn shows, inTexts_isEmpty, Bool.not_not]
  · rw [Job.run_bind, run_snapshot shows]
    split
    next none =>
      rw [List.isEmpty_iff.1 none]
      rfl
    next =>
      rw [Job.run_pure]
      cases gathered : shared f q .first s settings.workers (pairs texts candidates) with
      | none => rw [Option.getD_none, inTexts_isEmpty, Bool.not_not]
      | some found => rw [Option.getD_some, shared_isEmpty gathered, Bool.not_not]

theorem inTexts_pairs (candidates : List String) :
    inTexts f q .all (pairs texts candidates) =
      candidates.filter fun path => (texts path).any (refers f q path) := by
  rw [inTexts_all]
  induction candidates with
  | nil => rfl
  | cons path rest ih =>
    cases shown : texts path with
    | none => simpa [pairs_cons_none shown, shown] using ih
    | some text =>
      cases refersTo : refers f q path text with
      | true => simpa [pairs_cons_some shown, shown, refersTo] using ih
      | false => simpa [pairs_cons_some shown, shown, refersTo] using ih

/-- A search that finds all files answers the candidates that the parser reads, whose texts pass the
look at the bare text and hold a specifier that is asked for, in the order given and as often as
given; a search for one tells whether there are any. Where values stand in their texts as they are,
the look at the bare text rules out nothing. -/
theorem finds_exactly_referring (f : Finder) (settings : ScanSettings) (s : Schedule) (q : Query)
    (candidates : List String) (i : Index) :
    let holds := fun path => (i.read path).1.any fun text =>
      ((f.read? path text).getD []).any (q.matches ·.value)
    let mayHold := fun path => (i.read path).1.any fun text => mayContain text.toList q.text
    let found := ((files f settings s q .all candidates).run (Index.perform f) i).1
    found = candidates.filter (fun path => f.handles path && mayHold path && holds path) ∧
      (f.IsVerbatim → found = candidates.filter fun path => f.handles path && holds path) ∧
      (((any f settings s q candidates).run (Index.perform f) i).1 = true ↔ found ≠ []) := by
  intro holds mayHold found
  have shows : i.Shows fun path => (i.read path).1 := fun _ => rfl
  have all : found = inTexts f q .all (pairs (fun path => (i.read path).1) candidates) :=
    run_files_all shows settings s candidates
  have narrowed : found =
      candidates.filter fun path => f.handles path && mayHold path && holds path := by
    rw [all, inTexts_pairs]
    refine List.filter_congr fun path _ => ?_
    cases shown : (i.read path).1 with
    | none => simp [mayHold, holds, shown]
    | some text =>
      cases handled : f.handles path <;>
        simp [mayHold, holds, shown, refers, Finder.occurrences, handled]
  refine ⟨narrowed, fun verbatim => ?_, ?_⟩
  · rw [narrowed]
    refine List.filter_congr fun path _ => ?_
    cases handled : f.handles path with
    | false => simp
    | true =>
      cases held : holds path with
      | false => simp
      | true =>
        obtain ⟨text, shown, inside⟩ := (Option.any_eq_true _ _).1 held
        have inside : (f.occurrences path text).any (q.matches ·.value) = true := by
          rwa [Finder.occurrences, if_pos handled]
        simp [mayHold, shown, mayContain_of_matches verbatim inside]
  · rw [run_any shows, all]
    have empty := inTexts_isEmpty f q .all (pairs (fun path => (i.read path).1) candidates)
    rw [← List.isEmpty_eq_false_iff, empty, Bool.not_eq_false']

/-- The first of two workers breaks down; one candidate is missing and one is given twice. -/
theorem finds_exactly_referring_after_breakdown :
    let settings : ScanSettings := { ScanSettings.standard 2 with threshold := 0 }
    let s : Schedule := ⟨List.range, fun worker => worker = 0, fun _ => false⟩
    let i := Index.new (.ofList [("a.ts", "import './x';\n"), ("b.ts", "import \"./\\x78\";\n"),
      ("c.ts", "// './x'\n")]) settings
    let candidates := ["b.ts", "c.ts", "gone.ts", "a.ts", "b.ts"]
    ((files .modules settings s (.exact "./x") .all candidates).run (Index.perform .modules) i).1 =
      ["b.ts", "a.ts", "b.ts"] := by
  intro settings s i candidates
  have found := finds_exactly_referring .modules settings s (.exact "./x") candidates i
  exact (found.2.1 Finder.modules_isVerbatim).trans (by decide +kernel)

/-- A search passes over files whose readable text has the specifier: one that is not of a kind that
is read, though the parser would find the specifier there, and one whose parser finds what the text
does not spell. -/
theorem referring_passed_over :
    (let i := Index.new (.ofList [("a.txt", "import 'q';\n")]) (.standard 1)
      let search := files .modules (.standard 1) .orderly (.exact "q") .all ["a.txt"]
      let read := (Finder.modules.read? "a.txt" "import 'q';\n").getD []
      read.map (·.value) = ["q"] ∧ (search.run (Index.perform .modules) i).1 = []) ∧
    (let f : Finder :=
        ⟨fun _ => true, fun _ _ => some [⟨.staticImport, "q", ⟨0, 0⟩, ⟨0, 0⟩, .single⟩]⟩
      let i := Index.new (.ofList [("a.ts", "")]) (.standard 1)
      let search := files f (.standard 1) .orderly (.exact "q") .all ["a.ts"]
      f.handles "a.ts" = true ∧ (f.occurrences "a.ts" "").map (·.value) = ["q"] ∧
        (search.run (Index.perform f) i).1 = []) := by
  decide +kernel

end Search
end Rehome
