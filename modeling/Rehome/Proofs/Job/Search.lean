import Rehome.Job.Search
import Rehome.Proofs.Job.Plain

/-!
# What a search finds

A search for one file finds something exactly if one of the candidates refers to what it looks for.
This holds in turn and for every schedule of workers: workers that break down or are never heard of
only make the search start again in turn.
-/
namespace Rehome.Search

open Specifier

/-! ## Searching texts -/

theorem inTexts_isEmpty (f : Finder) (q : Query) (extent : Extent)
    (texts : List (String × String)) :
    (inTexts f q extent texts).isEmpty = !texts.any fun e => refers f q e.1 e.2 := by
  induction texts with
  | nil => rfl
  | cons e rest ih =>
    rw [inTexts, List.any_cons]
    cases found : refers f q e.1 e.2 with
    | true => cases extent <;> rfl
    | false => simpa using ih

theorem chunks_flatten {α : Type} (size : Nat) (l : List α) : (chunks size l).flatten = l := by
  fun_induction chunks size l with
  | case1 => rfl
  | case2 a rest ih => simp [ih]

/-! ## Gathering reports -/

/-- What the workers heard of so far reported, when none of them found anything. -/
def AllQuiet (reports : List (Option (List String))) (heard : List Nat) : Prop :=
  ∀ w ∈ heard, reports[w]? = some (some [])

/-- Finds that are put together come from a report; and nothing is found only if every worker
reported and none found anything. -/
theorem gather_first {reports : List (Option (List String))} {heard arrival : List Nat}
    {found : List String} (quiet : AllQuiet reports heard)
    (gathered : gather .first reports heard arrival = some found) :
    (found ≠ [] → ∃ r, some r ∈ reports ∧ r ≠ []) ∧ (found = [] → ∀ r ∈ reports, r = some []) := by
  induction arrival generalizing heard with
  | nil =>
    rw [gather] at gathered
    split at gathered
    next all =>
      cases gathered
      constructor
      · intro nonempty
        obtain ⟨path, member⟩ := List.exists_mem_of_ne_nil _ nonempty
        obtain ⟨r, inside, here⟩ := List.mem_flatMap.1 member
        cases r with
        | none => cases here
        | some files => exact ⟨files, inside, List.ne_nil_of_mem here⟩
      · intro _ r inside
        obtain ⟨w, bound, here⟩ := List.mem_iff_getElem.1 inside
        have known : w ∈ heard := by simpa using List.all_eq_true.1 all w (List.mem_range.2 bound)
        have report := quiet w known
        rw [List.getElem?_eq_getElem bound, here] at report
        exact Option.some.inj report
    next => cases gathered
  | cons w arrival ih =>
    rw [gather] at gathered
    split at gathered
    next => exact ih quiet gathered
    next => cases gathered
    next here report =>
      split at gathered
      next nonempty =>
        cases gathered
        have finds : found ≠ [] := by simpa using nonempty
        exact ⟨fun _ => ⟨found, List.mem_of_getElem? report, finds⟩, fun empty =>
          absurd empty finds⟩
      next nothing =>
        have empty : here = [] := by simpa using nothing
        refine ih (fun other member => ?_) gathered
        rcases List.mem_cons.1 member with rfl | old
        · rw [report, empty]
        · exact quiet other old

theorem part_of_report {f : Finder} {q : Query} {extent : Extent} {s : Schedule}
    {parts : List (List (String × String))} {r : List String}
    (member : some r ∈ reports f q extent s parts) : ∃ part ∈ parts,
    r = inTexts f q extent part := by
  obtain ⟨w, bound, here⟩ := List.mem_mapIdx.1 member
  split at here
  · cases here
  · exact ⟨parts[w], List.getElem_mem bound, (Option.some.inj here).symm⟩

theorem report_of_part {f : Finder} {q : Query} {extent : Extent} {s : Schedule}
    {parts : List (List (String × String))} {part : List (String × String)}
    (member : part ∈ parts) :
    none ∈ reports f q extent s parts ∨ some
      (inTexts f q extent part) ∈ reports f q extent s parts := by
  obtain ⟨w, bound, rfl⟩ := List.mem_iff_getElem.1 member
  have report : (if s.breaks w then none else some (inTexts f q extent parts[w])) ∈ reports f q
      extent s parts :=
    List.mem_mapIdx.2 ⟨w, bound, rfl⟩
  split at report
  · exact .inl report
  · exact .inr report

/-- Workers that all report find something exactly if it is there. -/
theorem shared_isEmpty {f : Finder} {q : Query} {s : Schedule} {workers : Nat}
    {texts : List (String × String)} {found : List String}
    (gathered : shared f q .first s workers texts = some found) :
    found.isEmpty = !texts.any fun e => refers f q e.1 e.2 := by
  unfold shared at gathered
  dsimp only at gathered
  split at gathered
  next => cases gathered
  next =>
    obtain ⟨nonempty, empty⟩ := gather_first (by simp [AllQuiet]) gathered
    generalize parts_def : chunks ((texts.length + workers - 1) / workers - 1) texts =
      parts at nonempty empty
    have whole : parts.flatten = texts := parts_def ▸ chunks_flatten ..
    rw [← whole]
    cases found with
    | nil =>
      have nothing : ∀ part ∈ parts, (inTexts f q .first part).isEmpty = true := by
        intro part member
        rcases @report_of_part f q .first s parts part member with broken | report
        · cases empty rfl _ broken
        · rw [Option.some.inj (empty rfl _ report)]
          rfl
      simp only [List.isEmpty_nil, Bool.true_eq, Bool.not_eq_true', List.any_eq_false,
        List.mem_flatten]
      rintro e ⟨part, member, inside⟩ refersTo
      have quiet := nothing part member
      rw [inTexts_isEmpty, Bool.not_eq_true', List.any_eq_false] at quiet
      exact quiet e inside refersTo
    | cons path rest =>
      obtain ⟨r, member, finds⟩ := nonempty (by simp)
      obtain ⟨part, inside, rfl⟩ := part_of_report member
      have here : part.any (fun e => refers f q e.1 e.2) = true := by
        have loud := inTexts_isEmpty f q .first part
        rw [List.isEmpty_eq_false_iff.2 finds] at loud
        simpa using loud
      obtain ⟨e, place, refersTo⟩ := List.any_eq_true.1 here
      have everywhere : parts.flatten.any (fun e => refers f q e.1 e.2) = true :=
        List.any_eq_true.2 ⟨e, List.mem_flatten.2 ⟨part, inside, place⟩, refersTo⟩
      rw [everywhere]
      rfl

/-! ## Searching files -/

/-- A file of a plain state refers to what the query asks for. -/
def RefersIn (f : Finder) (q : Query) (v : Plain) (path : String) : Prop :=
  ∃ text, v.tree.text? path = some text ∧ refers f q path text = true

/-- An answer that is right about the files that are not hidden: if one of them refers it is yes,
and yes needs a file that refers or is hidden. -/
structure Tells (f : Finder) (q : Query) (hidden : String → Prop) (v : Plain)
    (candidates : List String) (answer : Bool) : Prop where
  complete : ∀ path ∈ candidates, ¬ hidden path → RefersIn f q v path → answer = true
  sound : answer = true → ∃ path ∈ candidates, ¬ hidden path → RefersIn f q v path

section Files

variable {σ : Type} {perform : {β : Type} → FileOp β → σ → β × σ} {stands : σ → Plain → Prop}
  {v : Plain} {f : Finder} {hidden : String → Prop} {fit : Plain → String → Prop}

open Job (Does Answers)

theorem Tells.skip {q : Query} {path : String} {rest : List String} {answer : Bool}
    (here : ¬ hidden path → ¬ RefersIn f q v path) (later : Tells f q hidden v rest answer) :
    Tells f q hidden v (path :: rest) answer := by
  refine ⟨fun p member visible refersTo => ?_, fun yes => ?_⟩
  · rcases List.mem_cons.1 member with rfl | tail
    · exact absurd refersTo (here visible)
    · exact later.complete p tail visible refersTo
  · obtain ⟨p, tail, refersTo⟩ := later.sound yes
    exact ⟨p, List.mem_cons_of_mem path tail, refersTo⟩

theorem does_inTurn (answers : Answers @perform stands f hidden fit) (q : Query) (extent : Extent)
    (candidates : List String) :
    Does @perform stands (inTurn f q extent candidates) v fun found v' =>
      v' = v ∧ Tells f q hidden v candidates (!found.isEmpty) := by
  induction candidates with
  | nil => exact Job.does_pure ⟨rfl, by simp, by simp⟩
  | cons path rest ih =>
    refine (Job.does_read answers path).bind ?_
    rintro text? v ⟨rfl, answer⟩
    cases text? with
    | none =>
      refine ih.mono fun found w ⟨same, tells⟩ => ⟨same, tells.skip fun visible => ?_⟩
      rintro ⟨text, present, -⟩
      rw [← answer visible] at present
      cases present
    | some text =>
      have known : ∀ {other}, ¬ hidden path → v.tree.text? path = some other → other = text :=
        fun visible present => by
        rw [← answer visible] at present
        exact (Option.some.inj present).symm
      cases found : refers f q path text with
      | true =>
        have tells : ∀ rest' : List String,
            Tells f q hidden v (path :: rest) (!(path :: rest').isEmpty) := fun _ =>
          ⟨fun _ _ _ _ => rfl, fun _ =>
            ⟨path, by simp, fun visible => ⟨text, (answer visible).symm, found⟩⟩⟩
        cases extent with
        | first =>
          simp only [found, if_true]
          exact Job.does_pure ⟨rfl, tells []⟩
        | all =>
          simp only [found, if_true]
          refine Does.bind ih fun later w ⟨same, _⟩ => Job.does_pure ⟨same, tells later⟩
      | false =>
        simp only [found]
        refine ih.mono fun later w ⟨same, tells⟩ => ⟨same, tells.skip fun visible => ?_⟩
        rintro ⟨other, present, refersTo⟩
        rw [known visible present, found] at refersTo
        cases refersTo

/-- Texts that were read: all of the files that are not hidden, as they are. -/
structure Copies (hidden : String → Prop) (v : Plain) (candidates : List String)
    (texts : List (String × String)) :
    Prop where
  complete : ∀ path ∈ candidates, ¬ hidden path → ∀ text, v.tree.text? path = some text →
    (path, text) ∈ texts
  sound : ∀ e ∈ texts, e.1 ∈ candidates ∧ (¬ hidden e.1 → v.tree.text? e.1 = some e.2)

theorem does_snapshot (answers : Answers @perform stands f hidden fit) (candidates : List String) :
    Does @perform stands (snapshot candidates) v fun texts v' => v' = v ∧
      Copies hidden v candidates texts := by
  induction candidates with
  | nil => exact Job.does_pure ⟨rfl, by simp, by simp⟩
  | cons path rest ih =>
    refine (Job.does_read answers path).bind ?_
    rintro text? v ⟨rfl, answer⟩
    cases text? with
    | none =>
      refine ih.mono fun texts w ⟨same, copies⟩ =>
        ⟨same, fun p member visible text present => ?_, fun e inside => ?_⟩
      · rcases List.mem_cons.1 member with rfl | tail
        · rw [← answer visible] at present
          cases present
        · exact copies.complete p tail visible text present
      · exact ⟨List.mem_cons_of_mem path (copies.sound e inside).1, (copies.sound e inside).2⟩
    | some text =>
      refine Does.bind ih fun texts w ⟨same, copies⟩ => Job.does_pure
        ⟨same, fun p member visible other present => ?_, fun e inside => ?_⟩
      · rcases List.mem_cons.1 member with rfl | tail
        · rw [← answer visible] at present
          cases present
          exact List.mem_cons_self
        · exact List.mem_cons_of_mem _ (copies.complete p tail visible other present)
      · rcases List.mem_cons.1 inside with rfl | later
        · exact ⟨List.mem_cons_self, fun visible => (answer visible).symm⟩
        · exact ⟨List.mem_cons_of_mem path (copies.sound e later).1, (copies.sound e later).2⟩

theorem Copies.tells {q : Query} {candidates : List String} {texts : List (String × String)}
    {answer : Bool} (copies : Copies hidden v candidates texts)
    (found : answer = texts.any fun e => refers f q e.1 e.2) :
    Tells f q hidden v candidates answer := by
  subst found
  refine ⟨fun path member visible ⟨text, present, refersTo⟩ => ?_, fun yes => ?_⟩
  · exact List.any_eq_true.2 ⟨_, copies.complete path member visible text present, refersTo⟩
  · obtain ⟨e, inside, refersTo⟩ := List.any_eq_true.1 yes
    obtain ⟨member, text⟩ := copies.sound e inside
    exact ⟨e.1, member, fun visible => ⟨e.2, text visible, refersTo⟩⟩

/-- A search changes nothing and tells whether a candidate refers. -/
theorem does_any (answers : Answers @perform stands f hidden fit) (settings : ScanSettings)
    (s : Schedule) (q : Query) (candidates : List String) :
    Does @perform stands (any f settings s q candidates) v fun answer v' =>
      v' = v ∧ Tells f q hidden v candidates answer := by
  have searched : Does @perform stands (files f settings s q .first candidates) v fun found v' =>
      v' = v ∧ Tells f q hidden v candidates (!found.isEmpty) := by
    unfold files
    split
    · exact does_inTurn answers q .first candidates
    · refine (does_snapshot answers candidates).bind fun texts w ⟨same, copies⟩ => ?_
      subst same
      split
      next none =>
        refine Job.does_pure ⟨rfl, copies.tells ?_⟩
        rw [List.isEmpty_iff.1 none]
        rfl
      next =>
        refine Job.does_pure ⟨rfl, copies.tells ?_⟩
        cases gathered : shared f q .first s settings.workers texts with
        | none => rw [Option.getD_none, inTexts_isEmpty, Bool.not_not]
        | some found => rw [Option.getD_some, shared_isEmpty gathered, Bool.not_not]
  exact searched.bind fun found w facts => Job.does_pure facts

end Files
end Rehome.Search
