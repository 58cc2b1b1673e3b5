import Rehome.Proofs.Path.Relative

/-!
# Cleaning is folding

Cleaning walks the segments of a path with a stack of names: an ordinary segment is put on it, `..`
takes one off, and the rest does nothing. The walk fails where nothing is left to take off, so a
path is refused exactly if somewhere along its segments it has gone up more often than down. A walk
that stops and goes on ends where the walk in one go ends, so a path may be cleaned in parts.
-/
namespace Rehome.Path

/-- A segment that leads down: a directory or a file. -/
def isOrdinary (s : String) : Bool := s ≠ "" ∧ s ≠ "." ∧ s ≠ ".."

/-! ## One segment -/

/-- The names kept after one more segment, newest first. -/
def enter? (kept : List String) (s : String) : Option (List String) :=
  if isOrdinary s then some (s :: kept) else if s = ".." then kept.tail? else some kept

/-- Only a step up can fail, and only where nothing is kept. -/
theorem enter?_eq_none_iff {kept : List String} {s : String} :
    enter? kept s = none ↔ kept = [] ∧ s = ".." := by
  unfold enter?
  split
  next down =>
    have notUp : s ≠ ".." := by
      rintro rfl
      cases down
    simp [notUp]
  next =>
    split
    next up => cases kept <;> simp [up]
    next notUp => simp [notUp]

/-- An ordinary segment adds a name, a step up removes one. -/
theorem enter?_length {kept next : List String} {s : String} (entered : enter? kept s = some next) :
    next.length + [s].count ".." = kept.length + [s].countP isOrdinary := by
  unfold enter? at entered
  split at entered
  next down =>
    obtain rfl := Option.some.inj entered
    have notUp : s ≠ ".." := by
      rintro rfl
      cases down
    simp [down, notUp]
  next notDown =>
    split at entered
    next up =>
      cases kept with
      | nil => cases entered
      | cons k kept =>
        obtain rfl := Option.some.inj entered
        simp [up, isOrdinary]
    next notUp =>
      obtain rfl := Option.some.inj entered
      simp [notDown, notUp]

/-- The kept names stay in the order of the segments. -/
theorem enter?_sublist {kept next : List String} {s : String}
    (entered : enter? kept s = some next) :
    next.reverse.Sublist (kept.reverse ++ [s]) := by
  unfold enter? at entered
  split at entered
  · obtain rfl := Option.some.inj entered
    simp
  · split at entered
    · cases kept with
      | nil => cases entered
      | cons k kept =>
        obtain rfl := Option.some.inj entered
        simp [List.append_assoc]
    · obtain rfl := Option.some.inj entered
      exact List.sublist_append_left ..

/-! ## All segments -/

/-- Walking the segments is entering them one by one. -/
theorem collapse_eq_foldlM (kept segs : List String) :
    collapse kept segs = (segs.foldlM enter? kept).map List.reverse := by
  induction segs generalizing kept with
  | nil => rfl
  | cons s segs ih =>
    rw [List.foldlM_cons]
    by_cases blank : s = "" ∨ s = "."
    · have skips : enter? kept s = some kept := by
        rcases blank with rfl | rfl <;> rfl
      have same : collapse kept (s :: segs) = collapse kept segs := by
        cases kept <;> simp only [collapse, if_pos blank]
      rw [skips, same]
      exact ih kept
    · by_cases up : s = ".."
      · subst up
        cases kept with
        | nil => rfl
        | cons k kept => exact ih kept
      · have down : isOrdinary s = true := by
          simpa [isOrdinary, up, not_or] using blank
        have same : collapse kept (s :: segs) = collapse (s :: kept) segs := by
          cases kept <;> simp only [collapse, if_neg blank, if_neg up]
        rw [enter?, if_pos down, same]
        exact ih (s :: kept)

/-- The walk fails exactly if some first segments go up more often than there are names kept before
and names met among them. -/
theorem foldlM_enter?_eq_none_iff {kept segs : List String} :
    segs.foldlM enter? kept = none ↔
      ∃ front, front <+: segs ∧ kept.length + front.countP isOrdinary < front.count ".." := by
  induction segs generalizing kept with
  | nil => simp
  | cons s segs ih =>
    rw [List.foldlM_cons]
    cases entered : enter? kept s with
    | none =>
      obtain ⟨rfl, rfl⟩ := enter?_eq_none_iff.1 entered
      exact iff_of_true rfl ⟨[".."], List.prefix_append [".."] segs, by decide⟩
    | some next =>
      have size := enter?_length entered
      have counts : ∀ front : List String,
          (s :: front).countP isOrdinary = [s].countP isOrdinary + front.countP isOrdinary ∧
            (s :: front).count ".." = [s].count ".." + front.count ".." :=
        fun front => ⟨by rw [← List.singleton_append, List.countP_append],
          by rw [← List.singleton_append, List.count_append]⟩
      refine ih.trans ⟨?_, ?_⟩
      · rintro ⟨front, ahead, short⟩
        have parts := counts front
        exact ⟨s :: front, (List.prefix_cons_inj s).2 ahead, by omega⟩
      · rintro ⟨front, ahead, short⟩
        rcases List.prefix_cons_iff.1 ahead with rfl | ⟨front, rfl, later⟩
        · cases short
        · have parts := counts front
          exact ⟨front, later, by omega⟩

/-- What is kept at the end are segments, in their order, as many as there were more steps down than
up. -/
theorem foldlM_enter?_eq_some {kept segs final : List String}
    (walked : segs.foldlM enter? kept = some final) :
    final.reverse.Sublist (kept.reverse ++ segs) ∧
      final.length + segs.count ".." = kept.length + segs.countP isOrdinary := by
  induction segs generalizing kept with
  | nil =>
    obtain rfl := Option.some.inj walked
    simp
  | cons s segs ih =>
    rw [List.foldlM_cons, Option.bind_eq_bind, Option.bind_eq_some_iff] at walked
    obtain ⟨next, entered, walked⟩ := walked
    obtain ⟨order, count⟩ := ih walked
    refine ⟨?_, ?_⟩
    · have longer := order.trans ((enter?_sublist entered).append_right segs)
      rwa [List.append_assoc, List.singleton_append] at longer
    · have size := enter?_length entered
      rw [← List.singleton_append, List.count_append, List.countP_append]
      omega

/-! ## Paths -/

theorem normalize?_eq_foldlM (path : String) :
    normalize? path =
      ((segments path).foldlM enter? []).map fun kept => String.intercalate "/" kept.reverse := by
  rw [normalize?, collapse_eq_foldlM, Option.map_map]
  rfl

/-- The walk along a clean path keeps its names. -/
theorem Spells.foldlM_enter? {path : String} {names : List String} (h : Spells path names) :
    (segments path).foldlM enter? [] = some names.reverse := by
  have walked : collapse [] (segments path) = some names := by
    cases names with
    | nil =>
      rw [h.text]
      decide
    | cons s names =>
      rw [h.text, segments_intercalate (by simp) fun x member => (h.plain x member).free,
        collapse_of_names h.plain]
      rfl
  rw [collapse_eq_foldlM, Option.map_eq_some_iff] at walked
  obtain ⟨kept, walked, rfl⟩ := walked
  rw [walked, List.reverse_reverse]

/-- What a walk keeps are the names of the path that it leads to. -/
theorem spells_of_walk {path : String} {kept : List String}
    (walked : (segments path).foldlM enter? [] = some kept) :
    Spells (String.intercalate "/" kept.reverse) kept.reverse := by
  have collapsed : collapse [] (segments path) = some kept.reverse := by
    rw [collapse_eq_foldlM, walked, Option.map_some]
  exact ⟨rfl, collapse_names collapsed (by simp) fun s member => mem_segments member⟩

/-- A path may be cleaned before more is put below it. -/
theorem normalize?_append (front back : String) :
    normalize? (front ++ "/" ++ back) =
      (normalize? front).bind fun clean => normalize? (clean ++ "/" ++ back) := by
  rw [normalize?_eq_foldlM, normalize?_eq_foldlM front, segments_append, List.foldlM_append]
  cases walked : (segments front).foldlM enter? [] with
  | none => rfl
  | some kept =>
    have again := (spells_of_walk walked).foldlM_enter?
    rw [Option.map_some, Option.bind_some, normalize?_eq_foldlM, segments_append,
      List.foldlM_append, again, List.reverse_reverse]

/-- A path is refused exactly if some of its first segments go up more often than they lead down.
What cleaning gives is canonical or empty and stays as it is; its names are segments of the path in
their order, as many as lead down less those that go up. A path that is put below another is cleaned
as if the other had been cleaned before, and refused if the other is. -/
theorem cleaning_folds_segments (path front back : String) :
    (normalize? path = none ↔ ∃ first, first <+: segments path ∧
      first.countP isOrdinary < first.count "..") ∧
    (∀ clean, normalize? path = some clean →
      (clean = "" ∨ IsCanonical clean) ∧ normalize? clean = some clean ∧
        ∃ names, Spells clean names ∧ names.Sublist (segments path) ∧
          names.length + (segments path).count ".." = (segments path).countP isOrdinary) ∧
    (∀ clean, normalize? front = some clean →
      normalize? (front ++ "/" ++ back) = normalize? (clean ++ "/" ++ back)) ∧
    (normalize? front = none → normalize? (front ++ "/" ++ back) = none) := by
  refine ⟨?_, fun clean cleaned => ?_, fun clean cleaned => ?_, fun refused => ?_⟩
  · rw [normalize?_eq_foldlM, Option.map_eq_none_iff, foldlM_enter?_eq_none_iff]
    simp
  · have canonical := normalize?_canonical cleaned
    rw [normalize?_eq_foldlM, Option.map_eq_some_iff] at cleaned
    obtain ⟨kept, walked, rfl⟩ := cleaned
    have spells := spells_of_walk walked
    have counted := foldlM_enter?_eq_some walked
    refine ⟨or_iff_not_imp_left.2 canonical, normalize?_of_spells spells, kept.reverse, spells,
      ?_, ?_⟩
    · simpa using counted.1
    · simpa using counted.2
  · rw [normalize?_append, cleaned, Option.bind_some]
  · rw [normalize?_append, refused, Option.bind_none]

/-- Both separators, empty segments, and steps up inside and at the end of the first part. -/
theorem folded_in_parts :
    normalize? "libs\\a//../b/./c\\.." = some "libs/b" ∧
      (normalize? "libs/b" = some "libs/b" ∧
        normalize? ("libs\\a//../b/./c\\.." ++ "/" ++ "../x.ts") =
          normalize? ("libs/b" ++ "/" ++ "../x.ts")) ∧
      normalize? "a/../..\\b" = none ∧ normalize? ("a/../..\\b" ++ "/" ++ "c") = none := by
  have cleaned : normalize? "libs\\a//../b/./c\\.." = some "libs/b" := by decide
  have refused : normalize? "a/../..\\b" = none := by decide
  obtain ⟨-, fixed, parts, -⟩ :=
    cleaning_folds_segments "libs\\a//../b/./c\\.." "libs\\a//../b/./c\\.." "../x.ts"
  exact ⟨cleaned, ⟨(fixed _ cleaned).2.1, parts _ cleaned⟩, refused,
    (cleaning_folds_segments "" "a/../..\\b" "c").2.2.2 refused⟩

end Rehome.Path
