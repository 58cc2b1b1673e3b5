import Rehome.Proofs.Path.Resolution

/-!
# Ways to paths with detours

The way that is written to a path leads to the clean path with the same meaning, also if the path is
not clean itself. A file whose name consists of dots before its extension has a stem of that kind,
and no way to such a stem leads back to the file.
-/
namespace Rehome.Path

/-! ## Components and segments -/

/-- Segments that stand for nothing do not matter. -/
theorem collapse_filter (kept segs : List String) :
    collapse kept (segs.filter fun s => s ≠ "" ∧ s ≠ ".") = collapse kept segs := by
  induction segs generalizing kept with
  | nil => rfl
  | cons s segs ih =>
    by_cases blank : s = "" ∨ s = "."
    · have out : decide (s ≠ "" ∧ s ≠ ".") = false := by
        rw [decide_eq_false_iff_not, not_and_or, not_not, not_not]
        exact blank
      have skips : collapse kept (s :: segs) = collapse kept segs := by
        cases kept <;> simp only [collapse, if_pos blank]
      rw [List.filter_cons, out, if_neg Bool.false_ne_true, ih, skips]
    · have inside : decide (s ≠ "" ∧ s ≠ ".") = true := by
        rw [decide_eq_true_eq]
        exact not_or.1 blank
      rw [List.filter_cons, inside, if_pos rfl]
      cases kept <;> simp only [collapse, if_neg blank, ih]

theorem text_ofSegment (s : String) : (Component.ofSegment s).text = s := by
  unfold Component.ofSegment
  split
  next equal => rw [equal, Component.text]
  next =>
    split
    next equal => rw [equal, Component.text]
    next => rfl

/-- The components of a path are those of its segments that stand for something. -/
theorem components_text {path : String} (free : '\\' ∉ path.toList)
    (inside : isAbsolute path = false) :
    ((components path).map Component.text).Sublist (segments path) ∧
      ∀ kept, collapse kept ((components path).map Component.text) =
        collapse kept (segments path) := by
  have texts : ∀ segs : List String, ((segs.filter fun s => s ≠ "" ∧ s ≠ ".").map
      Component.ofSegment).map Component.text = segs.filter fun s => s ≠ "" ∧ s ≠ "." := by
    intro segs
    rw [List.map_map]
    simp [Function.comp_def, text_ofSegment]
  have pieces : (path.toList.splitOn '/').map String.ofList = segments path := by
    rw [segments, map_slashes free]
  unfold components
  simp only [pieces, inside]
  split
  next more same =>
    rw [same, if_neg Bool.false_ne_true, texts]
    refine ⟨List.filter_sublist.cons _, fun kept => ?_⟩
    rw [collapse_filter]
    simp [collapse]
  next more same =>
    rw [same, List.map_cons, texts]
    refine ⟨List.filter_sublist.cons_cons _, fun kept => ?_⟩
    simp [collapse, Component.text, ← collapse_filter _ more]
  next =>
    rw [texts]
    exact ⟨List.filter_sublist, fun kept => collapse_filter kept _⟩

/-! ## The way that is written -/

theorem isRelative_relative (dir path : String) : isRelative (relative dir path) = true := by
  have marked : ∀ way : String, isRelative (if way = "" then "." else
      if way = ".." || "../".isPrefixOf way then way else "./" ++ way) = true := by
    intro way
    split
    · decide
    · split
      next up =>
        rw [Bool.or_eq_true, decide_eq_true_eq] at up
        rcases up with dots | above
        · simp [isRelative, dots]
        · rw [isRelative, above, Bool.or_true]
      next => simp [isRelative, String.isPrefixOf]
  exact marked _

/-- A specifier that is written for a file is a way, perhaps with an ending. -/
theorem specifierFor_cases (importer target : String) (model : Option String) :
    ∃ module ending,
      specifierFor importer target model = relative (dirname importer) module ++ ending ∧
        (ending = "" ∨ ∃ ext ∈ sourceExtensions, ending = "." ++ ext) := by
  cases model with
  | none =>
    refine ⟨stem target, "", ?_, .inl rfl⟩
    rw [specifierFor_none, String.append_empty]
  | some model =>
    cases found : sourceExtension? model with
    | none =>
      simp only [specifierFor, found]
      split
      · refine ⟨dirname (stem target), "", ?_, .inl rfl⟩
        simp only
      · refine ⟨stem target, "", ?_, .inl rfl⟩
        simp only
    | some ending =>
      obtain ⟨-, ext, -, -, same, member⟩ := sourceExtension?_eq_some found
      refine ⟨stem target, ending, ?_, .inr ⟨ext, member, same⟩⟩
      simp only [specifierFor, found]

theorem isRelative_append {way ending : String} (relative : isRelative way = true)
    (dot : way ≠ ".") (dots : way ≠ "..") : isRelative (way ++ ending) = true := by
  have grows : ∀ mark : String, mark.isPrefixOf way = true →
      mark.isPrefixOf (way ++ ending) = true := by
    intro mark front
    simp only [String.isPrefixOf, String.startsWith_string_iff, String.toList_append] at front ⊢
    exact front.trans (List.prefix_append ..)
  simp only [isRelative, Bool.or_eq_true, decide_eq_true_eq, dot, dots, false_or] at relative ⊢
  rcases relative with here | above
  · exact .inl (.inr (grows _ here))
  · exact .inr (grows _ above)

/-- What is not relative is not written for a file, dots with an ending apart. -/
theorem specifierFor_ne {name : String} (plain : isRelative name = false)
    (spelled : ∀ ext ∈ sourceExtensions, name ≠ ".." ++ ext ∧ name ≠ "..." ++ ext)
    (importer target : String) (model : Option String) :
    specifierFor importer target model ≠ name := by
  rintro rfl
  obtain ⟨module, ending, same, none | ⟨ext, member, some⟩⟩ :=
    specifierFor_cases importer target model
  · rw [same, none, String.append_empty, isRelative_relative] at plain
    cases plain
  · have way := isRelative_relative (dirname importer) module
    rw [same, some] at plain spelled
    by_cases dot : relative (dirname importer) module = "."
    · exact (spelled ext member).1 (by rw [dot]; simp [← String.append_assoc])
    · by_cases dots : relative (dirname importer) module = ".."
      · exact (spelled ext member).2 (by rw [dots, ← String.append_assoc]; rfl)
      · rw [isRelative_append way dot dots] at plain
        cases plain

/-- Marking steps as relative does not change where they lead. -/
theorem collapse_mark {pieces : List String}
    (free : ∀ s ∈ pieces, '/' ∉ s.toList ∧ '\\' ∉ s.toList) (kept : List String) :
    let steps := String.intercalate "/" pieces
    collapse kept (segments (if steps = "" then "." else
      if steps = ".." || "../".isPrefixOf steps then steps else "./" ++ steps)) =
        collapse kept pieces := by
  intro steps
  have here : segments "." = ["."] := segments_of_free (by decide)
  by_cases none : pieces = []
  · subst none
    simp [steps, here, collapse]
  · have parts : segments steps = pieces := segments_intercalate none free
    split
    next empty =>
      rw [empty, segments_of_free (by decide)] at parts
      rw [here, ← parts]
      simp [collapse]
    next =>
      split
      · rw [parts]
      · have marked : "./" ++ steps = "." ++ "/" ++ steps := by simp
        rw [marked, segments_append, here, parts]
        simp [collapse]

/-- The way from a file to a path leads to the clean path with the same meaning. -/
theorem resolve?_relative_clean {importer path : String} (canonical : IsCanonical importer)
    (free : '\\' ∉ path.toList) (inside : isAbsolute path = false) :
    resolve? importer (relative (dirname importer) path) = normalize? path := by
  obtain ⟨base, here⟩ := canonical.dirname_spells
  obtain ⟨sublist, same⟩ := components_text free inside
  obtain ⟨front, up, rest, parts, steps, found⟩ := stepsFrom_names (components path) base
  subst parts
  have plain : ∀ s ∈ front, IsName s := fun s member => here.plain s (by simp [member])
  have pieces : ∀ s ∈ List.replicate up.length ".." ++ rest.map Component.text,
      '/' ∉ s.toList ∧ '\\' ∉ s.toList := by
    intro s member
    rcases List.mem_append.1 member with dots | later
    · rw [List.eq_of_mem_replicate dots]
      decide
    · have among : s ∈ (components path).map Component.text := by
        rw [steps, List.map_append]
        exact List.mem_append_right _ later
      exact mem_segments (sublist.subset among)
  have written : difference? path (dirname importer) = some (String.intercalate "/"
      (List.replicate up.length ".." ++ rest.map Component.text)) := by
    rw [difference?, inside, here.isAbsolute, if_pos rfl, here.components, found, Option.map_some,
      List.map_append, List.map_replicate]
    rfl
  have names : front.map (Component.text ∘ Component.name) = front := by
    simp [Function.comp_def, Component.text]
  have leads : collapse (front ++ up).reverse (segments (relative (dirname importer) path)) =
      collapse [] (segments path) := by
    rw [relative_of_difference? written fun s member => (pieces s member).2, collapse_mark pieces,
      ← same, steps, List.map_append, List.map_map, names, collapse_append plain, List.append_nil,
      List.reverse_append, ← List.length_reverse, collapse_up]
  have isWay := isRelative_relative (dirname importer) path
  have filled : relative (dirname importer) path ≠ "" := by
    intro empty
    rw [empty] at isWay
    revert isWay
    decide
  rw [resolve?, if_pos isWay, normalize?, normalize?, segments_join here filled, leads]

/-! ## Stems that are dots -/

theorem length_intercalate_concat (names : List String) {last : String} (filled : last ≠ "") :
    (String.intercalate "/" names).length < (String.intercalate "/" (names ++ [last])).length := by
  have long : 0 < last.length := Nat.pos_of_ne_zero fun none => filled (String.length_eq_zero_iff.1 none)
  cases names with
  | nil => simpa using long
  | cons s names =>
    rw [String.intercalate_append_of_ne_nil (by simp) (by simp)]
    simp only [String.length_append, String.intercalate_singleton]
    omega

/-- The stem of a clean path is clean, or its name consists of dots. -/
theorem stem_cases {path : String} (canonical : IsCanonical path) :
    IsCanonical (stem path) ∨ ∃ init last, (∀ s ∈ init, IsName s) ∧ (last = "." ∨ last = "..") ∧
      stem path = String.intercalate "/" (init ++ [last]) := by
  cases found : sourceExtension? path with
  | none =>
    rw [stem_of_none found]
    exact .inl canonical
  | some ext =>
    have spells := canonical.spells
    generalize (path.toList.splitOn '/').map String.ofList = names at spells
    obtain ⟨front, e, whole, filled, rfl, member⟩ := sourceExtension?_eq_some found
    rcases List.eq_nil_or_concat' names with rfl | ⟨init, last, rfl⟩
    · exact absurd spells.text canonical.ne_empty
    · have name : IsName last := spells.plain last (by simp)
      have ends : last = front ++ ("." ++ e) := by
        rw [← whole, spells.text, basename_intercalate init name.2]
      have cut : stem path = String.intercalate "/" (init ++ [front]) := by
        have joined : stem path ++ ("." ++ e) =
            String.intercalate "/" (init ++ [front]) ++ ("." ++ e) := by
          rw [stem_append found, intercalate_concat, ← ends, ← spells.text]
        rw [← String.toList_inj] at joined ⊢
        simpa using joined
      have before : ∀ s ∈ init, IsName s := fun s inside => spells.plain s (by simp [inside])
      by_cases dots : front = "." ∨ front = ".."
      · exact .inr ⟨init, front, before, dots, cut⟩
      · left
        have free := name.free
        rw [ends] at free
        have plain : IsName front := by
          rw [not_or] at dots
          refine ⟨⟨?_, ?_, ?_, ?_⟩, ?_⟩
          · exact fun empty => filled (String.toList_inj.1 empty)
          · exact fun dot => dots.1 (String.toList_inj.1 dot)
          · exact fun two => dots.2 (String.toList_inj.1 two)
          · exact fun inside => free.2 (by simp [inside])
          · exact fun inside => free.1 (by simp [inside])
        refine Spells.canonical ⟨cut, fun s inside => ?_⟩ (by simp)
        rcases List.mem_append.1 inside with early | final
        · exact before s early
        · rw [List.mem_singleton.1 final]
          exact plain

theorem length_stem_le (path : String) : (stem path).length ≤ path.length := by
  cases found : sourceExtension? path with
  | none => exact Nat.le_of_eq (congrArg String.length (stem_of_none found))
  | some ext =>
    have whole := congrArg String.length (stem_append found)
    rw [String.length_append] at whole
    omega

theorem basename_join_index (dir : String) : basename (join dir "index") = "index" := by
  unfold join
  split
  · decide
  · rw [if_neg (by decide)]
    exact basename_slash (by decide)

/-- Only a clean stem can be reached by the way that is written to it. -/
theorem canonical_stem_of_resolvesTo {importer path : String} (canonical : IsCanonical importer)
    (clean : IsCanonical path)
    (means : resolvesTo importer (relative (dirname importer) (stem path)) path = true) :
    IsCanonical (stem path) := by
  rcases stem_cases clean with done | ⟨init, last, plain, dots, text⟩
  · exact done
  · exfalso
    have pieces : ∀ s ∈ init ++ [last], '/' ∉ s.toList ∧ '\\' ∉ s.toList := by
      intro s member
      rcases List.mem_append.1 member with early | final
      · exact (plain s early).free
      · rw [List.mem_singleton.1 final]
        rcases dots with rfl | rfl <;> decide
    have filled : last ≠ "" := by rcases dots with rfl | rfl <;> decide
    have parts : segments (stem path) = init ++ [last] := by
      rw [text]
      exact segments_intercalate (by simp) pieces
    have free : '\\' ∉ (stem path).toList := by
      rw [text]
      exact backslash_intercalate fun s member => (pieces s member).2
    have inside : isAbsolute (stem path) = false := by
      rw [text]
      cases init with
      | nil => exact isAbsolute_of_pieces [] (pieces last (by simp)).1 filled
      | cons s init =>
        have name := plain s (by simp)
        exact isAbsolute_of_pieces (init ++ [last]) name.2 name.ne_empty
    have name : basename (stem path) = last := by
      rw [text]
      exact basename_intercalate init (pieces last (by simp)).1
    -- Dots at the end take names away, so the way leads to a shorter path.
    have shorter : ∀ place, normalize? (stem path) = some place →
        place.length < (stem path).length := by
      intro place led
      have above := length_intercalate_concat init filled
      rw [normalize?, parts, collapse_append plain, List.append_nil] at led
      rw [text]
      rcases dots with rfl | rfl
      · have same : String.intercalate "/" init = place := by simpa [collapse] using led
        rw [← same]
        exact above
      · rcases List.eq_nil_or_concat' init with rfl | ⟨names, s, rfl⟩
        · simp [collapse] at led
        · have same : String.intercalate "/" names = place := by simpa [collapse] using led
          have more := length_intercalate_concat names (plain s (by simp)).ne_empty
          rw [← same]
          omega
    rw [resolvesTo, resolve?_relative_clean canonical free inside] at means
    cases led : normalize? (stem path) with
    | none => simp [led] at means
    | some place =>
      have short := shorter place led
      simp only [led, Bool.or_eq_true, decide_eq_true_eq] at means
      rcases means with (same | stems) | entry
      · have ends := length_stem_le path
        rw [same] at short
        omega
      · have ends := length_stem_le place
        rw [stems] at ends
        omega
      · rw [← entry, basename_join_index] at name
        rcases dots with rfl | rfl <;> exact absurd name (by decide)

end Rehome.Path
