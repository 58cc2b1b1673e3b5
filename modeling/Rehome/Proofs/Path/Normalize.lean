import Rehome.Proofs.Path.Canonical

/-!
# Clean paths

A clean path is its names with slashes between them. Cleaning a path leaves exactly such a path, and
leaves a path alone that is clean already.
-/
namespace Rehome.Path

/-- A segment that cleaning keeps. -/
def IsName (s : String) : Prop := IsPlainSegment s.toList ∧ '/' ∉ s.toList

theorem IsName.ne_empty {s : String} (h : IsName s) : s ≠ "" := by
  rintro rfl
  exact h.1.1 rfl

theorem IsName.ne_dot {s : String} (h : IsName s) : s ≠ "." := by
  rintro rfl
  exact h.1.2.1 rfl

theorem IsName.ne_dots {s : String} (h : IsName s) : s ≠ ".." := by
  rintro rfl
  exact h.1.2.2.1 rfl

/-- A path that consists of the given names. -/
structure Spells (path : String) (names : List String) : Prop where
  text : path = String.intercalate "/" names
  plain : ∀ s ∈ names, IsName s

/-- A piece between separators holds characters of the whole, and no separator. -/
theorem char_of_piece {c x : Char} {l piece : List Char} (h : piece ∈ l.splitOn c)
    (inside : x ∈ piece) :
    x ∈ l ∧ x ≠ c := by
  induction l generalizing piece with
  | nil => simp_all
  | cons y ys ih =>
    rw [List.splitOn_cons_eq_if_modifyHead] at h
    split at h
    next cut =>
      rcases List.mem_cons.1 h with rfl | later
      · cases inside
      · exact ⟨List.mem_cons_of_mem y (ih later inside).1, (ih later inside).2⟩
    next keeps =>
      cases parts : ys.splitOn c with
      | nil => exact absurd parts (List.splitOn_ne_nil c ys)
      | cons first rest =>
        rw [parts, List.modifyHead_cons, List.mem_cons] at h
        rcases h with rfl | later
        · rcases List.mem_cons.1 inside with rfl | tail
          · exact ⟨List.mem_cons_self, by simpa using keeps⟩
          · have found := ih (parts ▸ List.mem_cons_self) tail
            exact ⟨List.mem_cons_of_mem y found.1, found.2⟩
        · have found := ih (parts ▸ List.mem_cons_of_mem _ later) inside
          exact ⟨List.mem_cons_of_mem y found.1, found.2⟩

/-- No slash or backslash is left in a segment. -/
theorem mem_segments {path s : String} (h : s ∈ segments path) :
    '/' ∉ s.toList ∧ '\\' ∉ s.toList := by
  obtain ⟨chars, member, rfl⟩ := List.mem_map.1 h
  rw [String.toList_ofList]
  refine ⟨fun slash => (char_of_piece member slash).2 rfl, fun backslash => ?_⟩
  obtain ⟨c, -, changed⟩ := List.mem_map.1 (char_of_piece member backslash).1
  split at changed
  · cases changed
  next differs => exact differs changed

/-- What is left of segments are names. -/
theorem collapse_names {kept rest names : List String} (h : collapse kept rest = some names)
    (before : ∀ s ∈ kept, IsName s) (free : ∀ s ∈ rest, '/' ∉ s.toList ∧ '\\' ∉ s.toList) :
    ∀ s ∈ names, IsName s := by
  induction rest generalizing kept with
  | nil =>
    cases h
    simpa using before
  | cons s rest ih =>
    have later : ∀ x ∈ rest, '/' ∉ x.toList ∧ '\\' ∉ x.toList :=
      fun x member => free x (by simp [member])
    simp only [collapse] at h
    split at h
    · exact ih h before later
    next keeps =>
      split at h
      · cases kept with
        | nil => cases h
        | cons k kept => exact ih h (fun x member => before x (by simp [member])) later
      next notUp =>
        have here : IsName s := by
          obtain ⟨noSlash, noBackslash⟩ := free s (by simp)
          have plain : ∀ l : List Char, s ≠ String.ofList l → s.toList ≠ l := by
            rintro _ differs rfl
            exact differs (by simp)
          exact ⟨⟨plain [] fun e => keeps (.inl e), plain ['.'] fun e => keeps (.inr e),
            plain ['.', '.'] notUp,
            noBackslash⟩, noSlash⟩
        exact ih h (by simpa using ⟨here, before⟩) later

theorem normalize?_spells {path clean : String} (h : normalize? path = some clean) :
    ∃ names, Spells clean names := by
  obtain ⟨names, collapsed, rfl⟩ := Option.map_eq_some_iff.1 h
  exact ⟨names, rfl, collapse_names collapsed (by simp) fun s member => mem_segments member⟩

/-- The names of a path can be read off it again. -/
theorem Spells.splitOn {path : String} {names : List String} (h : Spells path names)
    (nonempty : names ≠ []) :
    path.toList.splitOn '/' = names.map String.toList := by
  have absent : ∀ l ∈ names.map String.toList, '/' ∉ l := by
    rintro _ member
    obtain ⟨s, inside, rfl⟩ := List.mem_map.1 member
    exact (h.plain s inside).2
  rw [h.text, String.toList_intercalate]
  exact List.splitOn_intercalate '/' absent (by simpa using nonempty)

theorem Spells.canonical {path : String} {names : List String} (h : Spells path names)
    (nonempty : names ≠ []) :
    IsCanonical path := by
  intro chars member
  rw [h.splitOn nonempty] at member
  obtain ⟨s, inside, rfl⟩ := List.mem_map.1 member
  exact (h.plain s inside).1

theorem IsCanonical.spells {path : String} (h : IsCanonical path) :
    Spells path ((path.toList.splitOn '/').map String.ofList) := by
  refine ⟨?_, ?_⟩
  · rw [← String.toList_inj, String.toList_intercalate, List.map_map]
    simp [Function.comp_def]
  · rintro _ member
    obtain ⟨chars, inside, rfl⟩ := List.mem_map.1 member
    exact ⟨by
      simpa using h chars inside, fun slash => (char_of_piece inside (by simpa using slash)).2 rfl⟩

/-- A path that was cleaned is canonical, unless nothing is left of it. -/
theorem normalize?_canonical {path clean : String} (h : normalize? path = some clean)
    (nonempty : clean ≠ "") :
    IsCanonical clean := by
  obtain ⟨names, spells⟩ := normalize?_spells h
  refine spells.canonical ?_
  rintro rfl
  exact nonempty (spells.text.trans rfl)

theorem collapse_of_names {kept names : List String} (plain : ∀ s ∈ names, IsName s) :
    collapse kept names = some (kept.reverse ++ names) := by
  induction names generalizing kept with
  | nil => simp [collapse]
  | cons s names ih =>
    have name := plain s (by simp)
    simp only [collapse, name.ne_empty, name.ne_dot, name.ne_dots, or_self, if_false]
    rw [ih fun x member => plain x (by simp [member])]
    simp

end Rehome.Path
