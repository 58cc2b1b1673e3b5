import Rehome.Path.Specifier
import Mathlib.Data.List.Basic

/-!
# Canonical paths

A path is canonical when none of its segments is empty, `.` or `..` and none holds a backslash.
The operations that cut a path at its slashes are described here by what they cut it into, so that
later proofs speak of a path as a directory, a slash and a rest.
-/
namespace Rehome.Text

theorem splitLast?_eq_none_iff {c : Char} {l : List Char} : splitLast? c l = none ↔ c ∉ l := by
  induction l with
  | nil => simp [splitLast?]
  | cons x xs ih =>
    cases split : splitLast? c xs with
    | none =>
      have absent := ih.1 split
      by_cases equal : x = c
      · simp [splitLast?, split, equal]
      · simp [splitLast?, split, equal, absent, Ne.symm equal]
    | some parts =>
      have present : ¬ c ∉ xs := fun absent => by
        rw [ih.2 absent] at split
        cases split
      simp [splitLast?, split, not_not.1 present]

theorem splitLast?_append {c : Char} {front back : List Char} (absent : c ∉ back) :
    splitLast? c (front ++ c :: back) = some (front, back) := by
  induction front with
  | nil => simp [splitLast?, splitLast?_eq_none_iff.2 absent]
  | cons x xs ih => simp [splitLast?, ih]

/-- The cut is at the last occurrence: nothing after it is the character again. -/
theorem splitLast?_eq_some_iff {c : Char} {l front back : List Char} :
    splitLast? c l = some (front, back) ↔ l = front ++ c :: back ∧ c ∉ back := by
  constructor
  · intro split
    induction l generalizing front with
    | nil => simp [splitLast?] at split
    | cons x xs ih =>
      cases inner : splitLast? c xs with
      | none =>
        simp only [splitLast?, inner] at split
        split at split
        next equal =>
          cases split
          exact ⟨by simp [equal], splitLast?_eq_none_iff.1 inner⟩
        · cases split
      | some parts =>
        obtain ⟨innerFront, innerBack⟩ := parts
        simp only [splitLast?, inner, Option.some.injEq, Prod.mk.injEq] at split
        obtain ⟨rfl, rfl⟩ := split
        obtain ⟨whole, absent⟩ := ih inner
        exact ⟨by rw [whole, List.cons_append], absent⟩
  · rintro ⟨rfl, absent⟩
    exact splitLast?_append absent

theorem dropFront?_eq_some_iff {front l rest : List Char} :
    dropFront? front l = some rest ↔ l = front ++ rest := by
  induction front generalizing l with
  | nil => simp [dropFront?]
  | cons f fs ih =>
    cases l with
    | nil => simp [dropFront?]
    | cons c cs =>
      by_cases equal : f = c
      · simp [dropFront?, equal, ih]
      · simp [dropFront?, equal, Ne.symm equal]

end Rehome.Text

namespace Rehome.Path

/-- The segments of a path are those before a slash and those after it. -/
theorem forall_segments_append {P : List Char → Prop} {front back : List Char} :
    (∀ s ∈ (front ++ '/' :: back).splitOn '/', P s) ↔
      (∀ s ∈ front.splitOn '/', P s) ∧ ∀ s ∈ back.splitOn '/', P s := by
  simp only [List.splitOn_append_cons_self, List.mem_append]
  exact ⟨fun h => ⟨fun s hs => h s (.inl hs), fun s hs => h s (.inr hs)⟩,
    fun h s hs => hs.elim (h.1 s) (h.2 s)⟩

/-- Characters without an empty segment. There is at least one segment, so they are not empty. -/
def AreSolid (l : List Char) : Prop := ∀ s ∈ l.splitOn '/', s ≠ []

/-- A path in which something stands before and after every slash. -/
def IsSolid (path : String) : Prop := AreSolid path.toList

instance (path : String) : Decidable (IsSolid path) :=
  inferInstanceAs (Decidable (∀ s ∈ path.toList.splitOn '/', s ≠ []))

theorem areSolid_append {front back : List Char} :
    AreSolid (front ++ '/' :: back) ↔ AreSolid front ∧ AreSolid back := forall_segments_append

theorem AreSolid.ne_nil {l : List Char} (h : AreSolid l) : l ≠ [] := by
  rintro rfl
  exact h [] (by simp) rfl

theorem IsSolid.ne_empty {path : String} (h : IsSolid path) : path ≠ "" := by
  rintro rfl
  exact AreSolid.ne_nil h rfl

/-- Characters between two slashes that keep their meaning when a path is cleaned. -/
def IsPlainSegment (s : List Char) : Prop :=
  s ≠ [] ∧ s ≠ ['.'] ∧ s ≠ ['.', '.'] ∧ '\\' ∉ s

instance (s : List Char) : Decidable (IsPlainSegment s) := by
  unfold IsPlainSegment
  infer_instance

/-- Characters whose segments are all plain. -/
def AreCanonical (l : List Char) : Prop := ∀ s ∈ l.splitOn '/', IsPlainSegment s

/-- A path that cleaning leaves as it is, the empty path apart. -/
def IsCanonical (path : String) : Prop := AreCanonical path.toList

instance (path : String) : Decidable (IsCanonical path) :=
  inferInstanceAs (Decidable (∀ s ∈ path.toList.splitOn '/', IsPlainSegment s))

theorem areCanonical_append {front back : List Char} :
    AreCanonical (front ++ '/' :: back) ↔ AreCanonical front ∧ AreCanonical back :=
  forall_segments_append

theorem AreCanonical.solid {l : List Char} (h : AreCanonical l) : AreSolid l :=
  fun s member => (h s member).1

theorem IsCanonical.solid {path : String} (h : IsCanonical path) : IsSolid path :=
  AreCanonical.solid h

theorem IsCanonical.ne_empty {path : String} (h : IsCanonical path) : path ≠ "" :=
  h.solid.ne_empty

theorem takeWhile_name {name rest : List Char} (absent : '/' ∉ name) :
    (name ++ '/' :: rest).takeWhile (· ≠ '/') = name := by
  induction name with
  | nil => simp
  | cons c cs ih =>
    obtain ⟨differs, absent⟩ := not_or.1 (mt List.mem_cons.2 absent)
    simpa [Ne.symm differs] using ih absent

/-- The first name of some characters, and what follows the slash after it if there is one. -/
theorem first_name (l : List Char) :
    ('/' ∉ l ∧ l.takeWhile (· ≠ '/') = l) ∨
      ∃ rest, l = l.takeWhile (· ≠ '/') ++ '/' :: rest ∧ '/' ∉ l.takeWhile (· ≠ '/') := by
  induction l with
  | nil => simp
  | cons c cs ih =>
    by_cases slash : c = '/'
    · exact .inr ⟨cs, by simp [slash]⟩
    · rcases ih with ⟨absent, whole⟩ | ⟨rest, cut, absent⟩
      · exact .inl ⟨by simp [absent, Ne.symm slash], by simpa [slash] using whole⟩
      · refine .inr ⟨rest, ?_, by simpa [slash, Ne.symm slash] using absent⟩
        simpa [slash] using cut

theorem below?_eq_some_iff {root path rest : String} :
    below? root path = some rest ↔ path.toList = root.toList ++ '/' :: rest.toList := by
  unfold below?
  rw [Option.map_eq_some_iff]
  constructor
  · rintro ⟨chars, dropped, rfl⟩
    rw [Text.dropFront?_eq_some_iff] at dropped
    simpa using dropped
  · intro cut
    exact ⟨rest.toList, Text.dropFront?_eq_some_iff.2 (by simpa using cut), by simp⟩

theorem isSome_below?_iff {root path : String} :
    (below? root path).isSome ↔ ∃ rest, path.toList = root.toList ++ '/' :: rest := by
  rw [Option.isSome_iff_exists]
  constructor
  · rintro ⟨rest, found⟩
    exact ⟨rest.toList, below?_eq_some_iff.1 found⟩
  · rintro ⟨rest, cut⟩
    exact ⟨String.ofList rest, below?_eq_some_iff.2 (by simpa using cut)⟩

theorem isWithin_iff {path root : String} :
    isWithin path root = true ↔
      root = "" ∨ path = root ∨ ∃ rest, path.toList = root.toList ++ '/' :: rest := by
  simp only [isWithin, Bool.or_eq_true, decide_eq_true_eq, isSome_below?_iff, or_assoc]

theorem isWithin_trans {inner middle outer : String} (first : isWithin inner middle = true)
    (second : isWithin middle outer = true) : isWithin inner outer = true := by
  rw [isWithin_iff] at first second ⊢
  rcases second with empty | rfl | ⟨rest, cut⟩
  · exact .inl empty
  · exact first
  · rcases first with rfl | rfl | ⟨rest', cut'⟩
    · simp at cut
    · exact .inr (.inr ⟨rest, cut⟩)
    · exact .inr (.inr ⟨rest ++ '/' :: rest', by rw [cut', cut]; simp⟩)

/-- Two directories that both contain a path contain one another. -/
theorem isWithin_total {c x dir : String} (left : isWithin c x = true)
    (right : isWithin c dir = true) :
    isWithin x dir = true ∨ isWithin dir x = true := by
  rw [isWithin_iff] at left right
  rcases left with rfl | rfl | ⟨rest, cut⟩
  · exact .inr (isWithin_iff.2 (.inl rfl))
  · exact .inl (isWithin_iff.2 right)
  · rcases right with rfl | rfl | ⟨rest', cut'⟩
    · exact .inl (isWithin_iff.2 (.inl rfl))
    · exact .inr (isWithin_iff.2 (.inr (.inr ⟨rest, cut⟩)))
    · -- Both are leading parts of `c` that end before a slash, so one continues the other.
      rcases List.append_eq_append_iff.1 (cut.symm.trans cut') with
        ⟨mid, whole, tail⟩ | ⟨mid, whole, tail⟩
      · cases mid with
        | nil =>
          have same := String.toList_inj.1 (by simpa using whole.symm)
          exact .inl (isWithin_iff.2 (.inr (.inl same)))
        | cons m mid =>
          obtain ⟨rfl, -⟩ := List.cons.inj tail
          exact .inr (isWithin_iff.2 (.inr (.inr ⟨mid, whole⟩)))
      · cases mid with
        | nil =>
          have same := String.toList_inj.1 (by simpa using whole)
          exact .inl (isWithin_iff.2 (.inr (.inl same)))
        | cons m mid =>
          obtain ⟨rfl, -⟩ := List.cons.inj tail
          exact .inl (isWithin_iff.2 (.inr (.inr ⟨mid, whole⟩)))

/-- A directory is shorter than what lies below it. -/
theorem utf8ByteSize_lt_of_isWithin {inner outer : String} (within : isWithin inner outer = true)
    (strict : isWithin outer inner = false) : outer.utf8ByteSize < inner.utf8ByteSize := by
  have differs : inner ≠ outer := fun same => by simp [same, isWithin] at strict
  rcases isWithin_iff.1 within with rfl | same | ⟨rest, cut⟩
  · exact Nat.pos_of_ne_zero fun empty => differs (String.utf8ByteSize_eq_zero_iff.1 empty)
  · exact absurd same differs
  · have whole : inner = outer ++ ("/" ++ String.ofList rest) := String.toList_inj.1 (by simpa using cut)
    rw [whole, String.utf8ByteSize_append, String.utf8ByteSize_append]
    have slash : "/".utf8ByteSize = 1 := rfl
    omega

theorem mem_frontsFrom {front dir l : List Char} :
    dir ∈ frontsFrom front l ↔ ∃ taken rest, l = taken ++ '/' :: rest ∧
      dir = front.reverse ++ taken := by
  induction l generalizing front with
  | nil => simp [frontsFrom]
  | cons c cs ih =>
    have later : (∃ taken rest, c :: cs = taken ++ '/' :: rest ∧ dir = front.reverse ++ taken) ↔
        (c = '/' ∧ dir = front.reverse) ∨
          ∃ taken rest, cs = taken ++ '/' :: rest ∧ dir = (c :: front).reverse ++ taken := by
      constructor
      · rintro ⟨taken, rest, cut, rfl⟩
        cases taken with
        | nil => exact .inl ⟨(List.cons.inj cut).1, by simp⟩
        | cons t ts =>
          obtain ⟨rfl, tail⟩ := List.cons.inj cut
          exact .inr ⟨ts, rest, tail, by simp⟩
      · rintro (⟨rfl, rfl⟩ | ⟨taken, rest, rfl, rfl⟩)
        · exact ⟨[], cs, rfl, by simp⟩
        · exact ⟨c :: taken, rest, rfl, by simp⟩
    rw [later, ← ih]
    by_cases slash : c = '/' <;> simp [frontsFrom, slash]

/-- The directories above a path are those the path lies below. -/
theorem mem_ancestors {dir path : String} :
    dir ∈ ancestors path ↔ ∃ rest, path.toList = dir.toList ++ '/' :: rest := by
  unfold ancestors
  rw [List.mem_map]
  constructor
  · rintro ⟨chars, member, rfl⟩
    obtain ⟨taken, rest, cut, rfl⟩ := mem_frontsFrom.1 member
    exact ⟨rest, by simpa using cut⟩
  · rintro ⟨rest, cut⟩
    exact ⟨dir.toList, mem_frontsFrom.2 ⟨dir.toList, rest, cut, by simp⟩, by simp⟩

end Rehome.Path
