import Rehome.Path.Specifier
import Rehome.Proofs.Path.Resolution

/-!
# Paths and specifiers on one line

What is made of paths is made of their characters, of dots, slashes and the letters of source
extensions. So it stands on one line if the paths do.
-/
namespace Rehome

namespace Text

/-- Characters that stand on one line. -/
def IsLine (cs : List Char) : Prop := ∀ c ∈ cs, c ≠ '\n' ∧ c ≠ '\r'

instance (cs : List Char) : Decidable (IsLine cs) := List.decidableBAll _ cs

theorem IsLine.of_subset {cs ds : List Char} (h : IsLine ds) (within : cs ⊆ ds) : IsLine cs :=
  fun c member => h c (within member)

@[simp] theorem isLine_append {cs ds : List Char} :
    IsLine (cs ++ ds) ↔ IsLine cs ∧ IsLine ds := List.forall_mem_append

/-- The pieces between separators have no characters of their own. -/
theorem subset_of_mem_splitOn {sep : Char} {s cs : List Char} (piece : s ∈ cs.splitOn sep) :
    s ⊆ cs := by
  induction cs generalizing s with
  | nil =>
    rw [List.splitOn_nil, List.mem_singleton] at piece
    exact piece ▸ List.Subset.refl _
  | cons c cs ih =>
    rw [List.splitOn, List.splitOnP_cons_eq_if_modifyHead] at piece
    split at piece
    · rcases List.mem_cons.1 piece with rfl | later
      · exact List.nil_subset _
      · exact List.subset_cons_of_subset c (ih later)
    · rw [List.splitOn] at ih
      obtain ⟨first, rest, pieces⟩ :=
        List.exists_cons_of_ne_nil (List.splitOnP_ne_nil (· == sep) cs)
      rw [pieces] at ih
      rw [pieces, List.modifyHead_cons] at piece
      rcases List.mem_cons.1 piece with rfl | later
      · exact List.cons_subset_cons c (ih List.mem_cons_self)
      · exact List.subset_cons_of_subset c (ih (List.mem_cons_of_mem first later))

theorem isLine_intercalate {pieces : List String} (lines : ∀ s ∈ pieces, IsLine s.toList) :
    IsLine (String.intercalate "/" pieces).toList := by
  induction pieces with
  | nil => simp [IsLine]
  | cons s rest ih =>
    cases rest with
    | nil => simpa using lines s List.mem_cons_self
    | cons s' rest =>
      have later := ih fun x member => lines x (List.mem_cons_of_mem s member)
      rw [String.intercalate_cons_cons, String.toList_append, String.toList_append]
      simp only [isLine_append]
      exact ⟨⟨lines s List.mem_cons_self, by decide⟩, later⟩

/-- Slashes may stand for backslashes. -/
theorem isLine_slashes {cs : List Char} (h : IsLine cs) :
    IsLine (cs.map fun c => if c = '\\' then '/' else c) := by
  intro c member
  obtain ⟨d, inside, rfl⟩ := List.mem_map.1 member
  split
  · decide
  · exact h d inside

end Text

namespace Path

open Text (IsLine isLine_append isLine_intercalate isLine_slashes)

variable {path : String}

theorem isLine_dirname (h : IsLine path.toList) : IsLine (dirname path).toList := by
  unfold dirname
  split
  next dir name split =>
    rw [Text.splitLast?_eq_some_iff] at split
    rw [split.1] at h
    rw [String.toList_ofList]
    exact (isLine_append.1 h).1
  next => decide

theorem isLine_join {dir : String} (above : IsLine dir.toList) (h : IsLine path.toList) :
    IsLine (join dir path).toList := by
  unfold join
  split
  · exact h
  split
  · exact above
  · simp only [String.toList_append, isLine_append]
    exact ⟨⟨above, by decide⟩, h⟩

theorem isLine_stem (h : IsLine path.toList) : IsLine (stem path).toList := by
  unfold stem
  split
  · rw [String.toList_ofList]
    exact h.of_subset (List.take_subset _ _)
  · exact h

/-! ## Clean paths -/

theorem isLine_segments (h : IsLine path.toList) : ∀ s ∈ segments path, IsLine s.toList := by
  intro s member
  obtain ⟨piece, inside, rfl⟩ := List.mem_map.1 member
  rw [String.toList_ofList]
  exact (isLine_slashes h).of_subset (Text.subset_of_mem_splitOn inside)

/-- What is kept was there before. -/
theorem subset_of_collapse {kept segments clean : List String}
    (led : collapse kept segments = some clean) : clean ⊆ kept ++ segments := by
  fun_induction collapse kept segments with
  | case1 kept =>
    cases led
    simp
  | case2 kept s rest _ ih => exact List.Subset.trans (ih led) (by simp)
  | case3 => cases led
  | case4 rest _ s kept ih => exact List.Subset.trans (ih led) fun t member => by grind
  | case5 kept s rest _ _ ih => exact List.Subset.trans (ih led) fun t member => by grind

theorem isLine_normalize? {clean : String} (h : IsLine path.toList)
    (led : normalize? path = some clean) : IsLine clean.toList := by
  obtain ⟨names, collapsed, rfl⟩ := Option.map_eq_some_iff.1 led
  refine isLine_intercalate fun s member => isLine_segments h s ?_
  simpa using subset_of_collapse collapsed member

theorem isLine_resolve? {importer specifier : String} (file : IsLine importer.toList)
    (h : IsLine specifier.toList) (led : resolve? importer specifier = some path) :
    IsLine path.toList := by
  unfold resolve? at led
  split at led
  · exact isLine_normalize? (isLine_join (isLine_dirname file) h) led
  · cases led

/-! ## Ways to a path -/

/-- A component is written on one line. -/
def Component.IsLine (c : Component) : Prop := Text.IsLine c.text.toList

instance (c : Component) : Decidable c.IsLine := inferInstanceAs (Decidable (Text.IsLine _))

theorem isLine_ofSegment {segment : String} (h : IsLine segment.toList) :
    (Component.ofSegment segment).IsLine := by
  unfold Component.ofSegment
  split
  · decide
  split
  · decide
  · exact h

theorem isLine_components (h : IsLine path.toList) : ∀ c ∈ components path, c.IsLine := by
  have pieces : ∀ s ∈ (path.toList.splitOn '/').map String.ofList, IsLine s.toList := by
    intro s member
    obtain ⟨piece, inside, rfl⟩ := List.mem_map.1 member
    rw [String.toList_ofList]
    exact h.of_subset (Text.subset_of_mem_splitOn inside)
  have named : ∀ segments : List String, (∀ s ∈ segments, IsLine s.toList) →
      ∀ c ∈ (segments.filter fun s => s ≠ "" ∧ s ≠ ".").map Component.ofSegment, c.IsLine := by
    intro segments lines c member
    obtain ⟨s, inside, rfl⟩ := List.mem_map.1 member
    exact isLine_ofSegment (lines s (List.mem_of_mem_filter inside))
  unfold components
  dsimp only
  generalize (path.toList.splitOn '/').map String.ofList = parts at pieces
  split
  next more =>
    have rest := named more fun s member => pieces s (List.mem_cons_of_mem _ member)
    split
    · exact List.forall_mem_cons.2 ⟨by decide, rest⟩
    · exact rest
  next more =>
    have rest := named more fun s member => pieces s (List.mem_cons_of_mem _ member)
    exact List.forall_mem_cons.2 ⟨by decide, rest⟩
  next => exact named _ pieces

theorem isLine_stepsFrom {out steps base found : List Component}
    (led : stepsFrom out steps base = some found) (before : ∀ c ∈ out, c.IsLine)
    (h : ∀ c ∈ steps, c.IsLine) : ∀ c ∈ found, c.IsLine := by
  have up : Component.parent.IsLine := by decide
  fun_induction stepsFrom out steps base with
  | case1 out =>
    cases led
    exact before
  | case2 out a steps =>
    cases led
    exact List.forall_mem_append.2 ⟨before, h⟩
  | case3 out b base ih =>
    exact ih led (List.forall_mem_append.2 ⟨before, by simpa using up⟩) h
  | case4 out a steps b base same ih =>
    exact ih led before (List.forall_mem_cons.1 h).2
  | case5 out a steps base _ ih =>
    exact ih led (List.forall_mem_append.2 ⟨before, by simpa using (List.forall_mem_cons.1 h).1⟩)
      (List.forall_mem_cons.1 h).2
  | case6 => cases led
  | case7 out a steps b base _ _ _ =>
    cases led
    have ups : ∀ c ∈ Component.parent :: base.map fun _ => Component.parent, c.IsLine := by
      refine List.forall_mem_cons.2 ⟨up, fun c member => ?_⟩
      obtain ⟨b, -, rfl⟩ := List.mem_map.1 member
      exact up
    exact List.forall_mem_append.2 ⟨List.forall_mem_append.2 ⟨before, ups⟩, h⟩

theorem isLine_difference? {dir way : String} (h : IsLine path.toList)
    (found : difference? path dir = some way) : IsLine way.toList := by
  unfold difference? at found
  split at found
  · obtain ⟨steps, led, rfl⟩ := Option.map_eq_some_iff.1 found
    have lines := isLine_stepsFrom led (by simp) (isLine_components h)
    refine isLine_intercalate fun s member => ?_
    obtain ⟨c, inside, rfl⟩ := List.mem_map.1 member
    exact lines c inside
  split at found
  · cases found
    exact h
  · cases found

theorem isLine_relative (dir : String) (h : IsLine path.toList) :
    IsLine (relative dir path).toList := by
  have marked : ∀ way : String, IsLine way.toList →
      IsLine (if way = "" then "." else if way = ".." || "../".isPrefixOf way then way
        else "./" ++ way).toList := by
    intro way line
    split
    · decide
    split
    · exact line
    · rw [String.toList_append, isLine_append]
      exact ⟨by decide, line⟩
  refine marked _ ?_
  split
  next found =>
    rw [String.toList_ofList]
    exact isLine_slashes (isLine_difference? h found)
  next => exact h

theorem isLine_extension {ext : String} (found : sourceExtension? path = some ext) :
    IsLine ext.toList := by
  obtain ⟨-, e, -, -, rfl, member⟩ := sourceExtension?_eq_some found
  have all : ∀ e ∈ sourceExtensions, IsLine ("." ++ e).toList := by decide
  exact all e member

/-- The specifier for a path on one line stands on one line. -/
theorem isLine_specifierFor (importer : String) {target : String} (model : Option String)
    (h : IsLine target.toList) : IsLine (specifierFor importer target model).toList := by
  have plain := isLine_stem h
  have empty : IsLine "".toList := by decide
  have made : ∀ {path suffix : String}, IsLine path.toList → IsLine suffix.toList →
      IsLine (relative (dirname importer) path ++ suffix).toList := by
    intro path suffix way rest
    rw [String.toList_append, isLine_append]
    exact ⟨isLine_relative _ way, rest⟩
  unfold specifierFor
  cases model with
  | none => exact made plain empty
  | some model =>
    dsimp only
    cases found : sourceExtension? model with
    | some ext => exact made plain (isLine_extension found)
    | none =>
      dsimp only
      split
      · -- With the pair still whole the directory would be evaluated.
        dsimp only
        exact made (isLine_dirname plain) empty
      · exact made plain empty

end Path
end Rehome
