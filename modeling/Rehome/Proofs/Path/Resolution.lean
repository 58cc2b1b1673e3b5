import Rehome.Proofs.Path.Relative
import Mathlib.Tactic.MkIffOfInductiveProp

/-!
# What written specifiers mean

A path is its stem and its source extension. A specifier that is written for a file leads back to
that file, and one that is written anew for another place still stands for the same path, as long as
the stem is a clean path and the ending can be told from it.
-/
namespace Rehome.Path

/-! ## Stems and endings -/

/-- An ending of a name, with its dot. -/
structure IsEnding (ending : String) : Prop where
  long : 2 ≤ ending.toList.length
  free : '/' ∉ ending.toList ∧ '\\' ∉ ending.toList

theorem isEnding_of_mem {ext : String} (member : ext ∈ sourceExtensions) :
    IsEnding ("." ++ ext) := by
  have checked : ∀ ext ∈ sourceExtensions,
      2 ≤ ("." ++ ext).toList.length ∧ '/' ∉ ("." ++ ext).toList ∧
        '\\' ∉ ("." ++ ext).toList := by decide
  exact ⟨(checked ext member).1, (checked ext member).2⟩

theorem IsName.append {s ending : String} (name : IsName s) (h : IsEnding ending) :
    IsName (s ++ ending) := by
  have filled : 1 ≤ s.toList.length := List.length_pos_iff.2 name.1.1
  have long : 3 ≤ (s ++ ending).toList.length := by
    have := h.long
    simp only [String.toList_append, List.length_append]
    omega
  refine ⟨⟨?_, ?_, ?_, ?_⟩, ?_⟩
  · intro equal
    simp [equal] at long
  · intro equal
    simp [equal] at long
  · intro equal
    simp [equal] at long
  · simp [name.1.2.2.2, h.free.2]
  · simp [name.2, h.free.1]

theorem splitExtension?_eq_some_iff {name front ext : String} :
    splitExtension? name = some (front, ext) ↔ name = front ++ "." ++ ext ∧ '.' ∉ ext.toList ∧
      front ≠ "" := by
  unfold splitExtension?
  constructor
  · intro split
    split at split
    next c stem ext' found =>
      obtain ⟨whole, absent⟩ := Text.splitLast?_eq_some_iff.1 found
      simp only [Option.some.injEq, Prod.mk.injEq] at split
      obtain ⟨rfl, rfl⟩ := split
      refine ⟨?_, by simpa using absent, ?_⟩
      · rw [← String.toList_inj, whole]
        simp
      · rw [← String.toList_inj.ne]
        simp
    next => cases split
  · rintro ⟨rfl, absent, filled⟩
    have found : Text.splitLast? '.' (front ++ "." ++ ext).toList =
        some (front.toList, ext.toList) := by
      simpa using Text.splitLast?_append absent
    cases chars : front.toList with
    | nil => exact absurd (String.toList_inj.1 chars) filled
    | cons c rest =>
      rw [found, chars]
      simp [← chars]

theorem basename_append {path ending : String} (absent : '/' ∉ ending.toList) :
    basename (path ++ ending) = basename path ++ ending := by
  unfold basename
  cases split : Text.splitLast? '/' path.toList with
  | none =>
    have whole : Text.splitLast? '/' (path ++ ending).toList = none := by
      simpa [Text.splitLast?_eq_none_iff, absent] using Text.splitLast?_eq_none_iff.1 split
    rw [whole]
  | some parts =>
    obtain ⟨dir, name⟩ := parts
    obtain ⟨cut, noSlash⟩ := Text.splitLast?_eq_some_iff.1 split
    have whole : Text.splitLast? '/' (path ++ ending).toList =
        some (dir, name ++ ending.toList) := by
      rw [Text.splitLast?_eq_some_iff]
      simp [cut, noSlash, absent]
    rw [whole]
    simp

theorem basename_suffix (path : String) : ∃ front, path = front ++ basename path := by
  unfold basename
  split
  next dir name split =>
    obtain ⟨whole, -⟩ := Text.splitLast?_eq_some_iff.1 split
    refine ⟨String.ofList (dir ++ ['/']), ?_⟩
    rw [← String.toList_inj, whole]
    simp
  next => exact ⟨"", by simp⟩

theorem sourceExtension?_eq_some {path ext : String} (h : sourceExtension? path = some ext) :
    ∃ front e, basename path = front ++ ext ∧ front ≠ "" ∧ ext = "." ++ e ∧
      e ∈ sourceExtensions := by
  unfold sourceExtension? at h
  split at h
  next front e found =>
    obtain ⟨whole, -, filled⟩ := splitExtension?_eq_some_iff.1 found
    split at h
    next member =>
      cases h
      exact ⟨front, e, by rw [whole, String.append_assoc], filled, rfl, member⟩
    next => cases h
  next => cases h

theorem isEnding_of_sourceExtension? {path ext : String} (h : sourceExtension? path = some ext) :
    IsEnding ext := by
  obtain ⟨-, e, -, -, rfl, member⟩ := sourceExtension?_eq_some h
  exact isEnding_of_mem member

/-- A path is its stem and its source extension. -/
theorem stem_append {path ext : String} (h : sourceExtension? path = some ext) :
    stem path ++ ext = path := by
  obtain ⟨front, e, whole, -, -, -⟩ := sourceExtension?_eq_some h
  obtain ⟨lead, parts⟩ := basename_suffix path
  have cut : path = lead ++ front ++ ext := by rw [String.append_assoc, ← whole, ← parts]
  have size : path.length - ext.length = (lead ++ front).toList.length := by
    rw [String.length_toList, cut, String.length_append]
    omega
  have chars : path.toList = (lead ++ front).toList ++ ext.toList := by simp [cut]
  have plain : stem path = lead ++ front := by
    rw [stem, h]
    simp only
    rw [size, chars, List.take_left, String.ofList_toList]
  rw [plain, ← cut]

theorem stem_of_none {path : String} (h : sourceExtension? path = none) : stem path = path := by
  rw [stem, h]

theorem sourceExtension?_append {path other ext : String}
    (source : sourceExtension? other = some ext) (named : basename path ≠ "") :
    sourceExtension? (path ++ ext) = some ext := by
  obtain ⟨-, e, -, -, rfl, member⟩ := sourceExtension?_eq_some source
  have noDot : ∀ e ∈ sourceExtensions, '.' ∉ e.toList := by decide
  have split : splitExtension? (basename (path ++ ("." ++ e))) = some (basename path, e) := by
    rw [basename_append (isEnding_of_mem member).free.1, splitExtension?_eq_some_iff]
    exact ⟨by rw [String.append_assoc], noDot e member, named⟩
  rw [sourceExtension?, split]
  exact if_pos member

/-- An ending that was added is taken off again. -/
theorem stem_append_ext {path other ext : String} (source : sourceExtension? other = some ext)
    (named : basename path ≠ "") : stem (path ++ ext) = path := by
  have whole := stem_append (sourceExtension?_append source named)
  rw [← String.toList_inj] at whole ⊢
  simpa using whole

theorem basename_ne_empty {path : String} (h : IsCanonical path) : basename path ≠ "" := by
  unfold basename
  split
  next dir name split =>
    obtain ⟨whole, -⟩ := Text.splitLast?_eq_some_iff.1 split
    have parts : AreCanonical (dir ++ '/' :: name) := whole ▸ h
    intro empty
    have none : name = [] := by simpa using empty
    exact (areCanonical_append.1 parts).2.solid.ne_nil none
  next => exact h.ne_empty

/-! ## Specifiers that are written -/

/-- Only a file inside a directory reaches it by steps up alone. -/
theorem relative_eq_concat {dir path : String} {base : List String} (here : Spells dir base)
    (there : IsCanonical path) (outside : isWithin dir path = false) :
    ∃ front up init last, base = front ++ up ∧ Spells path (front ++ (init ++ [last])) ∧
      relative dir path = way up.length (init ++ [last]) := by
  obtain ⟨front, up, rest, above, below, same⟩ := relative_eq_way here there.spells
  have spells : Spells path (front ++ rest) := below ▸ there.spells
  have down : rest ≠ [] := by
    rintro rfl
    rw [List.append_nil] at spells
    have within : isWithin dir path = true := by
      have started : front ≠ [] := by
        rintro rfl
        exact there.ne_empty spells.text
      rw [isWithin_iff, here.text, above, spells.text]
      cases up with
      | nil => exact .inr (.inl (by simp))
      | cons s up =>
        refine .inr (.inr ⟨(String.intercalate "/" (s :: up)).toList, ?_⟩)
        rw [String.intercalate_append_of_ne_nil started (by simp)]
        simp
    rw [within] at outside
    cases outside
  obtain ⟨init, last, rfl⟩ := (List.eq_nil_or_concat' rest).resolve_left down
  exact ⟨front, up, init, last, above, spells, same⟩

/-- With an ending, a way that goes down leads to the path with that ending. -/
theorem resolve?_way_append {importer ending last : String} {front up init : List String}
    (here : Spells (dirname importer) (front ++ up)) (plain : ∀ s ∈ init, IsName s)
    (named : IsName (last ++ ending)) :
    resolve? importer (way up.length (init ++ [last]) ++ ending) =
      some (String.intercalate "/" (front ++ (init ++ [last])) ++ ending) := by
  have names : ∀ s ∈ init ++ [last ++ ending], IsName s := by
    intro s member
    rcases List.mem_append.1 member with early | final
    · exact plain s early
    · rw [List.mem_singleton.1 final]
      exact named
  rw [way_concat, resolve?_way here names, ← List.append_assoc, ← List.append_assoc,
    intercalate_concat]

/-- With an ending, the way from a file leads to the path with that ending. -/
theorem resolve?_relative_append {importer path ending : String} (canonical : IsCanonical importer)
    (there : IsCanonical path) (h : IsEnding ending)
    (outside : isWithin (dirname importer) path = false) :
    resolve? importer (relative (dirname importer) path ++ ending) = some (path ++ ending) := by
  obtain ⟨base, here⟩ := canonical.dirname_spells
  obtain ⟨front, up, init, last, rfl, spells, same⟩ := relative_eq_concat here there outside
  have named := (spells.plain last (by simp)).append h
  rw [same, resolve?_way_append here (fun s member => spells.plain s (by simp [member])) named,
    ← spells.text]

/-- A file whose path can be told from its stem. -/
@[mk_iff]
structure IsModule (path : String) : Prop where
  stem : IsCanonical (stem path)
  bare : sourceExtension? (Path.stem path) = none

instance (path : String) : Decidable (IsModule path) := decidable_of_iff _ (isModule_iff path).symm

theorem join_index {path : String} (canonical : IsCanonical path) (h : basename path = "index") :
    join (dirname path) "index" = path := by
  unfold basename at h
  unfold dirname
  cases split : Text.splitLast? '/' path.toList with
  | none =>
    rw [split] at h
    simp [join, ← h]
  | some parts =>
    obtain ⟨dir, name⟩ := parts
    obtain ⟨whole, -⟩ := Text.splitLast?_eq_some_iff.1 split
    have parts : AreCanonical (dir ++ '/' :: name) := whole ▸ canonical
    have filled : String.ofList dir ≠ "" := by
      simpa [← String.toList_inj] using (areCanonical_append.1 parts).1.solid.ne_nil
    have named : String.ofList name = "index" := by simpa [split] using h
    simp only
    rw [join, if_neg filled, if_neg (by decide), ← String.toList_inj, whole, ← named]
    simp

theorem resolvesTo_of_resolve? {importer specifier path target : String}
    (found : resolve? importer specifier = some path)
    (means : path = target ∨ stem path = stem target ∨ join path "index" = stem target) :
    resolvesTo importer specifier target = true := by
  simpa [resolvesTo, found, or_assoc] using means

theorem specifierFor_none (importer target : String) :
    specifierFor importer target none = relative (dirname importer) (stem target) := by
  simp [specifierFor]

theorem specifierFor_of_ending {importer target specifier ending : String}
    (ends : sourceExtension? specifier = some ending) :
    specifierFor importer target (some specifier) =
      relative (dirname importer) (stem target) ++ ending := by
  simp [specifierFor, ends]

theorem specifierFor_of_entry {importer target specifier : String}
    (bare : sourceExtension? specifier = none) (entry : basename (stem target) = "index")
    (other : basename specifier ≠ "index") :
    specifierFor importer target (some specifier) =
      relative (dirname importer) (dirname (stem target)) := by
  simp [specifierFor, bare, entry, other]

/-- A specifier that replaces one without an ending has no ending either. -/
theorem specifierFor_of_no_entry {importer target specifier : String}
    (bare : sourceExtension? specifier = none)
    (named : basename (stem target) = "index" → basename specifier = "index") :
    specifierFor importer target (some specifier) = relative (dirname importer) (stem target) := by
  have noEntry : ¬ (basename (stem target) = "index" ∧ basename specifier ≠ "index") :=
    fun entry => entry.2 (named entry.1)
  simp only [specifierFor, bare, if_neg noEntry, String.append_empty]

theorem specifierFor_of_bare {importer target specifier : String}
    (bare : sourceExtension? specifier = none) (named : basename (stem target) ≠ "index") :
    specifierFor importer target (some specifier) = relative (dirname importer) (stem target) :=
  specifierFor_of_no_entry bare fun entry => absurd entry named

/-- A specifier that is written for a module leads to it, if its ending cannot be taken for a step
up. -/
theorem resolvesTo_specifierFor {importer target : String} (canonical : IsCanonical importer)
    (module : IsModule target) {model : Option String}
    (outside : ∀ specifier ∈ model, (sourceExtension? specifier).isSome →
      isWithin (dirname importer) (stem target) = false) :
    resolvesTo importer (specifierFor importer target model) target = true := by
  have plain : resolvesTo importer (relative (dirname importer) (stem target)) target = true :=
    resolvesTo_of_resolve? (resolve?_relative canonical module.stem.spells)
      (.inr (.inl (stem_of_none module.bare)))
  cases model with
  | none =>
    rw [specifierFor_none]
    exact plain
  | some specifier =>
    cases found : sourceExtension? specifier with
    | some ext =>
      have apart := outside specifier rfl (by simp [found])
      rw [specifierFor_of_ending found]
      exact resolvesTo_of_resolve?
        (resolve?_relative_append canonical module.stem (isEnding_of_sourceExtension? found) apart)
        (.inr (.inl (stem_append_ext found (basename_ne_empty module.stem))))
    | none =>
      by_cases entry : basename (stem target) = "index" → basename specifier = "index"
      · rw [specifierFor_of_no_entry found entry]
        exact plain
      · rw [Classical.not_imp] at entry
        obtain ⟨names, spells⟩ := module.stem.dirname_spells
        rw [specifierFor_of_entry found entry.1 entry.2]
        exact resolvesTo_of_resolve? (resolve?_relative canonical spells)
          (.inr (.inr (join_index module.stem entry.1)))

theorem basename_slash {front name : String} (absent : '/' ∉ name.toList) :
    basename (front ++ "/" ++ name) = name := by
  have split : Text.splitLast? '/' (front ++ "/" ++ name).toList =
      some (front.toList, name.toList) := by
    simpa using Text.splitLast?_append absent
  rw [basename, split]
  simp

theorem basename_intercalate (init : List String) {last : String} (absent : '/' ∉ last.toList) :
    basename (String.intercalate "/" (init ++ [last])) = last := by
  cases init with
  | nil => simp [basename, Text.splitLast?_eq_none_iff.2 absent]
  | cons s init =>
    rw [String.intercalate_append_of_ne_nil (by simp) (by simp), String.intercalate_singleton]
    exact basename_slash absent

theorem basename_way_concat (up : Nat) (init : List String) {last : String}
    (absent : '/' ∉ last.toList) :
    basename (way up (init ++ [last])) = last := by
  cases up with
  | zero =>
    cases init with
    | nil => exact @basename_slash "." last absent
    | cons s init =>
      have parts : way 0 (s :: init ++ [last]) = "./" ++ String.intercalate "/"
          (s :: init) ++ "/" ++ last := by
        rw [way, if_pos rfl, if_neg (by simp),
          String.intercalate_append_of_ne_nil (by simp) (by simp)]
        simp [String.append_assoc]
      rw [parts]
      exact basename_slash absent
  | succ up =>
    rw [way, if_neg (Nat.succ_ne_zero up), ← List.append_assoc]
    exact basename_intercalate _ absent

/-- A way that only goes up ends with dots. -/
theorem basename_way_nil (up : Nat) : basename (way up []) = "." ∨ basename (way up []) = ".." := by
  cases up with
  | zero => exact .inl (by decide)
  | succ up =>
    rw [way, if_neg (Nat.succ_ne_zero up), List.append_nil, List.replicate_succ']
    exact .inr (basename_intercalate _ (by decide))

theorem sourceExtension?_congr {path other : String} (same : basename path = basename other) :
    sourceExtension? path = sourceExtension? other := by
  rw [sourceExtension?, same, sourceExtension?]

/-- The way to a path without an ending has no ending. -/
theorem sourceExtension?_relative {dir path : String} {base names : List String}
    (here : Spells dir base) (there : Spells path names) (bare : sourceExtension? path = none) :
    sourceExtension? (relative dir path) = none := by
  obtain ⟨front, up, rest, -, below, same⟩ := relative_eq_way here there
  rw [same]
  rcases List.eq_nil_or_concat' rest with rfl | ⟨init, last, rfl⟩
  · rcases basename_way_nil up.length with dot | dots
    · exact @sourceExtension?_congr _ "." dot
    · exact @sourceExtension?_congr _ ".." dots
  · rw [below] at there
    have absent : '/' ∉ last.toList := (there.plain last (by simp)).2
    have name : basename path = last := by
      rw [there.text, ← List.append_assoc]
      exact basename_intercalate _ absent
    have ends : basename (way up.length (init ++ [last])) = basename path := by
      rw [basename_way_concat up.length init absent, name]
    rw [sourceExtension?_congr ends, bare]

/-- A specifier that is written without a model has no ending. -/
theorem sourceExtension?_specifierFor_none {importer target : String}
    (canonical : IsCanonical importer) (module : IsModule target) :
    sourceExtension? (specifierFor importer target none) = none := by
  obtain ⟨base, here⟩ := canonical.dirname_spells
  rw [specifierFor_none]
  exact sourceExtension?_relative here module.stem.spells module.bare

/-- A specifier says how the path that it stands for ends, or there is nothing that an ending could
tell. -/
def Tells (specifier path : String) : Prop :=
  basename specifier = basename path ∨
    sourceExtension? specifier = none ∧ sourceExtension? path = none ∧ basename path ≠ "index"

instance (specifier path : String) : Decidable (Tells specifier path) :=
  inferInstanceAs (Decidable (_ ∨ _))

/-- A specifier that is written anew, for a file at another place, stands for the same path. -/
theorem resolve?_specifierFor {importer specifier path : String} {names : List String}
    (canonical : IsCanonical importer) (spells : Spells path names) (tells : Tells specifier path)
    (outside : (sourceExtension? specifier).isSome →
      IsCanonical (stem path) ∧ isWithin (dirname importer) (stem path) = false) :
    resolve? importer (specifierFor importer path (some specifier)) = some path := by
  cases found : sourceExtension? specifier with
  | some ext =>
    have source : sourceExtension? path = some ext := by
      rcases tells with same | ⟨none, -, -⟩
      · rw [← found, sourceExtension?_congr same]
      · rw [found] at none
        cases none
    obtain ⟨clean, apart⟩ := outside (by simp [found])
    rw [specifierFor_of_ending found,
      resolve?_relative_append canonical clean (isEnding_of_sourceExtension? found) apart,
      stem_append source]
  | none =>
    have bare : sourceExtension? path = none := by
      rcases tells with same | ⟨-, none, -⟩
      · rw [← found, sourceExtension?_congr same]
      · exact none
    have named : basename (stem path) = "index" → basename specifier = "index" := by
      rw [stem_of_none bare]
      intro entry
      rcases tells with same | ⟨-, -, notEntry⟩
      · exact same.trans entry
      · exact absurd entry notEntry
    rw [specifierFor_of_no_entry found named, stem_of_none bare, resolve?_relative canonical spells]

end Rehome.Path
