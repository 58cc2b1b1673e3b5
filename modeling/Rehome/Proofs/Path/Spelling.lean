import Rehome.Proofs.Path.Detours

/-!
# Files that a written specifier also means

A specifier stands for a path, and a path means every file with its stem and the entry file of the
directory it names. So a specifier that is written for one file may mean the file it is written into
as well. Which paths a written specifier can stand for is known from the file it is written for.
-/
namespace Rehome.Path

/-- A path that means a file: its own, one with the same stem, or the directory whose entry file it
is. -/
def Means (path file : String) : Prop :=
  path = file ∨ stem path = stem file ∨ join path "index" = stem file

instance (path file : String) : Decidable (Means path file) := inferInstanceAs (Decidable (_ ∨ _ ∨ _))

theorem resolvesTo_iff {importer specifier file : String} :
    resolvesTo importer specifier file = true ↔
      ∃ path, resolve? importer specifier = some path ∧ Means path file := by
  constructor
  · intro leads
    unfold resolvesTo at leads
    split at leads
    next => cases leads
    next path found => exact ⟨path, found, by simpa [Means, or_assoc] using leads⟩
  · rintro ⟨path, found, means⟩
    exact resolvesTo_of_resolve? found means

theorem resolvesTo_of_not_relative {specifier : String} (plain : isRelative specifier = false)
    (importer file : String) : resolvesTo importer specifier file = false := by
  simp [resolvesTo, resolve?, plain]

/-- The path that a specifier for a file stands for, written in the manner of another one. -/
def spelled (file : String) : Option String → String
  | none => stem file
  | some model =>
    match sourceExtension? model with
    | some ext => stem file ++ ext
    | none =>
      if basename (stem file) = "index" ∧ basename model ≠ "index" then dirname (stem file)
      else stem file

/-- All paths that specifiers for a file stand for. -/
def spellings (file : String) : List String :=
  stem file :: (if basename (stem file) = "index" then [dirname (stem file)] else []) ++
    sourceExtensions.map fun ext => stem file ++ ("." ++ ext)

theorem spelled_mem (file : String) (model : Option String) :
    spelled file model ∈ spellings file := by
  cases model with
  | none => exact List.mem_cons_self
  | some model =>
    rw [spelled]
    cases found : sourceExtension? model with
    | some ext =>
      obtain ⟨-, e, -, -, rfl, member⟩ := sourceExtension?_eq_some found
      exact List.mem_append_right _ (List.mem_map.2 ⟨e, member, rfl⟩)
    | none =>
      dsimp only
      split
      next entry => simp [spellings, entry.1]
      next => exact List.mem_cons_self

/-- Specifiers for one file may also mean the other one. -/
def Shadows (file other : String) : Prop := ∃ path ∈ spellings file, Means path other

instance (file other : String) : Decidable (Shadows file other) :=
  inferInstanceAs (Decidable (∃ path ∈ spellings file, Means path other))

/-- A file in a directory whose name is two dots and a source extension. -/
def InDottedDirectory (file : String) : Prop :=
  ∃ ext ∈ sourceExtensions, basename (dirname file) = ".." ++ ("." ++ ext)

instance (file : String) : Decidable (InDottedDirectory file) :=
  inferInstanceAs (Decidable (∃ ext ∈ sourceExtensions, _))

/-! ## Ways up with an ending -/

theorem dirname_append {path ending : String} (absent : '/' ∉ ending.toList) :
    dirname (path ++ ending) = dirname path := by
  unfold dirname
  cases split : Text.splitLast? '/' path.toList with
  | none =>
    have whole : Text.splitLast? '/' (path ++ ending).toList = none := by
      simpa [Text.splitLast?_eq_none_iff, absent] using Text.splitLast?_eq_none_iff.1 split
    rw [whole]
  | some parts =>
    obtain ⟨dir, name⟩ := parts
    obtain ⟨cut, noSlash⟩ := Text.splitLast?_eq_some_iff.1 split
    have whole : Text.splitLast? '/' (path ++ ending).toList =
        some (dir, name ++ ending.toList) := by
      rw [Text.splitLast?_eq_some_iff]
      simp [cut, noSlash, absent]
    rw [whole]

theorem dirname_stem (path : String) : dirname (stem path) = dirname path := by
  cases found : sourceExtension? path with
  | none => rw [stem_of_none found]
  | some ext =>
    have whole := stem_append found
    rw [← dirname_append (isEnding_of_sourceExtension? found).free.1, whole]

theorem dirname_slash {front name : String} (absent : '/' ∉ name.toList) :
    dirname (front ++ "/" ++ name) = front := by
  have split : Text.splitLast? '/' (front ++ "/" ++ name).toList =
      some (front.toList, name.toList) := by
    simpa using Text.splitLast?_append absent
  rw [dirname, split]
  simp

theorem dirname_intercalate (init : List String) {last : String} (absent : '/' ∉ last.toList) :
    dirname (String.intercalate "/" (init ++ [last])) = String.intercalate "/" init := by
  cases init with
  | nil => simp [dirname, Text.splitLast?_eq_none_iff.2 absent]
  | cons s init =>
    rw [String.intercalate_append_of_ne_nil (by simp) (by simp), String.intercalate_singleton]
    exact dirname_slash absent

theorem Spells.unique {path : String} {names names' : List String} (h : Spells path names)
    (h' : Spells path names') (nonempty : names ≠ []) (nonempty' : names' ≠ []) : names = names' := by
  have same := (h.splitOn nonempty).symm.trans (h'.splitOn nonempty')
  have inj : Function.Injective String.toList := fun _ _ => String.toList_inj.1
  exact inj.list_map same

theorem way_up_append (up : Nat) (ending : String) :
    way (up + 2) [] ++ ending = way (up + 1) [".." ++ ending] := by
  have last : List.replicate (up + 2) ".." ++ [] = List.replicate (up + 1) ".." ++ [".."] := by
    rw [List.append_nil, List.replicate_succ']
  rw [way, if_neg (by omega), last, intercalate_concat, way, if_neg (by omega)]

/-- Dots with an ending are no relative specifier. -/
theorem isRelative_dots : ∀ ext ∈ sourceExtensions,
    isRelative ("." ++ ("." ++ ext)) = false ∧ isRelative (".." ++ ("." ++ ext)) = false := by
  decide +kernel

theorem isName_dots : ∀ ext ∈ sourceExtensions,
    IsName ("." ++ ("." ++ ext)) ∧ IsName (".." ++ ("." ++ ext)) := by
  unfold IsName
  decide +kernel

/-- Going up and no further, a way with an ending is not relative, or it leads to a name of two dots
and that ending in a directory that lies above. -/
theorem resolve?_up_append {importer ext : String} {front up : List String}
    (member : ext ∈ sourceExtensions) (dir : Spells (dirname importer) (front ++ up)) {path : String}
    (found : resolve? importer (way up.length [] ++ ("." ++ ext)) = some path) :
    ∃ u, (front ++ [u]).length < (front ++ up).length ∧
      Spells path (front ++ [u] ++ [".." ++ ("." ++ ext)]) := by
  match up with
  | [] =>
    have here : way ([] : List String).length [] = "." := rfl
    rw [resolve?, here, (isRelative_dots ext member).1, if_neg Bool.false_ne_true] at found
    cases found
  | [u] =>
    have here : way [u].length [] = ".." := by simp [way]
    rw [resolve?, here, (isRelative_dots ext member).2, if_neg Bool.false_ne_true] at found
    cases found
  | u :: w :: up =>
    have names : ∀ s ∈ [".." ++ ("." ++ ext)], IsName s := by simpa using (isName_dots ext member).2
    have above : Spells (dirname importer) ((front ++ [u]) ++ (w :: up)) := by simpa using dir
    have leads := resolve?_way above names
    rw [List.length_cons, List.length_cons, way_up_append, ← List.length_cons (a := w), leads] at found
    refine ⟨u, by simp, (Option.some.inj found).symm, fun s inside => ?_⟩
    rcases List.mem_append.1 inside with early | last
    · exact above.plain s (List.mem_append_left _ early)
    · exact names s last

/-- Such a name means the file that the way was written into only if the file is the entry file of a
directory with that name. -/
theorem inDottedDirectory_of_means {importer ext path : String} {base init : List String}
    (member : ext ∈ sourceExtensions) (dir : Spells (dirname importer) base)
    (nonempty : init ≠ []) (shorter : init.length < base.length)
    (spells : Spells path (init ++ [".." ++ ("." ++ ext)])) (means : Means path importer) :
    InDottedDirectory importer := by
  have absent : '/' ∉ (".." ++ ("." ++ ext)).toList := (spells.plain _ (by simp)).2
  have above : Spells (dirname path) init := by
    refine ⟨?_, fun s inside => spells.plain s (by simp [inside])⟩
    rw [spells.text, dirname_intercalate init absent]
  have apart : dirname path ≠ dirname importer := by
    intro same
    have filled : base ≠ [] := List.ne_nil_of_length_pos (by omega)
    have equal := (same ▸ above).unique dir nonempty filled
    rw [equal] at shorter
    exact Nat.lt_irrefl _ shorter
  rcases means with same | stems | entry
  · exact absurd (congrArg dirname same) apart
  · rw [← dirname_stem path, ← dirname_stem importer, stems] at apart
    exact absurd rfl apart
  · refine ⟨ext, member, ?_⟩
    have filled : path ≠ "" := (spells.canonical (by simp)).ne_empty
    rw [← dirname_stem importer, ← entry, join, if_neg filled, if_neg (by decide),
      dirname_slash (by decide), spells.text, basename_intercalate init absent]

/-! ## Files that a specifier is written into -/

/-- A specifier that is written for a file and means the one it is written into stands for a path
that means it, or the file is in a directory of an odd name. -/
theorem means_of_specifierFor {importer file : String} {model : Option String}
    (canonical : IsCanonical importer) {names : List String} (clean : Spells (stem file) names)
    (own : resolvesTo importer (specifierFor importer file model) importer = true) :
    Means (spelled file model) importer ∨ InDottedDirectory importer := by
  obtain ⟨path, found, means⟩ := resolvesTo_iff.1 own
  cases model with
  | none =>
    rw [specifierFor_none, resolve?_relative canonical clean] at found
    cases found
    exact .inl means
  | some model =>
    cases ending : sourceExtension? model with
    | none =>
      refine .inl ?_
      rw [spelled, ending]
      dsimp only
      split
      next entry =>
        have filled : names ≠ [] := by
          rintro rfl
          rw [clean.text] at entry
          exact absurd entry.1 (by decide)
        obtain ⟨above, spells⟩ := (clean.canonical filled).dirname_spells
        rw [specifierFor_of_entry ending entry.1 entry.2, resolve?_relative canonical spells] at found
        obtain rfl := Option.some.inj found
        exact means
      next other =>
        rw [specifierFor_of_no_entry ending fun entry => not_not.1 (not_and.1 other entry),
          resolve?_relative canonical clean] at found
        obtain rfl := Option.some.inj found
        exact means
    | some ext =>
      obtain ⟨-, e, -, -, rfl, member⟩ := sourceExtension?_eq_some ending
      obtain ⟨base, here⟩ := canonical.dirname_spells
      obtain ⟨front, up, rest, rfl, rfl, same⟩ := relative_eq_way here clean
      rw [specifierFor_of_ending ending, same] at found
      rcases List.eq_nil_or_concat' rest with rfl | ⟨init, last, rfl⟩
      · obtain ⟨u, shorter, spells⟩ := resolve?_up_append member here found
        exact .inr (inDottedDirectory_of_means member here (by simp) shorter spells means)
      · have named := (clean.plain last (by simp)).append (isEnding_of_mem member)
        rw [resolve?_way_append here (fun s inside => clean.plain s (by simp [inside])) named,
          ← clean.text] at found
        obtain rfl := Option.some.inj found
        refine .inl ?_
        rw [spelled, ending]
        exact means

end Rehome.Path
