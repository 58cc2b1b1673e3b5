import Rehome.Proofs.Path.Spelling

/-!
# Where written specifiers lead

The way from a file to a clean path leads to that path. A specifier for a file is the way to its
stem, perhaps with an ending, and need not lead back to the file: the ending may come to stand behind
a step up, and the stem may look as if it had an ending of its own. Both for a specifier that is
written for a file and for one that is written anew at another place, this module says exactly when
it leads where it should.
-/
namespace Rehome.Path

/-! ## Clean paths -/

/-- Cleaning leaves the empty path alone and the canonical ones. -/
theorem normalize?_eq_self_iff {path : String} :
    normalize? path = some path ↔ path = "" ∨ IsCanonical path := by
  constructor
  · intro clean
    by_cases empty : path = ""
    · exact .inl empty
    · exact .inr (normalize?_canonical clean empty)
  · rintro (rfl | canonical)
    · decide
    · exact normalize?_of_spells canonical.spells

/-- The way from a file to a clean path is a relative specifier, and resolving it gives the path. -/
theorem relative_inverts_resolution {importer path : String} (canonical : IsCanonical importer)
    (clean : normalize? path = some path) :
    isRelative (relative (dirname importer) path) = true ∧
      resolve? importer (relative (dirname importer) path) = some path := by
  obtain ⟨names, spells⟩ := normalize?_spells clean
  exact ⟨isRelative_relative .., resolve?_relative canonical spells⟩

theorem relative_inverts_resolution_dotted :
    IsCanonical "libs/..x/main.ts" ∧ normalize? "" = some "" ∧
      relative "libs/..x" "" = "../.." ∧ isRelative "../.." = true ∧
      resolve? "libs/..x/main.ts" "../.." = some "" := by
  have canonical : IsCanonical "libs/..x/main.ts" := by decide
  have root : normalize? "" = some "" := by decide
  have dir : dirname "libs/..x/main.ts" = "libs/..x" := by decide +kernel
  have way : relative "libs/..x" "" = "../.." := by decide +kernel
  have led := relative_inverts_resolution canonical root
  rw [dir, way] at led
  exact ⟨canonical, root, way, led⟩

theorem Spells.canonical_of_ne_empty {path : String} {names : List String} (spells : Spells path names)
    (filled : path ≠ "") : IsCanonical path := by
  refine spells.canonical ?_
  rintro rfl
  exact filled spells.text

/-- The last name of a canonical path. -/
theorem IsCanonical.basename_isName {path : String} (canonical : IsCanonical path) :
    IsName (basename path) := by
  have spells := canonical.spells
  generalize (path.toList.splitOn '/').map String.ofList = names at spells
  rcases List.eq_nil_or_concat' names with rfl | ⟨init, last, rfl⟩
  · exact absurd spells.text canonical.ne_empty
  · have name : IsName last := spells.plain last (by simp)
    rw [spells.text, basename_intercalate init name.2]
    exact name

theorem basename_stem_ne_empty {path ext : String} (found : sourceExtension? path = some ext) :
    basename (stem path) ≠ "" := by
  obtain ⟨front, e, whole, filled, rfl, member⟩ := sourceExtension?_eq_some found
  have parts : basename (stem path) ++ ("." ++ e) = front ++ ("." ++ e) := by
    rw [← basename_append (isEnding_of_mem member).free.1, stem_append found, whole]
  have same : basename (stem path) = front := by
    rw [← String.toList_inj] at parts ⊢
    simpa using parts
  rw [same]
  exact filled

/-! ## Ways to a directory above -/

/-- A directory that lies within a path starts with the names of the path. -/
theorem exists_above {dir path : String} {base names : List String} (here : Spells dir base)
    (there : Spells path names) (within : isWithin dir path = true) :
    ∃ up, base = names ++ up := by
  have inj : Function.Injective String.toList := fun _ _ => String.toList_inj.1
  by_cases none : names = []
  · exact ⟨base, by rw [none, List.nil_append]⟩
  · have filled : path ≠ "" := (there.canonical none).ne_empty
    rcases isWithin_iff.1 within with empty | rfl | ⟨rest, cut⟩
    · exact absurd empty filled
    · have started : base ≠ [] := by
        rintro rfl
        exact filled here.text
      exact ⟨[], by rw [List.append_nil, here.unique there started none]⟩
    · have started : base ≠ [] := by
        rintro rfl
        rw [here.text] at cut
        exact absurd cut (by simp)
      have parts : base.map String.toList = names.map String.toList ++ rest.splitOn '/' := by
        rw [← here.splitOn started, cut, List.splitOn_append_cons_self, there.splitOn none]
      obtain ⟨front, up, rfl, same, -⟩ := List.map_eq_append_iff.1 parts
      exact ⟨up, by rw [inj.list_map same]⟩

/-- The way to a directory above goes up and no further. -/
theorem relative_above {dir path : String} {names up : List String} (here : Spells dir (names ++ up))
    (there : Spells path names) : relative dir path = way up.length [] := by
  have found : stepsFrom [] (names.map .name) ((names ++ up).map .name) =
      some (List.replicate up.length .parent) := by
    have skipped := stepsFrom_append names [] up
    rwa [List.append_nil, stepsFrom_nil, List.nil_append] at skipped
  have written : difference? path dir =
      some (String.intercalate "/" (List.replicate up.length ".." ++ [])) := by
    rw [difference?, here.isAbsolute, there.isAbsolute, if_pos rfl, here.components,
      there.components, found, Option.map_some, List.map_replicate, List.append_nil]
    rfl
  exact relative_of_steps written (by simp) (by simp)

/-! ## Ways with an ending -/

/-- An ending behind the way from a file to a stem ends the last name of the stem. It does not if the
file lies in the directory that is called like the stem, where the way ends with a step up. A name of
one dot vanishes from the way, unless the way has nothing else; one of two dots is the whole way from
the directory it stands in. -/
def CarriesEnding (importer stem : String) : Prop :=
  IsCanonical stem ∧ isWithin (dirname importer) stem = false ∨
    stem = "." ∨ basename stem = ".." ∧ dirname importer ≠ dirname stem

instance (importer stem : String) : Decidable (CarriesEnding importer stem) :=
  inferInstanceAs (Decidable (_ ∨ _))

/-- The steps to a stem of a single dot keep the dot. -/
theorem relative_dot {dir : String} {base : List String} (here : Spells dir base) :
    relative dir "." = way base.length ["."] := by
  have found : stepsFrom [] [.current] (base.map .name) =
      some (List.replicate base.length .parent ++ [.current]) := by
    cases base with
    | nil => simp [stepsFrom]
    | cons b base => simp [stepsFrom, List.replicate_succ, Function.comp_def]
  have written : difference? "." dir =
      some (String.intercalate "/" (List.replicate base.length ".." ++ ["."])) := by
    have single : components "." = [.current] := by decide
    have inside : isAbsolute "." = false := by decide
    rw [difference?, here.isAbsolute, inside, if_pos rfl, here.components, single, found,
      Option.map_some, List.map_append, List.map_replicate]
    rfl
  exact relative_of_steps written (by decide) fun _ => by decide

/-- Behind names, a piece counts as itself unless it stands for nothing. -/
theorem components_concat {init : List String} (plain : ∀ s ∈ init, IsName s) {last : String}
    (free : '/' ∉ last.toList) (starts : init = [] → last ≠ "" ∧ last ≠ ".") :
    isAbsolute (String.intercalate "/" (init ++ [last])) = false ∧
      components (String.intercalate "/" (init ++ [last])) =
        init.map .name ++ ([last].filter fun x => x ≠ "" ∧ x ≠ ".").map .ofSegment := by
  have pieces : ∀ x ∈ init ++ [last], '/' ∉ x.toList := by
    intro x member
    rcases List.mem_append.1 member with name | final
    · exact (plain x name).2
    · rw [List.mem_singleton.1 final]
      exact free
  rw [← components_names plain, ← List.map_append, ← List.filter_append]
  cases init with
  | nil =>
    obtain ⟨filled, ahead⟩ := starts rfl
    exact ⟨isAbsolute_of_pieces [] free filled, components_of_pieces pieces filled ahead⟩
  | cons s init =>
    have name := plain s (by simp)
    exact ⟨isAbsolute_of_pieces _ name.2 name.ne_empty,
      components_of_pieces pieces name.ne_empty name.ne_dot⟩

theorem components_two_dots {init : List String} (plain : ∀ s ∈ init, IsName s) :
    isAbsolute (String.intercalate "/" (init ++ [".."])) = false ∧
      components (String.intercalate "/" (init ++ [".."])) = init.map .name ++ [.parent] := by
  have free : '/' ∉ "..".toList := by decide
  have last : ([".."].filter fun x => x ≠ "" ∧ x ≠ ".").map Component.ofSegment = [.parent] := by
    decide
  rw [← last]
  exact components_concat plain free fun _ => by decide

/-- One dot at the end of a stem vanishes behind names. -/
theorem relative_one_dot {dir : String} {base init : List String} (here : Spells dir base)
    (plain : ∀ s ∈ init, IsName s) (named : init ≠ []) :
    relative dir (String.intercalate "/" (init ++ ["."])) =
      relative dir (String.intercalate "/" init) := by
  have there : Spells (String.intercalate "/" init) init := ⟨rfl, plain⟩
  have free : '/' ∉ ".".toList := by decide
  obtain ⟨inside, steps⟩ := components_concat plain free fun none => absurd none named
  obtain ⟨front, up, rest, -, -, found⟩ := stepsFrom_names (init.map .name) base
  have same : difference? (String.intercalate "/" (init ++ ["."])) dir =
      difference? (String.intercalate "/" init) dir := by
    rw [difference?, difference?, inside, there.isAbsolute, there.components, steps]
    simp
  have written : difference? (String.intercalate "/" init) dir ≠ none := by
    rw [difference?, here.isAbsolute, there.isAbsolute, if_pos rfl, here.components,
      there.components, found]
    simp
  cases way : difference? (String.intercalate "/" init) dir with
  | none => exact absurd way written
  | some way' => simp only [relative, same, way]

/-- Names that are skipped at the front of steps leave names before the step up. -/
theorem exists_rest_of_parent {init front : List String} {steps : List Component}
    (parts : init.map Component.name ++ [.parent] = front.map Component.name ++ steps) :
    ∃ rest, init = front ++ rest ∧ steps = rest.map Component.name ++ [.parent] := by
  induction front generalizing init with
  | nil => exact ⟨init, rfl, parts.symm⟩
  | cons s front ih =>
    cases init with
    | nil => cases (List.cons.inj parts).1
    | cons t init =>
      obtain ⟨first, later⟩ := List.cons.inj parts
      obtain ⟨rest, rfl, below⟩ := ih later
      exact ⟨rest, by rw [Component.name.inj first, List.cons_append], below⟩

/-- Two dots at the end of a stem are kept, except by the directory the stem stands in. -/
theorem relative_two_dots {dir : String} {base init : List String} (here : Spells dir base)
    (plain : ∀ s ∈ init, IsName s) (apart : base ≠ init) :
    ∃ front up rest, base = front ++ up ∧ init = front ++ rest ∧
      relative dir (String.intercalate "/" (init ++ [".."])) = way up.length (rest ++ [".."]) := by
  obtain ⟨front, up, steps, above, parts, found⟩ :=
    stepsFrom_names (init.map .name ++ [.parent]) base
  obtain ⟨rest, below, rfl⟩ := exists_rest_of_parent parts
  refine ⟨front, up, rest, above, below, ?_⟩
  have names : ∀ s ∈ rest, IsName s := fun s member => plain s (by simp [below, member])
  have free : ∀ s ∈ rest ++ [".."], '/' ∉ s.toList ∧ '\\' ∉ s.toList := by
    intro s member
    rcases List.mem_append.1 member with name | dots
    · exact (names s name).free
    · rw [List.mem_singleton.1 dots]
      decide
  obtain ⟨inside, components⟩ := components_two_dots plain
  have written : difference? (String.intercalate "/" (init ++ [".."])) dir =
      some (String.intercalate "/" (List.replicate up.length ".." ++ (rest ++ [".."]))) := by
    rw [difference?, here.isAbsolute, inside, if_pos rfl, here.components, components, found]
    simp [Component.text, Function.comp_def]
  refine relative_of_steps written free fun none s first => ?_
  -- without a step up, names come before the dots
  cases rest with
  | nil =>
    rw [List.append_nil] at below
    rw [List.length_eq_zero_iff.1 none, List.append_nil] at above
    exact absurd (above.trans below.symm) apart
  | cons name rest =>
    obtain rfl : name = s := Option.some.inj first
    exact ⟨(names name (by simp)).ne_empty, (names name (by simp)).ne_dots⟩

/-- From the directory that a stem of two dots stands in, the way to it is a step up. -/
theorem relative_own_dots {dir : String} {init : List String} (here : Spells dir init) :
    relative dir (String.intercalate "/" (init ++ [".."])) = ".." := by
  obtain ⟨inside, components⟩ := components_two_dots here.plain
  have found : stepsFrom [] (init.map .name ++ [.parent]) (init.map .name) = some [.parent] := by
    have skipped := stepsFrom_append init [.parent] []
    rw [List.append_nil] at skipped
    rw [skipped]
    rfl
  have written : difference? (String.intercalate "/" (init ++ [".."])) dir =
      some (String.intercalate "/" [".."]) := by
    rw [difference?, here.isAbsolute, inside, if_pos rfl, here.components, components, found]
    rfl
  rw [relative_of_difference? written (by decide)]
  decide

theorem free_of_dots {last : String} (either : last = "." ∨ last = "..") : '/' ∉ last.toList := by
  rcases either with rfl | rfl <;> decide

theorem length_join_index (dir : String) : dir.length < (join dir "index").length := by
  unfold join
  split
  next empty =>
    rw [empty]
    decide
  next =>
    have long : "index".length = 5 := by decide
    rw [if_neg (by decide), String.length_append, String.length_append, long]
    omega

section

variable {importer model ending : String}

theorem isName_dots_append (ends : sourceExtension? model = some ending) :
    IsName ("." ++ ending) ∧ IsName (".." ++ ending) := by
  obtain ⟨-, ext, -, -, rfl, member⟩ := sourceExtension?_eq_some ends
  exact isName_dots ext member

/-- Behind a way that can carry it, an ending leads to the stem with that ending. -/
theorem resolve?_carried {path : String} (canonical : IsCanonical importer)
    (clean : IsCanonical path) (ends : sourceExtension? model = some ending)
    (carries : CarriesEnding importer (stem path)) :
    resolve? importer (relative (dirname importer) (stem path) ++ ending) =
      some (stem path ++ ending) := by
  obtain ⟨base, here⟩ := canonical.dirname_spells
  rcases carries with ⟨there, outside⟩ | dot | ⟨dots, apart⟩
  · exact resolve?_relative_append canonical there (isEnding_of_sourceExtension? ends) outside
  · have named := (isName_dots_append ends).1
    have led := @resolve?_way_append importer ending "." [] base [] here (by simp) named
    rw [dot, relative_dot here]
    simpa using led
  · rcases stem_cases clean with there | ⟨init, last, plain, either, text⟩
    · exact absurd dots there.basename_isName.ne_dots
    · have free := free_of_dots either
      obtain rfl : last = ".." := by rwa [text, basename_intercalate init free] at dots
      have other : base ≠ init := by
        rintro rfl
        rw [text, dirname_intercalate base free, here.text] at apart
        exact apart rfl
      obtain ⟨front, up, rest, rfl, rfl, way⟩ := relative_two_dots here plain other
      have names : ∀ s ∈ rest, IsName s := fun s member => plain s (by simp [member])
      rw [text, way, resolve?_way_append here names (isName_dots_append ends).2,
        List.append_assoc]

/-- In a directory below a path, an ending behind the way to the path leads below it, to a name of
dots. -/
theorem place_below {path place : String} {names up : List String}
    (here : Spells (dirname importer) (names ++ up)) (there : Spells path names)
    (ends : sourceExtension? model = some ending)
    (found : resolve? importer (relative (dirname importer) path ++ ending) = some place) :
    path.length < place.length ∧ basename (stem place) = ".." := by
  have free : '/' ∉ "..".toList := by decide
  rw [relative_above here there] at found
  obtain ⟨u, spells⟩ : ∃ u, Spells place (names ++ [u] ++ [".." ++ ending]) := by
    obtain ⟨-, ext, -, -, rfl, member⟩ := sourceExtension?_eq_some ends
    obtain ⟨u, -, spells⟩ := resolve?_up_append member here found
    exact ⟨u, spells⟩
  have cut : stem place = String.intercalate "/" (names ++ [u] ++ [".."]) := by
    rw [spells.text, ← intercalate_concat]
    refine stem_append_ext ends ?_
    rw [basename_intercalate _ free]
    decide
  have first := length_intercalate_concat names (spells.plain u (by simp)).ne_empty
  have second := length_intercalate_concat (names ++ [u]) (spells.plain (".." ++ ending)
    (by simp)).ne_empty
  rw [← spells.text] at second
  rw [← there.text] at first
  exact ⟨Nat.lt_trans first second, by rw [cut, basename_intercalate _ free]⟩

/-- Where a stem ends with one dot behind names, an ending leads to a path with another stem: the way
has lost the dot. -/
theorem stem_ne_of_one_dot {place : String} {init : List String} (canonical : IsCanonical importer)
    (plain : ∀ s ∈ init, IsName s) (named : init ≠ []) (ends : sourceExtension? model = some ending)
    (found : resolve? importer
      (relative (dirname importer) (String.intercalate "/" (init ++ ["."])) ++ ending) = some place) :
    stem place ≠ String.intercalate "/" (init ++ ["."]) := by
  intro same
  obtain ⟨base, here⟩ := canonical.dirname_spells
  have there : Spells (String.intercalate "/" init) init := ⟨rfl, plain⟩
  rw [relative_one_dot here plain named] at found
  by_cases within : isWithin (dirname importer) (String.intercalate "/" init) = true
  · obtain ⟨up, rfl⟩ := exists_above here there within
    have dots := (place_below here there ends found).2
    rw [same, basename_intercalate init (free_of_dots (.inl rfl))] at dots
    exact absurd dots (by decide)
  · rw [resolve?_relative_append canonical (there.canonical named)
      (isEnding_of_sourceExtension? ends) (by simpa using within)] at found
    obtain rfl := Option.some.inj found
    have shorter := length_intercalate_concat init (show "." ≠ "" by decide)
    rw [stem_append_ext ends (basename_ne_empty (there.canonical named))] at same
    rw [← same] at shorter
    exact Nat.lt_irrefl _ shorter

/-- Behind a way that cannot carry it, an ending leads to a path that does not mean the file. -/
theorem not_means_of_not_carried {path place : String} (canonical : IsCanonical importer)
    (clean : IsCanonical path) (ends : sourceExtension? model = some ending)
    (lost : ¬ CarriesEnding importer (stem path))
    (found : resolve? importer (relative (dirname importer) (stem path) ++ ending) = some place) :
    stem place ≠ stem path ∧ join place "index" ≠ stem path := by
  obtain ⟨base, here⟩ := canonical.dirname_spells
  rcases stem_cases clean with there | ⟨init, last, plain, either, text⟩
  · have within : isWithin (dirname importer) (stem path) = true := by
      rw [← Bool.not_eq_false]
      exact fun outside => lost (.inl ⟨there, outside⟩)
    obtain ⟨up, above⟩ := exists_above here there.spells within
    obtain ⟨longer, dots⟩ := place_below (above ▸ here) there.spells ends found
    refine ⟨fun same => ?_, fun entry => ?_⟩
    · rw [same] at dots
      exact there.basename_isName.ne_dots dots
    · have grown := length_join_index place
      rw [entry] at grown
      omega
  · have free := free_of_dots either
    have name : basename (stem path) = last := by rw [text, basename_intercalate init free]
    have noEntry : join place "index" ≠ stem path := by
      intro entry
      rw [← entry, basename_join_index] at name
      rcases either with rfl | rfl <;> exact absurd name (by decide)
    refine ⟨fun same => ?_, noEntry⟩
    rcases either with rfl | rfl
    · have named : init ≠ [] := by
        rintro rfl
        exact lost (.inr (.inl text))
      rw [text] at found same
      exact stem_ne_of_one_dot canonical plain named ends found same
    · have own : dirname importer = String.intercalate "/" init := by
        rw [← dirname_intercalate init free, ← text]
        by_contra apart
        exact lost (.inr (.inr ⟨name, apart⟩))
      obtain ⟨-, ext, -, -, rfl, member⟩ := sourceExtension?_eq_some ends
      rw [text, relative_own_dots ⟨own, plain⟩, resolve?, (isRelative_dots ext member).2,
        if_neg Bool.false_ne_true] at found
      cases found

end

/-! ## Specifiers for a file -/

theorem stem_eq_self_iff {path : String} : stem path = path ↔ sourceExtension? path = none := by
  refine ⟨fun same => ?_, stem_of_none⟩
  cases found : sourceExtension? path with
  | none => rfl
  | some ext =>
    have whole := congrArg String.length (stem_append found)
    have long := (isEnding_of_sourceExtension? found).long
    rw [same, String.length_append] at whole
    rw [String.length_toList] at long
    omega

/-- Only a file that can be told from its stem is reached by the way to the stem. -/
theorem isModule_of_resolvesTo {importer target : String} (canonical : IsCanonical importer)
    (clean : IsCanonical target) (source : (sourceExtension? target).isSome)
    (led : resolvesTo importer (relative (dirname importer) (stem target)) target = true) :
    IsModule target := by
  have there := canonical_stem_of_resolvesTo canonical clean led
  obtain ⟨place, found, means⟩ := resolvesTo_iff.1 led
  rw [resolve?_relative canonical there.spells] at found
  obtain rfl := Option.some.inj found
  refine ⟨there, ?_⟩
  rcases means with same | stems | entry
  · rw [stem_eq_self_iff.1 same] at source
    cases source
  · exact stem_eq_self_iff.1 stems
  · have grown := length_join_index (stem target)
    rw [entry] at grown
    exact absurd grown (Nat.lt_irrefl _)

/-- A file with the name of an entry file can be told from its stem. -/
theorem isModule_of_index {target : String} (clean : IsCanonical target)
    (entry : basename (stem target) = "index") : IsModule target := by
  refine ⟨?_, ?_⟩
  · rcases stem_cases clean with there | ⟨init, last, -, either, text⟩
    · exact there
    · have free := free_of_dots either
      rw [text, basename_intercalate init free] at entry
      rcases either with rfl | rfl <;> exact absurd entry (by decide)
  · exact @sourceExtension?_congr _ "index" entry

/-- When a specifier that is written for a file leads back to it: an ending that is kept has to find
the stem's name in front of it, and without an ending the file has to be told from its stem. -/
def LeadsBack (importer target : String) (model : Option String) : Prop :=
  if (model.bind sourceExtension?).isSome then CarriesEnding importer (stem target)
  else IsModule target

instance (importer target : String) (model : Option String) :
    Decidable (LeadsBack importer target model) :=
  inferInstanceAs (Decidable (if (model.bind sourceExtension?).isSome then
    CarriesEnding importer (stem target) else IsModule target))

/-- A specifier that is written for a source file leads back to the file in exactly these cases. -/
theorem specifierFor_leads_back_iff {importer target : String} (canonical : IsCanonical importer)
    (clean : IsCanonical target) (source : (sourceExtension? target).isSome)
    (model : Option String) :
    resolvesTo importer (specifierFor importer target model) target = true ↔
      LeadsBack importer target model := by
  unfold LeadsBack
  cases found : model.bind sourceExtension? with
  | some ending =>
    obtain ⟨specifier, rfl, ends⟩ := Option.bind_eq_some_iff.1 found
    rw [specifierFor_of_ending ends, Option.isSome_some, if_pos rfl]
    constructor
    · intro led
      obtain ⟨place, found, means⟩ := resolvesTo_iff.1 led
      by_contra lost
      obtain ⟨noStem, noEntry⟩ := not_means_of_not_carried canonical clean ends lost found
      rcases means with same | stems | entry
      · exact noStem (congrArg stem same)
      · exact noStem stems
      · exact noEntry entry
    · intro carries
      obtain ⟨ext, found⟩ := Option.isSome_iff_exists.1 source
      refine resolvesTo_of_resolve? (resolve?_carried canonical clean ends carries) (.inr (.inl ?_))
      exact stem_append_ext ends (basename_stem_ne_empty found)
  | none =>
    rw [Option.isSome_none, if_neg Bool.false_ne_true]
    have bare : ∀ specifier ∈ model, sourceExtension? specifier = none :=
      fun specifier member => Option.bind_eq_none_iff.1 found specifier member
    constructor
    · intro led
      cases model with
      | none =>
        rw [specifierFor_none] at led
        exact isModule_of_resolvesTo canonical clean source led
      | some specifier =>
        by_cases entry : basename (stem target) = "index"
        · exact isModule_of_index clean entry
        · rw [specifierFor_of_bare (bare specifier rfl) entry] at led
          exact isModule_of_resolvesTo canonical clean source led
    · intro module
      refine resolvesTo_specifierFor canonical module fun specifier member ending => ?_
      rw [bare specifier member] at ending
      cases ending

/-- The ending is kept although the file's name consists of dots before its own. -/
theorem leads_back_to_dots :
    IsCanonical "libs/b/main.ts" ∧ IsCanonical "libs/a/...ts" ∧
      specifierFor "libs/b/main.ts" "libs/a/...ts" (some "./x.js") = "../a/...js" ∧
      resolvesTo "libs/b/main.ts" "../a/...js" "libs/a/...ts" = true := by
  have canonical : IsCanonical "libs/b/main.ts" := by decide
  have clean : IsCanonical "libs/a/...ts" := by decide
  have written : specifierFor "libs/b/main.ts" "libs/a/...ts" (some "./x.js") = "../a/...js" := by
    decide +kernel
  have led := (specifierFor_leads_back_iff canonical clean (by decide +kernel) (some "./x.js")).2
    (by decide +kernel)
  rw [written] at led
  exact ⟨canonical, clean, written, led⟩

/-- In a directory that is called like the stem, the way to the stem is a single dot. With the ending
of the specifier it replaces it is no relative specifier any more. -/
theorem ending_behind_step_up :
    IsCanonical "libs/z/y.ts" ∧ IsCanonical "libs/z.ts" ∧ sourceExtension? "libs/z.ts" = some ".ts" ∧
      specifierFor "libs/z/y.ts" "libs/z.ts" (some "../x.js") = "..js" ∧
      resolvesTo "libs/z/y.ts" (specifierFor "libs/z/y.ts" "libs/z.ts" (some "../x.js"))
        "libs/z.ts" = false := by
  refine ⟨by decide, by decide, ?_, ?_, ?_⟩ <;> decide +kernel

/-! ## Specifiers that are written anew -/

/-- When a specifier that is written anew stands for the path that the old one stood for: the path
ends as the old specifier did, and either the ending finds the stem's name in front of it, or, where
there is no ending, the old specifier spelt out the name of an entry file. -/
def Restores (importer specifier path : String) : Prop :=
  sourceExtension? path = sourceExtension? specifier ∧
    if (sourceExtension? specifier).isSome then CarriesEnding importer (stem path)
    else basename path = "index" → basename specifier = "index"

instance (importer specifier path : String) : Decidable (Restores importer specifier path) :=
  inferInstanceAs (Decidable (_ ∧ if (sourceExtension? specifier).isSome then
    CarriesEnding importer (stem path) else basename path = "index" → basename specifier = "index"))

section

variable {importer specifier path : String} {names : List String}

/-- With an ending, the path has to have that ending, and the way to its stem has to carry it. -/
theorem resolve?_ending_iff (canonical : IsCanonical importer) (spells : Spells path names)
    {ending : String} (ends : sourceExtension? specifier = some ending) :
    resolve? importer (relative (dirname importer) (stem path) ++ ending) = some path ↔
      sourceExtension? path = some ending ∧ CarriesEnding importer (stem path) := by
  by_cases none : names = []
  · -- the way to the root is a way up, and the ending leads below the root
    subst none
    obtain rfl : path = "" := spells.text
    have stem : stem "" = "" := by decide +kernel
    have bare : sourceExtension? "" = none := by decide +kernel
    obtain ⟨base, here⟩ := canonical.dirname_spells
    have above : Spells (dirname importer) ([] ++ base) := here
    rw [stem, bare]
    refine ⟨fun led => ?_, fun fits => ?_⟩
    · exact absurd (place_below above spells ends led).1 (Nat.lt_irrefl _)
    · cases fits.1
  · have clean : IsCanonical path := spells.canonical none
    refine ⟨fun led => ?_, fun ⟨found, carries⟩ => ?_⟩
    · have carries : CarriesEnding importer (stem path) := by
        by_contra lost
        exact (not_means_of_not_carried canonical clean ends lost led).1 rfl
      rw [resolve?_carried canonical clean ends carries, Option.some.injEq] at led
      have named : basename (stem path) ≠ "" := by
        cases found : sourceExtension? path with
        | none =>
          rw [stem_of_none found]
          exact basename_ne_empty clean
        | some ext => exact basename_stem_ne_empty found
      have found := sourceExtension?_append ends named
      rw [led] at found
      exact ⟨found, carries⟩
    · rw [resolve?_carried canonical clean ends carries, stem_append found]

/-- Without an ending, the path must have none, and must not be taken for an entry file. -/
theorem resolve?_bare_iff (canonical : IsCanonical importer) (spells : Spells path names)
    (bare : sourceExtension? specifier = none) :
    resolve? importer (specifierFor importer path (some specifier)) = some path ↔
      sourceExtension? path = none ∧ (basename path = "index" → basename specifier = "index") := by
  by_cases named : basename (stem path) = "index" → basename specifier = "index"
  · rw [specifierFor_of_no_entry bare named]
    cases found : sourceExtension? path with
    | none =>
      rw [stem_of_none found] at named ⊢
      rw [resolve?_relative canonical spells]
      exact ⟨fun _ => ⟨rfl, named⟩, fun _ => rfl⟩
    | some ext =>
      refine ⟨fun led => ?_, fun fits => absurd fits.1 (Option.some_ne_none ext)⟩
      have filled : path ≠ "" := by
        rintro rfl
        exact absurd found (by simp [show sourceExtension? "" = none by decide +kernel])
      have clean := spells.canonical_of_ne_empty filled
      have module := isModule_of_resolvesTo canonical clean (by rw [found]; rfl)
        (resolvesTo_of_resolve? led (.inl rfl))
      rw [resolve?_relative canonical module.stem.spells, Option.some.injEq, stem_eq_self_iff,
        found] at led
      cases led
  · -- the directory of an entry file is written in its place
    rw [Classical.not_imp] at named
    have filled : path ≠ "" := by
      rintro rfl
      exact absurd named.1 (by decide +kernel)
    have clean := spells.canonical_of_ne_empty filled
    have stemmed := (isModule_of_index clean named.1).stem
    obtain ⟨above, there⟩ := stemmed.dirname_spells
    rw [specifierFor_of_entry bare named.1 named.2, resolve?_relative canonical there]
    refine ⟨fun led => ?_, fun ⟨found, entry⟩ => ?_⟩
    · have shorter := length_join_index (dirname (stem path))
      have least := length_stem_le path
      rw [join_index stemmed named.1, Option.some.inj led] at shorter
      omega
    · rw [stem_of_none found] at named
      exact absurd (entry named.1) named.2

/-- The empty path has a canonical one in the same directory, and so has every clean path. -/
theorem exists_canonical_sibling (clean : normalize? path = some path) :
    ∃ file, IsCanonical file ∧ dirname file = dirname path := by
  rcases normalize?_eq_self_iff.1 clean with rfl | canonical
  · exact ⟨"x", by decide, by decide +kernel⟩
  · exact ⟨path, canonical, rfl⟩

end

/-- A specifier that is written anew for another place stands for the path that the old one stood for
in exactly these cases. -/
theorem specifierFor_restores_iff {source target specifier path : String}
    (clean : normalize? target = some target) (found : resolve? source specifier = some path) :
    resolve? target (specifierFor target path (some specifier)) = some path ↔
      Restores target specifier path := by
  obtain ⟨file, canonical, sibling⟩ := exists_canonical_sibling clean
  obtain ⟨names, spells⟩ : ∃ names, Spells path names := by
    unfold resolve? at found
    split at found
    · exact normalize?_spells found
    · cases found
  have written : specifierFor target path (some specifier) =
      specifierFor file path (some specifier) := by
    rw [specifierFor, specifierFor, sibling]
  have same : resolve? target (specifierFor target path (some specifier)) =
      resolve? file (specifierFor file path (some specifier)) := by
    rw [written, resolve?, resolve?, sibling]
  rw [same]
  unfold Restores CarriesEnding
  rw [← sibling]
  cases ends : sourceExtension? specifier with
  | some ending =>
    rw [specifierFor_of_ending ends, Option.isSome_some, if_pos rfl]
    exact resolve?_ending_iff canonical spells ends
  | none =>
    rw [Option.isSome_none, if_neg Bool.false_ne_true]
    exact resolve?_bare_iff canonical spells ends

/-- An entry file is named with its ending from a directory below its own. -/
theorem restored_from_below :
    normalize? "libs/a/b/x.ts" = some "libs/a/b/x.ts" ∧
      resolve? "libs/x.ts" "./a//index.js" = some "libs/a/index.js" ∧
      specifierFor "libs/a/b/x.ts" "libs/a/index.js" (some "./a//index.js") = "../index.js" ∧
      resolve? "libs/a/b/x.ts" "../index.js" = some "libs/a/index.js" := by
  have clean : normalize? "libs/a/b/x.ts" = some "libs/a/b/x.ts" := by decide +kernel
  have found : resolve? "libs/x.ts" "./a//index.js" = some "libs/a/index.js" := by decide +kernel
  have written : specifierFor "libs/a/b/x.ts" "libs/a/index.js" (some "./a//index.js") =
      "../index.js" := by decide +kernel
  have led := (specifierFor_restores_iff clean found).2 (by decide +kernel)
  rw [written] at led
  exact ⟨clean, found, written, led⟩

/-- A directory whose name looks like that of a source file loses its ending, since the specifier for
it had none. -/
theorem directory_loses_ending :
    IsCanonical "libs/three.js/x.ts" ∧ IsCanonical "libs/b/x.ts" ∧
      resolve? "libs/three.js/x.ts" "." = some "libs/three.js" ∧
      specifierFor "libs/b/x.ts" "libs/three.js" (some ".") = "../three" ∧
      resolve? "libs/b/x.ts" (specifierFor "libs/b/x.ts" "libs/three.js" (some ".")) =
        some "libs/three" := by
  refine ⟨by decide, by decide, ?_, ?_, ?_⟩ <;> decide +kernel

end Rehome.Path
