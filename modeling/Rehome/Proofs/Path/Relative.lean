import Rehome.Proofs.Path.Normalize

/-!
# The way from a file to a path

A relative specifier goes up some directories and then down along names. The way that is written
from a file to a clean path goes up exactly where the two paths part, so resolving it leads to that
path.
-/
namespace Rehome.Path

/-! ## Segments -/

theorem segments_append (front back : String) : segments
    (front ++ "/" ++ back) = segments front ++ segments back := by
  simp [segments, List.splitOn_append_cons_self]

theorem map_slashes {l : List Char} (absent : '\\' ∉ l) :
    (l.map fun c => if c = '\\' then '/' else c) = l := by
  have kept : ∀ c ∈ l, (if c = '\\' then '/' else c) = c := by
    intro c inside
    apply if_neg
    rintro rfl
    exact absent inside
  rw [List.map_congr_left kept, List.map_id']

theorem segments_of_free {s : String} (free : '/' ∉ s.toList ∧ '\\' ∉ s.toList) :
    segments s = [s] := by
  simp [segments, map_slashes free.2, List.splitOn_eq_singleton free.1]

theorem segments_intercalate {pieces : List String} (nonempty : pieces ≠ [])
    (free : ∀ s ∈ pieces, '/' ∉ s.toList ∧ '\\' ∉ s.toList) :
    segments (String.intercalate "/" pieces) = pieces := by
  induction pieces with
  | nil => exact absurd rfl nonempty
  | cons s rest ih =>
    cases rest with
    | nil => rw [String.intercalate_singleton, segments_of_free (free s (by simp))]
    | cons s' rest =>
      rw [String.intercalate_cons_cons, segments_append, segments_of_free (free s (by simp)),
        ih (by simp) fun x member => free x (by simp [member])]
      rfl

/-- A clean path stays as it is. -/
theorem normalize?_of_spells {path : String} {names : List String} (h : Spells path names) :
    normalize? path = some path := by
  cases names with
  | nil =>
    rw [h.text]
    decide
  | cons s names =>
    have pieces : segments path = s :: names := by
      rw [h.text]
      exact segments_intercalate (by simp) fun x member => ⟨(h.plain x member).2,
        (h.plain x member).1.2.2.2⟩
    rw [normalize?, pieces, collapse_of_names h.plain, List.reverse_nil, List.nil_append,
      Option.map_some, ← h.text]

theorem normalize_of_canonical {path : String} (h : IsCanonical path) :
    normalize path = .ok path := by
  rw [normalize, normalize?_of_spells h.spells]

theorem backslash_intercalate {pieces : List String} (free : ∀ s ∈ pieces, '\\' ∉ s.toList) :
    '\\' ∉ (String.intercalate "/" pieces).toList := by
  induction pieces with
  | nil => simp
  | cons s rest ih =>
    cases rest with
    | nil => simpa using free s (by simp)
    | cons s' rest =>
      rw [String.intercalate_cons_cons]
      have later := ih fun x member => free x (by simp [member])
      simpa [free s (by simp)] using later

/-- Names are kept one by one. -/
theorem collapse_append {kept names rest : List String} (plain : ∀ s ∈ names, IsName s) :
    collapse kept (names ++ rest) = collapse (names.reverse ++ kept) rest := by
  induction names generalizing kept with
  | nil => rfl
  | cons s names ih =>
    have name := plain s (by simp)
    simp only [List.cons_append, collapse, name.ne_empty, name.ne_dot, name.ne_dots, or_self,
      if_false]
    rw [ih fun x member => plain x (by simp [member])]
    simp

/-- Every step up takes the newest name away. -/
theorem collapse_up (up : List String) (kept rest : List String) :
    collapse (up ++ kept) (List.replicate up.length ".." ++ rest) = collapse kept rest := by
  induction up with
  | nil => rfl
  | cons s up ih =>
    simpa [collapse, List.replicate_succ] using ih

/-! ## Ways -/

/-- The specifier that goes up some directories and then down along names. -/
def way (up : Nat) (names : List String) : String :=
  if up = 0 then if names = [] then "." else "./" ++ String.intercalate "/" names
  else String.intercalate "/" (List.replicate up ".." ++ names)

theorem isRelative_way (up : Nat) (names : List String) : isRelative (way up names) = true := by
  unfold way
  cases up with
  | zero =>
    by_cases none : names = []
    · simp [none, isRelative]
    · simp [none, isRelative, String.isPrefixOf]
  | succ up =>
    cases more : List.replicate up ".." ++ names with
    | nil => simp [List.replicate_succ, more, isRelative]
    | cons s rest => simp [List.replicate_succ, more, isRelative, String.isPrefixOf,
      String.intercalate_cons_cons]

theorem IsName.free {s : String} (h : IsName s) : '/' ∉ s.toList ∧ '\\' ∉ s.toList :=
  ⟨h.2, h.1.2.2.2⟩

/-- The pieces of a way hold no separators. -/
theorem free_of_way {up : Nat} {names : List String}
    (free : ∀ s ∈ names, '/' ∉ s.toList ∧ '\\' ∉ s.toList) :
    ∀ s ∈ List.replicate up ".." ++ names, '/' ∉ s.toList ∧ '\\' ∉ s.toList := by
  intro s member
  rcases List.mem_append.1 member with dots | name
  · rw [List.eq_of_mem_replicate dots]
    decide
  · exact free s name

theorem segments_way_zero {names : List String} (plain : ∀ s ∈ names, IsName s) :
    segments (way 0 names) = "." :: names := by
  by_cases none : names = []
  · subst none
    exact segments_of_free (by decide)
  · have parts : way 0 names = "." ++ "/" ++ String.intercalate "/" names := by simp [way, none]
    rw [parts, segments_append, segments_of_free (by decide),
      segments_intercalate none fun s member => (plain s member).free]
    rfl

theorem segments_way_succ {up : Nat} {names : List String} (plain : ∀ s ∈ names, IsName s) :
    segments (way (up + 1) names) = List.replicate (up + 1) ".." ++ names := by
  rw [way, if_neg (Nat.succ_ne_zero up)]
  exact segments_intercalate (by simp [List.replicate_succ])
    (free_of_way fun s member => (plain s member).free)

/-- Walking a way takes the names it goes up by from those kept, and adds those it goes down by. -/
theorem collapse_way {front up names : List String} (plain : ∀ s ∈ names, IsName s) :
    collapse (front ++ up).reverse (segments (way up.length names)) = some (front ++ names) := by
  cases up with
  | nil =>
    have here : ∀ kept, collapse kept ("." :: names) = collapse kept names :=
      fun kept => by simp [collapse]
    rw [List.length_nil, segments_way_zero plain, here, collapse_of_names plain]
    simp
  | cons s up =>
    have ups : (s :: up).length = (s :: up).reverse.length := by simp
    rw [List.length_cons, segments_way_succ plain, ← List.length_cons (a := s), ups,
      List.reverse_append, collapse_up,
      collapse_of_names plain, List.reverse_reverse]

theorem segments_join {dir specifier : String} {names : List String} (h : Spells dir names)
    (nonempty : specifier ≠ "") :
    collapse [] (segments (join dir specifier)) = collapse names.reverse (segments specifier) := by
  cases names with
  | nil =>
    have empty : dir = "" := h.text
    simp [join, empty]
  | cons s names =>
    have filled : dir ≠ "" := (h.canonical (by simp)).ne_empty
    have pieces : segments dir = s :: names := by
      rw [h.text]
      exact segments_intercalate (by simp) fun x member => (h.plain x member).free
    rw [join, if_neg filled, if_neg nonempty, segments_append, pieces, collapse_append h.plain,
      List.append_nil]

/-- A way is resolved by going up from the directory of the file, and down again. -/
theorem resolve?_way {importer : String} {front up names : List String}
    (dir : Spells (dirname importer) (front ++ up)) (plain : ∀ s ∈ names, IsName s) :
    resolve? importer (way up.length names) = some (String.intercalate "/" (front ++ names)) := by
  have relative := isRelative_way up.length names
  have filled : way up.length names ≠ "" := by
    intro empty
    rw [empty] at relative
    revert relative
    decide
  rw [resolve?, if_pos relative, normalize?, segments_join dir filled, collapse_way plain]
  rfl

/-! ## The way that is written -/

/-- A path does not start at the root if its first piece stands for something. -/
theorem isAbsolute_of_pieces {s : String} (pieces : List String) (free : '/' ∉ s.toList)
    (filled : s ≠ "") : isAbsolute (String.intercalate "/" (s :: pieces)) = false := by
  have starts : ∀ t : String, isAbsolute (s ++ t) = false := by
    intro t
    rw [isAbsolute, decide_eq_false_iff_not, String.toList_append]
    cases chars : s.toList with
    | nil => exact absurd (String.toList_inj.1 chars) filled
    | cons c cs =>
      rw [chars] at free
      rintro slash
      obtain rfl : c = '/' := Option.some.inj slash
      exact free List.mem_cons_self
  cases pieces with
  | nil => simpa using starts ""
  | cons p pieces =>
    rw [String.intercalate_cons_cons, String.append_assoc]
    exact starts _

theorem Spells.isAbsolute {path : String} {names : List String} (h : Spells path names) :
    isAbsolute path = false := by
  rw [h.text]
  cases names with
  | nil => rfl
  | cons s names =>
    have name := h.plain s (by simp)
    exact isAbsolute_of_pieces names name.2 name.ne_empty

/-- The components of pieces between slashes, if the first piece stands for something. -/
theorem components_of_pieces {s : String} {pieces : List String}
    (free : ∀ x ∈ s :: pieces, '/' ∉ x.toList) (filled : s ≠ "") (ahead : s ≠ ".") :
    components (String.intercalate "/" (s :: pieces)) =
      ((s :: pieces).filter fun x => x ≠ "" ∧ x ≠ ".").map .ofSegment := by
  have absent : ∀ l ∈ (s :: pieces).map String.toList, '/' ∉ l := by
    intro l member
    obtain ⟨x, inside, rfl⟩ := List.mem_map.1 member
    exact free x inside
  have parts : ((String.intercalate "/" (s :: pieces)).toList.splitOn '/').map String.ofList =
      s :: pieces := by
    rw [String.toList_intercalate]
    have split := List.splitOn_intercalate '/' absent (by simp)
    rw [show "/".toList = ['/'] from rfl, split, List.map_map]
    simp [Function.comp_def]
  unfold components
  simp only [parts]
  split
  next equal => exact absurd (List.cons.inj equal).1 filled
  next equal => exact absurd (List.cons.inj equal).1 ahead
  next => rfl

theorem components_names {names : List String} (plain : ∀ s ∈ names, IsName s) :
    (names.filter fun x => x ≠ "" ∧ x ≠ ".").map Component.ofSegment = names.map .name := by
  have kept : names.filter (fun x => x ≠ "" ∧ x ≠ ".") = names := by
    refine List.filter_eq_self.2 fun x member => ?_
    simpa using ⟨(plain x member).ne_empty, (plain x member).ne_dot⟩
  rw [kept]
  refine List.map_congr_left fun x member => ?_
  rw [Component.ofSegment, if_neg (plain x member).ne_dot, if_neg (plain x member).ne_dots]

theorem Spells.components {path : String} {names : List String} (h : Spells path names) :
    components path = names.map .name := by
  rw [h.text]
  cases names with
  | nil => decide
  | cons s names =>
    have first := h.plain s (by simp)
    rw [components_of_pieces (fun x member => (h.plain x member).2) first.ne_empty first.ne_dot,
      components_names h.plain]

theorem stepsFrom_nil (out : List Component) (base : List String) :
    stepsFrom out [] (base.map .name) = some (out ++ List.replicate base.length .parent) := by
  induction base generalizing out with
  | nil => simp [stepsFrom]
  | cons b base ih => simp [stepsFrom, ih, List.replicate_succ]

/-- Names that both paths start with are skipped. -/
theorem stepsFrom_append (front : List String) (steps : List Component) (base : List String) :
    stepsFrom [] (front.map .name ++ steps) ((front ++ base).map .name) =
      stepsFrom [] steps (base.map .name) := by
  induction front with
  | nil => rfl
  | cons s front ih => simpa [stepsFrom] using ih

/-- The steps go up where two paths part, and then along the rest of the path. -/
theorem stepsFrom_names (steps : List Component) (base : List String) :
    ∃ front up rest, base = front ++ up ∧ steps = front.map .name ++ rest ∧
      stepsFrom [] steps (base.map .name) = some (List.replicate up.length .parent ++ rest) := by
  induction steps generalizing base with
  | nil => exact ⟨[], base, [], rfl, rfl, by simpa using stepsFrom_nil [] base⟩
  | cons a steps ih =>
    cases base with
    | nil => exact ⟨[], [], a :: steps, rfl, rfl, by simp [stepsFrom]⟩
    | cons b base =>
      by_cases equal : a = .name b
      · obtain ⟨front, up, rest, rfl, rfl, found⟩ := ih base
        exact ⟨b :: front, up, rest, rfl, by simp [equal], by simpa [stepsFrom, equal] using found⟩
      · exact ⟨[], b :: base, a :: steps, rfl,
          rfl, by simp [stepsFrom, equal, List.replicate_succ, Function.comp_def]⟩

/-- Pieces that do not start with a step up do not look like a way up. -/
theorem pieces_ne_up {pieces : List String} (nonempty : pieces ≠ [])
    (free : ∀ s ∈ pieces, '/' ∉ s.toList ∧ '\\' ∉ s.toList)
    (down : ∀ s ∈ pieces.head?, s ≠ "" ∧ s ≠ "..") :
    String.intercalate "/" pieces ≠ "" ∧ String.intercalate "/" pieces ≠ ".." ∧
      ¬ "../".isPrefixOf (String.intercalate "/" pieces) = true := by
  have parts := segments_intercalate nonempty free
  refine ⟨fun equal => ?_, fun equal => ?_, fun up => ?_⟩
  · rw [equal, segments_of_free (by decide)] at parts
    exact (down "" (by simp [← parts])).1 rfl
  · rw [equal, segments_of_free (by decide)] at parts
    exact (down ".." (by simp [← parts])).2 rfl
  · have starts : ['.', '.', '/'] <+: (String.intercalate "/" pieces).toList := by
      simpa [String.isPrefixOf] using up
    obtain ⟨rest, cut⟩ := starts
    have whole : String.intercalate "/" pieces = ".." ++ "/" ++ String.ofList rest := by
      rw [← String.toList_inj, ← cut]
      simp
    rw [whole, segments_append, segments_of_free (by decide)] at parts
    exact (down ".." (by simp [← parts])).2 rfl

/-- Marking the steps between two paths as relative gives a way. -/
theorem mark_way {up : Nat} {names : List String}
    (free : ∀ s ∈ names, '/' ∉ s.toList ∧ '\\' ∉ s.toList)
    (down : up = 0 → ∀ s ∈ names.head?, s ≠ "" ∧ s ≠ "..") :
    let steps := String.intercalate "/" (List.replicate up ".." ++ names)
    (if steps = "" then "." else if steps = ".." || "../".isPrefixOf steps then steps
      else "./" ++ steps) =
      way up names := by
  intro steps
  cases up with
  | zero =>
    by_cases none : names = []
    · simp [steps, none, way]
    · obtain ⟨filled, dots, above⟩ := pieces_ne_up none free (down rfl)
      simp [steps, way, none, filled, dots, above]
  | succ up =>
    have same : way (up + 1) names = steps := by simp [way, steps]
    rw [same]
    cases more : List.replicate up ".." ++ names with
    | nil => simp [steps, List.replicate_succ, more]
    | cons s rest => simp [steps, List.replicate_succ, more, String.isPrefixOf,
      String.intercalate_cons_cons]

/-- What is written are the steps between two paths, marked as relative. -/
theorem relative_of_difference? {dir path : String} {pieces : List String}
    (found : difference? path dir = some (String.intercalate "/" pieces))
    (free : ∀ s ∈ pieces, '\\' ∉ s.toList) :
    relative dir path =
      let steps := String.intercalate "/" pieces
      if steps = "" then "." else if steps = ".." || "../".isPrefixOf steps then steps
        else "./" ++ steps := by
  simp only [relative, found, map_slashes (backslash_intercalate free), String.ofList_toList]

theorem relative_of_steps {dir path : String} {up : Nat} {names : List String}
    (found : difference? path dir =
      some (String.intercalate "/" (List.replicate up ".." ++ names)))
    (free : ∀ s ∈ names, '/' ∉ s.toList ∧ '\\' ∉ s.toList)
    (down : up = 0 → ∀ s ∈ names.head?, s ≠ "" ∧ s ≠ "..") :
    relative dir path = way up names := by
  rw [relative_of_difference? found fun s member => (free_of_way free s member).2]
  exact mark_way free down

/-- What is written from a directory to a path is a way between the two. -/
theorem relative_eq_way {dir path : String} {base names : List String} (here : Spells dir base)
    (there : Spells path names) :
    ∃ front up rest, base = front ++ up ∧ names = front ++ rest ∧
      relative dir path = way up.length rest := by
  obtain ⟨front, up, steps, above, parts, found⟩ := stepsFrom_names (names.map .name) base
  obtain ⟨front', rest, below, same, rfl⟩ := List.map_eq_append_iff.1 parts
  have inj : Function.Injective Component.name := fun _ _ => Component.name.inj
  rw [inj.list_map same] at below
  refine ⟨front, up, rest, above, below, ?_⟩
  have plain : ∀ s ∈ rest, IsName s := fun s member => there.plain s (by simp [below, member])
  have texts : (List.replicate up.length Component.parent ++ rest.map Component.name).map
      Component.text =
      List.replicate up.length ".." ++ rest := by
    simp [Component.text, Function.comp_def]
  have written : difference? path dir = some
      (String.intercalate "/" (List.replicate up.length ".." ++ rest)) := by
    rw [difference?, here.isAbsolute, there.isAbsolute, if_pos rfl, here.components,
      there.components, found, Option.map_some, texts]
  refine relative_of_steps written (fun s member => (plain s member).free) fun _ s first => ?_
  have name := plain s (List.mem_of_mem_head? first)
  exact ⟨name.ne_empty, name.ne_dots⟩

theorem IsCanonical.dirname_spells {path : String} (h : IsCanonical path) :
    ∃ names, Spells (dirname path) names := by
  unfold dirname
  split
  next dir name split =>
    obtain ⟨whole, -⟩ := Text.splitLast?_eq_some_iff.1 split
    have parts : AreCanonical (dir ++ '/' :: name) := whole ▸ h
    have above : IsCanonical (String.ofList dir) := by
      rw [IsCanonical, String.toList_ofList]
      exact (areCanonical_append.1 parts).1
    exact ⟨_, above.spells⟩
  next => exact ⟨[], rfl, by simp⟩

/-- The way from a file to a path leads to that path. -/
theorem resolve?_relative {importer path : String} (canonical : IsCanonical importer)
    {names : List String} (there : Spells path names) :
    resolve? importer (relative (dirname importer) path) = some path := by
  obtain ⟨base, here⟩ := canonical.dirname_spells
  obtain ⟨front, up, rest, rfl, rfl, same⟩ := relative_eq_way here there
  rw [same, resolve?_way here fun s member => there.plain s (by simp [member]), there.text]

/-! ## Endings -/

theorem intercalate_concat (init : List String) (last ending : String) :
    String.intercalate "/" (init ++ [last]) ++ ending = String.intercalate "/"
      (init ++ [last ++ ending]) := by
  cases init with
  | nil => simp
  | cons s init =>
    rw [String.intercalate_append_of_ne_nil (by simp) (by simp),
      String.intercalate_append_of_ne_nil (by simp) (by simp)]
    simp [String.append_assoc]

theorem way_concat (up : Nat) (init : List String) (last ending : String) :
    way up (init ++ [last]) ++ ending = way up (init ++ [last ++ ending]) := by
  cases up with
  | zero => simp [way, String.append_assoc, intercalate_concat]
  | succ up =>
    simp only [way, Nat.succ_ne_zero, if_false]
    rw [← List.append_assoc, ← List.append_assoc, intercalate_concat]

end Rehome.Path
