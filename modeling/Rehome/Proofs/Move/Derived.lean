import Rehome.Move.Request
import Rehome.Proofs.Path.Reaching

/-!
# Files that go to a project

A file that goes to a project keeps its name and goes to the directory `lib` of the project's
sources, or to a directory inside it. The directory is cleaned before it is put below `lib`, so its
steps up end where it starts, and what is joined afterwards are names.
-/
namespace Rehome

namespace Path

/-! ## Joined paths -/

theorem IsName.spells {s : String} (h : IsName s) : Spells s [s] :=
  ⟨(String.intercalate_singleton ..).symm, by simpa using h⟩

/-- The names of a joined path are those of both sides. -/
theorem Spells.join {dir rel : String} {names more : List String} (outer : Spells dir names)
    (inner : Spells rel more) : Spells (join dir rel) (names ++ more) := by
  have plain : ∀ s ∈ names ++ more, IsName s := fun s member =>
    (List.mem_append.1 member).elim (outer.plain s) (inner.plain s)
  by_cases first : names = []
  · subst first
    have empty : dir = "" := outer.text
    rwa [Path.join, if_pos empty]
  by_cases last : more = []
  · subst last
    have empty : rel = "" := inner.text
    have same : Path.join dir rel = dir := by
      rw [Path.join, if_neg (outer.canonical first).ne_empty, if_pos empty]
    rwa [same, List.append_nil]
  · refine ⟨?_, plain⟩
    rw [Path.join, if_neg (outer.canonical first).ne_empty, if_neg (inner.canonical last).ne_empty,
      String.intercalate_append_of_ne_nil first last, ← outer.text, ← inner.text]

/-- A path that goes on from the names of a directory lies inside it and is not the directory
itself. -/
theorem Spells.strictly_within {dir path : String} {names more : List String} (outer : Spells dir names)
    (inner : Spells path (names ++ more)) (first : names ≠ []) (last : more ≠ []) :
    isWithin path dir = true ∧ path ≠ dir := by
  have cut : path = dir ++ "/" ++ String.intercalate "/" more := by
    rw [inner.text, String.intercalate_append_of_ne_nil first last, ← outer.text]
  refine ⟨isWithin_iff.2 (.inr (.inr ⟨(String.intercalate "/" more).toList, by simp [cut]⟩)), ?_⟩
  intro same
  have longer : path.length = dir.length := by rw [same]
  simp only [cut, String.length_append] at longer
  have slash : "/".length = 1 := rfl
  omega

/-- A path that is empty or canonical is made of names. -/
theorem exists_spells {path : String} (clean : path = "" ∨ IsCanonical path) :
    ∃ names, Spells path names := by
  rcases clean with rfl | canonical
  · exact ⟨[], rfl, by simp⟩
  · exact ⟨_, canonical.spells⟩

end Path

namespace Move

open Rehome.Path (IsCanonical Spells isWithin basename normalize?)

variable {p : Project} {source directory clean : String}

/-! ## Derived targets -/

theorem isName_lib : Path.IsName "lib" := ⟨by decide, by decide⟩

/-- Without a directory a file goes where the empty directory would take it. -/
theorem derivedTarget_none (root : p.sources = "" ∨ IsCanonical p.sources) :
    derivedTarget p none source = derivedTarget p (some "") source := by
  obtain ⟨names, spells⟩ := Path.exists_spells root
  have lib : Path.join p.sources "lib" ≠ "" :=
    ((spells.join isName_lib.spells).canonical (by simp)).ne_empty
  have same : Path.join (Path.join p.sources "lib") "" = Path.join p.sources "lib" := by
    rw [Path.join, if_neg lib, if_pos rfl]
  have empty : Path.normalize "" = .ok "" := rfl
  simp only [derivedTarget, empty, bind, Except.bind, pure, Except.pure, same]

theorem derivedTarget_of_escape (escapes : normalize? directory = none) :
    derivedTarget p (some directory) source = .error (.invalidPath directory) := by
  have refused : Path.normalize directory = .error (.invalidPath directory) := by
    rw [Path.normalize, escapes]
  simp only [derivedTarget, refused, bind, Except.bind]

/-- The names of the derived path: those of the sources, `lib`, those of the directory, and the name
of the file. -/
theorem derivedTarget_of_clean {names more : List String} (root : Spells p.sources names)
    (canonical : IsCanonical source) (cleaned : normalize? directory = some clean)
    (inside : Spells clean more) :
    ∃ path, derivedTarget p (some directory) source = .ok path ∧
      Spells path (names ++ ["lib"] ++ more ++ [basename source]) := by
  have spells := ((root.join isName_lib.spells).join inside).join canonical.basename_isName.spells
  have accepted : Path.normalize directory = .ok clean := by rw [Path.normalize, cleaned]
  refine ⟨_, ?_, spells⟩
  simp only [derivedTarget, accepted, bind, Except.bind, pure, Except.pure]
  exact Path.normalize_of_canonical (spells.canonical (by simp))

theorem derivedTarget_below_lib (root : p.sources = "" ∨ IsCanonical p.sources)
    (canonical : IsCanonical source) (cleaned : normalize? directory = some clean) :
    ∃ path, derivedTarget p (some directory) source = .ok path ∧ IsCanonical path ∧
      isWithin path (Path.join p.sources "lib") = true ∧ path ≠ Path.join p.sources "lib" ∧
      basename path = basename source := by
  obtain ⟨names, outer⟩ := Path.exists_spells root
  obtain ⟨more, inside⟩ := Path.normalize?_spells cleaned
  obtain ⟨path, derived, spells⟩ := derivedTarget_of_clean outer canonical cleaned inside
  have named : basename path = basename source := by
    rw [spells.text, Path.basename_intercalate _ canonical.basename_isName.2]
  have lib := outer.join isName_lib.spells
  obtain ⟨within, differs⟩ := lib.strictly_within (List.append_assoc .. ▸ spells) (by simp) (by simp)
  exact ⟨path, derived, spells.canonical (by simp), within, differs, named⟩

/-- A derived target is refused just if a directory is given that leaves the workspace, and the
complaint is about that directory. Otherwise there is one: a canonical path inside the directory
`lib` of the project's sources, with the name that the file has. -/
theorem derived_target_stays_below_lib (root : p.sources = "" ∨ IsCanonical p.sources)
    (canonical : IsCanonical source) (directory? : Option String) :
    (∀ e, derivedTarget p directory? source = .error e ↔
      ∃ directory ∈ directory?, normalize? directory = none ∧ e = .invalidPath directory) ∧
    ((∀ directory ∈ directory?, normalize? directory ≠ none) →
      ∃ path, derivedTarget p directory? source = .ok path ∧ IsCanonical path ∧
        isWithin path (Path.join p.sources "lib") = true ∧ path ≠ Path.join p.sources "lib" ∧
        basename path = basename source) := by
  cases directory? with
  | none =>
    have cleaned : normalize? "" = some "" := rfl
    obtain ⟨path, derived, inside⟩ := derivedTarget_below_lib root canonical cleaned
    rw [← derivedTarget_none root] at derived
    exact ⟨by simp [derived], fun _ => ⟨path, derived, inside⟩⟩
  | some directory =>
    cases cleaned : normalize? directory with
    | none =>
      have refused : derivedTarget p (some directory) source = .error (.invalidPath directory) :=
        derivedTarget_of_escape cleaned
      constructor
      · intro e
        simp [refused, cleaned, eq_comm]
      · intro stays
        exact absurd cleaned (stays directory rfl)
    | some clean =>
      obtain ⟨path, derived, inside⟩ := derivedTarget_below_lib root canonical cleaned
      exact ⟨by simp [derived, cleaned], fun _ => ⟨path, derived, inside⟩⟩

/-- A directory with detours and both kinds of slashes, and one whose steps up would end in the
sources. -/
theorem derived_target_stays_below_lib_detour :
    let p : Project := ⟨"b", "libs/b", some "libs/b/src", .library, []⟩
    IsCanonical p.sources ∧ IsCanonical "libs/a/x.ts" ∧
      normalize? "/ui\\./forms/..//../cards/" ≠ none ∧
      (∃ path, derivedTarget p (some "/ui\\./forms/..//../cards/") "libs/a/x.ts" = .ok path ∧
        isWithin path "libs/b/src/lib" = true ∧ basename path = "x.ts") ∧
      derivedTarget p (some "ui/../../other") "libs/a/x.ts" = .error (.invalidPath "ui/../../other") := by
  intro p
  have root : IsCanonical p.sources := by decide
  have canonical : IsCanonical "libs/a/x.ts" := by decide
  have stays : normalize? "/ui\\./forms/..//../cards/" ≠ none := by decide
  obtain ⟨path, derived, -, within, -, named⟩ := (derived_target_stays_below_lib (.inr root) canonical
    (some "/ui\\./forms/..//../cards/")).2 (by simpa using stays)
  have refused := ((derived_target_stays_below_lib (.inr root) canonical (some "ui/../../other")).1
    (.invalidPath "ui/../../other")).2 ⟨_, rfl, by decide, rfl⟩
  exact ⟨root, canonical, stays, ⟨path, derived, within, named⟩, refused⟩

end Move
end Rehome
