import Rehome.Proofs.Move.Closure
import Rehome.Proofs.Move.Inside
import Rehome.Proofs.Path.Detours
import Rehome.Proofs.Specifier.Listing

/-!
# Moves that are taken back

A file that is moved inside its project and then moved back leaves every file as it was, if the
specifiers that the first move replaces are spelled and quoted as the second move would write them.
-/
namespace Rehome.Move

open Specifier (Finder)
open Rehome.Path (resolve? resolvesTo specifierFor relative stem dirname basename isRelative
  sourceExtension? below? IsCanonical IsModule Spells)

/-- The relative specifiers of a file lead to modules that are named without an ending, and are
spelled and quoted as they would be written. -/
def SpellsOwn (service : Service) (t : FileTree) (source : String) : Prop :=
  ∀ text ∈ t.text? source, service.finder.InStyle source text isRelative ∧
    ∀ value ∈ service.finder.values source text, isRelative value = true →
      ∃ place ∈ resolve? source value, sourceExtension? place = none ∧ basename place ≠ "index" ∧
        value = relative (dirname source) place

/-- The references to a file in the other files of its project are spelled and quoted in the same
way, and none of these files refers to the new place. -/
def SpellReferences (service : Service) (t : FileTree) (source target : String) : Prop :=
  ∀ home ∈ (service.workspace.owner source).toOption, ∀ path ∈ listedFor service t home,
    path ≠ source → ∀ text ∈ t.text? path,
      service.finder.InStyle path text (resolvesTo path · source) ∧
        ∀ value ∈ service.finder.values path text, resolvesTo path value target = false ∧
          (resolvesTo path value source = true → value = relative (dirname path) (stem source))

instance (service : Service) (t : FileTree) (source : String) :
    Decidable (SpellsOwn service t source) :=
  inferInstanceAs (Decidable (∀ text ∈ t.text? source, _))

instance (service : Service) (t : FileTree) (source target : String) :
    Decidable (SpellReferences service t source target) :=
  inferInstanceAs (Decidable (∀ home ∈ (service.workspace.owner source).toOption, _))

/-- A move whose specifiers can be written anew at one place and then again at the other. -/
@[mk_iff]
structure Reversible (service : Service) (t : FileTree) (source target : String) : Prop where
  /-- The new place is not below a file. -/
  above : ∀ file ∈ t.files.names, (below? file target).isSome = false
  /-- The stem of the old path has no ending and is not called `index`. -/
  sourceName : sourceExtension? (stem source) = none ∧ basename (stem source) ≠ "index"
  /-- Nor has that of the new one, which is a clean path. -/
  targetName : IsModule target ∧ basename (stem target) ≠ "index"
  /-- The moved file shows the same specifiers at both places. -/
  shown : ∀ text ∈ t.text? source,
    service.finder.occurrences target text = service.finder.occurrences source text
  own : SpellsOwn service t source
  others : SpellReferences service t source target

instance (service : Service) (t : FileTree) (source target : String) :
    Decidable (Reversible service t source target) :=
  decidable_of_iff _ (reversible_iff service t source target).symm

/-- The values that a move writes can be written: the ways from the new place to what the moved file
refers to, and the ways to the new place. -/
structure WritesFit (service : Service) (fit : String → Prop) (t : FileTree)
    (source target : String) : Prop where
  own : ∀ text ∈ t.text? source, ∀ value ∈ service.finder.values source text,
    ∀ place ∈ resolve? source value, fit (relative (dirname target) place)
  others : ∀ path, fit (relative (dirname path) (stem target))

/-! ## Specifiers there and back -/

/-- The way to a module is written anew as a way to that module. -/
theorem specifierFor_relative {importer dir place : String} {base names : List String}
    (here : Spells dir base) (there : Spells place names) (bare : sourceExtension? place = none)
    (named : basename place ≠ "index") :
    specifierFor importer place (some (relative dir place)) = relative (dirname importer) place := by
  have plain : stem place = place := Path.stem_of_none bare
  rw [Path.specifierFor_of_bare (Path.sourceExtension?_relative here there bare) (by rwa [plain]),
    plain]

/-- A specifier of the moved file is written for the new place, and then again for the old one. -/
theorem own_back {p q : Plan} (source : IsCanonical p.source) (target : IsCanonical p.target)
    (origin : q.source = p.target) (destination : q.target = p.source) {value place : String}
    (led : resolve? p.source value = some place) (bare : sourceExtension? place = none)
    (named : basename place ≠ "index") (spelled : value = relative (dirname p.source) place) :
    p.ownChange value = relative (dirname p.target) place ∧
      q.ownChange (p.ownChange value) = value := by
  obtain ⟨base, here⟩ := source.dirname_spells
  obtain ⟨base', there⟩ := target.dirname_spells
  have clean : ∃ names, Spells place names := by
    rw [resolve?] at led
    split at led
    · exact Path.normalize?_spells led
    · cases led
  obtain ⟨names, spells⟩ := clean
  have out : p.ownChange value = relative (dirname p.target) place := by
    rw [Plan.ownChange, led]
    dsimp only
    rw [spelled, specifierFor_relative here spells bare named]
  refine ⟨out, ?_⟩
  rw [out, Plan.ownChange, origin, destination, Path.resolve?_relative target spells]
  dsimp only
  rw [specifierFor_relative there spells bare named, ← spelled]

/-- A reference to the moved file is written for the new place, and then again for the old one. -/
theorem reference_back {source target path value : String} (canonical : IsCanonical path)
    (clean : IsCanonical source)
    (sourceName : sourceExtension? (stem source) = none ∧ basename (stem source) ≠ "index")
    (targetName : IsModule target ∧ basename (stem target) ≠ "index")
    (means : resolvesTo path value source = true)
    (spelled : value = relative (dirname path) (stem source)) :
    specifierFor path target (some value) = relative (dirname path) (stem target) ∧
      resolvesTo path (specifierFor path target (some value)) target = true ∧
        specifierFor path source (some (specifierFor path target (some value))) = value := by
  obtain ⟨base, here⟩ := canonical.dirname_spells
  have stemClean : IsCanonical (stem source) :=
    Path.canonical_stem_of_resolvesTo canonical clean (spelled ▸ means)
  have out : specifierFor path target (some value) = relative (dirname path) (stem target) := by
    apply Path.specifierFor_of_bare _ targetName.2
    rw [spelled]
    exact Path.sourceExtension?_relative here stemClean.spells sourceName.1
  refine ⟨out, ?_, ?_⟩
  · rw [out]
    exact Path.resolvesTo_of_resolve?
      (Path.resolve?_relative canonical targetName.1.stem.spells)
      (.inr (.inl (Path.stem_of_none targetName.1.bare)))
  · rw [out, Path.specifierFor_of_bare _ sourceName.2, ← spelled]
    exact Path.sourceExtension?_relative here targetName.1.stem.spells targetName.1.bare

/-! ## Trees there and back -/

variable {service : Service} {r : Request} {options : Options} {t : FileTree} {report : Report}
  {p : Plan} {i : Index} {fit : String → Prop}

section

variable (h : Planned service r options t report p i) (realizable : t.IsRealizable)
  (inside : p.isInside = true) (plain : options.format = false)
include h realizable inside plain

theorem Planned.mem_names_inside {path : String} :
    path ∈ (run service r options t).tree.files.names ↔
      path ≠ p.source ∧ (path = p.target ∨ path ∈ t.files.names) := by
  rw [← FileTree.isFile_iff, ← FileTree.isFile_iff, FileTree.isFile_eq_isSome,
    FileTree.isFile_eq_isSome, h.text?_inside realizable inside plain path]
  by_cases atSource : path = p.source
  · simp [atSource]
  · by_cases atTarget : path = p.target
    · simp [atTarget, h.accepts.elsewhere]
    · rw [if_neg atSource, if_neg atTarget]
      split
      · simp [atSource, atTarget]
      · simp [atSource, atTarget]

/-- The file at its new place has no other file above it or below it. -/
theorem Planned.realizable_inside
    (above : ∀ file ∈ t.files.names, (below? file p.target).isSome = false) :
    (run service r options t).tree.IsRealizable := by
  have beneath := ((FileTree.holds_eq_false_iff h.canonical.ne_empty).1 h.accepts.free).2
  have itself : (below? p.target p.target).isSome = false := by
    rw [← Bool.not_eq_true]
    intro below
    obtain ⟨rest, cut⟩ := Path.isSome_below?_iff.1 below
    have long := congrArg List.length cut
    simp at long
  constructor
  · intro path member
    rcases ((h.mem_names_inside realizable inside plain).1 member).2 with rfl | old
    · exact h.canonical
    · exact realizable.canonical path old
  · intro path member other member'
    rcases ((h.mem_names_inside realizable inside plain).1 member).2 with rfl | old <;>
      rcases ((h.mem_names_inside realizable inside plain).1 member').2 with rfl | old'
    · exact itself
    · exact beneath other old'
    · exact above path old
    · exact realizable.prefixFree path old other old'

/-- The way back is open. -/
theorem Planned.accepts_back
    (above : ∀ file ∈ t.files.names, (below? file p.target).isSome = false) :
    Accepts service ⟨p.target, .path p.source⟩ (run service r options t).tree p.target
      p.source := by
  have file : p.source ∈ t.files.names := FileTree.isFile_iff.1 h.accepts.present
  have clean : IsCanonical p.source := realizable.canonical _ file
  refine ⟨Path.normalize_of_canonical h.canonical, h.accepts.targetKind, ?_, h.accepts.targetOwned,
    Path.normalize_of_canonical clean, h.accepts.elsewhere.symm, h.accepts.sourceKind, ?_,
    h.accepts.sourceOwned⟩
  · rw [FileTree.isFile_iff, h.mem_names_inside realizable inside plain]
    exact ⟨h.accepts.elsewhere, .inl rfl⟩
  · rw [FileTree.holds_eq_false_iff clean.ne_empty]
    constructor
    · intro there
      exact ((h.mem_names_inside realizable inside plain).1 there).1 rfl
    · intro other member
      rcases ((h.mem_names_inside realizable inside plain).1 member).2 with rfl | old
      · exact above p.source file
      · exact realizable.prefixFree p.source file other old

/-- The move back, which swaps the two places. -/
theorem Planned.exists_back
    (above : ∀ file ∈ t.files.names, (below? file p.target).isSome = false) (back : Options) :
    ∃ report' q j, (run service ⟨p.target, .path p.source⟩ back
      (run service r options t).tree).report = .ok report' ∧
        Planned service ⟨p.target, .path p.source⟩ back (run service r options t).tree report' q j ∧
      q.source = p.target ∧ q.target = p.source ∧
        q.sourceProject = p.sourceProject ∧ q.isInside = true := by
  have same : p.sourceProject = p.targetProject := by
    have names : p.sourceProject.name = p.targetProject.name := of_decide_eq_true inside
    have found := Workspace.project?_eq_some_iff.2 ⟨Workspace.owner_mem h.sourceOwner, names⟩
    have found' := Workspace.project?_eq_some_iff.2 ⟨Workspace.owner_mem h.targetOwner, rfl⟩
    exact Option.some.inj (found.symm.trans found')
  have accepts := h.accepts_back realizable inside plain above
  obtain ⟨report', done⟩ := exists_report_inside accepts h.targetOwner h.sourceOwner
    (congrArg Project.name same.symm) back
  obtain ⟨q, j, again⟩ := exists_planned done
  have origin : q.source = p.target :=
    Except.ok.inj (again.accepts.sourcePath.symm.trans accepts.sourcePath)
  have destination : q.target = p.source :=
    Except.ok.inj (again.accepts.targetPath.symm.trans accepts.targetPath)
  have home : q.sourceProject = p.sourceProject := by
    have owned := again.sourceOwner
    rw [origin, h.targetOwner] at owned
    rw [← Except.ok.inj owned, same]
  have away : q.targetProject = p.sourceProject := by
    have owned := again.targetOwner
    rw [destination, h.sourceOwner] at owned
    exact (Except.ok.inj owned).symm
  refine ⟨report', q, j, done, again, origin, destination, home, ?_⟩
  rw [Plan.isInside, home, away]
  exact decide_eq_true rfl

end

/-! ## Texts there and back -/

/-- The text of the moved file is restored. -/
theorem Reversible.restore_own {p q : Plan} {text : String}
    (reversible : Reversible service t p.source p.target) (relays : service.finder.Relays fit)
    (fits : WritesFit service fit t p.source p.target) (source : IsCanonical p.source)
    (target : IsCanonical p.target) (origin : q.source = p.target)
    (destination : q.target = p.source) (found : t.text? p.source = some text) :
    service.finder.rewrite p.source
      (service.finder.rewrite p.target text isRelative p.ownChange) isRelative q.ownChange =
        text := by
  have shown := reversible.shown text found
  obtain ⟨style, own⟩ := reversible.own text found
  have values : service.finder.values p.target text = service.finder.values p.source text := by
    rw [Finder.values, shown, Finder.values]
  obtain ⟨slots, tail, lays⟩ := relays p.target text
  apply lays.restore (lays.of_same relays shown.symm)
  · intro o member relative
    rw [shown] at member ⊢
    exact style o member relative
  · intro value member relative
    rw [values] at member
    obtain ⟨place, led, bare, named, spelled⟩ := own value member relative
    rw [(own_back source target origin destination led bare named spelled).1]
    exact fits.own text found value member place led
  · intro value member relative
    rw [values] at member
    obtain ⟨place, led, bare, named, spelled⟩ := own value member relative
    have back := own_back source target origin destination led bare named spelled
    refine ⟨?_, back.2⟩
    rw [back.1]
    exact Path.isRelative_relative _ _
  · exact fun _ _ => id

/-- The text of another file of the project is restored. -/
theorem Reversible.restore_other {source target path text : String} {home : Project}
    (reversible : Reversible service t source target) (relays : service.finder.Relays fit)
    (fits : WritesFit service fit t source target) (clean : IsCanonical source)
    (owned : service.workspace.owner source = .ok home) (canonical : IsCanonical path)
    (listed : path ∈ listedFor service t home) (other : path ≠ source)
    (found : t.text? path = some text) :
    service.finder.rewrite path
      (service.finder.rewrite path text (resolvesTo path · source)
        fun specifier => specifierFor path target (some specifier))
      (resolvesTo path · target) (fun specifier => specifierFor path source (some specifier)) =
        text := by
  obtain ⟨style, spelled⟩ :=
    reversible.others home (by rw [owned]; rfl) path listed other text found
  have back := fun value member means => reference_back canonical clean reversible.sourceName
    reversible.targetName means ((spelled value member).2 means)
  obtain ⟨slots, tail, lays⟩ := relays path text
  apply lays.restore lays style
  · intro value member means
    rw [(back value member means).1]
    exact fits.others path
  · exact fun value member means => (back value member means).2
  · exact fun value member _ => (spelled value member).1

/-! ## Moves there and back -/

/-- A move inside a project is taken back by the move the other way. -/
theorem round_trip_restores (relays : service.finder.Relays fit) (realizable : t.IsRealizable)
    (accepted : (run service r options t).report = .ok report)
    (inside : report.strategy = .sameProject) (plain : options.format = false)
    (reversible : Reversible service t report.source report.target)
    (fits : WritesFit service fit t report.source report.target) (back : Options)
    (backPlain : back.format = false) :
    (∃ report', (run service ⟨report.target, .path report.source⟩ back
      (run service r options t).tree).report = .ok report') ∧
        (run service ⟨report.target, .path report.source⟩ back
          (run service r options t).tree).tree.files = t.files := by
  obtain ⟨p, i, planned⟩ := exists_planned accepted
  obtain ⟨strategy, atSource, atTarget⟩ := planned.reports
  rw [atSource, atTarget] at reversible fits ⊢
  have isInside : p.isInside = true := by
    rw [strategy, Plan.strategy, Strategy.select] at inside
    by_contra outside
    rw [if_neg outside] at inside
    split at inside
    · cases inside
    · split at inside <;> cases inside
  have clean : IsCanonical p.source :=
    realizable.canonical _ (FileTree.isFile_iff.1 planned.accepts.present)
  obtain ⟨report', q, j, done, again, origin, destination, home, inside'⟩ :=
    planned.exists_back realizable isInside plain reversible.above back
  have realizable' := planned.realizable_inside realizable isInside plain reversible.above
  have first := planned.text?_inside realizable isInside plain
  have names := fun path => @Planned.mem_names_inside _ _ _ _ _ _ _ planned realizable isInside
    plain path
  generalize (run service r options t).tree = t' at done again realizable' first names ⊢
  refine ⟨⟨report', done⟩, Table.ext_get? fun path => ?_⟩
  have second := again.text?_inside realizable' inside' backPlain path
  rw [origin, destination, home] at second
  have text : q.text = service.finder.rewrite p.target p.text isRelative p.ownChange := by
    have found := again.text
    rw [origin, first, if_neg planned.accepts.elsewhere, if_pos rfl] at found
    exact (Option.some.inj found).symm
  change FileTree.text? _ path = t.text? path
  rw [second, text]
  by_cases atTarget : path = p.target
  · rw [if_pos atTarget, atTarget, planned.vacant]
  rw [if_neg atTarget]
  by_cases atSource : path = p.source
  · rw [if_pos atSource, reversible.restore_own relays fits clean planned.canonical origin
      destination planned.text, atSource, planned.text]
  have listed : path ∈ t'.listed service.settings p.sourceProject.root ↔
      path ∈ t.listed service.settings p.sourceProject.root := by
    rw [FileTree.mem_listed, FileTree.mem_listed, names]
    simp [atSource, atTarget]
  rw [if_neg atSource, first, if_neg atSource, if_neg atTarget]
  by_cases inProject : path ∈ t.listed service.settings p.sourceProject.root
  · rw [if_pos (listed.2 inProject), if_pos inProject, Option.map_map]
    have scanned : path ∈ listedFor service t p.sourceProject := by
      rw [listedFor, Index.scan_eq_listed _ realizable]
      exact inProject
    cases found : t.text? path with
    | none => rfl
    | some text =>
      have canonical := realizable.canonical path (FileTree.mem_listed.1 inProject).1
      exact congrArg some (reversible.restore_other relays fits clean planned.sourceOwner canonical
        scanned atSource found)
  · rw [if_neg (mt listed.1 inProject), if_neg inProject]

/-- A file with references in both directions goes to another directory and back. -/
theorem round_trip_restores_nested :
    let s := { Service.over [⟨"a", "libs/a", none, .library, []⟩] [] with finder := .listing }
    let t := FileTree.ofList
      [("libs/a/main.ts", "import './x';\nimport \"./y\";\nimport './y';\n"),
        ("libs/a/x.ts", "import './y';\nexport * from '..';\n"), ("libs/a/y.ts", "")]
    let there := run s ⟨"libs/a/x.ts", .path "libs/a/sub/z.ts"⟩ {} t
    let back := run s ⟨"libs/a/sub/z.ts", .path "libs/a/x.ts"⟩ {} there.tree
    there.tree.text? "libs/a/main.ts" =
        some "import './sub/z';\nimport \"./y\";\nimport './y';\n" ∧
      there.tree.text? "libs/a/sub/z.ts" = some "import '../y';\nexport * from '../..';\n" ∧
        (∃ report, back.report = .ok report) ∧ back.tree.files = t.files := by
  intro s t
  dsimp only
  have realizable : t.IsRealizable := by decide +kernel
  have outcome : let there := run s ⟨"libs/a/x.ts", .path "libs/a/sub/z.ts"⟩ {} t
      there.report.toOption.map (fun report => (report.strategy, report.source, report.target)) =
          some (.sameProject, "libs/a/x.ts", "libs/a/sub/z.ts") ∧
        there.tree.text? "libs/a/main.ts" =
          some "import './sub/z';\nimport \"./y\";\nimport './y';\n" ∧
        there.tree.text? "libs/a/sub/z.ts" = some "import '../y';\nexport * from '../..';\n" := by
    decide +kernel
  obtain ⟨told, main, moved⟩ := outcome
  obtain ⟨report, accepted, parts⟩ := exists_of_part told
  simp only [Prod.mk.injEq] at parts
  obtain ⟨strategy, source, target⟩ := parts
  have reversible : Reversible s t report.source report.target := by
    rw [source, target]
    decide +kernel
  have restored := round_trip_restores (Finder.listing_relays fun _ => True) realizable accepted
    strategy rfl reversible ⟨fun _ _ _ _ _ _ => trivial, fun _ => trivial⟩ {} rfl
  rw [source, target] at restored
  exact ⟨main, moved, restored⟩

/-- A file that can be read at one of its places only, and one whose new name consists of dots, come
back to other texts. -/
theorem round_trip_lost :
    (let s := Service.over [⟨"a", "libs/a", none, .library, []⟩] []
      let t := FileTree.ofList
        [("libs/a/x.ts", "import './y';\nenum E {}\n"), ("libs/a/y.ts", "")]
      let there := run s ⟨"libs/a/x.ts", .path "libs/a/sub/x.js"⟩ {} t
      let back := run s ⟨"libs/a/sub/x.js", .path "libs/a/x.ts"⟩ {} there.tree
      t.IsRealizable ∧ there.report.isOk = true ∧ back.report.isOk = true ∧
        back.tree.text? "libs/a/x.ts" = some "import './sub/y';\nenum E {}\n") ∧
    (let s := Service.over [⟨"a", "libs/a", none, .library, []⟩] []
      let t := FileTree.ofList [("libs/a/main.ts", "import './x';\n"), ("libs/a/x.ts", "")]
      let there := run s ⟨"libs/a/x.ts", .path "libs/a/..ts"⟩ {} t
      let back := run s ⟨"libs/a/..ts", .path "libs/a/x.ts"⟩ {} there.tree
      t.IsRealizable ∧ there.report.isOk = true ∧ back.report.isOk = true ∧
        back.tree.text? "libs/a/main.ts" = some "import '.';\n") := by
  decide +kernel

end Rehome.Move
