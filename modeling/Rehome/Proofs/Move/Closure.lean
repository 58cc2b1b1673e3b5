import Rehome.Proofs.Move.Parts
import Rehome.Proofs.Move.References
import Rehome.Proofs.Move.Stages
import Rehome.Proofs.Workspace.Claims

/-!
# The steps of a move repair its references

A tree is closed if every relative specifier of a listed file leads to a file. A move is careful if
all references to the moved file are where a move looks for them. The steps of such a move, from the
moment the file is at its new place, leave no specifier that leads nowhere.
-/
namespace Rehome.Move

open Specifier (Finder History)
open Rehome.Path (IsCanonical IsModule isRelative resolve? resolvesTo specifierFor)
open Rehome.Path (sourceExtension? isWithin dirname stem)
open Job (Does)
open Session

/-- The files that are listed for a project. -/
def listedFor (service : Service) (t : FileTree) (project : Project) : List String :=
  ((Index.new t service.settings).scan project.root).1

/-- Every relative specifier of a listed file leads to a file of the tree. -/
def IsClosed (service : Service) (t : FileTree) : Prop :=
  ∀ project ∈ service.workspace.projects, ∀ path ∈ listedFor service t project,
    ∀ o ∈ t.specifiers service.finder path, isRelative o.value = true →
      ∃ file ∈ t.files.names, resolvesTo path o.value file = true

instance (service : Service) (t : FileTree) : Decidable (IsClosed service t) :=
  inferInstanceAs (Decidable (∀ project ∈ service.workspace.projects,
    ∀ path ∈ listedFor service t project, ∀ o ∈ t.specifiers service.finder path,
      isRelative o.value = true → ∃ file ∈ t.files.names, resolvesTo path o.value file = true))

/-- A specifier leads to a file that is there after the move. -/
def LeadsOn (t : FileTree) (source target path value : String) : Prop :=
  ∃ file ∈ target :: t.files.names, file ≠ source ∧ resolvesTo path value file = true

instance (t : FileTree) (source target path value : String) :
    Decidable (LeadsOn t source target path value) :=
  inferInstanceAs (Decidable (∃ file ∈ target :: t.files.names,
    file ≠ source ∧ resolvesTo path value file = true))

/-- A specifier of the moved file leads, from the old place, to another file, and can be written anew
at the new place. -/
def CarriesOver (t : FileTree) (source target value : String) : Prop :=
  isRelative value = true →
    LeadsOn t source target source value ∧
      ∀ path ∈ resolve? source value, Path.Tells value path ∧
        ((sourceExtension? value).isSome → IsCanonical (stem path) ∧
          isWithin (dirname target) (stem path) = false)

instance (t : FileTree) (source target value : String) :
    Decidable (CarriesOver t source target value) :=
  inferInstanceAs (Decidable (isRelative value = true →
    LeadsOn t source target source value ∧
      ∀ path ∈ resolve? source value, Path.Tells value path ∧
        ((sourceExtension? value).isSome → IsCanonical (stem path) ∧
          isWithin (dirname target) (stem path) = false)))

/-- A specifier of a file names the moved file with an extension only if the file does not lie in a
directory with the target's stem. -/
def SpellsOut (source target path value : String) : Prop :=
  resolvesTo path value source = true → (sourceExtension? value).isSome →
    isWithin (dirname path) (stem target) = false

instance (source target path value : String) : Decidable (SpellsOut source target path value) :=
  inferInstanceAs (Decidable (resolvesTo path value source = true →
    (sourceExtension? value).isSome → isWithin (dirname path) (stem target) = false))

/-- A move that finds all references to the moved file, and can write those that it needs. -/
@[mk_iff]
structure Careful (service : Service) (t : FileTree) (source target : String) : Prop where
  /-- The name of the target can be told from its stem. -/
  module : IsModule target
  /-- No file lies below the path of the moved file. -/
  alone : ∀ file ∈ t.files.names, isWithin file source = true → file = source
  /-- Files that are not listed for the old project do without the moved file. -/
  outside : ∀ home ∈ (service.workspace.owner source).toOption,
    ∀ project ∈ service.workspace.projects, ∀ path ∈ listedFor service t project,
      path ≠ source → path ∉ listedFor service t home →
        ∀ o ∈ t.specifiers service.finder path, isRelative o.value = true →
          LeadsOn t source target path o.value
  spelled : ∀ project ∈ service.workspace.projects, ∀ path ∈ listedFor service t project,
    path ≠ source → ∀ o ∈ t.specifiers service.finder path, SpellsOut source target path o.value
  own : ∀ text ∈ t.text? source, ∀ o ∈ service.finder.occurrences target text,
    CarriesOver t source target o.value

instance (service : Service) (t : FileTree) (source target : String) :
    Decidable (Careful service t source target) :=
  decidable_of_iff _ (careful_iff service t source target).symm

/-- A workspace whose aliases are no relative specifiers and whose entry points are clean paths. -/
@[mk_iff]
structure HasPlainNames (w : Workspace) : Prop where
  aliases : ∀ name ∈ w.aliases.values, isRelative name = false
  entries : ∀ project ∈ w.projects, ∀ entry ∈ project.primaryEntryPoint?, IsCanonical entry

instance (w : Workspace) : Decidable (HasPlainNames w) :=
  decidable_of_iff _ (hasPlainNames_iff w).symm

variable {service : Service} {t : FileTree} {p : Plan} {options : Options} {v : Plain}

/-! ## The end of a move -/

/-- A move whose references are repaired. -/
abbrev Repaired (service : Service) (options : Options) (known : String → Prop) (t : FileTree)
    (p : Plan) (v : Plain) : Prop :=
  v.Meets service.finder (p.history service options t) (Stays t p) known
    (Fine service t p (fun _ => False) fun _ => False)

theorem does_ensureExport (followed : p.IsFollowed service options t) (module : IsModule p.target)
    (entries : ∀ entry ∈ p.targetProject.primaryEntryPoint?, IsCanonical entry) (o : Outcome)
    (h : Repaired service options IsCanonical t p v) :
    Does (Index.perform service.finder) (Index.Mirrors service.finder fun _ => False)
      (ensureExport p o options) v
      fun _ v' => Repaired service options IsCanonical t p v' := by
  apply does_ensureExport_keeping service.settings (Index.mirrors_attends _) options _ o h
  intro entry passes v before
  have canonical := entries entry passes.first
  exact before.ensureWildcardExport service.settings (Plan.export_mem passes) (followed.only entry)
    ⟨Plan.entry_mem passes.first, followed.silent entry passes.first⟩ canonical
    (fine_specifierFor_none module canonical)

/-- The old file goes. -/
theorem does_closing {known : String → Prop} {fine : String → String → Prop}
    (followed : p.IsFollowed service options t) (differs : p.target ≠ p.source)
    (exportAdded : Bool)
    (h : v.Meets service.finder (p.history service options t) (Stays t p) known fine) :
    Does (Index.perform service.finder) (Index.Mirrors service.finder fun _ => False)
      (closing service p options exportAdded) v fun _ v' =>
        v'.Meets service.finder (p.history service options t) (Stays t p)
          (fun path => known path ∧ path ≠ p.source) fine := by
  have gone : ¬ Stays t p p.source := by
    rintro (⟨-, other⟩ | same)
    · exact other rfl
    · exact differs same.symm
  apply does_closing_keeping _ exportAdded (h.delete gone)
  intro asked format given path text new shaped v found before
  exact before.formatted (Plan.format_mem asked given) (followed.only path) found shaped

/-- The stages that follow once the file is at its new place. What the lists hold matters until the
references are repaired. -/
theorem play_stages {passed done : Plain → Prop} (repaired : Plain → Prop)
    (own : Plays (Index.perform service.finder) (Stands service p) (repair service p) .empty
      ((repairOwn p).run (Plain.perform service.finder service.settings) v).2
      fun _ v' => repaired v')
    (localized : (!p.isInside && p.importedInTarget) = true → ∀ v, repaired v →
      Does (Index.perform service.finder) (Stands service p) (localizeTarget p) v
        fun _ v' => repaired v')
    (exported : ∀ o v, repaired v →
      Does (Index.perform service.finder) (Index.Mirrors service.finder fun _ => False)
        (ensureExport p o options) v fun _ v' => passed v')
    (closed : ∀ exportAdded v, passed v →
      Does (Index.perform service.finder) (Index.Mirrors service.finder fun _ => False)
        (closing service p options exportAdded) v fun _ v' => done v')
    {i : Index} (stands : Stands service p i v) :
    ∃ v', (play (Index.perform service.finder) (complete service p options) .empty i).2.Mirrors
      service.finder (fun _ => False) v' ∧ done v' := by
  have edited : Does (Index.perform service.finder) (Stands service p) (repairOwn p) v fun _ v' =>
      v' = ((repairOwn p).run (Plain.perform service.finder service.settings) v).2 :=
    Index.covers_attends.edits service.settings (Job.edits_replaceWhere ..) rfl
  obtain ⟨v₁, stands, same⟩ := edited i stands
  subst same
  obtain ⟨o, c, v₂, result, stands, second⟩ := own _ stands
  have last : Does (Index.perform service.finder) (Stands service p)
      (if !p.isInside && p.importedInTarget then localizeTarget p else pure ()) v₂
      fun _ v' => repaired v' := by
    split
    next imported => exact localized imported v₂ second
    next => exact Job.does_pure second
  rw [complete, play_onFiles_bind, play_bind]
  generalize play (Index.perform service.finder) (repair service p) .empty
    ((repairOwn p).run (Index.perform service.finder) i).2 = outcome at result stands
  obtain ⟨answer, i₂⟩ := outcome
  subst result
  obtain ⟨v₃, stands, third⟩ := last i₂ stands
  obtain ⟨v₄, mirrors, fourth⟩ := exported o v₃ third _ stands.mirrors
  dsimp only
  rw [play_onFiles, finish_eq, Job.run_bind, Job.run_bind]
  exact closed _ v₄ fourth _ mirrors

/-! ## The start of a move -/

theorem mem_listedFor {project : Project} {path : String} (solid : t.IsSolidBelow project.root) :
    path ∈ listedFor service t project ↔ path ∈ t.reached service.settings project.root := by
  rw [listedFor, Index.scan_eq_reached (Index.new t service.settings) solid]
  rfl

/-- What holds while the moved file itself has not been repaired: at first only the files of the old
project are pending. -/
def Placed (service : Service) (t : FileTree) (p : Plan) (path value : String) : Prop :=
  (path = p.target → CarriesOver t p.source p.target value) ∧
    (path ≠ p.target → Fine service t p (· ∈ t.reached service.settings p.sourceProject.root)
      (· ≠ p.target) path value)

theorem stays_of_mem {file : String} (there : file ∈ p.target :: t.files.names)
    (differs : file ≠ p.source) :
    Stays t p file := by
  rcases List.mem_cons.1 there with new | old
  · exact .inr new
  · exact .inl ⟨FileTree.isFile_iff.2 old, differs⟩

theorem fine_of_closed (clean : t.IsClean) (closed : IsClosed service t)
    (careful : Careful service t p.source p.target)
    (owner : service.workspace.owner p.source = .ok p.sourceProject) {path text : String}
    (found : t.text? path = some text) {o : Specifier.Occurrence}
    (member : o ∈ service.finder.occurrences path text) :
    Fine service t p (· ∈ t.reached service.settings p.sourceProject.root)
      (· ≠ p.target) path o.value := by
  intro differs matters relative
  have file : t.isFile path = true := by simp [FileTree.isFile_eq_isSome, found]
  have inside : o ∈ t.specifiers service.finder path := by
    simpa [FileTree.specifiers, found] using member
  obtain ⟨project, registered, reached⟩ := matters file
  have listed := (mem_listedFor (clean.solidBelow _)).2 reached
  refine ⟨?_, fun _ old ending => careful.spelled project registered path listed differs o inside
    old ending⟩
  by_cases pending : path ∈ t.reached service.settings p.sourceProject.root
  · obtain ⟨other, there, leads⟩ := closed project registered path listed o inside relative
    by_cases same : other = p.source
    · exact ⟨other, .inr ⟨pending, same⟩, leads⟩
    · exact ⟨other, .inl (.inl ⟨FileTree.isFile_iff.2 there, same⟩), leads⟩
  · obtain ⟨other, there, differs, leads⟩ :=
      careful.outside p.sourceProject (by rw [owner]; rfl) project registered path listed differs
      (fun home => pending ((mem_listedFor (clean.solidBelow _)).1 home)) o inside relative
    exact ⟨other, .inl (stays_of_mem there differs), leads⟩

/-- When the file is at its new place, the files that stay are there. -/
theorem meets_placed {f : Finder} {history : History} {known : String → Prop}
    {fine fine' : String → String → Prop}
    (h : Plain.Meets f history (fun file => t.isFile file = true ∧ file ≠ p.source) known fine ⟨t, []⟩)
    (member : known p.target) (version : history.Version f p.target p.text)
    (here : ∀ o ∈ f.occurrences p.target p.text, fine' p.target o.value)
    (others : ∀ other, other ≠ p.target → ∀ value, fine other value → fine' other value) :
    (Plain.write ⟨t, []⟩ p.target p.text).Meets f history (Stays t p) known fine' := by
  have written := h.write member version here others
  refine ⟨?_, written.known, written.texts, written.values⟩
  rintro file (old | rfl)
  · exact written.present file old
  · simp [Plain.write, FileTree.isFile_eq_isSome]

/-- When the file is at its new place, its own specifiers are the only ones that remain to be looked
at. -/
theorem meets_start (options : Options) (clean : t.IsClean)
    (closed : IsClosed service t) (careful : Careful service t p.source p.target)
    (owner : service.workspace.owner p.source = .ok p.sourceProject)
    (moved : t.text? p.source = some p.text) (canonical : IsCanonical p.target) :
    (Plain.write ⟨t, []⟩ p.target p.text).Meets service.finder (p.history service options t)
      (Stays t p) (IsKnown t p) (Placed service t p) := by
  have before : Plain.Meets service.finder (p.history service options t)
      (fun file => t.isFile file = true ∧ file ≠ p.source) (IsKnown t p)
      (Fine service t p (· ∈ t.reached service.settings p.sourceProject.root) (· ≠ p.target))
        ⟨t, []⟩ := by
    refine ⟨fun file there => there.1, fun path text found => ?_,
      fun path text found => .start (Plan.tree_mem found), fun path text found o member => ?_⟩
    · have file : t.isFile path = true := by
        simp [FileTree.isFile_eq_isSome, show t.text? path = some text from found]
      exact ⟨clean path (FileTree.isFile_iff.1 file), .inl file⟩
    · exact fine_of_closed clean closed careful owner found member
  refine meets_placed before ⟨canonical, .inr rfl⟩ (.start (Plan.own_mem List.mem_cons_self))
    (fun o member => ?_) fun other differs value fine => ?_
  · exact ⟨fun _ relative => careful.own p.text moved o member relative, fun other =>
      absurd rfl other⟩
  · exact ⟨fun same => absurd same differs, fun _ => fine⟩

theorem resolvesTo_congr {importer specifier importer' specifier' : String}
    (same : resolve? importer specifier = resolve? importer' specifier') (file : String) :
    resolvesTo importer specifier file = resolvesTo importer' specifier' file := by
  rw [resolvesTo, same, resolvesTo]

/-- The specifiers of the moved file mean at its new place what they meant at the old one. -/
theorem repairing_own (followed : p.IsFollowed service options t) (canonical : IsCanonical p.target)
    (h : v.Meets service.finder (p.history service options t) (Stays t p) (IsKnown t p)
      (Placed service t p)) (there : v.tree.text? p.target = some p.text) :
    Repairing service options t p (· ∈ t.reached service.settings p.sourceProject.root)
      (· ≠ p.target) ((repairOwn p).run (Plain.perform service.finder service.settings) v).2 := by
  refine meets_repairOwn followed h there (fun other differs value fine => fine.2 differs)
    fun _ value fine => ?_
  by_cases relative : isRelative value = true
  · rw [if_pos relative]
    obtain ⟨⟨file, there, differs, leads⟩, written⟩ := fine.1 rfl relative
    cases found : resolve? p.source value with
    | none => simp [resolvesTo, found] at leads
    | some path =>
      obtain ⟨tells, safe⟩ := written path found
      obtain ⟨names, spells⟩ : ∃ names, Path.Spells path names := by
        rw [resolve?, if_pos relative] at found
        exact Path.normalize?_spells found
      have again := Path.resolve?_specifierFor canonical spells tells safe
      rw [resolvesTo_congr (found.trans again.symm)] at leads
      rw [Plan.ownChange, found]
      exact fun _ _ _ =>
        ⟨⟨file, .inl (stays_of_mem there differs), leads⟩, fun elsewhere => absurd rfl elsewhere⟩
  · rw [if_neg relative]
    exact fine_of_not_relative (Bool.eq_false_iff.2 relative)

/-- From the moment the file is at its new place, a move leaves no reference to the old one. -/
theorem play_complete (followed : p.IsFollowed service options t)
    (builtIn : service.graphSource.IsBuiltIn)
    (passed : p.importedInTarget = true → p.isExported = true) (module : IsModule p.target)
    (canonical : IsCanonical p.target) (free : t.holds p.target = false)
    (differs : p.target ≠ p.source) (plain : ∀ name ∈ p.targetAlias?, isRelative name = false)
    (entries : ∀ entry ∈ p.targetProject.primaryEntryPoint?, IsCanonical entry)
    {i : Index} (stands : Stands service p i v)
    (h : v.Meets service.finder (p.history service options t) (Stays t p) (IsKnown t p)
      (Placed service t p)) (there : v.tree.text? p.target = some p.text) :
    ∃ v', (play (Index.perform service.finder) (complete service p options) .empty i).2.Mirrors
        service.finder (fun _ => False) v' ∧
      Repaired service options (fun path => IsCanonical path ∧ path ≠ p.source) t p v' := by
  refine play_stages (Repairing service options t p (fun _ => False) fun _ => False)
    ?_ (fun imported v repaired => ?_) (fun o v repaired => ?_)
    (fun exportAdded v passed => does_closing followed differs exportAdded passed) stands
  · exact plays_repair followed module builtIn free plain
      (repairing_own followed canonical h there)
  · exact does_localizeTarget followed module (strategy_of_imported passed imported) repaired
  · have clean : Repaired service options IsCanonical t p v :=
      repaired.mono (fun _ known => known.1) fun _ _ _ _ => id
    exact does_ensureExport followed module entries o clean

end Rehome.Move
