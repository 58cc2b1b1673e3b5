import Rehome.Proofs.Move.Revisions
import Rehome.Proofs.Path.Resolution

/-!
# References while a file is moved

While a file is moved, the relative specifiers of the files that matter lead to files that stay,
except for those in the old project that still mean the moved file at its old place. Repairing the
old project leaves none of these, and no other stage of a move adds one.
-/
namespace Rehome.Move

open Specifier (Finder)
open Rehome.Path (IsCanonical IsModule isRelative resolvesTo specifierFor)
open Rehome.Path (sourceExtension? isWithin dirname stem)
open Job (Does)

/-! ## What holds of the specifiers -/

/-- The files that are there after a move, if no entry point is made for it. -/
def Stays (t : FileTree) (p : Plan) (file : String) : Prop :=
  t.isFile file = true ∧ file ≠ p.source ∨ file = p.target

/-- A file that is listed for a project, or that is new. -/
def Matters (service : Service) (t : FileTree) (path : String) : Prop :=
  t.isFile path = true → ∃ project ∈ service.workspace.projects,
    path ∈ t.reached service.settings project.root

/-- A relative specifier of a file that matters leads to a file that stays. In a pending file it may
mean the moved file instead. In a watched file a specifier with an ending means the moved file only
if the way to the new place can take that ending. -/
def Fine (service : Service) (t : FileTree) (p : Plan) (pending watched : String → Prop)
    (path value : String) : Prop :=
  path ≠ p.source → Matters service t path → isRelative value = true →
    (∃ file, (Stays t p file ∨ pending path ∧ file = p.source) ∧
      resolvesTo path value file = true) ∧
    (watched path → resolvesTo path value p.source = true → (sourceExtension? value).isSome →
      isWithin (dirname path) (stem p.target) = false)

/-- The files of a tree and the moved file at its new place. -/
def IsKnown (t : FileTree) (p : Plan) (path : String) : Prop :=
  IsCanonical path ∧ (t.isFile path = true ∨ path = p.target)

variable {service : Service} {t : FileTree} {p : Plan}
    {pending pending' watched watched' : String → Prop}
  {path value : String}

theorem Fine.mono (h : Fine service t p pending watched path value)
    (allows : path ≠ p.source → pending path → pending' path)
    (asks : watched' path → watched path) :
    Fine service t p pending' watched' path value := by
  intro differs matters relative
  obtain ⟨⟨file, place, leads⟩, safe⟩ := h differs matters relative
  refine ⟨⟨file, place.imp id fun old => ⟨allows differs old.1, old.2⟩, leads⟩, fun isWatched =>
    safe (asks isWatched)⟩

theorem fine_of_not_relative (h : isRelative value = false) :
    Fine service t p pending watched path value := by
  intro _ _ relative
  rw [h] at relative
  cases relative

/-- A specifier that is written for the moved file at its new place. -/
theorem fine_specifierFor_none (module : IsModule p.target) (canonical : IsCanonical path) :
    Fine service t p pending watched path (specifierFor path p.target none) := by
  intro _ _ _
  refine ⟨⟨p.target, .inl (.inr rfl), Path.resolvesTo_specifierFor canonical module (by simp)⟩,
    fun _ _ ending => ?_⟩
  rw [Path.sourceExtension?_specifierFor_none canonical module] at ending
  cases ending

/-- A file is no longer pending once its references to the old place were replaced. -/
theorem Fine.replaced (h : Fine service t p pending watched path value) (isWatched : watched path)
    (module : IsModule p.target) (canonical : IsCanonical path) {alias? : Option String}
    (plain : ∀ name ∈ alias?, isRelative name = false) (settled : ¬ watched' path) :
    Fine service t p pending' watched' path
      (if resolvesTo path value p.source then replacement p alias? path value else value) := by
  intro differs matters relative
  refine ⟨?_, fun still => absurd still settled⟩
  by_cases old : resolvesTo path value p.source = true
  · rw [if_pos old] at relative ⊢
    cases alias? with
    | some name =>
      rw [replacement, plain name rfl] at relative
      cases relative
    | none =>
      have oldRelative : isRelative value = true := by
        by_contra other
        simp [resolvesTo, Path.resolve?, other] at old
      have written : replacement p none path value = specifierFor path p.target (some value) := by
        rw [replacement]
      rw [written]
      refine ⟨p.target, .inl (.inr rfl), Path.resolvesTo_specifierFor canonical module ?_⟩
      intro specifier same ending
      cases same
      exact (h differs matters oldRelative).2 isWatched old ending
  · rw [if_neg old] at relative ⊢
    obtain ⟨⟨file, stays | ⟨-, same⟩, leads⟩, -⟩ := h differs matters relative
    · exact ⟨file, .inl stays, leads⟩
    · rw [same] at leads
      exact absurd leads old

/-! ## Repairs -/

/-- The states of an index during a move. -/
abbrev Stands (service : Service) (p : Plan) : Index → Plain → Prop :=
  Index.Covers service.finder service.settings p.source

/-- A move whose references are being repaired. -/
abbrev Repairing (service : Service) (options : Options) (t : FileTree) (p : Plan)
    (pending watched : String → Prop) (v : Plain) : Prop :=
  v.Meets service.finder (p.history service options t) (Stays t p) (IsKnown t p)
    (Fine service t p pending watched)

variable {options : Options} {v : Plain}

/-- No file was listed before that is not listed while references are repaired. -/
theorem mem_reached_of_meets {known : String → Prop} {fine : String → String → Prop}
    (h : v.Meets service.finder (p.history service options t) (Stays t p) known fine)
    (old : ∀ path, known path → t.isFile path = true ∨ path = p.target)
    (free : t.holds p.target = false) {root : String}
    (member : path ∈ t.reached service.settings root) (differs : path ≠ p.source) :
    path ∈ v.tree.reached service.settings root := by
  obtain ⟨file, lists, clear⟩ := FileTree.mem_reached.1 member
  have there := h.present path (.inl ⟨FileTree.isFile_iff.2 file, differs⟩)
  refine FileTree.mem_reached.2 ⟨FileTree.isFile_iff.1 there, lists, ?_⟩
  rw [← Bool.not_eq_true, FileTree.hides_eq_true_iff] at clear ⊢
  rintro ⟨above, inside, below, leads⟩
  have found := FileTree.isFile_iff.2 inside
  rw [FileTree.isFile_eq_isSome, Option.isSome_iff_exists] at found
  obtain ⟨text, found⟩ := found
  rcases old above (h.known above text found) with before | rfl
  · exact clear ⟨above, FileTree.isFile_iff.1 before, below, leads⟩
  · have taken : t.holds p.target = true := FileTree.holds_iff.2 (.inr ⟨path, file, leads⟩)
    rw [taken] at free
    cases free

/-- A file that is listed after a move was listed before, unless it is new or lies below the old
place. -/
theorem mem_reached_before {u : FileTree} {root : String} (solid : t.IsSolidBelow root)
    (present : ∀ file, Stays t p file → file ∈ u.files.names)
    (reached : path ∈ u.reached service.settings root) (outside : isWithin path p.source = false)
    (file : t.isFile path = true) :
    path ∈ t.reached service.settings root := by
  obtain ⟨-, lists, clear⟩ := FileTree.mem_reached.1 reached
  refine FileTree.mem_reached.2 ⟨FileTree.isFile_iff.1 file, lists, ?_⟩
  rw [← Bool.not_eq_true, FileTree.hides_eq_true_iff] at clear ⊢
  -- A file above it would have hidden it, and only the moved file is gone.
  rintro ⟨above, old, below, leads⟩
  by_cases same : above = p.source
  · obtain ⟨rest, cut⟩ := leads
    rw [FileTree.lead_of_ne (solid.ne_empty old below), same] at cut
    have within : isWithin path p.source = true :=
      Path.isWithin_iff.2 (.inr (.inr ⟨rest, by simp [← cut]⟩))
    rw [within] at outside
    cases outside
  · exact clear ⟨above, present above (.inl ⟨FileTree.isFile_iff.2 old, same⟩), below, leads⟩

theorem not_mem_reached_target (free : t.holds p.target = false) (root : String) :
    p.target ∉ t.reached service.settings root := by
  intro member
  rw [FileTree.holds_iff.2 (.inl (FileTree.mem_reached.1 member).1)] at free
  cases free

/-- While the files of the old project are repaired, those that remain are pending. -/
abbrev FineIn (service : Service) (t : FileTree) (p : Plan) (rest : List String) :
    String → String → Prop :=
  Fine service t p
    (fun path => path ∈ t.reached service.settings p.sourceProject.root ∧ path ∈ rest)
    (fun path => path ∈ rest ∧ path ≠ p.target)

/-- A move with some files of the old project still to be repaired. -/
abbrev Remaining (service : Service) (options : Options) (t : FileTree) (p : Plan)
    (rest : List String) (v : Plain) : Prop :=
  v.Meets service.finder (p.history service options t) (Stays t p) (IsKnown t p)
    (FineIn service t p rest)

theorem Fine.passed {file : String} {rest : List String}
    (h : FineIn service t p (file :: rest) path value) (differs : path ≠ file) :
    FineIn service t p rest path value := by
  apply h.mono
  · intro _ old
    exact ⟨old.1, (List.mem_cons.1 old.2).resolve_left differs⟩
  · intro left
    exact ⟨List.mem_cons_of_mem file left.1, left.2⟩

/-- The moved file is not pending, neither at its old place nor at the new one. -/
theorem Remaining.skipped {file : String} {rest : List String}
    (h : Remaining service options t p (file :: rest) v) (free : t.holds p.target = false)
    (skipped : file = p.source ∨ file = p.target) :
    Remaining service options t p rest v := by
  refine h.mono (fun _ => id) fun other _ _ value fine => ?_
  by_cases same : other = file
  · refine fine.mono (fun differs old => ?_) fun left => ⟨List.mem_cons_of_mem file left.1, left.2⟩
    rw [same] at differs old
    rcases skipped with atSource | atTarget
    · exact absurd atSource differs
    · rw [atTarget] at old
      exact absurd old.1 (not_mem_reached_target free _)
  · exact fine.passed same

theorem Remaining.replaced {file : String} {rest : List String}
    (h : Remaining service options t p (file :: rest) v) (followed : p.IsFollowed service options t)
    (module : IsModule p.target) (plain : ∀ name ∈ p.targetAlias?, isRelative name = false)
    (once : file ∉ rest) (atSource : file ≠ p.source) (atTarget : file ≠ p.target) :
    Remaining service options t p rest
      ((Job.replaceWhere file (resolvesTo file · p.source)
        (replacement p p.repairAlias? file)).run
      (Plain.perform service.finder service.settings) v).2 := by
  refine h.replaceWhere service.settings (Plan.reference_mem atSource atTarget)
    (followed.only file) (fun other differs value fine => fine.passed differs) ?_
  intro known value fine
  have plain : ∀ name ∈ p.repairAlias?, isRelative name = false :=
    fun name member => plain name (Plan.mem_targetAlias? member)
  exact fine.replaced ⟨List.mem_cons_self, atTarget⟩ module known.1 plain fun left => once left.1

/-- After the old project was repaired, nothing is pending. -/
theorem does_repairProject (followed : p.IsFollowed service options t) (module : IsModule p.target)
    (free : t.holds p.target = false) (plain : ∀ name ∈ p.targetAlias?, isRelative name = false)
    (h : Repairing service options t p (· ∈ t.reached service.settings p.sourceProject.root)
      (· ≠ p.target) v) :
    Does (Index.perform service.finder) (Stands service p) (repairProject p p.repairAlias?) v fun _ v' =>
      Repairing service options t p (fun _ => False) (fun _ => False) v' := by
  have clean : v.tree.IsClean := fun path member => (h.known_of_mem member).1
  refine (Index.does_sourceFiles p.sourceProject.root).bind ?_
  rintro files v ⟨rfl, listed⟩
  obtain ⟨nodup, all⟩ := listed (clean.solidBelow _)
  have start : Remaining service options t p files v := by
    refine h.mono (fun _ => id) fun path file _ value fine =>
      fine.mono (fun differs old => ⟨old, ?_⟩) And.right
    exact all path (mem_reached_of_meets h (fun _ known => known.2) free old differs) differs
  refine (does_changed_all (Remaining service options t p) ?_ start).mono fun _ v' done => ?_
  · intro file rest v inside before
    have once : file ∉ rest := (List.nodup_cons.1 (nodup.sublist inside.sublist)).1
    split
    next skipped => exact Job.does_pure (before.skipped free (by simpa using skipped))
    next kept =>
      simp only [Bool.or_eq_true, decide_eq_true_eq, not_or] at kept
      exact Index.covers_attends.edits service.settings (Job.edits_replaceWhere ..)
        (before.replaced followed module plain once kept.1 kept.2)
  · refine done.mono (fun _ => id) fun path _ _ value fine => fine.mono (fun _ old => ?_) (nofun)
    cases old.2

section

variable (followed : p.IsFollowed service options t) (module : IsModule p.target)
include followed module

theorem Repairing.localize (h : Repairing service options t p pending watched v)
    (exported : p.strategy = .exported) {name file : String} (named : name ∈ p.sourceAlias?)
    (atTarget : file ≠ p.target) :
    Repairing service options t p pending watched
      ((localize p name file).run (Plain.perform service.finder service.settings) v).2 := by
  refine h.replaceWhere service.settings (Plan.localize_mem exported named atTarget)
    (followed.only file) (fun _ _ _ => id) fun known value fine => ?_
  split
  · exact fine_specifierFor_none module known.1
  · exact fine

theorem does_localizeTarget (exported : p.strategy = .exported)
    (h : Repairing service options t p pending watched v) :
    Does (Index.perform service.finder) (Stands service p) (localizeTarget p) v fun _ v' =>
      Repairing service options t p pending watched v' :=
  does_localizeTarget_keeping service.settings Index.covers_attends
    (fun _ named _ atTarget _ before => before.localize followed module exported named atTarget) h

/-- Files that name the alias of the old project get the alias of the new one, or the way to the
file. -/
theorem does_repairProjects_fine (plain : ∀ name ∈ p.targetAlias?, isRelative name = false)
    (exported : p.strategy = .exported) {name : String} (named : name ∈ p.sourceAlias?)
    (projects : List Project) (h : Repairing service options t p pending watched v) :
    Does (Index.perform service.finder) (Stands service p)
      (repairProjects p name projects) v fun _ v' =>
      Repairing service options t p pending watched v' := by
  apply does_repairProjects_keeping service.settings Index.covers_attends _ projects h
  intro project file v before
  apply repairDependent_keeps _ _ project file before
  · intro file atTarget v before
    exact before.localize followed module exported named atTarget
  · intro new published file atTarget v before
    exact before.replaceSpecifier service.settings
      (Plan.rename_mem exported named published atTarget) (followed.only file) fun _ =>
        fine_of_not_relative (plain new published)

omit module in
theorem does_removeFromEntryPoints (exported : p.strategy = .exported)
    (h : Repairing service options t p pending watched v) :
    Does (Index.perform service.finder) (Stands service p) (removeFromEntryPoints p) v fun _ v' =>
      Repairing service options t p pending watched v' :=
  does_removeFromEntryPoints_keeping service.settings Index.covers_attends
    (fun entry listed _ before => before.removeExportsWhere service.settings
      (Plan.remove_mem exported listed) (followed.only entry)) h

/-- Whichever projects are looked at, repairing their files adds no reference to the old place. -/
theorem plays_propagate (builtIn : service.graphSource.IsBuiltIn)
    (plain : ∀ name ∈ p.targetAlias?, isRelative name = false) (exported : p.strategy = .exported)
    (h : Repairing service options t p pending watched v) :
    Plays (Index.perform service.finder) (Stands service p)
      (propagate service p) .empty v fun _ v' =>
      Repairing service options t p pending watched v' := by
  unfold propagate
  cases named : p.sourceAlias? with
  | none => exact plays_pure h
  | some name =>
    have loads : Does (Index.perform service.finder) (Stands service p)
        (service.graphSource service.workspace) v
        fun loaded v' => v' = v ∧ ∃ g, loaded = .ok g ∧ True := by
      intro i stands
      obtain ⟨v', after, rfl⟩ :=
        Index.covers_attends.asks (Job.asks_graph builtIn service.workspace) v i stands
      obtain ⟨g, loaded⟩ := builtIn.loads service.workspace i
      exact ⟨v', after, rfl, g, loaded, trivial⟩
    have projects : Plays (Index.perform service.finder) (Stands service p)
        (dependentProjects service p name) .empty v
        fun _ v' => v' = v := by
      refine (plays_dependentsOf loads).bind ?_
      rintro names c v ⟨rfl, -⟩
      split
      · exact plays_onFiles (Index.covers_attends.asks (Job.asks_projectsNaming ..) v)
      · exact plays_pure rfl
    refine projects.bind fun found c v' same => plays_onFiles ?_
    subst same
    refine (Index.covers_attends.asks (Job.asks_listFiles found) v').bind fun _ v'' same => ?_
    subst same
    exact does_repairProjects_fine followed module plain exported named found h

/-- Whatever the strategy, no reference to the old place is left after the repairs. -/
theorem plays_repair (builtIn : service.graphSource.IsBuiltIn) (free : t.holds p.target = false)
    (plain : ∀ name ∈ p.targetAlias?, isRelative name = false)
    (h : Repairing service options t p (· ∈ t.reached service.settings p.sourceProject.root)
      (· ≠ p.target) v) :
    Plays (Index.perform service.finder) (Stands service p) (repair service p) .empty v fun _ v' =>
      Repairing service options t p (fun _ => False) (fun _ => False) v' := by
  have project : ∀ alias?, alias? = p.repairAlias? → ∀ v,
      Repairing service options t p (· ∈ t.reached service.settings p.sourceProject.root)
        (· ≠ p.target) v →
      Does (Index.perform service.finder) (Stands service p) (repairProject p alias?) v
        fun _ v' => Repairing service options t p (fun _ => False) (fun _ => False) v' := by
    intro alias? same v before
    subst same
    exact does_repairProject followed module free plain before
  unfold repair
  cases strategy : p.strategy with
  | sameProject | default =>
    have done := project none (by rw [Plan.repairAlias?, strategy]) v h
    exact (plays_onFiles done).bind fun _ _ _ done => plays_pure done
  | nonExportedAliased =>
    have done := project p.targetAlias? (by rw [Plan.repairAlias?, strategy]) v h
    exact (plays_onFiles done).bind fun _ _ _ done => plays_pure done
  | exported =>
    refine (plays_propagate followed module builtIn plain strategy h).bind fun _ _ v first => ?_
    refine (plays_onFiles (does_removeFromEntryPoints followed strategy first)).bind
      fun _ _ v second => ?_
    have done := project p.targetAlias? (by rw [Plan.repairAlias?, strategy]) v second
    exact (plays_onFiles done).bind fun _ _ _ done => plays_pure done

end

end Rehome.Move
