import Rehome.Move.Service
import Rehome.Proofs.Index.Coherence
import Rehome.Proofs.Job.Run

/-!
# Which requests are accepted

A request is carried out exactly if nine conditions hold of it and the tree. Otherwise the first one
that fails names the error, and the tree is left as it was. No later part of a move can fail as long
as the graph is one that is known beforehand or read off the specifiers.
-/
namespace Rehome.Move

open Session

variable {σ α β : Type}

/-! ## The conditions -/

/-- A request that may be carried out on a tree, with the paths it means. -/
structure Accepts (s : Service) (r : Request) (t : FileTree) (source target : String) : Prop where
  sourcePath : Path.normalize r.source = .ok source
  sourceKind : s.settings.isSource source = true
  present : t.isFile source = true
  sourceOwned : (s.workspace.owner source).isOk = true
  targetPath : Move.targetPath s.workspace source r.target = .ok target
  elsewhere : target ≠ source
  targetKind : s.settings.isSource target = true
  free : t.holds target = false
  targetOwned : (s.workspace.owner target).isOk = true

/-- A route for a request that may be carried out. -/
structure Fits (s : Service) (r : Request) (t : FileTree) (x : Route) : Prop where
  accepts : Accepts s r t x.source x.target
  text : t.text? x.source = some x.text
  sourceOwner : s.workspace.owner x.source = .ok x.sourceProject
  targetOwner : s.workspace.owner x.target = .ok x.targetProject

/-- What stands in the way of using an outcome. -/
def fault? : Except Error α → Option Error
  | .ok _ => none
  | .error e => some e

@[simp] theorem fault?_ok (a : α) : fault? (.ok a) = none := rfl

/-- The conditions in the order in which they are checked, each with the error of a request that
fails it. -/
def faults (s : Service) (r : Request) (t : FileTree) : List (Option Error) :=
  let source := (Path.normalize r.source).toOption.getD ""
  let target := (targetPath s.workspace source r.target).toOption.getD ""
  [fault? (Path.normalize r.source),
    if s.settings.isSource source then none else some
      (.invalidRequest (source ++ " is not a source file")),
    if t.isFile source then none else some (.notFound source),
    fault? (s.workspace.owner source),
    fault? (targetPath s.workspace source r.target),
    if target = source then some (.invalidRequest "source and target are the same file") else none,
    if s.settings.isSource target then none else some
      (.invalidRequest (target ++ " is not a source file")),
    if t.holds target then some (.alreadyExists target) else none,
    fault? (s.workspace.owner target)]

/-- The error of the first condition that fails. -/
def firstFault? (s : Service) (r : Request) (t : FileTree) : Option Error :=
  (faults s r t).findSome? id

/-- The checks, with a tree that answers at once. -/
def examine (s : Service) (r : Request) (t : FileTree) : Except Error Route := do
  let source ← Path.normalize r.source
  checkSourceFile s.settings source
  let text ← checkFound source (t.text? source)
  let sourceProject ← s.workspace.owner source
  let target ← targetPath s.workspace source r.target
  checkDistinct source target
  checkSourceFile s.settings target
  checkFree target (t.holds target)
  let targetProject ← s.workspace.owner target
  return { source, target, text, sourceProject, targetProject }

/-! ## Faults are faults of the request -/

theorem normalize_fault {path : String} {e : Error} (h : Path.normalize path = .error e) :
    e.isValidation = true := by
  unfold Path.normalize at h
  split at h
  · cases h
  · cases h
    rfl

theorem owner_fault {w : Workspace} {path : String} {e : Error} (h : w.owner path = .error e) :
    e.isValidation = true := by
  unfold Workspace.owner at h
  dsimp only at h
  split at h
  · cases h
  · cases h
    rfl
  · cases h
    rfl

theorem derivedTarget_fault {p : Project} {directory? : Option String} {source : String} {e : Error}
    (h : derivedTarget p directory? source = .error e) : e.isValidation = true := by
  cases directory? with
  | none => exact normalize_fault h
  | some directory =>
    cases inner : Path.normalize directory with
    | error e' =>
      have same : e' = e := by
        simpa [derivedTarget, inner, bind, Except.bind] using h
      exact same ▸ normalize_fault inner
    | ok clean =>
      have last :
          Path.normalize (Path.join (Path.join (Path.join p.sources "lib") clean)
          (Path.basename source)) =
          .error e := by
        simpa [derivedTarget, inner, bind, Except.bind, pure, Except.pure] using h
      exact normalize_fault last

theorem targetPath_fault {w : Workspace} {source : String} {target : Target} {e : Error}
    (h : targetPath w source target = .error e) : e.isValidation = true := by
  cases target with
  | path path => exact normalize_fault h
  | project name directory? =>
    simp only [targetPath] at h
    split at h
    · cases h
      rfl
    · exact derivedTarget_fault h

theorem checkSourceFile_fault {s : ScanSettings} {path : String} {e : Error}
    (h : checkSourceFile s path = .error e) : e.isValidation = true := by
  unfold checkSourceFile at h
  split at h <;> cases h
  rfl

theorem checkFound_fault {path : String} {text? : Option String} {e : Error}
    (h : checkFound path text? = .error e) : e.isValidation = true := by
  cases text? <;> cases h
  rfl

theorem checkDistinct_fault {source target : String} {e : Error}
    (h : checkDistinct source target = .error e) : e.isValidation = true := by
  unfold checkDistinct at h
  split at h <;> cases h
  rfl

theorem checkFree_fault {path : String} {taken : Bool} {e : Error}
    (h : checkFree path taken = .error e) : e.isValidation = true := by
  unfold checkFree at h
  split at h <;> cases h
  rfl

/-! ## The checks find the first fault -/

/-- An outcome that a list of possible faults decides: the first one is the error, and without any
the value is as described. -/
def Decides (faults : List (Option Error)) (x : Except Error α) (good : α → Prop) : Prop :=
  match x with
  | .ok a => good a ∧ faults.findSome? id = none
  | .error e => faults.findSome? id = some e ∧ e.isValidation = true

theorem Decides.step {x : Except Error α} {k : α → Except Error β} {fault : Option Error}
    {rest : List (Option Error)} {good : β → Prop} (here : fault = fault? x)
    (valid : ∀ {e}, x = .error e → e.isValidation = true)
    (later : ∀ a, x = .ok a → Decides rest (k a) good) :
    Decides (fault :: rest) (x >>= k) good := by
  subst here
  cases x with
  | ok a => exact later a rfl
  | error e => exact ⟨rfl, valid rfl⟩

theorem checkSourceFile_eq_ok {s : ScanSettings} {path : String} {u : Unit}
    (h : checkSourceFile s path = .ok u) : s.isSource path = true := by
  unfold checkSourceFile at h
  split at h
  next kind => exact kind
  next => cases h

theorem examine_spec (s : Service) (r : Request) (t : FileTree) :
    Decides (faults s r t) (examine s r t) (Fits s r t) := by
  unfold examine faults
  refine .step rfl normalize_fault fun source sourcePath => ?_
  simp only [sourcePath, Except.toOption, Option.getD_some]
  refine .step (by unfold checkSourceFile; split <;> rfl) checkSourceFile_fault
    fun _ sourceKind => ?_
  refine .step ?_ checkFound_fault fun text found => ?_
  · rw [FileTree.isFile_eq_isSome]
    cases t.text? source <;> rfl
  refine .step rfl owner_fault fun sourceProject sourceOwned => ?_
  refine .step rfl targetPath_fault fun target targetPath => ?_
  simp only [targetPath, Option.getD_some]
  refine .step (by unfold checkDistinct; split <;> rfl) checkDistinct_fault fun _ elsewhere => ?_
  refine .step (by unfold checkSourceFile; split <;> rfl) checkSourceFile_fault
    fun _ targetKind => ?_
  refine .step (by unfold checkFree; split <;> rfl) checkFree_fault fun _ free => ?_
  refine .step rfl owner_fault fun targetProject targetOwned => ?_
  have known : t.text? source = some text := by
    cases known : t.text? source <;> simp [known, checkFound] at found ⊢
    exact found
  refine ⟨⟨⟨sourcePath, checkSourceFile_eq_ok sourceKind,
    ?_, by rw [sourceOwned]; rfl, targetPath, ?_,
    checkSourceFile_eq_ok targetKind, ?_, by rw [targetOwned]; rfl⟩, known, sourceOwned,
      targetOwned⟩, rfl⟩
  · simp [known, FileTree.isFile_eq_isSome]
  · simpa [checkDistinct] using elsewhere
  · cases taken : t.holds target <;> simp [taken, checkFree] at free ⊢

/-! ## Checking changes nothing -/

variable (perform : {β : Type} → FileOp β → σ → β × σ)

/-- Files that are read, and paths whose existence is asked for, answer as a tree does as long as
only such questions are asked. -/
structure Shows (t : FileTree) (keeps : σ → Prop) : Prop where
  read : ∀ {st} path, keeps st → (perform (.read path) st).1 = t.text? path ∧
    keeps (perform (.read path) st).2
  exist : ∀ {st} path, path ≠ "" → keeps st →
    (perform (.exist path) st).1 = t.holds path ∧ keeps (perform (.exist path) st).2

/-- A session that comes to the result of a check and keeps what it started with. -/
def Follows (keeps : σ → Prop) (x : Session α) (c : Graph.Cache) (st : σ)
    (result : Except Error α) : Prop :=
  (play @perform x c st).1 = (result, c) ∧ keeps (play @perform x c st).2

variable {perform}

theorem isSource_ne_empty {s : ScanSettings} {path : String} (h : s.isSource path = true) :
    path ≠ "" := by
  rintro rfl
  cases h

theorem follows_check {keeps : σ → Prop} {e : Except Error α} {k : α → Session β}
    {next : α → Except Error β} {c : Graph.Cache} {st : σ} (start : keeps st)
    (later : ∀ a, e = .ok a → Follows @perform keeps (k a) c st (next a)) :
    Follows @perform keeps (check e >>= k) c st (e >>= next) := by
  unfold Follows
  rw [play_bind, play_check]
  cases e with
  | ok a => exact later a rfl
  | error e => exact ⟨rfl, start⟩

/-- The checks of a session are those of the tree that shows. -/
theorem route_follows {t : FileTree} {keeps : σ → Prop} (shows : Shows @perform t keeps)
    (s : Service) (r : Request) (c : Graph.Cache) {st : σ} (start : keeps st) :
    Follows @perform keeps (route s r) c st (examine s r t) := by
  unfold route examine
  refine follows_check start fun source _ => ?_
  refine follows_check start fun _ _ => ?_
  obtain ⟨text, afterRead⟩ := shows.read source start
  unfold Follows
  rw [play_onFiles_bind]
  simp only [Job.read, Job.run_ofOp, text]
  refine follows_check afterRead fun text _ => ?_
  refine follows_check afterRead fun sourceProject _ => ?_
  refine follows_check afterRead fun target _ => ?_
  refine follows_check afterRead fun _ _ => ?_
  refine follows_check afterRead fun _ targetKind => ?_
  obtain ⟨taken, afterExist⟩ :=
    shows.exist target (isSource_ne_empty (checkSourceFile_eq_ok targetKind)) afterRead
  unfold Follows
  rw [play_onFiles_bind]
  simp only [Job.exist, Job.run_ofOp, taken]
  refine follows_check afterExist fun _ _ => ?_
  refine follows_check afterExist fun targetProject _ => ?_
  exact ⟨rfl, afterExist⟩

/-! ## Nothing fails after the checks -/

variable (perform) in
/-- A session that never ends in an error. -/
def Succeeds (x : Session α) : Prop := ∀ c st, ∃ a, (play @perform x c st).1.1 = .ok a

theorem succeeds_pure (a : α) : Succeeds @perform (pure a : Session α) := fun _ _ => ⟨a, rfl⟩

theorem succeeds_onFiles (j : Job α) : Succeeds @perform (onFiles j) :=
  fun _ _ => ⟨_, by rw [play_onFiles]⟩

theorem Succeeds.bind {x : Session α} {k : α → Session β} (first : Succeeds @perform x)
    (later : ∀ a, Succeeds @perform (k a)) : Succeeds @perform (x >>= k) := by
  intro c st
  obtain ⟨a, done⟩ := first c st
  rw [play_bind]
  generalize play @perform x c st = outcome at done
  obtain ⟨⟨result, c'⟩, st'⟩ := outcome
  subst done
  exact later a c' st'

theorem GraphSource.IsBuiltIn.loads {g : GraphSource} (h : g.IsBuiltIn) (w : Workspace) (st : σ) :
    ∃ graph, ((g w).run @perform st).1 = .ok graph := by
  rcases h with ⟨graph, rfl⟩ | rfl
  · exact ⟨graph, rfl⟩
  · exact ⟨_, by rw [imports, Job.run_bind]; rfl⟩

theorem dependentsOf_succeeds {s : Service} (builtIn : s.graphSource.IsBuiltIn) (name : String) :
    Succeeds @perform (dependentsOf s name) := by
  intro c st
  unfold dependentsOf
  rw [play_bind, play_get]
  simp only [play_onFiles_bind]
  have loaded : ∃ g, ((c.get (s.graphSource s.workspace)).run @perform st).1.1 = .ok g := by
    unfold Graph.Cache.get
    cases c.graph? with
    | some g => exact ⟨g, rfl⟩
    | none =>
      obtain ⟨g, ok⟩ := builtIn.loads s.workspace st
      exact ⟨g, by simp only [Job.run_bind]; exact ok⟩
  generalize (c.get (s.graphSource s.workspace)).run @perform st = outcome at loaded
  obtain ⟨⟨result, c'⟩, st'⟩ := outcome
  obtain ⟨g, rfl⟩ := loaded
  exact ⟨_, rfl⟩

theorem repair_succeeds {s : Service} (builtIn : s.graphSource.IsBuiltIn) (p : Plan) :
    Succeeds @perform (repair s p) := by
  have propagates : Succeeds @perform (propagate s p) := by
    unfold propagate
    split
    · exact succeeds_pure _
    next name _ =>
      refine .bind (.bind (dependentsOf_succeeds builtIn _) fun dependents => ?_) fun projects =>
        succeeds_onFiles _
      split
      · exact succeeds_onFiles _
      · exact succeeds_pure _
  unfold repair
  split
  · exact (succeeds_onFiles _).bind fun _ => succeeds_pure _
  · exact (succeeds_onFiles _).bind fun _ => succeeds_pure _
  · exact (succeeds_onFiles _).bind fun _ => succeeds_pure _
  · exact propagates.bind fun _ => (succeeds_onFiles _).bind fun _ =>
      (succeeds_onFiles _).bind fun _ => succeeds_pure _

theorem play_file_of_error {s : Service} {r : Request} (o : Options) {c c' : Graph.Cache}
    {st st' : σ} {e : Error} (refused : play @perform (route s r) c st = ((.error e, c'), st')) :
    play @perform (file s r o) c st = ((.error e, c'), st') := by
  rw [file, resolve, play_bind, play_bind, refused]

theorem play_file_of_ok {s : Service} (builtIn : s.graphSource.IsBuiltIn) {r : Request}
    (o : Options) {c c' : Graph.Cache} {st st' : σ} {x : Route}
    (accepted : play @perform (route s r) c st = ((.ok x, c'), st')) :
    ∃ report, (play @perform (file s r o) c st).1.1 = .ok report := by
  have later : ∀ plan, Succeeds @perform (do
      onFiles (place plan)
      let _ ← onFiles (repairOwn plan)
      let outcome ← repair s plan
      onFiles (finish s plan outcome o)) := fun plan =>
    (succeeds_onFiles _).bind fun _ => (succeeds_onFiles _).bind fun _ =>
      (repair_succeeds builtIn _).bind fun _ => succeeds_onFiles _
  rw [file, resolve, play_bind, play_bind, accepted]
  simp only [play_onFiles]
  exact later _ _ _

theorem fault?_of_isOk {x : Except Error α} (h : x.isOk = true) : fault? x = none := by
  cases x with
  | ok a => rfl
  | error e => cases h

theorem Accepts.firstFault?_eq_none {s : Service} {r : Request} {t : FileTree}
    {source target : String} (h : Accepts s r t source target) : firstFault? s r t = none := by
  simp [firstFault?, faults, fault?_of_isOk h.sourceOwned, fault?_of_isOk h.targetOwned,
    Except.toOption,
    h.sourcePath, h.sourceKind, h.present, h.targetPath, h.elsewhere, h.targetKind, h.free]

/-- An index that has kept nothing but true answers about a tree. -/
structure Watches (f : Specifier.Finder) (t : FileTree) (i : Index) : Prop where
  files : i.tree.files = t.files
  changes : i.tree.changes = t.changes
  texts : i.KeepsTexts f
  existence : i.KeepsExistence
  ends : i.endless = false

theorem shows_watches (f : Specifier.Finder) (t : FileTree) :
    Shows (fun {_} op => Index.perform f op) t (Watches f t) where
  read {i} path h := by
    obtain ⟨answer, keeps, asked, texts, readings, frame⟩ := Index.read_spec h.texts path
    refine ⟨by rw [FileTree.text?, ← h.files]; exact answer, ?_, ?_, keeps, ?_, ?_⟩
    all_goals simp only [Index.perform, frame]
    · exact h.files
    · exact h.changes
    · exact h.existence
    · exact h.ends
  exist {i} path nonempty h := by
    obtain ⟨answer, keeps, asked, existence, frame⟩ := Index.exist_spec h.existence nonempty
    refine ⟨?_, ?_, ?_, ?_, keeps, ?_⟩
    · rw [FileTree.holds, FileTree.isFile, FileTree.pathsBelow, ← h.files]
      exact answer
    all_goals simp only [Index.perform, frame]
    · exact h.files
    · exact h.changes
    · exact h.texts.of_same rfl rfl rfl rfl
    · exact h.ends

theorem watches_new (f : Specifier.Finder) (t : FileTree) (s : ScanSettings) :
    Watches f t (.new t s) :=
  ⟨rfl, rfl, Index.keepsTexts_new f t s, by simp [Index.KeepsExistence, Index.new], rfl⟩

/-- A run plays a move on an index of the tree. -/
theorem run_eq_play (s : Service) (r : Request) (o : Options) (t : FileTree) :
    let played := play (Index.perform s.finder) (file s r o) .empty (.new t s.settings)
    run s r o t = ⟨played.1.1, played.1.2.loads, played.2.tree, !played.2.endless⟩ := by
  unfold run play Index.run
  generalize file s r o = program
  rfl

theorem run_report (s : Service) (r : Request) (o : Options) (t : FileTree) :
    (run s r o t).report = (play (Index.perform s.finder) (file s r o) .empty
      (.new t s.settings)).1.1 := by
  rw [run_eq_play]

theorem run_tree (s : Service) (r : Request) (o : Options) (t : FileTree) :
    (run s r o t).tree = (play (Index.perform s.finder) (file s r o) .empty
      (.new t s.settings)).2.tree := by
  rw [run_eq_play]

theorem run_loads (s : Service) (r : Request) (o : Options) (t : FileTree) :
    (run s r o t).loads = (play (Index.perform s.finder) (file s r o) .empty
      (.new t s.settings)).1.2.loads := by
  rw [run_eq_play]

theorem run_ends (s : Service) (r : Request) (o : Options) (t : FileTree) :
    (run s r o t).ends = !(play (Index.perform s.finder) (file s r o) .empty
      (.new t s.settings)).2.endless := by
  rw [run_eq_play]

/-- A fault ends a move at once, and everything after the checks succeeds. -/
theorem run_cases {s : Service} (builtIn : s.graphSource.IsBuiltIn) (r : Request) (o : Options)
    (t : FileTree) :
    match examine s r t with
    | .ok _ => ∃ report, (run s r o t).report = .ok report
    | .error e => (run s r o t).report = .error e ∧ (run s r o t).ends = true ∧
        (run s r o t).tree.files = t.files ∧ (run s r o t).tree.changes = t.changes := by
  obtain ⟨result, watches⟩ :=
    route_follows (shows_watches s.finder t) s r .empty (watches_new s.finder t s.settings)
  cases examined : examine s r t with
  | ok x =>
    rw [examined] at result
    rw [run_report]
    exact play_file_of_ok builtIn o (Prod.ext result rfl)
  | error e =>
    rw [examined] at result
    have refused := play_file_of_error o (Prod.ext result rfl)
    rw [run_report, run_tree, run_ends, refused]
    exact ⟨rfl, by rw [watches.ends]; rfl, watches.files, watches.changes⟩

/-- A service for some projects with their aliases. It reads modules and knows of no dependencies
between the projects. -/
def Service.over (projects : List Project) (aliases : List (String × String)) : Service where
  workspace := aliases.foldl (fun w (project, name) => w.setAlias project name)
    (projects.foldl Workspace.addProject .empty)
  finder := .modules
  settings := .standard 1
  graphSource := .fixed .empty

/-- A service for the libraries `a` and `b` below `libs`, with the given entry points. -/
def Service.pair (a b : List String) (aliases : List (String × String)) : Service :=
  .over [⟨"a", "libs/a", none, .library, a⟩, ⟨"b", "libs/b", none, .library, b⟩] aliases

end Rehome.Move
