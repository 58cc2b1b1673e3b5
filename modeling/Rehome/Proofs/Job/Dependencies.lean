import Rehome.Job.Dependencies
import Rehome.Proofs.Graph.Pairs
import Rehome.Proofs.Job.Standing

/-!
# Dependencies that specifiers show

The owner of a specifier is the last project with the longest alias above it. So a project is the
owner of some specifier only if it is the owner of its own alias. A graph that is read off the
specifiers has an edge for every specifier of a file in view, and only edges to owners.
-/
namespace Rehome.Dependencies

open Specifier (Finder isUnderAlias)

/-! ## Owners of specifiers -/

theorem isUnderAlias_iff {name specifier : String} :
    isUnderAlias name specifier = true ↔
      specifier = name ∨ ∃ rest, specifier.toList = name.toList ++ '/' :: rest := by
  unfold isUnderAlias
  simp only [Bool.or_eq_true, decide_eq_true_eq, List.isPrefixOf_iff_prefix]
  refine or_congr_right ⟨?_, ?_⟩
  · rintro ⟨rest, whole⟩
    exact ⟨rest, by simpa using whole.symm⟩
  · rintro ⟨rest, whole⟩
    exact ⟨rest, by simpa using whole.symm⟩

theorem isUnderAlias_refl (name : String) : isUnderAlias name name = true :=
  isUnderAlias_iff.2 (.inl rfl)

theorem isUnderAlias_trans {outer middle inner : String} (first : isUnderAlias outer middle = true)
    (second : isUnderAlias middle inner = true) : isUnderAlias outer inner = true := by
  rw [isUnderAlias_iff] at first second ⊢
  rcases second with rfl | ⟨rest, cut⟩
  · exact first
  · rcases first with rfl | ⟨rest', cut'⟩
    · exact .inr ⟨rest, cut⟩
    · exact .inr ⟨rest' ++ '/' :: rest, by rw [cut, cut']; simp⟩

/-- An alias is no longer than what lies under it. -/
theorem isUnderAlias_size {name specifier : String} (h : isUnderAlias name specifier = true) :
    name.utf8ByteSize ≤ specifier.utf8ByteSize := by
  rcases isUnderAlias_iff.1 h with rfl | ⟨rest, cut⟩
  · exact le_refl _
  · have whole : specifier = name ++ String.ofList ('/' :: rest) := by
      rw [← String.toList_inj]
      simpa using cut
    rw [whole, String.utf8ByteSize_append]
    omega

theorem aliasOwner?_eq_none {specifier : String} {aliases : List (String × String)}
    (h : aliasOwner? specifier aliases = none) : ∀ e ∈ aliases,
    isUnderAlias e.1 specifier = false := by
  induction aliases with
  | nil => simp
  | cons e rest ih =>
    rw [aliasOwner?] at h
    split at h
    next =>
      split at h
      · cases h
      · cases h
    next none =>
      split at h
      · cases h
      next outside =>
        intro other member
        rcases List.mem_cons.1 member with rfl | later
        · exact Bool.not_eq_true _ ▸ outside
        · exact ih none other later

/-- The alias of the owner is published, lies above the specifier, and no alias above it is longer.
-/
theorem aliasOwner?_spec {specifier : String} {aliases : List (String × String)}
    {owner : String × String} (h : aliasOwner? specifier aliases = some owner) :
    owner ∈ aliases ∧ isUnderAlias owner.1 specifier = true ∧
      ∀ e ∈ aliases, isUnderAlias e.1 specifier = true →
        e.1.utf8ByteSize ≤ owner.1.utf8ByteSize := by
  induction aliases generalizing owner with
  | nil => cases h
  | cons e rest ih =>
    rw [aliasOwner?] at h
    split at h
    next other project found =>
      obtain ⟨member, under, longest⟩ := ih found
      split at h
      next longer =>
        cases h
        rw [Bool.and_eq_true, decide_eq_true_eq] at longer
        refine ⟨List.mem_cons_self, longer.1, fun d inside above => ?_⟩
        rcases List.mem_cons.1 inside with rfl | later
        · exact le_refl _
        · exact (longest d later above).trans longer.2.le
      next shorter =>
        cases h
        refine ⟨List.mem_cons_of_mem e member, under, fun d inside above => ?_⟩
        rcases List.mem_cons.1 inside with rfl | later
        · simp only [above, Bool.true_and, decide_eq_true_eq, not_lt] at shorter
          exact shorter
        · exact longest d later above
    next nobody =>
      split at h
      next under =>
        cases h
        refine ⟨List.mem_cons_self, under, fun d inside above => ?_⟩
        rcases List.mem_cons.1 inside with rfl | later
        · exact le_refl _
        · rw [aliasOwner?_eq_none nobody d later] at above
          cases above
      next => cases h

/-- An owner owns its own alias: what lies above the alias lies above the specifier too. -/
theorem aliasOwner?_self {specifier : String} {aliases : List (String × String)}
    {owner : String × String} (h : aliasOwner? specifier aliases = some owner) :
    aliasOwner? owner.1 aliases = some owner := by
  have under := (aliasOwner?_spec h).2.1
  induction aliases generalizing owner with
  | nil => cases h
  | cons e rest ih =>
    rw [aliasOwner?] at h
    split at h
    next other project found =>
      split at h
      next longer =>
        cases h
        rw [Bool.and_eq_true, decide_eq_true_eq] at longer
        rw [aliasOwner?]
        cases later : aliasOwner? e.1 rest with
        | none => simp [isUnderAlias_refl]
        | some next =>
          obtain ⟨member, above, -⟩ := aliasOwner?_spec later
          have bound := (aliasOwner?_spec found).2.2 next member (isUnderAlias_trans above longer.1)
          simp [isUnderAlias_refl, lt_of_le_of_lt bound longer.2]
      next =>
        cases h
        have here := ih found (aliasOwner?_spec found).2.1
        have notLonger :
            (isUnderAlias e.1 other && decide (other.utf8ByteSize < e.1.utf8ByteSize)) = false := by
          rw [Bool.and_eq_false_imp, decide_eq_false_iff_not, not_lt]
          exact isUnderAlias_size
        rw [aliasOwner?, here]
        simp [notLonger]
    next nobody =>
      split at h
      next =>
        cases h
        rw [aliasOwner?]
        cases later : aliasOwner? e.1 rest with
        | none => simp [isUnderAlias_refl]
        | some next =>
          obtain ⟨member, above, -⟩ := aliasOwner?_spec later
          have outside := aliasOwner?_eq_none nobody next member
          rw [isUnderAlias_trans above under] at outside
          cases outside
      next => cases h

/-! ## The graph of the files in view -/

/-- A graph with more pairs, all new ones between two projects and to the owner of a specifier. -/
structure Grows (aliases : List (String × String)) (g g' : Graph) : Prop where
  keeps : ∀ e ∈ g.pairs, e ∈ g'.pairs
  owned : ∀ e ∈ g'.pairs, e ∈ g.pairs ∨
    (e.1 ≠ e.2 ∧ ∃ specifier name, aliasOwner? specifier aliases = some (name, e.2))

theorem Grows.refl (aliases : List (String × String)) (g : Graph) : Grows aliases g g :=
  ⟨fun _ member => member, fun _ member => .inl member⟩

theorem Grows.trans {aliases : List (String × String)} {g g' g'' : Graph}
    (first : Grows aliases g g') (second : Grows aliases g' g'') : Grows aliases g g'' := by
  refine ⟨fun e member => second.keeps e (first.keeps e member), fun e member => ?_⟩
  rcases second.owned e member with old | new
  · exact first.owned e old
  · exact .inr new

/-- The pairs that the owners of some specifiers give a project. -/
theorem mem_foldl_addDependency {g : Graph} {project : String} {owners : List (String × String)}
    {e : String × String} :
    e ∈ (owners.foldl (fun g o => g.addDependency project o.2) g).pairs ↔
      e ∈ g.pairs ∨ ∃ o ∈ owners, project ≠ o.2 ∧ e = (project, o.2) :=
  (Graph.gains_foldl (fun g o => g.gains_addDependency project o.2) owners g).pairs e

section Jobs

variable {σ : Type} {perform : {β : Type} → FileOp β → σ → β × σ} {stands : σ → Plain → Prop}
  {v : Plain} {f : Finder} {hidden : String → Prop} {fit : Plain → String → Prop}
  {aliases : List (String × String)}

open Job (Does Answers)

/-- Each specifier of a file that has an owner other than the project gives a pair. -/
def HasEdges (f : Finder) (v : Plain) (aliases : List (String × String)) (project : String)
    (g : Graph) (path : String) : Prop :=
  ∀ o ∈ v.tree.specifiers f path, ∀ owner, aliasOwner? o.value aliases = some owner →
    project ≠ owner.2 →
    (project, owner.2) ∈ g.pairs

theorem does_addFiles (answers : Answers @perform stands f hidden fit) (project : String)
    (files : List String) (g : Graph) :
    Does @perform stands (addFiles aliases project g files) v fun g' v' =>
      v' = v ∧ Grows aliases g g' ∧ ∀ path ∈ files, ¬ hidden path →
        HasEdges f v aliases project g' path := by
  induction files generalizing g with
  | nil => exact Job.does_pure ⟨rfl, .refl aliases g, by simp⟩
  | cons file rest ih =>
    refine (Job.does_specifiers answers file).bind ?_
    rintro found v ⟨rfl, answer⟩
    refine (ih _).mono fun g' w ⟨same, grows, later⟩ => ⟨same, ?_, fun path member visible => ?_⟩
    · refine .trans
        ⟨fun e member => mem_foldl_addDependency.2 (.inl member), fun e member => ?_⟩ grows
      rcases mem_foldl_addDependency.1 member with old | ⟨owner, among, differs, rfl⟩
      · exact .inl old
      · obtain ⟨o, -, owned⟩ := List.mem_filterMap.1 among
        exact .inr ⟨differs, o.value, owner.1, owned⟩
    · rcases List.mem_cons.1 member with rfl | tail
      · intro o inside owner owned differs
        rw [← answer visible] at inside
        have new : owner ∈ found.filterMap fun o => aliasOwner? o.value aliases :=
          List.mem_filterMap.2 ⟨o, inside, owned⟩
        exact grows.keeps _ (mem_foldl_addDependency.2 (.inr ⟨owner, new, differs, rfl⟩))
      · exact later path tail visible

theorem grows_addProject (aliases : List (String × String)) (g : Graph) (name : String) :
    Grows aliases g (g.addProject name).2 := by
  constructor
  · intro e member
    rwa [Graph.pairs_addProject]
  · intro e member
    rw [Graph.pairs_addProject] at member
    exact .inl member

/-- The files that are due give their projects all the pairs they show. -/
theorem does_addProjects {due : String → String → Prop}
    (presents : Job.Presents @perform stands f hidden fit v due) (projects : List Project)
    (g : Graph) :
    Does @perform stands (addProjects aliases g projects) v fun g' v' =>
      v' = v ∧ Grows aliases g g' ∧
        ∀ p ∈ projects, ∀ path, due p.root path → HasEdges f v aliases p.name g' path := by
  induction projects generalizing g with
  | nil => exact Job.does_pure ⟨rfl, .refl aliases g, by simp⟩
  | cons p rest ih =>
    refine (presents.lists p.root).bind ?_
    rintro files v ⟨rfl, listed⟩
    refine (does_addFiles presents.answers p.name files _).bind ?_
    rintro g' v ⟨rfl, grows, here⟩
    refine (ih g').mono fun g'' w ⟨same, grows', later⟩ =>
      ⟨same, ((grows_addProject aliases g p.name).trans grows).trans grows',
        fun q member path isDue => ?_⟩
    rcases List.mem_cons.1 member with rfl | tail
    · intro o occurs owner owned differs
      exact grows'.keeps _
        (here path (listed path isDue) (presents.visible isDue) o occurs owner owned differs)
    · exact later q tail path isDue

end Jobs
end Rehome.Dependencies
