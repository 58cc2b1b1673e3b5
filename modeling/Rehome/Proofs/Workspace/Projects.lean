import Rehome.Job.Dependencies
import Rehome.Proofs.Table
import Rehome.Workspace.Ownership

/-!
# The projects of a workspace

Projects stand in the order of their names, each under its own. So a list of projects in that order
is known by its members, and the alias of a project is published once, under its name.
-/
namespace Rehome.Workspace

variable {w : Workspace}

theorem projects_ordered (w : Workspace) : w.projects.Pairwise (fun p q => p.name < q.name) := by
  unfold projects Table.values
  rw [List.pairwise_map]
  refine w.byName.ordered.imp_of_mem fun left right less => ?_
  rwa [w.named _ left, w.named _ right]

theorem lookup_eq_some_iff {α : Type} {name : String} {value : α} {l : List (String × α)}
    (ordered : l.Pairwise (fun a b => a.1 < b.1)) : Table.lookup name l = some value ↔
    (name, value) ∈ l := by
  induction l with
  | nil => simp [Table.lookup]
  | cons e rest ih =>
    obtain ⟨first, later⟩ := List.pairwise_cons.1 ordered
    rw [Table.lookup, List.mem_cons, Prod.ext_iff]
    split
    next equal =>
      have absent : (name, value) ∉ rest := fun member => by
        have less := first _ member
        rw [equal] at less
        exact lt_irrefl _ less
      simp [absent, equal, eq_comm]
    next differs => simp [Ne.symm differs, ih later]

/-- A project is found under its own name. -/
theorem project?_eq_some_iff {name : String} {p : Project} :
    w.project? name = some p ↔ p ∈ w.projects ∧ p.name = name := by
  unfold project? Table.get? projects Table.values
  rw [lookup_eq_some_iff w.byName.ordered]
  constructor
  · intro member
    exact ⟨List.mem_map.2 ⟨_, member, rfl⟩, w.named _ member⟩
  · rintro ⟨member, rfl⟩
    obtain ⟨e, inside, rfl⟩ := List.mem_map.1 member
    rwa [w.named e inside]

theorem eq_of_name_eq {p q : Project} (left : p ∈ w.projects) (right : q ∈ w.projects)
    (same : p.name = q.name) : p = q :=
  Option.some.inj ((project?_eq_some_iff.2 ⟨left, same⟩).symm.trans
    (project?_eq_some_iff.2 ⟨right, rfl⟩))

/-- Lists of projects in order that have the same members are equal. -/
theorem eq_of_names_increasing {l m : List Project} (left : l.Pairwise (fun p q => p.name < q.name))
    (right : m.Pairwise (fun p q => p.name < q.name)) (same : ∀ p, p ∈ l ↔ p ∈ m) : l = m := by
  have distinct : ∀ {k : List Project}, k.Pairwise (fun p q => p.name < q.name) → k.Nodup := by
    intro k ordered
    apply ordered.imp
    rintro p q less rfl
    exact lt_irrefl _ less
  have perm : l.Perm m := (List.perm_ext_iff_of_nodup (distinct left) (distinct right)).2 same
  exact perm.eq_of_pairwise (fun _ _ _ _ less greater => absurd greater (lt_asymm less)) left right

/-- What is published under a name is the alias of that project. -/
theorem alias_of_published {e : String × String} (member : e ∈ Dependencies.published w) :
    w.alias? e.2 = some e.1 := by
  obtain ⟨p, -, found⟩ := List.mem_filterMap.1 member
  obtain ⟨name, known, rfl⟩ := Option.map_eq_some_iff.1 found
  exact known

end Rehome.Workspace
