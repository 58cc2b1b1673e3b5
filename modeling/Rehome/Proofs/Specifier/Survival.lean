import Rehome.Proofs.Specifier.Revisions

/-!
# How specifiers come through a change

A change gives some specifiers other values, removes some, and may add others after them. Where the
parser finds first what a change left, the specifiers that are not chosen come through with their
values and in their order.
-/
namespace Rehome.Specifier

/-- How values come through a change: those that are safe stay, each of the others may get another
value or go, and values may be added after all of them. -/
inductive Survive (safe : String → Prop) : List String → List String → Prop
  | added (new : List String) : Survive safe [] new
  | kept {old new : List String} (value : String) (rest : Survive safe old new) :
      Survive safe (value :: old) (value :: new)
  | changed {old new : List String} {value : String} (other : String) (loose : ¬ safe value)
      (rest : Survive safe old new) : Survive safe (value :: old) (other :: new)
  | removed {old new : List String} {value : String} (loose : ¬ safe value)
      (rest : Survive safe old new) : Survive safe (value :: old) new

namespace Survive

variable {safe : String → Prop} {old mid new : List String}

theorem of_front (h : old <+: new) : Survive safe old new := by
  obtain ⟨tail, rfl⟩ := h
  induction old with
  | nil => exact .added tail
  | cons value rest ih => exact .kept value ih

theorem trans (first : Survive safe old mid) (second : Survive safe mid new) :
    Survive safe old new := by
  induction first generalizing new with
  | added mid => exact .added new
  | kept value rest ih =>
    cases second with
    | kept _ later => exact .kept value (ih later)
    | changed other loose later => exact .changed other loose (ih later)
    | removed loose later => exact .removed loose (ih later)
  | changed other loose rest ih =>
    cases second with
    | kept _ later => exact .changed other loose (ih later)
    | changed last _ later => exact .changed last loose (ih later)
    | removed _ later => exact .removed loose (ih later)
  | removed loose rest ih => exact .removed loose (ih second)

/-- Fewer values may be safe. -/
theorem mono {safe' : String → Prop} (h : Survive safe old new)
    (stronger : ∀ value, safe' value → safe value) : Survive safe' old new := by
  induction h with
  | added new => exact .added new
  | kept value rest ih => exact .kept value ih
  | changed other loose rest ih => exact .changed other (mt (stronger _) loose) ih
  | removed loose rest ih => exact .removed (mt (stronger _) loose) ih

/-- What is left, if only what is not safe gets other values or goes. -/
theorem of_left {c : Revision} {found : List Occurrence}
    (only : ∀ o ∈ found, c.keeps o = false ∨ c.turn o.value ≠ o.value → ¬ safe o.value) :
    Survive safe (found.map (·.value)) (c.left found) := by
  induction found with
  | nil => exact .added []
  | cons o rest ih =>
    have later := ih fun other member => only other (List.mem_cons_of_mem o member)
    have loose := only o List.mem_cons_self
    unfold Revision.left at later ⊢
    cases stays : c.keeps o with
    | true =>
      rw [List.filter_cons_of_pos stays, List.map_cons, List.map_cons]
      by_cases same : c.turn o.value = o.value
      · rw [same]
        exact .kept o.value later
      · exact .changed _ (loose (.inr same)) later
    | false =>
      rw [List.filter_cons_of_neg (by simp [stays])]
      exact .removed (loose (.inl stays)) later

/-- How the values of a text come through a revision that the parser follows. -/
theorem of_findsFirst {f : Finder} {path text updated : String} {c : Revision}
    (first : f.FindsFirst path text c)
    (only : ∀ o ∈ f.occurrences path text, c.keeps o = false ∨ c.turn o.value ≠ o.value →
      ¬ safe o.value)
    (made : c.revise? (f.occurrences path text) text = some updated) :
    Survive safe (f.values path text) (f.values path updated) :=
  (of_left only).trans (of_front (first updated made))

end Survive

end Rehome.Specifier
