import Rehome.Tsconfig.Aliases
import Rehome.Proofs.Workspace.Projects
import Mathlib.Data.Prod.Lex

/-!
# The last of the longest

Twice a project is chosen from a list in the order of names: by the length of its alias, and by the
length of its root. Both times a later project wins over an earlier one of the same length, so the
choice is the greatest element when lengths are compared first and names second.
-/
namespace Rehome

section

variable {α : Type} {l : List α} {a : α}

/-- The last one of the elements of the greatest size. -/
def lastLargest (size : α → ℕ) : List α → Option α
  | [] => none
  | a :: rest =>
    match lastLargest size rest with
    | none => some a
    | some b => if size b < size a then some a else some b

theorem lastLargest_eq_none_iff {size : α → ℕ} : lastLargest size l = none ↔ l = [] := by
  cases l with
  | nil => simp [lastLargest]
  | cons a rest =>
    rw [lastLargest]
    split
    next => simp
    next => split <;> simp

variable {size : α → ℕ} {key : α → String}

theorem le_of_lastLargest (ordered : l.Pairwise fun a b => key a < key b)
    (chosen : lastLargest size l = some a) :
    a ∈ l ∧ ∀ b ∈ l, toLex (size b, key b) ≤ toLex (size a, key a) := by
  induction l generalizing a with
  | nil => cases chosen
  | cons c rest ih =>
    obtain ⟨ahead, later⟩ := List.pairwise_cons.1 ordered
    rw [lastLargest] at chosen
    split at chosen
    next none =>
      cases chosen
      simp [lastLargest_eq_none_iff.1 none]
    next b found =>
      obtain ⟨member, greatest⟩ := ih later found
      split at chosen
      next larger =>
        cases chosen
        have less : toLex (size b, key b) < toLex (size c, key c) :=
          Prod.Lex.toLex_lt_toLex.2 (.inl larger)
        refine ⟨List.mem_cons_self, fun d inside => ?_⟩
        rcases List.mem_cons.1 inside with rfl | tail
        · exact le_rfl
        · exact (greatest d tail).trans less.le
      next notLarger =>
        cases chosen
        refine ⟨List.mem_cons_of_mem c member, fun d inside => ?_⟩
        rcases List.mem_cons.1 inside with rfl | tail
        · rw [Prod.Lex.toLex_le_toLex]
          rcases lt_or_eq_of_le (not_lt.1 notLarger) with smaller | equal
          · exact .inl smaller
          · exact .inr ⟨equal, (ahead a member).le⟩
        · exact greatest d tail

/-- The choice is the greatest element by size and then by key. -/
theorem lastLargest_eq_some_iff (ordered : l.Pairwise fun a b => key a < key b) :
    lastLargest size l = some a ↔
      a ∈ l ∧ ∀ b ∈ l, toLex (size b, key b) ≤ toLex (size a, key a) := by
  refine ⟨le_of_lastLargest ordered, fun ⟨member, greatest⟩ => ?_⟩
  cases chosen : lastLargest size l with
  | none =>
    rw [lastLargest_eq_none_iff.1 chosen] at member
    cases member
  | some b =>
    obtain ⟨inside, greatest'⟩ := le_of_lastLargest ordered chosen
    have same : key b = key a := congrArg (fun x => (ofLex x).2)
      (le_antisymm (greatest b inside) (greatest' a member))
    have distinct : (l.map key).Nodup :=
      (List.pairwise_map.2 ordered).imp fun less => ne_of_lt less
    rw [List.inj_on_of_nodup_map distinct inside member same]

end

/-- A project that contains the path, with the longest root and then the last name of all such. -/
def Workspace.IsDeepest (w : Workspace) (path : String) (p : Project) : Prop :=
  p ∈ w.projects ∧ p.contains path = true ∧ ∀ q ∈ w.projects, q.contains path = true →
    q.root.utf8ByteSize < p.root.utf8ByteSize ∨
      q.root.utf8ByteSize = p.root.utf8ByteSize ∧ q.name ≤ p.name

theorem Tsconfig.deepest?_eq_lastLargest (l : List Project) :
    deepest? l = lastLargest (fun p => p.root.utf8ByteSize) l := by
  induction l with
  | nil => rfl
  | cons p rest ih =>
    rw [deepest?, lastLargest, ih]
    cases lastLargest _ rest <;> rfl

theorem Tsconfig.deepest?_eq_some_iff {w : Workspace} {path : String} {p : Project} :
    deepest? (w.projects.filter (·.contains path)) = some p ↔ w.IsDeepest path p := by
  rw [deepest?_eq_lastLargest, lastLargest_eq_some_iff (w.projects_ordered.filter _)]
  simp only [List.mem_filter, Prod.Lex.toLex_le_toLex, and_imp]
  exact and_assoc

namespace Dependencies

open Specifier (isUnderAlias)

theorem aliasOwner?_eq_lastLargest (specifier : String) (aliases : List (String × String)) :
    aliasOwner? specifier aliases =
      lastLargest (fun e => e.1.utf8ByteSize) (aliases.filter (isUnderAlias ·.1 specifier)) := by
  induction aliases with
  | nil => rfl
  | cons e rest ih =>
    rw [aliasOwner?, ih]
    cases under : isUnderAlias e.1 specifier with
    | false =>
      rw [List.filter_cons_of_neg (by simp [under])]
      simp only [Bool.false_and]
      split <;> simp_all
    | true =>
      rw [List.filter_cons_of_pos (by simp [under]), lastLargest]
      simp only [Bool.true_and, decide_eq_true_eq]
      split <;> simp_all

theorem mem_published {w : Workspace} {name project : String} :
    (name, project) ∈ published w ↔
      ∃ p ∈ w.projects, p.name = project ∧ w.alias? p.name = some name := by
  simp only [published, List.mem_filterMap, Option.map_eq_some_iff, Prod.mk.injEq]
  constructor
  · rintro ⟨p, member, _, known, rfl, rfl⟩
    exact ⟨p, member, rfl, known⟩
  · rintro ⟨p, member, rfl, known⟩
    exact ⟨p, member, name, known, rfl, rfl⟩

theorem published_ordered (w : Workspace) : (published w).Pairwise fun a b => a.2 < b.2 := by
  refine w.projects_ordered.filterMap _ fun p q less a first b second => ?_
  obtain ⟨_, -, rfl⟩ := Option.map_eq_some_iff.1 first
  obtain ⟨_, -, rfl⟩ := Option.map_eq_some_iff.1 second
  exact less

end Dependencies
end Rehome
