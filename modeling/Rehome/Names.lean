import Rehome.Sort

/-!
# Lists of names in order
-/
namespace Rehome.Names

/-- Puts a name at its place in an ordered list that does not hold it yet. -/
def insert (name : String) : List String → List String
  | [] => [name]
  | n :: rest =>
    if name < n then name :: n :: rest
    else if n < name then n :: insert name rest
    else n :: rest

/-- Takes the first of a name out of a list. -/
def erase (name : String) (l : List String) : List String := l.erase name

/-- Names in order, repetitions kept. -/
def sort (l : List String) : List String := sortBy (fun a b => a ≤ b) l

/-- Names in order, each once. -/
def ofList (l : List String) : List String := l.foldl (fun l name => insert name l) []

theorem mem_insert {name other : String} {l : List String} :
    other ∈ insert name l ↔ other = name ∨ other ∈ l := by
  fun_induction insert name l <;> grind

theorem insert_ordered {name : String} {l : List String} (h : l.Pairwise (· < ·)) :
    (insert name l).Pairwise (· < ·) := by
  fun_induction insert name l with
  | case1 => simp
  | case2 n rest hlt =>
    simp only [List.pairwise_cons, List.mem_cons] at h ⊢
    refine ⟨?_, h⟩
    rintro e (rfl | he)
    · exact hlt
    · exact String.lt_trans hlt (h.1 e he)
  | case3 n rest hlt hgt ih =>
    simp only [List.pairwise_cons] at h ⊢
    refine ⟨fun e he => ?_, ih h.2⟩
    rcases mem_insert.1 he with rfl | he
    · exact hgt
    · exact h.1 e he
  | case4 n rest hlt hgt => exact h

end Rehome.Names
