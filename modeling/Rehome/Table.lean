/-!
# Tables

A table gives names to values. Its entries stand in the order of their names, so two tables with the
same contents are equal, and walking through one goes in that order.
-/
namespace Rehome

/-- Entries with strictly increasing names. -/
structure Table (α : Type) where
  entries : List (String × α)
  ordered : entries.Pairwise (fun a b => a.1 < b.1)

namespace Table

variable {α : Type}

def empty : Table α := ⟨[], .nil⟩

instance : Inhabited (Table α) := ⟨empty⟩

/-- Looks a name up among entries. -/
def lookup (name : String) : List (String × α) → Option α
  | [] => none
  | (n, v) :: rest => if n = name then some v else lookup name rest

/-- Puts an entry at its place; an entry of the same name gives way. -/
def place (name : String) (value : α) : List (String × α) → List (String × α)
  | [] => [(name, value)]
  | (n, v) :: rest =>
    if name < n then (name, value) :: (n, v) :: rest
    else if n < name then (n, v) :: place name value rest
    else (name, value) :: rest

theorem mem_place {name : String} {value : α} {l : List (String × α)} {e : String × α}
    (h : e ∈ place name value l) : e = (name, value) ∨ e ∈ l := by
  fun_induction place name value l <;> simp_all <;> grind

theorem place_ordered {name : String} {value : α} {l : List (String × α)}
    (h : l.Pairwise (fun a b => a.1 < b.1)) :
    (place name value l).Pairwise (fun a b => a.1 < b.1) := by
  fun_induction place name value l with
  | case1 => simp
  | case2 n v rest hlt =>
    simp only [List.pairwise_cons, List.mem_cons] at h ⊢
    refine ⟨?_, h⟩
    rintro e (rfl | he)
    · exact hlt
    · exact String.lt_trans hlt (h.1 e he)
  | case3 n v rest hlt hgt ih =>
    simp only [List.pairwise_cons] at h ⊢
    refine ⟨fun e he => ?_, ih h.2⟩
    rcases mem_place he with rfl | he
    · exact hgt
    · exact h.1 e he
  | case4 n v rest hlt hgt =>
    have hn : n = name := by grind
    simp only [List.pairwise_cons] at h ⊢
    exact ⟨fun e he => hn ▸ h.1 e he, h.2⟩

/-- The value of a name. -/
def get? (t : Table α) (name : String) : Option α := lookup name t.entries

def contains (t : Table α) (name : String) : Bool := (t.get? name).isSome

/-- Gives a name a value. -/
def insert (t : Table α) (name : String) (value : α) : Table α :=
  ⟨place name value t.entries, place_ordered t.ordered⟩

/-- Takes a name out of the table. -/
def erase (t : Table α) (name : String) : Table α :=
  ⟨t.entries.filter (fun e => e.1 ≠ name), t.ordered.filter _⟩

/-- The names in order. -/
def names (t : Table α) : List String := t.entries.map (·.1)

/-- The values in the order of their names. -/
def values (t : Table α) : List α := t.entries.map (·.2)

def size (t : Table α) : Nat := t.entries.length

/-- The table of some entries; of two with the same name the later one stays. -/
def ofList (l : List (String × α)) : Table α :=
  l.foldl (fun t e => t.insert e.1 e.2) empty

/-- Changes every value. -/
def map {β : Type} (f : String → α → β) (t : Table α) : Table β :=
  ⟨t.entries.map fun e => (e.1, f e.1 e.2), by
    rw [List.pairwise_map]
    exact t.ordered⟩

theorem lookup_place (name other : String) (value : α) (l : List (String × α)) :
    lookup other (place name value l) = if name = other then some value else lookup other l := by
  fun_induction place name value l with
  | case1 => rfl
  | case2 n v rest hlt => rfl
  | case3 n v rest hlt hgt ih =>
    simp only [lookup, ih]
    split <;> split <;> simp_all
  | case4 n v rest hlt hgt =>
    have hn : n = name := by grind
    subst hn
    simp only [lookup]
    split <;> simp_all

@[simp] theorem get?_empty (name : String) : (empty : Table α).get? name = none := rfl

@[simp] theorem get?_insert (t : Table α) (name other : String) (value : α) :
    (t.insert name value).get? other = if name = other then some value else t.get? other :=
  lookup_place name other value t.entries

theorem lookup_filter (name other : String) (l : List (String × α)) :
    lookup other (l.filter fun e => e.1 ≠ name) = if name = other then none else lookup other l := by
  induction l with
  | nil => simp [lookup]
  | cons e l ih => grind [lookup]

@[simp] theorem get?_erase (t : Table α) (name other : String) :
    (t.erase name).get? other = if name = other then none else t.get? other :=
  lookup_filter name other t.entries

end Table
end Rehome
