import Rehome.Names
import Rehome.Table
import Mathlib.Data.String.Basic
import Mathlib.Data.List.Sort

/-!
# Names in order and tables

A strictly increasing list is determined by its members, and a table by what it answers. Inserting
and erasing commute with choosing names, which is what lets a list of chosen names be corrected
instead of being made again.
-/
namespace Rehome

section

variable {α : Type} (ahead : α → α → Bool)

theorem insertBy_eq_orderedInsert (a : α) (l : List α) :
    insertBy ahead a l = l.orderedInsert (fun a b => ahead a b = true) a := by
  induction l with
  | nil => rfl
  | cons b rest ih => rw [insertBy, List.orderedInsert_cons, ih]

theorem sortBy_eq_insertionSort (l : List α) : sortBy ahead l = l.insertionSort
    (fun a b => ahead a b = true) := by
  induction l with
  | nil => rfl
  | cons a rest ih => rw [sortBy, ih, insertBy_eq_orderedInsert, List.insertionSort_cons]

theorem sortBy_perm (l : List α) : (sortBy ahead l).Perm l := by
  rw [sortBy_eq_insertionSort]
  exact List.perm_insertionSort _ l

/-- Sorting by a key puts the keys in order. -/
theorem sortBy_key_pairwise {κ : Type} [LinearOrder κ] (key : α → κ) (l : List α) :
    (sortBy (fun a b => key a ≤ key b) l).Pairwise fun a b => key a ≤ key b := by
  have : IsTrans α fun a b => decide (key a ≤ key b) = true :=
    ⟨fun a b c => by simpa using le_trans⟩
  have : Std.Total fun a b => decide (key a ≤ key b) = true :=
    ⟨fun a b => by simpa using le_total (key a) (key b)⟩
  rw [sortBy_eq_insertionSort]
  exact (List.pairwise_insertionSort _ l).imp of_decide_eq_true

end

namespace Names

/-- An increasing list holds each name once. -/
theorem nodup_of_increasing {l : List String} (increasing : l.Pairwise (· < ·)) : l.Nodup :=
  increasing.imp fun less => ne_of_lt less

theorem eq_of_increasing {l m : List String} (left : l.Pairwise (· < ·))
    (right : m.Pairwise (· < ·)) (same : ∀ name, name ∈ l ↔ name ∈ m) : l = m := by
  have perm : l.Perm m :=
    (List.perm_ext_iff_of_nodup (nodup_of_increasing left) (nodup_of_increasing right)).2 same
  exact perm.eq_of_pairwise (fun _ _ _ _ less greater => absurd greater (lt_asymm less)) left right

theorem insert_of_mem {name : String} {l : List String} (increasing : l.Pairwise (· < ·))
    (member : name ∈ l) : insert name l = l :=
  eq_of_increasing (insert_ordered increasing) increasing fun other => by
    rw [mem_insert]
    exact ⟨fun h => h.elim (fun equal => equal ▸ member) id, .inr⟩

/-- Choosing names after an insertion is inserting a chosen name. -/
theorem filter_insert {name : String} {l : List String} (increasing : l.Pairwise (· < ·))
    (chosen : String → Bool) :
    (insert name l).filter chosen =
      if chosen name then insert name (l.filter chosen) else l.filter chosen := by
  have ordered := increasing.filter chosen
  split
  next yes =>
    refine eq_of_increasing ((insert_ordered increasing).filter _) (insert_ordered ordered)
      fun other => ?_
    simp only [List.mem_filter, mem_insert]
    exact ⟨fun ⟨h, c⟩ => h.imp_right (⟨·, c⟩), fun h => h.elim (fun e => ⟨.inl e, e ▸ yes⟩) fun h =>
      ⟨.inr h.1, h.2⟩⟩
  next no =>
    refine eq_of_increasing ((insert_ordered increasing).filter _) ordered fun other => ?_
    simp only [List.mem_filter, mem_insert]
    exact ⟨fun ⟨h, c⟩ => ⟨h.resolve_left fun e => no (e ▸ c), c⟩, fun h => ⟨.inr h.1, h.2⟩⟩

theorem erase_eq_filter {name : String} {l : List String} (increasing : l.Pairwise (· < ·)) :
    erase name l = l.filter (· ≠ name) := by
  unfold erase
  rw [(nodup_of_increasing increasing).erase_eq_filter]
  congr 1
  funext other
  by_cases equal : other = name <;> simp [equal]

theorem erase_ordered {name : String} {l : List String} (increasing : l.Pairwise (· < ·)) :
    (erase name l).Pairwise (· < ·) := increasing.sublist List.erase_sublist

theorem foldl_insert (l found : List String) (increasing : found.Pairwise (· < ·)) :
    (l.foldl (fun l name => insert name l) found).Pairwise (· < ·) ∧
      ∀ name, name ∈ l.foldl (fun l name => insert name l) found ↔ name ∈ found ∨ name ∈ l := by
  induction l generalizing found with
  | nil => exact ⟨increasing, by simp⟩
  | cons n l ih =>
    obtain ⟨ordered, members⟩ := ih (insert n found) (insert_ordered increasing)
    refine ⟨ordered, fun name => ?_⟩
    rw [List.foldl_cons, members, mem_insert, List.mem_cons]
    tauto

theorem ofList_ordered (l : List String) : (ofList l).Pairwise (· < ·) :=
  (foldl_insert l [] .nil).1

@[simp] theorem mem_ofList {name : String} {l : List String} : name ∈ ofList l ↔ name ∈ l := by
  unfold ofList
  simpa using (foldl_insert l [] .nil).2 name

/-- Sorting names that are all different gives an increasing list of the same names. -/
theorem sort_ordered {l : List String} (distinct : l.Nodup) : (sort l).Pairwise (· < ·) := by
  have sorted : (sort l).Pairwise (· ≤ ·) := sortBy_key_pairwise id l
  have nodup : (sort l).Nodup := (sortBy_perm _ l).nodup_iff.2 distinct
  exact (sorted.and nodup).imp fun ⟨le, ne⟩ => lt_of_le_of_ne le ne

@[simp] theorem mem_sort {name : String} {l : List String} : name ∈ sort l ↔ name ∈ l :=
  (sortBy_perm _ l).mem_iff

end Names

namespace Table

variable {α : Type}

theorem names_ordered (t : Table α) : t.names.Pairwise (· < ·) := by
  unfold names
  rw [List.pairwise_map]
  exact t.ordered

theorem isSome_lookup (name : String) (l : List (String × α)) :
    (lookup name l).isSome ↔ name ∈ l.map (·.1) := by
  induction l with
  | nil => simp [lookup]
  | cons e l ih =>
    by_cases equal : e.1 = name
    · simp [lookup, equal]
    · simp [lookup, equal, ih, Ne.symm equal]

theorem mem_names {t : Table α} {name : String} : name ∈ t.names ↔ (t.get? name).isSome :=
  (isSome_lookup name t.entries).symm

theorem mem_names_iff_contains {t : Table α} {name : String} :
    name ∈ t.names ↔ t.contains name = true :=
  mem_names

theorem map_place (name : String) (value : α) (l : List (String × α)) :
    (place name value l).map (·.1) = Names.insert name (l.map (·.1)) := by
  fun_induction place name value l with
  | case1 => rfl
  | case2 n v rest less => simp [Names.insert, less]
  | case3 n v rest notLess greater ih => simp [Names.insert, notLess, greater, ih]
  | case4 n v rest notLess notGreater =>
    have equal : name = n := le_antisymm (not_lt.1 notGreater) (not_lt.1 notLess)
    simp [Names.insert, equal]

theorem names_insert (t : Table α) (name : String) (value : α) :
    (t.insert name value).names = Names.insert name t.names := map_place name value t.entries

theorem names_erase (t : Table α) (name : String) :
    (t.erase name).names = t.names.filter (· ≠ name) := by
  simp only [names, erase, List.filter_map, Function.comp_def]

@[simp] theorem contains_insert (t : Table α) (name other : String) (value : α) :
    (t.insert name value).contains other = (decide (name = other) || t.contains other) := by
  by_cases equal : name = other <;> simp [contains, equal]

theorem lookup_map {β : Type} (f : String → α → β) (name : String) (l : List (String × α)) :
    lookup name (l.map fun e => (e.1, f e.1 e.2)) = (lookup name l).map (f name) := by
  induction l with
  | nil => rfl
  | cons e l ih =>
    by_cases equal : e.1 = name
    · simp [lookup, equal]
    · simp [lookup, equal, ih]

@[simp] theorem get?_map {β : Type} (f : String → α → β) (t : Table α) (name : String) :
    (t.map f).get? name = (t.get? name).map (f name) := lookup_map f name t.entries

theorem lookup_eq_none_of_lt {name : String} {l : List (String × α)} (less : ∀ e ∈ l, name < e.1) :
    lookup name l = none := by
  induction l with
  | nil => rfl
  | cons e l ih =>
    have differs : e.1 ≠ name := ne_of_gt (less e (by simp))
    simp [lookup, differs, ih fun e' member => less e' (by simp [member])]

/-- Entries in order are determined by the answers they give. -/
theorem entries_eq_of_lookup {l m : List (String × α)}
    (left : l.Pairwise (fun a b => a.1 < b.1)) (right : m.Pairwise (fun a b => a.1 < b.1))
    (same : ∀ name, lookup name l = lookup name m) : l = m := by
  induction l generalizing m with
  | nil =>
    cases m with
    | nil => rfl
    | cons e m => simpa [lookup] using same e.1
  | cons e l ih =>
    cases m with
    | nil => simpa [lookup] using same e.1
    | cons d m =>
      obtain ⟨firstL, restL⟩ := List.pairwise_cons.1 left
      obtain ⟨firstM, restM⟩ := List.pairwise_cons.1 right
      have names : e.1 = d.1 := by
        rcases lt_trichotomy e.1 d.1 with less | equal | greater
        · have absent : lookup e.1 (d :: m) = none := lookup_eq_none_of_lt fun x member =>
            (List.mem_cons.1 member).elim (fun h => h ▸ less) fun h => less.trans (firstM x h)
          have found := (same e.1).trans absent
          simp [lookup] at found
        · exact equal
        · have absent : lookup d.1 (e :: l) = none := lookup_eq_none_of_lt fun x member =>
            (List.mem_cons.1 member).elim (fun h => h ▸ greater) fun h => greater.trans (firstL x h)
          have found := (same d.1).symm.trans absent
          simp [lookup] at found
      have values : e.2 = d.2 := by simpa [lookup, names] using same e.1
      have rest : l = m := by
        refine ih restL restM fun name => ?_
        by_cases equal : e.1 = name
        · rw [lookup_eq_none_of_lt fun x member => equal ▸ firstL x member,
            lookup_eq_none_of_lt fun x member => equal ▸ names ▸ firstM x member]
        · simpa [lookup, equal, names ▸ equal] using same name
      rw [rest, Prod.ext names values]

/-- Tables that answer alike are the same. -/
theorem ext_get? {t u : Table α} (same : ∀ name, t.get? name = u.get? name) : t = u := by
  have entries := entries_eq_of_lookup t.ordered u.ordered same
  cases t
  cases u
  simpa using entries

end Table
end Rehome
