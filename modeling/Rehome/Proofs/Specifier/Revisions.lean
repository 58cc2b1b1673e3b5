import Rehome.Specifier.Edit
import Rehome.Specifier.Finder
import Mathlib.Data.List.Dedup

/-!
# Revisions of a text

A move revises a text in four ways: it gives specifiers other values, removes re-exports, adds one,
or formats the text. What is known of the specifiers afterwards rests on the parser, which has to
find in the new text what the revision left there. No parser does so for every text, so it is asked
only about the texts that a file comes to have, and the revisions made to them.
-/
namespace Rehome.Specifier

/-- The values of the specifiers of a text. -/
def Finder.values (f : Finder) (path text : String) : List String :=
  (f.occurrences path text).map (·.value)

/-- A way to revise a text. -/
inductive Revision where
  /-- The chosen specifiers get other values. -/
  | replace (chosen : String → Bool) (change : String → String)
  /-- The chosen re-exports go. -/
  | removeExports (chosen : String → Bool)
  /-- A wildcard export is added at the end, unless an export means the same. -/
  | addExport (specifier : String) (same : String → Bool)
  /-- The text is formatted. -/
  | format (shape : String → Option String)

namespace Revision

/-- The revised text; none if the text stays as it is. -/
def revise? (found : List Occurrence) (text : String) : Revision → Option String
  | replace chosen change => (replace? found text.toList chosen change).map String.ofList
  | removeExports chosen => (removeExports? found text.toList chosen).map String.ofList
  | addExport specifier same =>
    let quote := (dominantQuote? found).getD .single
    if found.any fun o => o.kind.isExport && (o.value = specifier || same o.value) then none
    else some (String.ofList (appendLine text.toList (wildcardExport quote specifier)))
  | format shape => shape text

/-- An export is added if none was there. -/
theorem revise?_addExport {found : List Occurrence} {specifier : String} {same : String → Bool}
    {text updated : String} :
    (addExport specifier same).revise? found text = some updated ↔
      (found.any fun o => o.kind.isExport && (o.value = specifier || same o.value)) = false ∧
        updated = String.ofList (appendLine text.toList
          (wildcardExport ((dominantQuote? found).getD .single) specifier)) := by
  simp only [revise?]
  cases found.any fun o => o.kind.isExport && (o.value = specifier || same o.value) with
  | true => simp
  | false => simp [eq_comm]

/-- Whether a specifier is still there afterwards. -/
def keeps : Revision → Occurrence → Bool
  | removeExports chosen, o => !(o.kind.isExport && chosen o.value)
  | _, _ => true

/-- The value that a specifier has afterwards. -/
def turn : Revision → String → String
  | replace chosen change, value => if chosen value then change value else value
  | _, value => value

/-- The values that are added. -/
def added : Revision → List String
  | addExport specifier _ => [specifier]
  | _ => []

/-- The values that are left of a text, without those that are added. -/
def left (c : Revision) (found : List Occurrence) : List String :=
  (found.filter c.keeps).map fun o => c.turn o.value

/-- A revision that removes nothing leaves what it makes of the values. -/
theorem left_of_keeps {c : Revision} (all : ∀ o, c.keeps o = true) (found : List Occurrence) :
    c.left found = (found.map (·.value)).map c.turn := by
  rw [left, List.filter_eq_self.2 fun o _ => all o, List.map_map]
  rfl

end Revision

/-! ## What a parser finds afterwards -/

section

variable (f : Finder) (path text : String) (c : Revision)

/-- Afterwards no value is found but those that were left or added. -/
def Finder.FindsOnly : Prop :=
  ∀ updated ∈ c.revise? (f.occurrences path text) text, ∀ value ∈ f.values path updated,
    value ∈ c.added ∨ value ∈ (f.values path text).map c.turn

/-- Afterwards all that was left is found, in the same order and before anything else. -/
def Finder.FindsFirst : Prop :=
  ∀ updated ∈ c.revise? (f.occurrences path text) text,
    c.left (f.occurrences path text) <+: f.values path updated

/-- Afterwards exactly what was left and added is found. -/
def Finder.FindsExactly : Prop :=
  ∀ updated ∈ c.revise? (f.occurrences path text) text,
    f.values path updated = c.left (f.occurrences path text) ++ c.added

instance : Decidable (f.FindsOnly path text c) :=
  inferInstanceAs (Decidable (∀ updated ∈ c.revise? (f.occurrences path text) text,
    ∀ value ∈ f.values path updated, value ∈ c.added ∨ value ∈ (f.values path text).map c.turn))

instance : Decidable (f.FindsFirst path text c) :=
  inferInstanceAs (Decidable (∀ updated ∈ c.revise? (f.occurrences path text) text,
    c.left (f.occurrences path text) <+: f.values path updated))

instance : Decidable (f.FindsExactly path text c) :=
  inferInstanceAs (Decidable (∀ updated ∈ c.revise? (f.occurrences path text) text,
    f.values path updated = c.left (f.occurrences path text) ++ c.added))

end

variable {f : Finder} {path text : String} {c : Revision}

theorem Revision.left_subset (c : Revision) (found : List Occurrence) :
    c.left found ⊆ (found.map (·.value)).map c.turn := by
  intro value member
  obtain ⟨o, kept, rfl⟩ := List.mem_map.1 member
  exact List.mem_map_of_mem (List.mem_map_of_mem (List.mem_filter.1 kept).1)

/-- A specifier that is found afterwards was added, or comes from one that was there. -/
theorem Finder.FindsOnly.cases {updated : String} {o : Occurrence}
    (only : f.FindsOnly path text c)
    (made : c.revise? (f.occurrences path text) text = some updated)
    (member : o ∈ f.occurrences path updated) :
    o.value ∈ c.added ∨ ∃ old ∈ f.occurrences path text, o.value = c.turn old.value := by
  rcases only updated made o.value (List.mem_map_of_mem member) with new | old
  · exact .inl new
  · obtain ⟨_, before, turned⟩ := List.mem_map.1 old
    obtain ⟨o', inside, rfl⟩ := List.mem_map.1 before
    exact .inr ⟨o', inside, turned.symm⟩

/-! ## The texts that files come to have -/

/-- Which texts files start with, and which revisions they may undergo. -/
structure History where
  starts : (path : String) → List String
  revisions : (path : String) → List Revision

namespace History

/-- The texts that a file may come to have. -/
inductive Version (h : History) (f : Finder) (path : String) : String → Prop
  | start {text : String} (starts : text ∈ h.starts path) : Version h f path text
  | changed {text updated : String} {c : Revision} (before : Version h f path text)
      (member : c ∈ h.revisions path)
      (made : c.revise? (f.occurrences path text) text = some updated) : Version h f path updated

/-- Something holds of every revision that a text of the file may undergo. -/
def Always (h : History) (f : Finder) (path : String) (holds : String → Revision → Prop) : Prop :=
  ∀ text, h.Version f path text → ∀ c ∈ h.revisions path, holds text c

variable {h : History} {holds : String → Revision → Prop}

/-- The texts of a file are among some that no revision leads out of. -/
theorem Version.among {among : String → Prop} (starts : ∀ text ∈ h.starts path, among text)
    (closed : ∀ text, among text → ∀ c ∈ h.revisions path,
      ∀ updated ∈ c.revise? (f.occurrences path text) text, among updated)
    (version : h.Version f path text) : among text := by
  induction version with
  | start here => exact starts _ here
  | changed _ listed made ih => exact closed _ ih _ listed _ made

/-- A file that starts with no text never has one. -/
theorem always_of_no_start (none : h.starts path = []) : h.Always f path holds := by
  intro text version
  have never : False := version.among (by simp [none]) fun _ => False.elim
  exact never.elim

/-! ### Computing the texts -/

/-- The texts that up to `n` revisions lead to. -/
def textsWithin (h : History) (f : Finder) (path : String) : (n : Nat) → List String
  | 0 => h.starts path
  | n + 1 =>
    let texts := h.textsWithin f path n
    (texts ++ texts.flatMap fun text => (h.revisions path).filterMap fun c =>
      c.revise? (f.occurrences path text) text).dedup

/-- No more than `n` revisions lead to a new text, and something holds of all revisions. -/
def Settles (h : History) (f : Finder) (path : String) (n : Nat)
    (holds : String → Revision → Prop) : Prop :=
  ∀ text ∈ h.textsWithin f path n, ∀ c ∈ h.revisions path, holds text c ∧
    ∀ updated ∈ c.revise? (f.occurrences path text) text, updated ∈ h.textsWithin f path n

instance [∀ text c, Decidable (holds text c)] (h : History) (f : Finder) (path : String)
    (n : Nat) : Decidable (h.Settles f path n holds) :=
  inferInstanceAs (Decidable (∀ text ∈ h.textsWithin f path n, ∀ c ∈ h.revisions path,
    holds text c ∧
      ∀ updated ∈ c.revise? (f.occurrences path text) text, updated ∈ h.textsWithin f path n))

theorem starts_subset_textsWithin (n : Nat) : h.starts path ⊆ h.textsWithin f path n := by
  induction n with
  | zero => exact fun _ => id
  | succ n ih =>
    intro text member
    rw [textsWithin, List.mem_dedup]
    exact List.mem_append_left _ (ih member)

theorem Settles.always {n : Nat} (settles : h.Settles f path n holds) :
    h.Always f path holds := by
  intro text version c listed
  have inside : text ∈ h.textsWithin f path n :=
    version.among (starts_subset_textsWithin n) fun text member c listed =>
      (settles text member c listed).2
  exact (settles text inside c listed).1

end History

end Rehome.Specifier
