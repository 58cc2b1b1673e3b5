import Rehome.Proofs.Specifier.Pieces
import Rehome.Proofs.Specifier.Revisions

/-!
# Literals in their places

A text is woven from literals that hold specifiers and the characters between them. Replacing
specifiers puts other literals into the same places. A parser lays a text out if it finds the
literals there, also after others were put into their places.
-/
namespace Rehome.Specifier

open Text (width)

/-- A literal of a text, with the characters between it and the literal before. -/
structure Slot where
  before : List Char
  literal : List Char
  value : String
  quote : Quote

namespace Slot

/-- The text of slots and of what comes after them. -/
def weave (slots : List Slot) (tail : List Char) : List Char :=
  slots.flatMap (fun slot => slot.before ++ slot.literal) ++ tail

/-- Occurrences that stand in the slots of a text, the first of which starts at byte `start`. -/
inductive Fills : Nat → List Slot → List Occurrence → Prop
  | nil (start : Nat) : Fills start [] []
  | cons {start : Nat} {slot : Slot} {slots : List Slot} {o : Occurrence} {found : List Occurrence}
      (value : o.value = slot.value) (quote : o.quote = slot.quote)
      (literal : o.literal =
        ⟨start + width slot.before, start + width slot.before + width slot.literal⟩)
      (rest : Fills (start + width slot.before + width slot.literal) slots found) :
      Fills start (slot :: slots) (o :: found)

/-- A slot with the literal for another value in its place. -/
def refill (slot : Slot) (quote : Quote) (value : String) : Slot :=
  { slot with literal := quote.literal value.toList, value, quote }

/-- One slot is another one, or that one with the literal for another value that can be written. -/
def Becomes (fit : String → Prop) (slot slot' : Slot) : Prop :=
  slot' = slot ∨ ∃ quote value, fit value ∧ slot' = slot.refill quote value

section

variable {fit : String → Prop} (quote? : Option Quote) (chosen : String → Bool)
  (change : String → String)

/-- What replacing specifiers makes of a slot. -/
def replaced (slot : Slot) : Slot :=
  if chosen slot.value = true ∧ change slot.value ≠ slot.value then
    slot.refill (quote?.getD slot.quote) (change slot.value)
  else slot

/-- The slot as a piece of an edited text. -/
def piece (slot : Slot) : Piece where
  before := slot.before
  old := slot.literal
  new? :=
    if chosen slot.value = true ∧ change slot.value ≠ slot.value then
      some ((quote?.getD slot.quote).literal (change slot.value).toList)
    else none

theorem becomes_replaced {slot : Slot}
    (fits : chosen slot.value = true → fit (change slot.value)) :
    Becomes fit slot (slot.replaced quote? chosen change) := by
  unfold replaced
  split
  next picked => exact .inr ⟨_, _, fits picked.1, rfl⟩
  next => exact .inl rfl

theorem forall_becomes_replaced {slots : List Slot}
    (fits : ∀ slot ∈ slots, chosen slot.value = true → fit (change slot.value)) :
    List.Forall₂ (Becomes fit) slots (slots.map (replaced quote? chosen change)) := by
  rw [List.forall₂_map_right_iff]
  exact List.forall₂_same.2 fun slot member =>
    becomes_replaced quote? chosen change (fits slot member)

theorem source_pieces (slots : List Slot) (tail : List Char) :
    Piece.source (slots.map (piece quote? chosen change)) tail = weave slots tail := by
  simp [Piece.source, weave, List.flatMap_map, piece]

theorem result_pieces (slots : List Slot) (tail : List Char) :
    Piece.result (slots.map (piece quote? chosen change)) tail =
      weave (slots.map (replaced quote? chosen change)) tail := by
  unfold Piece.result weave
  rw [List.flatMap_map, List.flatMap_map]
  congr 2
  funext slot
  unfold piece replaced
  split <;> rfl

variable {quote? chosen change}

/-- The edits that replace specifiers are those of the pieces. -/
theorem Fills.edits {start : Nat} {slots : List Slot} {found : List Occurrence}
    (h : Fills start slots found) :
    ((found.filter (chosen ·.value)).filterMap fun o =>
      if change o.value = o.value then none
      else some (⟨o.literal, (quote?.getD o.quote).literal (change o.value).toList⟩ : Edit)) =
        Piece.edits start (slots.map (piece quote? chosen change)) := by
  induction h with
  | nil => rfl
  | @cons start slot slots o found value quote literal rest ih =>
    rw [List.map_cons, Piece.edits]
    change _ = _ ++ Piece.edits (start + width slot.before + width slot.literal) _
    rw [← ih]
    by_cases picked : chosen slot.value = true
    · by_cases same : change slot.value = slot.value
      · simp [piece, value, picked, same]
      · simp [piece, value, quote, literal, picked, same]
    · simp [piece, value, picked]

/-- Replacing specifiers puts the new literals into the slots. -/
theorem Fills.replace {slots : List Slot} {found : List Occurrence} (h : Fills 0 slots found)
    (tail : List Char) :
    (replace? found (weave slots tail) chosen change).getD (weave slots tail) =
      weave (slots.map (replaced (dominantQuote? found) chosen change)) tail := by
  rw [← result_pieces, ← Piece.applyAll_edits, source_pieces, ← h.edits]
  simp only [replace?]
  split
  next empty =>
    rw [List.isEmpty_iff] at empty
    rw [empty]
    simp [Edit.applyAll, sortBy, Edit.applyFrom, Text.dropBytes?]
  next => rfl

end

theorem Fills.values {start : Nat} {slots : List Slot} {found : List Occurrence}
    (h : Fills start slots found) :
    found.map (·.value) = slots.map (·.value) := by
  induction h with
  | nil => rfl
  | cons value quote literal rest ih => rw [List.map_cons, List.map_cons, value, ih]

theorem Fills.quotes {start : Nat} {slots : List Slot} {found : List Occurrence}
    (h : Fills start slots found) :
    found.map (·.quote) = slots.map (·.quote) := by
  induction h with
  | nil => rfl
  | cons value quote literal rest ih => rw [List.map_cons, List.map_cons, quote, ih]

end Slot

/-- A text that a parser lays out: it finds the literals in their places, also after literals for
fit values were put there, and a literal opens with its quote. -/
structure Finder.LaysOut (f : Finder) (fit : String → Prop) (path : String) (text : String)
    (slots : List Slot) (tail : List Char) : Prop where
  woven : text.toList = Slot.weave slots tail
  quoted : ∀ slot ∈ slots, slot.literal.head? = some slot.quote.toChar
  found : ∀ slots', List.Forall₂ (Slot.Becomes fit) slots slots' →
    Slot.Fills 0 slots' (f.occurrences path (String.ofList (Slot.weave slots' tail)))

/-- A parser that lays every text out. -/
def Finder.Relays (f : Finder) (fit : String → Prop) : Prop :=
  ∀ path text, ∃ slots tail, f.LaysOut fit path text slots tail

namespace Finder.LaysOut

variable {f : Finder} {fit : String → Prop} {path text : String} {slots : List Slot}
  {tail : List Char}

theorem fills (h : f.LaysOut fit path text slots tail) :
    Slot.Fills 0 slots (f.occurrences path text) := by
  have same := h.found slots (List.forall₂_same.2 fun slot _ => .inl rfl)
  rwa [← h.woven, String.ofList_toList] at same

theorem values (h : f.LaysOut fit path text slots tail) : f.values path text = slots.map (·.value) :=
  h.fills.values

/-- Replacing specifiers leaves a text with the new literals in the slots. -/
theorem replace (h : f.LaysOut fit path text slots tail) (chosen : String → Bool)
    (change : String → String) :
    (replace? (f.occurrences path text) text.toList chosen change).getD text.toList =
      Slot.weave (slots.map (Slot.replaced (dominantQuote? (f.occurrences path text)) chosen
        change)) tail := by
  rw [h.woven]
  exact h.fills.replace tail

end Finder.LaysOut

end Rehome.Specifier
