import Rehome.Proofs.Specifier.Slots

/-!
# Replacing specifiers and back

A text whose literals are written as a replacement would write them gets its old literals back when
the replaced values are replaced in turn. The quotes that most literals have are the same before and
after.
-/
namespace Rehome

namespace Text

theorem append_inj_of_width {xs ys xs' ys' : List Char} (same : xs ++ ys = xs' ++ ys')
    (wide : width xs = width xs') : xs = xs' ∧ ys = ys' := by
  have front := takeBytes?_width xs ys
  have back := dropBytes?_width xs ys
  rw [same, wide] at front back
  rw [takeBytes?_width] at front
  rw [dropBytes?_width] at back
  exact ⟨(Option.some.inj front).symm, (Option.some.inj back).symm⟩

end Text

namespace Specifier

open Text (width)

theorem Quote.toChar_inj {q q' : Quote} (same : q.toChar = q'.toChar) : q = q' := by
  cases q <;> cases q' <;> first | rfl | cases same

theorem countP_single_add_countP_double (found : List Occurrence) :
    found.countP (·.quote = .single) + found.countP (·.quote = .double) = found.length := by
  have other : ∀ o : Occurrence, (decide ¬ decide (o.quote = .single) = true) =
      decide (o.quote = .double) := by
    intro o
    cases o.quote <;> rfl
  rw [List.length_eq_countP_add_countP fun o : Occurrence => decide (o.quote = .single)]
  simp only [other]

/-- Quotes prevail if more than half of the literals have them. -/
theorem dominantQuote?_eq_some_iff {found : List Occurrence} {q : Quote} :
    dominantQuote? found = some q ↔ found.length < 2 * found.countP (·.quote = q) := by
  have parts := countP_single_add_countP_double found
  simp only [dominantQuote?, ← List.countP_eq_length_filter]
  split
  next => cases q <;> simp <;> omega
  next =>
    split
    next => cases q <;> simp <;> omega
    next => cases q <;> simp <;> omega

/-- Only the quotes tell which ones most literals have. -/
theorem dominantQuote?_congr {found found' : List Occurrence}
    (same : found.map (·.quote) = found'.map (·.quote)) :
    dominantQuote? found = dominantQuote? found' := by
  have long : found.length = found'.length := by simpa using congrArg List.length same
  have count : ∀ (q : Quote) (l : List Occurrence),
      l.countP (·.quote = q) = (l.map (·.quote)).countP (· = q) := by
    intro q l
    rw [List.countP_map]
    rfl
  apply Option.ext
  intro q
  rw [dominantQuote?_eq_some_iff, dominantQuote?_eq_some_iff, count, count, same, long]

theorem dominantQuote?_perm {found found' : List Occurrence} (same : found'.Perm found) :
    dominantQuote? found' = dominantQuote? found := by
  apply Option.ext
  intro q
  rw [dominantQuote?_eq_some_iff, dominantQuote?_eq_some_iff, same.countP_eq, same.length_eq]

/-- What replacing specifiers makes of a text. -/
def Finder.rewrite (f : Finder) (path text : String) (chosen : String → Bool)
    (change : String → String) : String :=
  String.ofList ((replace? (f.occurrences path text) text.toList chosen change).getD text.toList)

/-- The literals of the chosen specifiers are written as a replacement would write them. -/
def Finder.InStyle (f : Finder) (path text : String) (chosen : String → Bool) : Prop :=
  ∀ o ∈ f.occurrences path text, chosen o.value = true →
    Text.between? text.toList o.literal.start o.literal.stop =
      some (((dominantQuote? (f.occurrences path text)).getD o.quote).literal o.value.toList)

instance (f : Finder) (path text : String) (chosen : String → Bool) :
    Decidable (f.InStyle path text chosen) :=
  inferInstanceAs (Decidable (∀ o ∈ f.occurrences path text, _ → _))

namespace Slot

/-! ## Slots and occurrences -/

/-- The literal of a slot stands in the text where its occurrence says. -/
theorem Fills.between {front tail : List Char} {slots : List Slot} {found : List Occurrence}
    (h : Fills (width front) slots found) :
    ∀ slot ∈ slots, ∃ o ∈ found, o.value = slot.value ∧ o.quote = slot.quote ∧
      Text.between? (front ++ weave slots tail) o.literal.start o.literal.stop =
        some slot.literal := by
  induction slots generalizing front found with
  | nil => simp
  | cons slot slots ih =>
    cases h with
    | @cons _ _ _ o found value quote literal rest =>
      have whole : front ++ weave (slot :: slots) tail =
          (front ++ slot.before) ++ (slot.literal ++ weave slots tail) := by
        simp [weave]
      intro other member
      rcases List.mem_cons.1 member with rfl | later
      · refine ⟨o, List.mem_cons_self, value, quote, ?_⟩
        rw [whole, literal]
        simpa using Text.between?_width (front ++ other.before) other.literal (weave slots tail)
      · have start : width front + width slot.before + width slot.literal =
            width (front ++ slot.before ++ slot.literal) := by simp [Nat.add_assoc]
        rw [start] at rest
        obtain ⟨o', inside, value', quote', found'⟩ := ih rest other later
        refine ⟨o', List.mem_cons_of_mem o inside, value', quote', ?_⟩
        rw [whole]
        simpa using found'

/-- A text is cut in one way only by the occurrences that stand in it. -/
theorem Fills.unique {start : Nat} {slots slots' : List Slot} {found : List Occurrence}
    {tail tail' : List Char} (h : Fills start slots found) (h' : Fills start slots' found)
    (same : weave slots tail = weave slots' tail') : slots = slots' ∧ tail = tail' := by
  induction h generalizing slots' with
  | nil =>
    cases h'
    exact ⟨rfl, by simpa [weave] using same⟩
  | @cons start slot slots o found value quote literal rest ih =>
    cases h' with
    | @cons _ slot' slots' _ _ value' quote' literal' rest' =>
      have spans := literal.symm.trans literal'
      simp only [Span.mk.injEq] at spans
      have parts : slot.before ++ (slot.literal ++ weave slots tail) =
          slot'.before ++ (slot'.literal ++ weave slots' tail') := by
        simpa [weave] using same
      obtain ⟨before, more⟩ := Text.append_inj_of_width parts (by omega)
      obtain ⟨text, later⟩ := Text.append_inj_of_width more (by omega)
      rw [← before, ← text] at rest'
      obtain ⟨slotsEq, tailEq⟩ := ih rest' later
      refine ⟨?_, tailEq⟩
      rw [slotsEq]
      congr 1
      cases slot
      cases slot'
      simp only at before text value value' quote quote'
      rw [before, text, ← value, value', ← quote, quote']

/-! ## There and back -/

variable {quote? : Option Quote} {chosen chosen' : String → Bool} {change change' : String → String}
  {slot : Slot}

/-- A literal that a replacement would write in the same way has the quotes it would choose. -/
theorem quote_of_literal (quoted : slot.literal.head? = some slot.quote.toChar)
    (written : slot.literal = (quote?.getD slot.quote).literal slot.value.toList) :
    quote?.getD slot.quote = slot.quote := by
  rw [written, Quote.literal, List.cons_append, List.head?_cons] at quoted
  exact Quote.toChar_inj (Option.some.inj quoted)

/-- Replacing a value and putting the old one back leaves the slot as it was. -/
theorem replaced_back (quoted : slot.literal.head? = some slot.quote.toChar)
    (written : chosen slot.value = true →
      slot.literal = (quote?.getD slot.quote).literal slot.value.toList)
    (back : chosen slot.value = true →
      chosen' (change slot.value) = true ∧ change' (change slot.value) = slot.value)
    (stays : chosen slot.value = false → chosen' slot.value = false) :
    (slot.replaced quote? chosen change).quote = slot.quote ∧
      (slot.replaced quote? chosen change).replaced quote? chosen' change' = slot := by
  cases picked : chosen slot.value with
  | false => simp [replaced, picked, stays picked]
  | true =>
    obtain ⟨again, home⟩ := back picked
    by_cases same : change slot.value = slot.value
    · rw [same] at home
      simp [replaced, same, home]
    · have style := quote_of_literal quoted (written picked)
      have literal := written picked
      rw [style] at literal
      simp [replaced, refill, picked, same, again, home, style, Ne.symm same, ← literal]

end Slot

namespace Finder.LaysOut

variable {f : Finder} {fit : String → Prop} {path path' text : String} {slots : List Slot}
  {tail : List Char} {chosen chosen' : String → Bool} {change change' : String → String}

/-- A text that two files show in the same way is laid out alike for both. -/
theorem of_same (h : f.LaysOut fit path text slots tail)
    (relays : f.Relays fit)
    (same : f.occurrences path' text = f.occurrences path text) :
    f.LaysOut fit path' text slots tail := by
  obtain ⟨slots', tail', h'⟩ := relays path' text
  have fills := h'.fills
  rw [same] at fills
  obtain ⟨slotsEq, tailEq⟩ := h.fills.unique fills (h.woven.symm.trans h'.woven)
  rw [slotsEq, tailEq]
  exact h'

theorem rewrite_eq (h : f.LaysOut fit path text slots tail) :
    f.rewrite path text chosen change = String.ofList (Slot.weave (slots.map (Slot.replaced
      (dominantQuote? (f.occurrences path text)) chosen change)) tail) := by
  rw [Finder.rewrite, h.replace]

/-- Replacing specifiers, and replacing them back in a file that shows the text in the same way,
restores the text. -/
theorem restore (h : f.LaysOut fit path text slots tail) (h' : f.LaysOut fit path' text slots tail)
    (style : f.InStyle path text chosen)
    (fits : ∀ value ∈ f.values path text, chosen value = true → fit (change value))
    (back : ∀ value ∈ f.values path text, chosen value = true →
      chosen' (change value) = true ∧ change' (change value) = value)
    (stays : ∀ value ∈ f.values path text, chosen value = false → chosen' value = false) :
    f.rewrite path' (f.rewrite path text chosen change) chosen' change' = text := by
  have held : ∀ slot ∈ slots, slot.value ∈ f.values path text := fun slot member => by
    rw [h.values]
    exact List.mem_map_of_mem member
  have returns : ∀ slot ∈ slots,
      (slot.replaced (dominantQuote? (f.occurrences path text)) chosen change).quote = slot.quote ∧
        (slot.replaced (dominantQuote? (f.occurrences path text)) chosen change).replaced
          (dominantQuote? (f.occurrences path text)) chosen' change' = slot := by
    intro slot member
    apply Slot.replaced_back (h.quoted slot member) _ (back _ (held slot member))
      (stays _ (held slot member))
    intro picked
    obtain ⟨o, inside, value, quote, between⟩ :=
      @Slot.Fills.between [] tail slots _ h.fills slot member
    rw [List.nil_append, ← h.woven, style o inside (value ▸ picked)] at between
    rw [← Option.some.inj between, value, quote]
  have becomes := Slot.forall_becomes_replaced (dominantQuote? (f.occurrences path text)) chosen
    change fun slot member => fits slot.value (held slot member)
  have fills := h'.found _ becomes
  have quotes : dominantQuote? (f.occurrences path' (f.rewrite path text chosen change)) =
      dominantQuote? (f.occurrences path text) := by
    apply dominantQuote?_congr
    rw [h.rewrite_eq, fills.quotes, h.fills.quotes, List.map_map]
    exact List.map_congr_left fun slot member => (returns slot member).1
  have restored : (slots.map (Slot.replaced (dominantQuote? (f.occurrences path text)) chosen
      change)).map (Slot.replaced (dominantQuote? (f.occurrences path text)) chosen' change') =
        slots := by
    rw [List.map_map]
    exact List.map_congr_left (fun slot member => (returns slot member).2) |>.trans (List.map_id _)
  have again := @Slot.Fills.replace chosen' change' _ _ fills tail
  rw [← h.rewrite_eq, quotes, restored, ← h.woven] at again
  have whole : (f.rewrite path text chosen change).toList = Slot.weave (slots.map (Slot.replaced
      (dominantQuote? (f.occurrences path text)) chosen change)) tail := by
    rw [h.rewrite_eq, String.toList_ofList]
  rw [Finder.rewrite, whole, again, String.ofList_toList]

end Finder.LaysOut

end Specifier
end Rehome
