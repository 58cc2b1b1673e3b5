import Rehome.Proofs.Specifier.Reparse
import Rehome.Proofs.Specifier.Restoring

/-!
# Edits that are apart

Edits of ranges that share no byte are all carried out, in whichever order they are given: none starts
before the cursor when its turn comes. The text is cut at the ranges, each gets its new characters,
and what stands between them is copied once. So replacing specifiers exchanges the literals of the
occurrences that get another value, and nothing else.
-/
namespace Rehome.Specifier

open Text (width)

/-! ## Spans that are apart -/

namespace Span

/-- Two spans share no byte. -/
def Apart (a b : Span) : Prop := a.stop ≤ b.start ∨ b.stop ≤ a.start

instance (a b : Span) : Decidable (a.Apart b) := inferInstanceAs (Decidable (_ ∨ _))

theorem Apart.symm {a b : Span} (h : a.Apart b) : b.Apart a := Or.symm h

/-- Spans of a text: none is empty, all lie inside the text and between its characters, and no two of
them share a byte. -/
structure Scattered (text : List Char) (spans : List Span) : Prop where
  filled : ∀ s ∈ spans, s.start < s.stop
  inside : ∀ s ∈ spans, (Text.between? text s.start s.stop).isSome
  apart : spans.Pairwise Apart

instance (text : List Char) (spans : List Span) : Decidable (Scattered text spans) :=
  decidable_of_iff ((∀ s ∈ spans, s.start < s.stop) ∧
      (∀ s ∈ spans, (Text.between? text s.start s.stop).isSome) ∧ spans.Pairwise Apart)
    ⟨fun h => ⟨h.1, h.2.1, h.2.2⟩, fun h => ⟨h.filled, h.inside, h.apart⟩⟩

namespace Scattered

variable {text : List Char} {spans spans' : List Span}

theorem perm (h : Scattered text spans) (same : spans'.Perm spans) : Scattered text spans' where
  filled s member := h.filled s (same.mem_iff.1 member)
  inside s member := h.inside s (same.mem_iff.1 member)
  apart := h.apart.perm same.symm Apart.symm

theorem sublist (h : Scattered text spans) (within : spans'.Sublist spans) :
    Scattered text spans' where
  filled s member := h.filled s (within.subset member)
  inside s member := h.inside s (within.subset member)
  apart := h.apart.sublist within

end Scattered
end Span

/-! ## Edits in order -/

namespace Edit

variable {text : List Char} {edits edits' : List Edit}

/-- Edits in the order of their places. -/
def inOrder (edits : List Edit) : List Edit :=
  sortBy (fun a b => a.span.start ≤ b.span.start) edits

theorem inOrder_perm (edits : List Edit) : (inOrder edits).Perm edits := sortBy_perm _ edits

theorem inOrder_starts (edits : List Edit) :
    (inOrder edits).Pairwise fun a b => a.span.start ≤ b.span.start :=
  sortBy_key_pairwise (fun e : Edit => e.span.start) edits

/-- Of scattered edits in order, each ends before the next one starts. -/
theorem inOrder_apart (h : Span.Scattered text (edits.map (·.span))) :
    (inOrder edits).Pairwise fun a b => a.span.stop ≤ b.span.start := by
  have scattered := h.perm ((inOrder_perm edits).map (·.span))
  refine ((List.pairwise_map.1 scattered.apart).and (inOrder_starts edits)).imp_of_mem
    fun {a b} _ second ⟨apart, ahead⟩ => ?_
  have filled := scattered.filled b.span (List.mem_map_of_mem second)
  rcases apart with before | after
  · exact before
  · omega

/-- Scattered edits have one order. -/
theorem inOrder_eq_of_perm (h : Span.Scattered text (edits.map (·.span))) (same : edits'.Perm edits) :
    inOrder edits' = inOrder edits := by
  have perm := (inOrder_perm edits').trans same
  refine (perm.trans (inOrder_perm edits).symm).eq_of_pairwise ?_ (inOrder_starts edits')
    (inOrder_starts edits)
  intro a b first second ahead behind
  have member := perm.mem_iff.1 first
  have member' := (inOrder_perm edits).mem_iff.1 second
  have filled := h.filled a.span (List.mem_map_of_mem member)
  have filled' := h.filled b.span (List.mem_map_of_mem member')
  -- two edits that start alike would share a byte
  refine (eq_or_related (List.pairwise_map.1 h.apart) member member').resolve_right fun related => ?_
  rcases related.elim id Span.Apart.symm with before | after <;> omega

/-- Edits that follow one another cut the text into pieces. -/
theorem exists_pieces (ordered : edits.Pairwise fun a b => a.span.stop ≤ b.span.start)
    (inside : ∀ e ∈ edits, (Text.between? text e.span.start e.span.stop).isSome)
    {front rest : List Char} (whole : text = front ++ rest)
    (after : ∀ e ∈ edits, width front ≤ e.span.start) :
    ∃ ps tail, rest = Piece.source ps tail ∧ Piece.edits (width front) ps = edits := by
  induction edits generalizing front rest with
  | nil => exact ⟨[], rest, rfl, rfl⟩
  | cons e edits ih =>
    obtain ⟨first, later⟩ := List.pairwise_cons.1 ordered
    obtain ⟨old, cut⟩ := Option.isSome_iff_exists.1 (inside e List.mem_cons_self)
    obtain ⟨ahead, back, parts, start, stop⟩ := Text.between?_eq_some_iff.1 cut
    obtain ⟨before, rfl, rfl⟩ := Text.exists_append_of_width_le (whole.symm.trans parts)
      (start.symm ▸ after e List.mem_cons_self)
    have reach : width (front ++ before ++ old) = e.span.stop := by
      rw [Text.width_append, start, stop]
    have onward : text = front ++ before ++ old ++ back := by simp [whole]
    obtain ⟨ps, tail, source, places⟩ := ih later
      (fun e' member => inside e' (List.mem_cons_of_mem e member)) onward
      (fun e' member => reach ▸ first e' member)
    refine ⟨⟨before, old, some e.text⟩ :: ps, tail, by simp [source, Piece.source], ?_⟩
    rw [Text.width_append] at start
    rw [reach] at places
    rw [Piece.edits, start, stop, places]
    rfl

/-- Scattered edits change the text at their places and nowhere else. -/
theorem exists_spliced (h : Span.Scattered text (edits.map (·.span))) :
    ∃ ps tail, text = Piece.source ps tail ∧ applyAll text edits = Piece.result ps tail ∧
      (Piece.edits 0 ps).Perm edits := by
  have inside : ∀ e ∈ inOrder edits, (Text.between? text e.span.start e.span.stop).isSome :=
    fun e member => h.inside e.span (List.mem_map_of_mem ((inOrder_perm edits).mem_iff.1 member))
  obtain ⟨ps, tail, source, places⟩ := exists_pieces (inOrder_apart h) inside
    (List.nil_append text).symm fun _ _ => Nat.zero_le _
  refine ⟨ps, tail, source, ?_, (List.Perm.of_eq places).trans (inOrder_perm edits)⟩
  calc
    applyAll text edits = applyFrom text 0 (Piece.edits 0 ps) :=
      congrArg (applyFrom text 0) places.symm
    _ = Piece.result ps tail := by
      rw [source]
      simpa using Piece.applyFrom_edits [] [] tail ps

end Edit

/-! ## Replaced literals -/

section

variable {found found' : List Occurrence} {text : List Char} {chosen : String → Bool}
  {change : String → String}

/-- The edit that gives an occurrence another value. -/
def Occurrence.replacement (quote? : Option Quote) (change : String → String) (o : Occurrence) :
    Edit :=
  ⟨o.literal, (quote?.getD o.quote).literal (change o.value).toList⟩

/-- Replacing specifiers makes the edits that give occurrences another value, if there are any. -/
theorem replace?_eq (found : List Occurrence) (text : List Char) (chosen : String → Bool)
    (change : String → String) :
    replace? found text chosen change =
      if found.filter (Occurrence.isReplaced chosen change) = [] then none
      else some (Edit.applyAll text ((found.filter (Occurrence.isReplaced chosen change)).map
        (Occurrence.replacement (dominantQuote? found) change))) := by
  simp only [replace?, edits_eq, List.isEmpty_map, List.isEmpty_iff]
  rfl

theorem scattered_replacements (h : Span.Scattered text (found.map (·.literal)))
    (quote? : Option Quote) :
    Span.Scattered text (((found.filter (Occurrence.isReplaced chosen change)).map
      (Occurrence.replacement quote? change)).map (·.span)) := by
  rw [List.map_map]
  exact h.sublist (List.filter_sublist.map _)

theorem replace?_perm (h : Span.Scattered text (found.map (·.literal))) (same : found'.Perm found) :
    replace? found' text chosen change = replace? found text chosen change := by
  have picked := same.filter (Occurrence.isReplaced chosen change)
  have empty : found'.filter (Occurrence.isReplaced chosen change) = [] ↔
      found.filter (Occurrence.isReplaced chosen change) = [] := by
    rw [← List.length_eq_zero_iff, picked.length_eq, List.length_eq_zero_iff]
  rw [replace?_eq, replace?_eq, dominantQuote?_perm same]
  simp only [empty]
  split
  · rfl
  · exact congrArg (some <| Edit.applyFrom text 0 ·)
      (Edit.inOrder_eq_of_perm (scattered_replacements h _) (picked.map _))

/-- Replacing specifiers exchanges the literals of the occurrences that are chosen and get another
value, and leaves the rest of the text as it is. The new literals have the quotes of more than half of
all literals, or else those of the old ones. The order of the occurrences does not matter. -/
theorem literals_replaced_exactly (h : Span.Scattered text (found.map (·.literal)))
    (chosen : String → Bool) (change : String → String) :
    (replace? found text chosen change = none ↔
      ∀ o ∈ found, chosen o.value = true → change o.value = o.value) ∧
    (∀ updated, replace? found text chosen change = some updated →
      ∃ ps tail, text = Piece.source ps tail ∧ updated = Piece.result ps tail ∧
        (Piece.edits 0 ps).Perm ((found.filter (Occurrence.isReplaced chosen change)).map
          (Occurrence.replacement (dominantQuote? found) change))) ∧
    (∀ q, dominantQuote? found = some q ↔ found.length < 2 * found.countP (·.quote = q)) ∧
    ∀ found', found'.Perm found →
      replace? found' text chosen change = replace? found text chosen change := by
  refine ⟨?_, fun updated edited => ?_, fun q => dominantQuote?_eq_some_iff,
    fun found' same => replace?_perm h same⟩
  · rw [replace?_eq]
    simp [List.filter_eq_nil_iff, Occurrence.isReplaced]
  · rw [replace?_eq] at edited
    split at edited
    · cases edited
    · cases edited
      exact Edit.exists_spliced (scattered_replacements h _)

end

/-- The occurrences are given out of order, characters of two bytes stand before them, and the new
literals are longer and in the quotes of the others. -/
theorem literals_replaced_out_of_order :
    let text := "import 'ä';\nimport \"./b\";\nimport './c';\n".toList
    let updated := "import 'ä';\nimport 'it\\'s';\nimport 'it\\'s';\n".toList
    let found : List Occurrence :=
      [⟨.staticImport, "./c", ⟨34, 39⟩, ⟨27, 40⟩, .single⟩,
        ⟨.staticImport, "ä", ⟨7, 11⟩, ⟨0, 12⟩, .single⟩,
        ⟨.staticImport, "./b", ⟨20, 25⟩, ⟨13, 26⟩, .double⟩]
    Span.Scattered text (found.map (·.literal)) ∧
      replace? found.reverse text (· != "ä") (fun _ => "it's") = some updated ∧
      ∃ ps tail, text = Piece.source ps tail ∧ updated = Piece.result ps tail ∧
        (Piece.edits 0 ps).Perm
          [⟨⟨34, 39⟩, "'it\\'s'".toList⟩, ⟨⟨20, 25⟩, "'it\\'s'".toList⟩] := by
  intro text updated found
  have scattered : Span.Scattered text (found.map (·.literal)) := by decide +kernel
  have edited : replace? found text (· != "ä") (fun _ => "it's") = some updated := by decide +kernel
  obtain ⟨-, pieces, -, order⟩ := literals_replaced_exactly scattered (· != "ä") fun _ => "it's"
  have edits : (found.filter (Occurrence.isReplaced (· != "ä") fun _ => "it's")).map
      (Occurrence.replacement (dominantQuote? found) fun _ => "it's") =
        [⟨⟨34, 39⟩, "'it\\'s'".toList⟩, ⟨⟨20, 25⟩, "'it\\'s'".toList⟩] := by decide +kernel
  exact ⟨scattered, (order _ (List.reverse_perm found)).trans edited, edits ▸ pieces updated edited⟩

end Rehome.Specifier
