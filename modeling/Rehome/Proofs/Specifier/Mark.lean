import Rehome.Proofs.Specifier.Splicing

/-!
# Texts behind a mark

A mark before the first character of a text moves every place of the text by its own width and does
nothing else. The specifiers that are found behind it are those of the text, farther on by three
bytes, and what is made of the marked text is what is made of the text, with the mark before it.
-/
namespace Rehome

/-! ## Places behind other characters -/

namespace Text

theorem dropBytes?_cons (n : Nat) (c : Char) (cs : List Char) :
    dropBytes? (n + c.utf8Size) (c :: cs) = dropBytes? n cs := by
  obtain ⟨m, size⟩ : ∃ m, n + c.utf8Size = m + 1 :=
    Nat.exists_eq_add_one_of_ne_zero (by have := c.utf8Size_pos; omega)
  have rest : m + 1 - c.utf8Size = n := by omega
  rw [size, dropBytes?, if_pos (by omega), rest]

theorem takeBytes?_cons (n : Nat) (c : Char) (cs : List Char) :
    takeBytes? (n + c.utf8Size) (c :: cs) = (takeBytes? n cs).map (c :: ·) := by
  obtain ⟨m, size⟩ : ∃ m, n + c.utf8Size = m + 1 :=
    Nat.exists_eq_add_one_of_ne_zero (by have := c.utf8Size_pos; omega)
  have rest : m + 1 - c.utf8Size = n := by omega
  rw [size, takeBytes?, if_pos (by omega), rest]

theorem dropBytes?_append (front cs : List Char) (n : Nat) :
    dropBytes? (n + width front) (front ++ cs) = dropBytes? n cs := by
  induction front with
  | nil => rfl
  | cons c front ih =>
    rw [width_cons, Nat.add_comm c.utf8Size, ← Nat.add_assoc, List.cons_append, dropBytes?_cons, ih]

theorem takeBytes?_append (front cs : List Char) (n : Nat) :
    takeBytes? (n + width front) (front ++ cs) = (takeBytes? n cs).map (front ++ ·) := by
  induction front with
  | nil => simp
  | cons c front ih =>
    rw [width_cons, Nat.add_comm c.utf8Size, ← Nat.add_assoc, List.cons_append, takeBytes?_cons, ih,
      Option.map_map]
    rfl

theorem between?_append (front cs : List Char) (start stop : Nat) :
    between? (front ++ cs) (start + width front) (stop + width front) = between? cs start stop := by
  simp only [between?, dropBytes?_append, Nat.add_sub_add_right, Nat.add_le_add_iff_right]

/-- What reaches from the first byte into a text takes along all that stands before the text. -/
theorem between?_zero_append (front cs : List Char) (stop : Nat) :
    between? (front ++ cs) 0 (stop + width front) = (between? cs 0 stop).map (front ++ ·) := by
  simp [between?, dropBytes?, takeBytes?_append]

end Text

namespace Specifier

open Text (width)

/-- A span that lies `n` bytes farther on. -/
def Span.moved (n : Nat) (s : Span) : Span := ⟨s.start + n, s.stop + n⟩

/-- An occurrence that stands `n` bytes farther on: the same specifier with the same quotes. -/
def Occurrence.moved (n : Nat) (o : Occurrence) : Occurrence :=
  { o with literal := o.literal.moved n, statement := o.statement.moved n }

def Edit.moved (n : Nat) (e : Edit) : Edit := { e with span := e.span.moved n }

/-! ## Specifiers that are found -/

/-- A finding behind other characters is the same occurrence, farther on by their width. -/
theorem Finding.occurrence?_append (front text : List Char) (shift : Nat) (g : Finding) :
    g.occurrence? (front ++ text) (width (front ++ text)) (shift + width front) =
      (g.occurrence? text (width text) shift).map (Occurrence.moved (width front)) := by
  have beyond : width (front ++ text) < g.statement.stop + (shift + width front) ↔
      width text < g.statement.stop + shift := by
    rw [Text.width_append]
    omega
  have raw : Text.between? (front ++ text) (g.token.start + (shift + width front))
      (g.token.stop + (shift + width front)) =
        Text.between? text (g.token.start + shift) (g.token.stop + shift) := by
    rw [← Nat.add_assoc, ← Nat.add_assoc, Text.between?_append]
  simp only [occurrence?, beyond, raw, Option.bind_eq_bind, Option.pure_def]
  split
  · rfl
  cases Text.between? text (g.token.start + shift) (g.token.stop + shift) with
  | none => rfl
  | some raw =>
    simp only [Option.bind_some]
    cases raw.head?.bind Quote.ofChar? with
    | none => rfl
    | some quote =>
      simp only [Option.bind_some]
      split
      · rfl
      · simp only [Option.map_some, Occurrence.moved, Span.moved, Nat.add_assoc]

/-- The specifiers of a marked text are those of the text, moved by the width of the mark. -/
theorem occurrences?_mark (path : String) {text : List Char} (unmarked : dropMark text = text) :
    occurrences? path (byteOrderMark :: text) =
      (occurrences? path text).map (List.map (Occurrence.moved (width [byteOrderMark]))) := by
  have marked : dropMark ([byteOrderMark] ++ text) = text := by simp [dropMark]
  have plain := @occurrences?_eq path [] text unmarked unmarked
  rw [List.nil_append, Text.width_nil] at plain
  rw [← List.singleton_append, occurrences?_eq marked unmarked, plain, Option.map_map]
  congr 1
  funext tree
  have each : Finding.occurrence? ([byteOrderMark] ++ text) (width ([byteOrderMark] ++ text))
      (width [byteOrderMark]) = fun g =>
        (g.occurrence? text (width text) 0).map (Occurrence.moved (width [byteOrderMark])) := by
    funext g
    simpa using g.occurrence?_append [byteOrderMark] text 0
  rw [each, Function.comp_apply, map_sortBy (fun a b => a.literal.start ≤ b.literal.start)
    (Occurrence.moved (width [byteOrderMark])) (by simp [Occurrence.moved, Span.moved]),
    List.map_filterMap]

/-! ## Texts that are edited -/

/-- An edit is left out behind other characters if it is left out of the text itself. -/
theorem Edit.beyond_append (front text : List Char) (e : Edit) :
    width (front ++ text) < (e.moved (width front)).span.stop ↔ width text < e.span.stop := by
  rw [Text.width_append]
  simp only [moved, Span.moved]
  omega

/-- Edits that follow an edit go on in the text, whatever stands before the text. -/
theorem Edit.applyFrom_append (front text : List Char) (edits : List Edit) (cursor : Nat) :
    applyFrom (front ++ text) (cursor + width front) (edits.map (moved (width front))) =
      applyFrom text cursor edits := by
  induction edits generalizing cursor with
  | nil => rw [List.map_nil, applyFrom, applyFrom, Text.dropBytes?_append]
  | cons e edits ih =>
    have early :
        (e.moved (width front)).span.start < cursor + width front ↔ e.span.start < cursor :=
      Nat.add_lt_add_iff_right
    have before : Text.between? (front ++ text) (cursor + width front)
        (e.moved (width front)).span.start = Text.between? text cursor e.span.start :=
      Text.between?_append ..
    rw [List.map_cons, applyFrom, applyFrom, before, ih cursor]
    simp only [early, beyond_append]
    split
    · rfl
    cases Text.between? text cursor e.span.start with
    | none => rfl
    | some taken =>
      dsimp only
      rw [← ih e.span.stop]
      rfl

/-- Edits of a text leave what stands before it. -/
theorem Edit.applyFrom_zero_append (front text : List Char) (edits : List Edit) :
    applyFrom (front ++ text) 0 (edits.map (moved (width front))) =
      front ++ applyFrom text 0 edits := by
  induction edits with
  | nil => simp [applyFrom, Text.dropBytes?]
  | cons e edits ih =>
    have before : Text.between? (front ++ text) 0 (e.moved (width front)).span.start =
        (Text.between? text 0 e.span.start).map (front ++ ·) := Text.between?_zero_append ..
    rw [List.map_cons, applyFrom, applyFrom, before, ih]
    simp only [Nat.not_lt_zero, decide_false, Bool.false_or, beyond_append]
    split
    · rfl
    cases Text.between? text 0 e.span.start with
    | none => rfl
    | some taken =>
      have later := applyFrom_append front text edits e.span.stop
      simp only [Option.map_some, List.append_assoc]
      rw [← later]
      rfl

theorem Edit.applyAll_append (front text : List Char) (edits : List Edit) :
    applyAll (front ++ text) (edits.map (moved (width front))) = front ++ applyAll text edits := by
  have sorted :
      (inOrder edits).map (moved (width front)) = inOrder (edits.map (moved (width front))) :=
    map_sortBy _ _ (by simp [moved, Span.moved])
  calc
    _ = applyFrom (front ++ text) 0 ((inOrder edits).map (moved (width front))) := by
      rw [sorted]
      rfl
    _ = front ++ applyAll text edits := applyFrom_zero_append front text (inOrder edits)

theorem dominantQuote?_moved (n : Nat) (found : List Occurrence) :
    dominantQuote? (found.map (Occurrence.moved n)) = dominantQuote? found := by
  have singles : ((found.map (Occurrence.moved n)).filter (·.quote = .single)).length =
      (found.filter (·.quote = .single)).length := by
    rw [List.filter_map, List.length_map]
    rfl
  simp only [dominantQuote?, singles, List.length_map]

/-- Replacing the specifiers of a text leaves what stands before it. -/
theorem replace?_append (front text : List Char) (found : List Occurrence) (chosen : String → Bool)
    (change : String → String) :
    replace? (found.map (Occurrence.moved (width front))) (front ++ text) chosen change =
      (replace? found text chosen change).map (front ++ ·) := by
  have picked : (found.map (Occurrence.moved (width front))).filter
        (Occurrence.isReplaced chosen change) =
      (found.filter (Occurrence.isReplaced chosen change)).map (Occurrence.moved (width front)) :=
    List.filter_map ..
  rw [replace?_eq, replace?_eq, picked, dominantQuote?_moved]
  simp only [List.map_eq_nil_iff]
  split
  · rfl
  · rw [Option.map_some, ← Edit.applyAll_append, List.map_map, List.map_map]
    rfl

/-- A mark before a text that has none only moves places. The marked text is read exactly if the
text is, its occurrences are those of the text with both ends of every place three bytes farther on,
and replacing specifiers makes of it what it makes of the text, behind the mark. -/
theorem mark_only_moves_places (path : String) {text : List Char}
    (unmarked : text.head? ≠ some byteOrderMark) :
    occurrences? path (byteOrderMark :: text) =
      (occurrences? path text).map (List.map (Occurrence.moved 3)) ∧
    ∀ found found', occurrences? path text = some found →
      occurrences? path (byteOrderMark :: text) = some found' →
      ∀ chosen change, replace? found' (byteOrderMark :: text) chosen change =
        (replace? found text chosen change).map (byteOrderMark :: ·) := by
  have plain : dropMark text = text := by
    cases text with
    | nil => rfl
    | cons c cs => exact if_neg fun same => unmarked (congrArg some same)
  have moved := occurrences?_mark path plain
  refine ⟨moved, fun found found' read read' chosen change => ?_⟩
  rw [moved, read] at read'
  obtain rfl := Option.some.inj read'
  exact replace?_append [byteOrderMark] text found chosen change

/-- The literals stand behind characters of several bytes, and one of them has other quotes. -/
theorem places_moved_by_mark :
    let text := "const é = require(\"./x\"); export * from './y'; import('./x')".toList
    let found : List Occurrence :=
      [⟨.requireCall, "./x", ⟨19, 24⟩, ⟨11, 25⟩, .double⟩,
        ⟨.wildcardReExport, "./y", ⟨41, 46⟩, ⟨27, 47⟩, .single⟩,
        ⟨.dynamicImport, "./x", ⟨55, 60⟩, ⟨48, 61⟩, .single⟩]
    occurrences? "a.ts" text = some found ∧
      occurrences? "a.ts" (byteOrderMark :: text) = some (found.map (Occurrence.moved 3)) ∧
      replace? (found.map (Occurrence.moved 3)) (byteOrderMark :: text) (· = "./x")
        (fun _ => "./z") =
        some "\ufeffconst é = require('./z'); export * from './y'; import('./z')".toList := by
  intro text found
  have read : occurrences? "a.ts" text = some found := by decide +kernel
  obtain ⟨moved, edited⟩ := @mark_only_moves_places "a.ts" text (by decide)
  rw [read, Option.map_some] at moved
  refine ⟨read, moved, ?_⟩
  rw [edited _ _ read moved]
  decide +kernel

end Specifier
end Rehome
