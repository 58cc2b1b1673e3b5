import Rehome.Proofs.Path.Canonical
import Rehome.Proofs.Specifier.Slots
import Rehome.Proofs.Specifier.Verbatim

/-!
# Texts of many statements

A parser that reads a text only if every line imports one module or passes it on. What is read is
what was written, so the parser finds after every edit exactly what the edit left, and finds
literals in their places.
-/
namespace Rehome.Specifier

open Text (width)

/-- What stands before the specifier: the statement passes on another module, or only imports it. -/
def opening (passes : Bool) : List Char :=
  if passes then "export * from ".toList else "import ".toList

/-- A line with one specifier. It passes on the other module, or only imports it. -/
structure Line where
  passes : Bool
  quote : Quote
  value : List Char

namespace Line

def text (l : Line) : List Char := opening l.passes ++ l.quote.literal l.value ++ [';', '\n']

def print (ls : List Line) : List Char := ls.flatMap text

@[simp] theorem print_nil : print [] = [] := rfl

@[simp] theorem print_cons (l : Line) (ls : List Line) : print (l :: ls) = l.text ++ print ls := rfl

/-! ## Reading lines -/

/-- The value of a literal whose first quote was read, and what follows the literal. `escaped` tells
that a backslash was read last. -/
def body? (q : Quote) : (escaped : Bool) → List Char → Option (List Char × List Char)
  | _, [] => none
  | true, c :: cs =>
    if c = q.toChar || c = '\\' then
      (body? q false cs).map fun (value, rest) => (c :: value, rest)
    else none
  | false, c :: cs =>
    if c = q.toChar then some ([], cs)
    else if c = '\\' then body? q true cs
    else (body? q false cs).map fun (value, rest) => (c :: value, rest)

/-- The first line of a text, if it opens as it should, and what follows. -/
def opened? (passes : Bool) (text : List Char) : Option (Line × List Char) :=
  match Text.dropFront? (opening passes) text with
  | some (c :: cs) =>
    match Quote.ofChar? c with
    | none => none
    | some quote =>
      match body? quote false cs with
      | some (value, ';' :: '\n' :: rest) => some (⟨passes, quote, value⟩, rest)
      | _ => none
  | _ => none

/-- The first line of a text, and what follows. -/
def first? (text : List Char) : Option (Line × List Char) :=
  match opened? false text with
  | some found => some found
  | none => opened? true text

/-- The lines of a text; `fuel` bounds their number. -/
def all? : (fuel : Nat) → List Char → Option (List Line)
  | _, [] => some []
  | 0, _ :: _ => none
  | fuel + 1, c :: cs =>
    match first? (c :: cs) with
    | none => none
    | some (l, rest) => (all? fuel rest).map (l :: ·)

theorem eq_of_body? {q : Quote} {escaped : Bool} {cs value rest : List Char}
    (h : body? q escaped cs = some (value, rest)) :
    (if escaped then ['\\'] else []) ++ cs = q.escape value ++ q.toChar :: rest := by
  fun_induction body? q escaped cs generalizing value with
  | case1 => cases h
  | case2 c cs special ih =>
    obtain ⟨⟨inner, after⟩, found, same⟩ := Option.map_eq_some_iff.1 h
    cases same
    have later := ih found
    rw [Quote.escape, if_pos special]
    simpa using later
  | case3 => cases h
  | case4 cs =>
    cases h
    simp [Quote.escape]
  | case5 cs notQuote ih => simpa using ih h
  | case6 c cs notQuote notEscape ih =>
    obtain ⟨⟨inner, after⟩, found, same⟩ := Option.map_eq_some_iff.1 h
    cases same
    have later := ih found
    have plain : ¬ (decide (c = q.toChar) || decide (c = '\\')) = true := by
      simp [notQuote, notEscape]
    rw [Quote.escape, if_neg plain]
    simpa using later

theorem body?_escape (q : Quote) (value rest : List Char) :
    body? q false (q.escape value ++ q.toChar :: rest) = some (value, rest) := by
  have escapes : '\\' ≠ q.toChar := by cases q <;> decide
  induction value with
  | nil => simp [Quote.escape, body?]
  | cons c cs ih =>
    rw [Quote.escape]
    split
    next special => simp [body?, escapes, special, ih]
    next plain =>
      simp only [Bool.or_eq_true, decide_eq_true_eq, not_or] at plain
      simp [body?, plain, ih]

theorem eq_of_opened? {passes : Bool} {text rest : List Char} {l : Line}
    (h : opened? passes text = some (l, rest)) : l.passes = passes ∧ text = l.text ++ rest := by
  unfold opened? at h
  split at h
  next c cs dropped =>
    rw [Text.dropFront?_eq_some_iff] at dropped
    split at h
    next => cases h
    next quote opens =>
      split at h
      next value rest' inside =>
        cases h
        have whole := eq_of_body? inside
        refine ⟨rfl, ?_⟩
        simp only [Bool.false_eq_true, if_false, List.nil_append] at whole
        rw [dropped, whole, Quote.eq_toChar_of_ofChar? opens]
        simp [Line.text, Quote.literal]
      next => cases h
  next => cases h

theorem opened?_text (l : Line) (rest : List Char) :
    opened? l.passes (l.text ++ rest) = some (l, rest) := by
  have dropped : Text.dropFront? (opening l.passes) (l.text ++ rest) =
      some (l.quote.toChar :: (l.quote.escape l.value ++ l.quote.toChar :: ';' :: '\n' :: rest)) :=
    Text.dropFront?_eq_some_iff.2 (by simp [text, Quote.literal])
  have opens : Quote.ofChar? l.quote.toChar = some l.quote := by cases l.quote <;> rfl
  unfold opened?
  rw [dropped]
  simp only [opens, body?_escape]

/-- A line that passes on a module does not open like one that only imports it. -/
theorem opened?_false_of_passes {l : Line} (passes : l.passes = true) (rest : List Char) :
    opened? false (l.text ++ rest) = none := by
  have differs : Text.dropFront? (opening false) (l.text ++ rest) = none := by
    simp [text, passes, opening, Text.dropFront?]
  unfold opened?
  rw [differs]

theorem first?_eq_some_iff {text rest : List Char} {l : Line} :
    first? text = some (l, rest) ↔ text = l.text ++ rest := by
  unfold first?
  constructor
  · intro h
    split at h
    next found opened =>
      cases h
      exact (eq_of_opened? opened).2
    next => exact (eq_of_opened? h).2
  · rintro rfl
    cases passes : l.passes with
    | false =>
      have opened := opened?_text l rest
      rw [passes] at opened
      rw [opened]
    | true =>
      have opened := opened?_text l rest
      rw [passes] at opened
      rw [opened?_false_of_passes passes, opened]

theorem text_ne_nil (l : Line) : l.text ≠ [] := by simp [text]

theorem eq_of_all? {fuel : Nat} {text : List Char} {ls : List Line}
    (h : all? fuel text = some ls) : text = print ls := by
  fun_induction all? fuel text generalizing ls with
  | case1 =>
    cases h
    rfl
  | case2 => cases h
  | case3 => cases h
  | case4 fuel c cs l rest found ih =>
    obtain ⟨later, read, same⟩ := Option.map_eq_some_iff.1 h
    cases same
    rw [first?_eq_some_iff.1 found, ih read, print_cons]

theorem all?_print {fuel : Nat} {ls : List Line} (enough : ls.length ≤ fuel) :
    all? fuel (print ls) = some ls := by
  induction ls generalizing fuel with
  | nil => simp [all?]
  | cons l ls ih =>
    obtain ⟨n, rfl⟩ := Nat.exists_eq_add_one_of_ne_zero (Nat.ne_of_gt (Nat.lt_of_lt_of_le
      (Nat.zero_lt_succ ls.length) enough))
    obtain ⟨c, cs, starts⟩ := List.exists_cons_of_ne_nil
      (List.append_ne_nil_of_left_ne_nil l.text_ne_nil (print ls))
    have found : first? (c :: cs) = some (l, print ls) := by
      rw [← starts]
      exact first?_eq_some_iff.2 rfl
    rw [print_cons, starts, all?, found]
    simp only [List.length_cons] at enough
    simp [ih (by omega : ls.length ≤ n)]

theorem length_le_print (ls : List Line) : ls.length ≤ (print ls).length := by
  induction ls with
  | nil => simp
  | cons l ls ih =>
    have here := List.length_pos_of_ne_nil l.text_ne_nil
    rw [print_cons, List.length_append, List.length_cons]
    omega

/-- The lines of a text. -/
def lines? (text : List Char) : Option (List Line) := all? text.length text

/-- What is read is what was written. -/
theorem lines?_eq_some_iff {text : List Char} {ls : List Line} :
    lines? text = some ls ↔ text = print ls := by
  constructor
  · exact eq_of_all?
  · rintro rfl
    exact all?_print (length_le_print ls)

/-! ## Occurrences -/

/-- The occurrence of a line that starts at byte `start`. -/
def occurrence (start : Nat) (l : Line) : Occurrence where
  kind := if l.passes then .wildcardReExport else .staticImport
  value := String.ofList l.value
  literal := ⟨start + width (opening l.passes),
    start + width (opening l.passes) + width (l.quote.literal l.value)⟩
  statement := ⟨start, start + width (opening l.passes ++ l.quote.literal l.value ++ [';'])⟩
  quote := l.quote

/-- The occurrences of lines, the first of which starts at byte `start`. -/
def occurrences : (start : Nat) → List Line → List Occurrence
  | _, [] => []
  | start, l :: ls => l.occurrence start :: occurrences (start + width l.text) ls

theorem values_occurrences (start : Nat) (ls : List Line) :
    (occurrences start ls).map (·.value) = ls.map fun l => String.ofList l.value := by
  induction ls generalizing start with
  | nil => rfl
  | cons l ls ih =>
    rw [occurrences, List.map_cons, List.map_cons, ih]
    rfl

/-! ## Literals in their places -/

/-- The slots of lines; `gap` stands before the first line. -/
def slots : (gap : List Char) → List Line → List Slot
  | _, [] => []
  | gap, l :: ls =>
    ⟨gap ++ opening l.passes, l.quote.literal l.value, String.ofList l.value, l.quote⟩ ::
      slots [';', '\n'] ls

/-- What follows the slots. -/
def tail (gap : List Char) (ls : List Line) : List Char := if ls.isEmpty then gap else [';', '\n']

theorem tail_cons (gap : List Char) (l : Line) (ls : List Line) :
    tail gap (l :: ls) = tail [';', '\n'] ls := by
  simp [tail]

theorem weave_slots (gap : List Char) (ls : List Line) :
    Slot.weave (slots gap ls) (tail gap ls) = gap ++ print ls := by
  induction ls generalizing gap with
  | nil => simp [Slot.weave, slots, tail]
  | cons l ls ih =>
    have later := ih [';', '\n']
    rw [Slot.weave] at later
    rw [slots, tail_cons, Slot.weave, List.flatMap_cons, List.append_assoc, later]
    simp [text]

theorem fills_slots (start : Nat) (gap : List Char) (ls : List Line) :
    Slot.Fills start (slots gap ls) (occurrences (start + width gap) ls) := by
  induction ls generalizing start gap with
  | nil => exact .nil start
  | cons l ls ih =>
    refine .cons rfl rfl ?_ ?_
    · simp [occurrence, Nat.add_assoc]
    · have later := ih (start + width (gap ++ opening l.passes) + width (l.quote.literal l.value))
        [';', '\n']
      have starts : start + width gap + width l.text =
          start + width (gap ++ opening l.passes) + width (l.quote.literal l.value) +
            width [';', '\n'] := by
        simp [text, Nat.add_assoc]
      rw [starts]
      exact later

theorem quoted_slots {gap : List Char} {ls : List Line} {slot : Slot}
    (member : slot ∈ slots gap ls) : slot.literal.head? = some slot.quote.toChar := by
  induction ls generalizing gap with
  | nil => cases member
  | cons l ls ih =>
    rcases List.mem_cons.1 member with rfl | later
    · rfl
    · exact ih later

/-- Other literals in the slots of lines are the literals of other lines. -/
theorem lines_of_becomes {fit : String → Prop} {gap : List Char} {ls : List Line}
    {slots' : List Slot}
    (h : List.Forall₂ (Slot.Becomes fit) (slots gap ls) slots') :
    ∃ ls', slots' = slots gap ls' ∧ tail gap ls' = tail gap ls := by
  induction ls generalizing gap slots' with
  | nil =>
    rw [slots, List.forall₂_nil_left_iff] at h
    exact ⟨[], h, rfl⟩
  | cons l ls ih =>
    obtain ⟨slot', later, becomes, rest, rfl⟩ := List.forall₂_cons_left_iff.1 h
    obtain ⟨ls', rfl, same⟩ := ih rest
    rcases becomes with rfl | ⟨quote, value, -, rfl⟩
    · refine ⟨l :: ls', rfl, ?_⟩
      rw [tail_cons, tail_cons, same]
    · refine ⟨⟨l.passes, quote, value.toList⟩ :: ls', ?_, ?_⟩
      · simp [slots, Slot.refill]
      · rw [tail_cons, tail_cons, same]

/-! ## Removed lines -/

/-- A line as a piece of a text from which lines are removed. -/
def removal (chosen : String → Bool) (l : Line) : Piece where
  before := []
  old := l.text
  new? := if l.passes && chosen (String.ofList l.value) then some [] else none

theorem lineEnd_text (front : List Char) (l : Line) (rest : List Char) :
    lineEnd (front ++ (l.text ++ rest)) (l.occurrence (width front)).statement.stop =
      width front + width l.text := by
  have whole : front ++ (l.text ++ rest) =
      (front ++ (opening l.passes ++ l.quote.literal l.value ++ [';'])) ++ ('\n' :: rest) := by
    simp [text]
  have stops : (l.occurrence (width front)).statement.stop =
      width (front ++ (opening l.passes ++ l.quote.literal l.value ++ [';'])) := by
    simp [occurrence]
  rw [lineEnd, whole, stops, Text.dropBytes?_width]
  simp [lineTail, text, Nat.add_assoc]

theorem removals (chosen : String → Bool) (front : List Char) (ls : List Line) :
    ((occurrences (width front) ls).filter fun o => o.kind.isExport && chosen o.value).map
      (fun o => (⟨⟨o.statement.start, lineEnd (front ++ print ls) o.statement.stop⟩, []⟩ : Edit)) =
        Piece.edits (width front) (ls.map (removal chosen)) := by
  induction ls generalizing front with
  | nil => rfl
  | cons l ls ih =>
    have later := ih (front ++ l.text)
    rw [Text.width_append, List.append_assoc] at later
    have stop := lineEnd_text front l (print ls)
    rw [List.map_cons, Piece.edits, occurrences, print_cons]
    change _ = _ ++ Piece.edits (width front + 0 + width l.text) _
    rw [Nat.add_zero, ← later]
    cases passes : l.passes with
    | false => simp [removal, occurrence, passes, Kind.isExport]
    | true =>
      by_cases picked : chosen (String.ofList l.value) = true
      · have kept : ((l.occurrence (width front)).kind.isExport &&
            chosen (l.occurrence (width front)).value) = true := by
          simp [occurrence, passes, Kind.isExport, picked]
        rw [List.filter_cons, if_pos kept, List.map_cons, stop]
        simp [removal, passes, picked, occurrence]
      · have gone : ¬ ((l.occurrence (width front)).kind.isExport &&
            chosen (l.occurrence (width front)).value) = true := by
          simp [occurrence, picked]
        rw [List.filter_cons, if_neg gone]
        simp [removal, picked]

theorem result_removals (chosen : String → Bool) (ls : List Line) :
    Piece.result (ls.map (removal chosen)) [] =
      print (ls.filter fun l => !(l.passes && chosen (String.ofList l.value))) := by
  simp only [Piece.result, List.append_nil, List.flatMap_map]
  induction ls with
  | nil => rfl
  | cons l ls ih =>
    rw [List.flatMap_cons, ih, List.filter_cons]
    cases gone : l.passes && chosen (String.ofList l.value) with
    | true => simp [removal, gone]
    | false => simp [removal, gone]

/-- Removing re-exports removes their lines. -/
theorem removeExports?_print {chosen : String → Bool} {ls : List Line} {updated : List Char}
    (h : removeExports? (occurrences 0 ls) (print ls) chosen = some updated) :
    updated = print (ls.filter fun l => !(l.passes && chosen (String.ofList l.value))) := by
  have edits := removals chosen [] ls
  rw [Text.width_nil, List.nil_append] at edits
  have source : Piece.source (ls.map (removal chosen)) [] = print ls := by
    simp [Piece.source, List.flatMap_map, removal, print]
  simp only [removeExports?, edits] at h
  split at h
  · cases h
  · cases h
    rw [← result_removals, ← Piece.applyAll_edits, source]

theorem values_kept (chosen : String → Bool) (start : Nat) (ls : List Line) :
    (((occurrences start ls).filter fun o => !(o.kind.isExport && chosen o.value)).map (·.value)) =
      (ls.filter fun l => !(l.passes && chosen (String.ofList l.value))).map fun l =>
        String.ofList l.value := by
  induction ls generalizing start with
  | nil => rfl
  | cons l ls ih =>
    have exports : (l.occurrence start).kind.isExport = l.passes := by
      cases passes : l.passes <;> simp [occurrence, passes, Kind.isExport]
    have value : (l.occurrence start).value = String.ofList l.value := rfl
    rw [occurrences, List.filter_cons, List.filter_cons, exports, value]
    split
    · rw [List.map_cons, List.map_cons, ih, value]
    · exact ih _

theorem wildcardExport_eq_text (quote : Quote) (specifier : String) :
    wildcardExport quote specifier = text ⟨true, quote, specifier.toList⟩ := by
  unfold wildcardExport text
  dsimp only
  rw [opening, if_pos rfl]

/-- An added export is one line more. -/
theorem appendLine_print (ls : List Line) (quote : Quote) (specifier : String) :
    appendLine (print ls) (wildcardExport quote specifier) =
      print (ls ++ [⟨true, quote, specifier.toList⟩]) := by
  have ends : (print ls).isEmpty || (print ls).getLast? = some '\n' := by
    rcases List.eq_nil_or_concat ls with rfl | ⟨front, l, rfl⟩
    · rfl
    · simp [print, text]
  rw [appendLine, if_pos ends, wildcardExport_eq_text]
  simp [print]

end Line

/-! ## The parser -/

/-- Finds the specifiers of a text that is a sequence of lines. -/
def Finder.listing : Finder where
  handles := Specifier.handles
  read? _ text := (Line.lines? text.toList).map (Line.occurrences 0)

namespace Finder

/-- A text that is not read shows nothing. -/
theorem listing_cases (path text : String) :
    (∀ text', Finder.listing.occurrences path text' = []) ∨
      Finder.listing.occurrences path text = [] ∨
        ∃ ls, text.toList = Line.print ls ∧
          ∀ ls', Finder.listing.occurrences path (String.ofList (Line.print ls')) =
            Line.occurrences 0 ls' := by
  by_cases handled : Specifier.handles path = true
  · have reads : ∀ text', Finder.listing.occurrences path text' =
        ((Line.lines? text'.toList).map (Line.occurrences 0)).getD [] := by
      intro text'
      simp [occurrences, listing, handled]
    right
    cases read : Line.lines? text.toList with
    | none => exact .inl (by simp [reads, read])
    | some ls =>
      refine .inr ⟨ls, Line.lines?_eq_some_iff.1 read, fun ls' => ?_⟩
      have again : Line.lines? (Line.print ls') = some ls' := Line.lines?_eq_some_iff.2 rfl
      simp [reads, again]
  · left
    intro text'
    simp [occurrences, listing, handled]

/-- A text that shows nothing is laid out with no literals. -/
theorem laysOut_nil {f : Finder} {fit : String → Prop} {path text : String}
    (silent : f.occurrences path text = []) : f.LaysOut fit path text [] text.toList := by
  refine ⟨by simp [Slot.weave], by simp, ?_⟩
  intro slots' none
  rw [List.forall₂_nil_left_iff] at none
  rw [none, Slot.weave, List.flatMap_nil, List.nil_append, String.ofList_toList, silent]
  exact .nil 0

theorem listing_relays (fit : String → Prop) : Finder.listing.Relays fit := by
  intro path text
  rcases listing_cases path text with none | silent | ⟨ls, whole, reads⟩
  · exact ⟨[], text.toList, laysOut_nil (none text)⟩
  · exact ⟨[], text.toList, laysOut_nil silent⟩
  · refine ⟨Line.slots [] ls, Line.tail [] ls, ?_, ?_, ?_⟩
    · rw [Line.weave_slots, whole]
      rfl
    · exact fun slot => Line.quoted_slots
    · intro slots' becomes
      obtain ⟨ls', rfl, same⟩ := Line.lines_of_becomes becomes
      rw [← same, Line.weave_slots, List.nil_append, reads]
      exact Line.fills_slots 0 [] ls'

end Finder

end Rehome.Specifier
