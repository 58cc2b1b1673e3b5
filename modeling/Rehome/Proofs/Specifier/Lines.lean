import Rehome.Proofs.Ecma.Declarations
import Rehome.Proofs.Path.Lines
import Rehome.Proofs.Specifier.Listing
import Rehome.Proofs.Specifier.Literals
import Rehome.Proofs.Specifier.Reparse

/-!
# Lines as modules

A text of imports and of exports of everything, each on a line of its own, is a module. The parser
for modules finds in it what was written, as long as the values stand on one line each. Edits make
such texts of such texts.
-/
namespace Rehome.Specifier

open Text (width)
open Ecma (Reader Tree Token TokenKind IsGap Grammar Nonterminal Rule NodeKind)

/-! ## What a declaration names -/

theorem Finding.source?_leaves {string semicolon : Token} (isString : string.kind = .str)
    (before : List Token) :
    source? (before.map .leaf ++ [.node .source [.leaf string], .leaf semicolon]) =
      some string := by
  induction before with
  | nil => simp [source?, TokenKind.isString, isString]
  | cons token before ih => simp [source?, ih]

/-- A declaration names the module of its only source. -/
theorem Finding.ofTree_declaration {kind : NodeKind} {k : Kind}
    (declares : declarationKind? kind = some k) {string semicolon : Token}
    (isString : string.kind = .str) (first : Token) (before : List Token) :
    ofTree (.node kind ((first :: before).map .leaf ++
      [.node .source [.leaf string], .leaf semicolon])) =
        [⟨k, string, ⟨first.start, semicolon.stop⟩⟩] := by
  have span : spanOf (.node kind ((first :: before).map .leaf ++
      [.node .source [.leaf string], .leaf semicolon])) = ⟨first.start, semicolon.stop⟩ := by
    have leaves : ∀ (ts : List Token) (more : List Tree),
        Tree.tokensOf (ts.map .leaf ++ more) = ts ++ Tree.tokensOf more := by
      intro ts more
      induction ts with
      | nil => rfl
      | cons t ts ih => rw [List.map_cons, List.cons_append, Tree.tokensOf, ih]; rfl
    rw [spanOf, Tree.start?_eq, Tree.stop?_eq, Tree.tokens, leaves]
    simp [Tree.tokensOf, Tree.tokens, List.getLast?_cons]
  rw [ofTree]
  simp only [declares, source?_leaves isString, span]

namespace Line

/-- The value stands on one line. -/
def IsPlain (l : Line) : Prop := Text.IsLine l.value

instance (l : Line) : Decidable l.IsPlain := inferInstanceAs (Decidable (Text.IsLine l.value))

/-- The byte after the semicolon of a line that starts at byte `start`. -/
def stop (start : Nat) (l : Line) : Nat :=
  start + width (opening l.passes) + width (l.quote.literal l.value) + 1

/-- What a line names that starts at byte `start`. -/
def finding (start : Nat) (l : Line) : Finding where
  kind := if l.passes then .wildcardReExport else .staticImport
  token := .cutAt (start + width (opening l.passes)) .str (l.quote.literal l.value)
    (String.ofList l.value)
  statement := ⟨start, l.stop start⟩

/-! ## Reading a line -/

theorem isSolid_literal (l : Line) (rest : List Char) :
    (l.quote.literal l.value ++ rest).head?.any Ecma.Character.isSolid = true := by
  rw [Quote.literal]
  cases l.quote <;> rfl

theorem plain?_literal {l : Line} (plain : l.IsPlain) (rest : List Char) :
    Ecma.Scan.plain? (l.quote.literal l.value ++ rest) =
      some { kind := .str, value := String.ofList l.value
             taken := l.quote.literal l.value, rest } := by
  rw [← l.quote.read?_literal plain rest, Quote.literal]
  cases l.quote <;> simp [Quote.toChar, Ecma.Scan.plain?]

section Items

variable {c : Ecma.Context} {l : Line} {gap : List Char}

/-- A reader takes a line, which is one item and names one module. -/
def IsTaken (c : Ecma.Context) (gap : List Char) (l : Line) : Prop :=
  ∀ o rest stack left, l.text.length < left →
    (Reader.facing o (gap ++ (l.text ++ rest)) stack left).look.kind ≠ .eof ∧ ∃ tree left',
      left' < left ∧ left ≤ left' + l.text.length ∧
      (∀ follow, Grammar.SkipsDecorators follow c → Grammar.moduleItem.Leads follow c
        (Reader.facing o (gap ++ (l.text ++ rest)) stack left) ()
        (Reader.facing (l.stop (o + width gap)) ('\n' :: rest) (tree :: stack) left')) ∧
      Finding.ofTree tree = [l.finding (o + width gap)]

theorem isTaken_import {quote : Quote} {value : List Char} (plain : IsPlain ⟨false, quote, value⟩)
    (isGap : IsGap gap) : IsTaken c gap ⟨false, quote, value⟩ := by
  intro o rest stack left long
  have text : text ⟨false, quote, value⟩ ++ rest =
      "import".toList ++ ' ' :: (quote.literal value ++ ';' :: '\n' :: rest) := by
    simp [Line.text, opening]
  have tokens : 3 ≤ (Line.text ⟨false, quote, value⟩).length := by simp [Line.text, opening]
  have word := Reader.passes_facing isGap rfl (Ecma.Scan.plain?_word "import" rfl
    (fun _ => rfl) (by decide) (by decide) (quote.literal value ++ ';' :: '\n' :: rest)) o stack left
  rw [text]
  refine ⟨by rw [word.kind]; simp, _, left - 1 - 1 - 1, by omega, by omega, fun follow undecorated =>
    Grammar.leads_moduleItem_of_import undecorated (Nat.zero_lt_of_lt long) word
      (Reader.passes_facing .blank (isSolid_literal ⟨false, quote, value⟩ _)
        (plain?_literal plain _) _ _ _)
      (Reader.wrap_facing _ _ _ [_] _ _)
      (Reader.passes_facing .none rfl (Ecma.Scan.plain?_semicolon _) _ _ _)
      (Reader.wrap_facing _ _ _ [_, _, _] _ _), Finding.ofTree_declaration rfl rfl _ []⟩

theorem isTaken_export {quote : Quote} {value : List Char} (plain : IsPlain ⟨true, quote, value⟩)
    (isGap : IsGap gap) : IsTaken c gap ⟨true, quote, value⟩ := by
  intro o rest stack left long
  let after := quote.literal value ++ ';' :: '\n' :: rest
  have text : text ⟨true, quote, value⟩ ++ rest =
      "export".toList ++ ' ' :: ('*' :: ' ' :: ("from".toList ++ ' ' :: after)) := by
    simp [Line.text, opening, after]
  have tokens : 5 ≤ (Line.text ⟨true, quote, value⟩).length := by simp [Line.text, opening]
  have first := Reader.passes_facing isGap rfl (Ecma.Scan.plain?_word "export" rfl
    (fun _ => rfl) (by decide) (by decide) ('*' :: ' ' :: ("from".toList ++ ' ' :: after))) o stack
    left
  have room : 0 < left - 1 := by omega
  rw [text]
  refine ⟨by rw [first.kind]; simp, _, left - 1 - 1 - 1 - 1 - 1, by omega, by omega,
    fun follow undecorated => Grammar.leads_moduleItem_of_export undecorated room first
      (Reader.passes_facing .blank rfl (Ecma.Scan.plain?_star _) _ _ _)
      (Reader.passes_facing .blank rfl (Ecma.Scan.plain?_word "from" rfl (fun _ => rfl)
        (by decide) (by decide) after) _ _ _)
      (Reader.passes_facing .blank (isSolid_literal ⟨true, quote, value⟩ _)
        (plain?_literal plain _) _ _ _)
      (Reader.wrap_facing _ _ _ [_] _ _)
      (Reader.passes_facing .none rfl (Ecma.Scan.plain?_semicolon _) _ _ _)
      (Reader.wrap_facing _ _ _ [_, _, _, _, _] _ _), Finding.ofTree_declaration rfl rfl _ [_, _]⟩

theorem isTaken (plain : l.IsPlain) (isGap : IsGap gap) : IsTaken c gap l := by
  obtain ⟨passes, quote, value⟩ := l
  cases passes with
  | false => exact isTaken_import plain isGap
  | true => exact isTaken_export plain isGap

end Items

/-! ## Reading all lines -/

/-- What lines name, the first of which starts at byte `start`. -/
def findings : (start : Nat) → List Line → List Finding
  | _, [] => []
  | start, l :: ls => l.finding start :: findings (start + width l.text) ls

theorem stop_add_one (start : Nat) (l : Line) : l.stop start + 1 = start + width l.text := by
  have wide : width [';', '\n'] = 2 := rfl
  rw [stop, text, Text.width_append, Text.width_append, wide]
  omega

/-- The items of a module are read one after the other, up to the end of the text. -/
theorem repeats_lines (c : Ecma.Context) {ls : List Line} (plain : ∀ l ∈ ls, l.IsPlain)
    {gap : List Char} (isGap : IsGap gap) (o : Nat) (stack : List Tree) {left : Nat}
    (room : (print ls).length < left) :
    ∃ trees o' rest left', (∀ follow n, Grammar.ReadsItems follow c n → left ≤ n →
        Rule.Repeats follow c Grammar.moduleRound (Reader.facing o (gap ++ print ls) stack left)
          (Reader.facing o' rest (trees.reverse ++ stack) left')) ∧
      Finding.ofTrees trees = findings (o + width gap) ls := by
  induction ls generalizing gap o stack left with
  | nil =>
    refine ⟨[], o, gap ++ print [], left, fun follow n _ _ =>
      .last (Nat.zero_lt_of_lt room) (Grammar.leads_moduleRound_of_eof ?_), rfl⟩
    rw [print_nil, List.append_nil]
    exact Reader.look_facing_end isGap o stack left
  | cons l ls ih =>
    rw [print_cons, List.length_append] at room
    -- The line break behind the semicolon is the gap before the next line.
    obtain ⟨more, tree, left', taken, few, item, names⟩ :=
      isTaken (plain l List.mem_cons_self) isGap o (print ls) stack left (by omega)
    have fits : (print ls).length < left' := by omega
    obtain ⟨trees, o', rest, last, later, others⟩ :=
      ih (fun l' member => plain l' (List.mem_cons_of_mem l member)) .line (l.stop (o + width gap))
        (tree :: stack) fits
    refine ⟨tree :: trees, o', rest, last, fun follow n reads enough => ?_, ?_⟩
    · have here : follow .moduleItem c _ = .ok () _ :=
        reads (Nat.zero_lt_of_lt taken) enough fun next undecorated => item next undecorated
      refine .again (Grammar.leads_moduleRound more here) taken ?_
      simpa using later follow n reads (by omega)
    · rw [Finding.ofTrees, names, others, findings, ← stop_add_one]
      rfl

theorem skipInterpreter_print (ls : List Line) :
    Ecma.Module.skipInterpreter (print ls) = (0, print ls) := by
  cases ls with
  | nil => rfl
  | cons l ls =>
    rw [print_cons, text]
    cases l.passes <;> rfl

/-- A text without an interpreter has the tree that following the grammar from its start leaves. -/
theorem parse?_of_follow {d : Ecma.Dialect} {text : List Char} {r : Reader}
    (bare : Ecma.Module.skipInterpreter text = (0, text))
    (read : Rule.follow Nonterminal.rule (Reader.start 0 text).left .program
      (Ecma.Module.context d) (Reader.start 0 text) = .ok () r) :
    Ecma.Module.parse? d text = r.stack.head? := by
  simp only [Ecma.Module.parse?, bare, read]

/-- The tree of lines, and what it names. -/
theorem exists_tree_print (d : Ecma.Dialect) {ls : List Line} (plain : ∀ l ∈ ls, l.IsPlain) :
    ∃ tree, Ecma.Module.parse? d (print ls) = some tree ∧ Finding.ofTree tree = findings 0 ls := by
  obtain ⟨trees, o, rest, left, items, names⟩ :=
    repeats_lines (Ecma.Module.context d) plain .none 0 [] (Nat.lt_succ_self (print ls).length)
  have read := Grammar.follow_program (fun next reads => items next _ reads (Nat.le_refl _))
    (Nat.succ_pos (print ls).length)
  have wraps := Reader.wrap_facing o rest .program trees.reverse [] left
  rw [List.reverse_reverse] at wraps
  refine ⟨.node .program trees, ?_, names⟩
  exact (parse?_of_follow (skipInterpreter_print ls) read).trans (congrArg (·.stack.head?) wraps)

/-! ## The occurrences of lines -/

theorem occurrence?_finding (front rest : List Char) (l : Line) :
    Finding.occurrence? (front ++ (l.text ++ rest)) (width (front ++ (l.text ++ rest))) 0
      (l.finding (width front)) = some (l.occurrence (width front)) := by
  have stops : (l.occurrence (width front)).statement.stop = l.stop (width front) := by
    have one : width [';'] = 1 := rfl
    rw [occurrence, stop, Text.width_append, Text.width_append, one, ← Nat.add_assoc,
      ← Nat.add_assoc]
  have inside : ¬ width (front ++ (l.text ++ rest)) <
      (l.occurrence (width front)).statement.stop := by
    have next := l.stop_add_one (width front)
    rw [stops, Text.width_append, Text.width_append]
    omega
  have raw : Text.between? (front ++ (l.text ++ rest)) (width front + width (opening l.passes))
      (width front + width (opening l.passes) + width (l.quote.literal l.value)) =
        some (l.quote.literal l.value) := by
    simpa [text] using Text.between?_width (front ++ opening l.passes)
      (l.quote.literal l.value) (';' :: '\n' :: rest)
  have opens : (l.quote.literal l.value).head?.bind Quote.ofChar? = some l.quote := by
    rw [Quote.literal]
    cases l.quote <;> rfl
  have wide := l.quote.two_le_width_literal l.value
  simp only [Finding.occurrence?, finding, Token.cutAt, Nat.add_zero, if_neg inside, raw, opens,
    Option.bind_eq_bind, Option.bind_some, if_neg (Nat.not_lt.2 wide), ← stops]
  rfl

theorem filterMap_findings (front : List Char) (ls : List Line) :
    (findings (width front) ls).filterMap
      (Finding.occurrence? (front ++ print ls) (width (front ++ print ls)) 0) =
        occurrences (width front) ls := by
  induction ls generalizing front with
  | nil => rfl
  | cons l ls ih =>
    have later := ih (front ++ l.text)
    have starts : width (front ++ l.text) = width front + width l.text := Text.width_append ..
    rw [starts, List.append_assoc] at later
    rw [findings, print_cons, List.filterMap_cons, occurrence?_finding, later, occurrences]

theorem start_le_of_mem_occurrences {start : Nat} {ls : List Line} {o : Occurrence}
    (member : o ∈ occurrences start ls) : start ≤ o.literal.start := by
  induction ls generalizing start with
  | nil => cases member
  | cons l ls ih =>
    rcases List.mem_cons.1 member with rfl | later
    · exact Nat.le_add_right ..
    · exact Nat.le_trans (Nat.le_add_right ..) (ih later)

theorem occurrences_ordered (start : Nat) (ls : List Line) :
    (occurrences start ls).Pairwise fun a b => a.literal.start ≤ b.literal.start := by
  induction ls generalizing start with
  | nil => exact .nil
  | cons l ls ih =>
    refine .cons (fun o later => ?_) (ih _)
    have after := start_le_of_mem_occurrences later
    refine Nat.le_trans ?_ after
    simp [occurrence, text]

theorem dropMark_print (ls : List Line) : dropMark (print ls) = print ls := by
  cases ls with
  | nil => rfl
  | cons l ls =>
    rw [print_cons, text]
    cases l.passes <;> rfl

/-- The parser for modules reads lines of plain values. -/
theorem occurrences?_print (path : String) {ls : List Line} (plain : ∀ l ∈ ls, l.IsPlain) :
    occurrences? path (print ls) = some (occurrences 0 ls) := by
  obtain ⟨tree, parsed, names⟩ := exists_tree_print (dialect path) plain
  have found := filterMap_findings [] ls
  rw [List.nil_append, Text.width_nil] at found
  simp only [occurrences?, dropMark_print, parsed, Nat.sub_self, names, found,
    Option.bind_eq_bind, Option.bind_some, Option.pure_def]
  rw [Piece.sortBy_eq_self ((occurrences_ordered 0 ls).imp (by simp))]

/-! ## Replaced values -/

section

variable (quote? : Option Quote) (chosen : String → Bool) (change : String → String)

/-- What replacing specifiers makes of a line. -/
def replaced (l : Line) : Line :=
  if chosen (String.ofList l.value) = true ∧
      change (String.ofList l.value) ≠ String.ofList l.value then
    { l with quote := quote?.getD l.quote, value := (change (String.ofList l.value)).toList }
  else l

theorem slots_replaced (gap : List Char) (ls : List Line) :
    slots gap (ls.map (replaced quote? chosen change)) =
      (slots gap ls).map (Slot.replaced quote? chosen change) := by
  induction ls generalizing gap with
  | nil => rfl
  | cons l ls ih =>
    rw [List.map_cons, slots, slots, List.map_cons, ih]
    unfold replaced Slot.replaced
    split
    next => simp [Slot.refill]
    next => rfl

end

/-- Replacing specifiers makes lines of lines. -/
theorem replace?_print {chosen : String → Bool} {change : String → String} {ls : List Line}
    {updated : List Char}
    (h : replace? (occurrences 0 ls) (print ls) chosen change = some updated) :
    updated = print (ls.map (replaced (dominantQuote? (occurrences 0 ls)) chosen change)) := by
  have fills : Slot.Fills 0 (slots [] ls) (occurrences 0 ls) := fills_slots 0 [] ls
  have whole : Slot.weave (slots [] ls) (tail [] ls) = print ls := weave_slots [] ls
  rw [← whole] at h
  have edited := fills.replace (tail [] ls) |>.symm.trans (congrArg (Option.getD · _) h)
  rw [← slots_replaced] at edited
  have ends : tail [] ls = tail [] (ls.map (replaced (dominantQuote? (occurrences 0 ls)) chosen
      change)) := by
    simp [tail]
  rw [ends, weave_slots, List.nil_append] at edited
  exact edited.symm

theorem isPlain_replaced {quote? : Option Quote} {chosen : String → Bool}
    {change : String → String} {l : Line} (plain : l.IsPlain)
    (fits : ∀ value : String, Text.IsLine value.toList → chosen value = true →
      Text.IsLine (change value).toList) : (l.replaced quote? chosen change).IsPlain := by
  unfold replaced
  split
  next picked => exact fits _ (by rwa [String.toList_ofList]) picked.1
  next => exact plain

theorem value_replaced (quote? : Option Quote) (chosen : String → Bool)
    (change : String → String) (l : Line) :
    String.ofList (l.replaced quote? chosen change).value =
      (Revision.replace chosen change).turn (String.ofList l.value) := by
  unfold replaced Revision.turn
  by_cases picked : chosen (String.ofList l.value) = true
  · by_cases same : change (String.ofList l.value) = String.ofList l.value
    · simp [picked, same]
    · simp [picked, same]
  · simp [picked]

end Line

/-! ## Texts of lines -/

/-- A text of lines, whose values stand on one line each. -/
def IsListing (text : String) : Prop := ∃ ls, text.toList = Line.print ls ∧ ∀ l ∈ ls, l.IsPlain

theorem isListing_iff {text : String} :
    IsListing text ↔ ∃ ls ∈ Line.lines? text.toList, ∀ l ∈ ls, l.IsPlain := by
  simp only [IsListing, Option.mem_def, Line.lines?_eq_some_iff]

instance (text : String) : Decidable (IsListing text) := decidable_of_iff _ isListing_iff.symm

example : IsListing "import './x';\nexport * from \"../it's\";\n" := by decide +kernel

theorem Finder.modules_occurrences_print {path : String} (handled : Specifier.handles path = true)
    {ls : List Line} (plain : ∀ l ∈ ls, l.IsPlain) :
    Finder.modules.occurrences path (String.ofList (Line.print ls)) = Line.occurrences 0 ls := by
  have read := Line.occurrences?_print path plain
  simp [Finder.occurrences, Finder.modules, handled, read]

/-- A revision that writes values on one line each. -/
def Revision.WritesLines : Revision → Prop
  | replace chosen change => ∀ value : String, Text.IsLine value.toList → chosen value = true →
    Text.IsLine (change value).toList
  | removeExports _ => True
  | addExport specifier _ => Text.IsLine specifier.toList
  | format _ => False

/-- Such a revision makes lines of lines, and the parser for modules finds exactly what it left. -/
theorem IsListing.revised {path text updated : String} {c : Revision} (h : IsListing text)
    (writes : c.WritesLines)
    (made : c.revise? (Finder.modules.occurrences path text) text = some updated) :
    IsListing updated ∧ (Specifier.handles path = true →
      Finder.modules.values path updated =
        c.left (Finder.modules.occurrences path text) ++ c.added) := by
  obtain ⟨ls, whole, plain⟩ := h
  obtain rfl : text = String.ofList (Line.print ls) := by rw [← whole, String.ofList_toList]
  -- It is enough to give the lines of the new text.
  have lines : ∀ ls', (∀ l ∈ ls', l.IsPlain) → updated = String.ofList (Line.print ls') →
      (Specifier.handles path = true → (ls'.map fun l => String.ofList l.value) =
        c.left (Line.occurrences 0 ls) ++ c.added) →
      IsListing updated ∧ (Specifier.handles path = true → Finder.modules.values path updated =
        c.left (Finder.modules.occurrences path (String.ofList (Line.print ls))) ++ c.added) := by
    rintro ls' plain' rfl values
    refine ⟨⟨ls', String.toList_ofList, plain'⟩, fun handled => ?_⟩
    rw [Finder.values, Finder.modules_occurrences_print handled plain',
      Finder.modules_occurrences_print handled plain, Line.values_occurrences, values handled]
  by_cases handled : Specifier.handles path = true
  · have found := Finder.modules_occurrences_print handled plain
    rw [found] at made
    cases c with
    | replace chosen change =>
      obtain ⟨new, edited, rfl⟩ := Option.map_eq_some_iff.1 made
      rw [String.toList_ofList] at edited
      refine lines _ ?_ (congrArg String.ofList (Line.replace?_print edited)) fun _ => ?_
      · intro l member
        obtain ⟨old, inside, rfl⟩ := List.mem_map.1 member
        exact Line.isPlain_replaced (plain old inside) writes
      · rw [Revision.left_of_keeps fun _ => rfl, Line.values_occurrences, List.map_map,
          List.map_map]
        exact (List.map_congr_left fun l _ => Line.value_replaced _ chosen change l).trans
          (List.append_nil _).symm
    | removeExports chosen =>
      obtain ⟨new, edited, rfl⟩ := Option.map_eq_some_iff.1 made
      rw [String.toList_ofList] at edited
      refine lines _ ?_ (congrArg String.ofList (Line.removeExports?_print edited)) fun _ => ?_
      · exact fun l member => plain l (List.mem_of_mem_filter member)
      · exact (Line.values_kept chosen 0 ls).symm.trans (List.append_nil _).symm
    | addExport specifier same =>
      obtain ⟨-, rfl⟩ := Revision.revise?_addExport.1 made
      refine lines _ ?_ (by rw [String.toList_ofList, Line.appendLine_print]) fun _ => ?_
      · exact List.forall_mem_append.2 ⟨plain, List.forall_mem_singleton.2 writes⟩
      · rw [Revision.left_of_keeps fun _ => rfl, Line.values_occurrences]
        simp [Revision.added, Revision.turn]
    | format shape => exact writes.elim
  · have none : Finder.modules.occurrences path (String.ofList (Line.print ls)) = [] :=
      if_neg handled
    rw [none] at made
    cases c with
    | replace chosen change => simp [Revision.revise?, replace?] at made
    | removeExports chosen => simp [Revision.revise?, removeExports?] at made
    | addExport specifier same =>
      obtain ⟨-, rfl⟩ := Revision.revise?_addExport.1 made
      refine lines _ ?_ (by rw [String.toList_ofList, Line.appendLine_print]) (absurd · handled)
      exact List.forall_mem_append.2 ⟨plain, List.forall_mem_singleton.2 writes⟩
    | format shape => exact writes.elim

/-- In a text of lines the parser for modules finds only what was left there. -/
theorem IsListing.findsOnly {path text : String} {c : Revision} (h : IsListing text)
    (writes : c.WritesLines) : Finder.modules.FindsOnly path text c := by
  intro updated made value member
  by_cases handled : Specifier.handles path = true
  · rw [(h.revised writes made).2 handled, List.mem_append] at member
    exact member.symm.imp id fun left => c.left_subset _ left
  · have none : Finder.modules.occurrences path updated = [] := if_neg handled
    simp [Finder.values, none] at member

end Rehome.Specifier
