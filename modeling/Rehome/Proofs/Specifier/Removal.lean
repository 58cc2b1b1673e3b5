import Rehome.Proofs.Specifier.Splicing

/-!
# Removed re-exports

A re-export is removed with the rest of its line: at most one semicolon, blanks, and at most one line
break. The rest of a line ends before the next statement starts, wherever that stands, so lines of
different statements are apart and each is cut out whole.
-/
namespace Rehome.Specifier

open Text (width)

/-! ## The rest of a line -/

/-- Blanks and at most one line break. -/
def IsBlankTail (t : List Char) : Prop :=
  ∃ blanks ending, t = blanks ++ ending ∧ (∀ c ∈ blanks, c = ' ' ∨ c = '\t') ∧
    (ending = [] ∨ ending = ['\n'] ∨ ending = ['\r', '\n'])

/-- A text that may stand between a statement and the next line: at most one semicolon, blanks, and at
most one line break. -/
def EndsLine (t : List Char) : Prop :=
  ∃ semicolon rest, t = semicolon ++ rest ∧ (semicolon = [] ∨ semicolon = [';']) ∧ IsBlankTail rest

/-- The blanks at the front of a text, and a line break behind them. -/
def blankTail : List Char → List Char
  | ' ' :: cs => ' ' :: blankTail cs
  | '\t' :: cs => '\t' :: blankTail cs
  | '\r' :: '\n' :: _ => ['\r', '\n']
  | '\n' :: _ => ['\n']
  | _ => []

theorem blankTail_eq (cs : List Char) :
    (cs.takeWhile fun c => c = ' ' || c = '\t') ++
      (match cs.drop (cs.takeWhile fun c => c = ' ' || c = '\t').length with
        | '\r' :: '\n' :: _ => ['\r', '\n']
        | '\n' :: _ => ['\n']
        | _ => []) = blankTail cs := by
  fun_induction blankTail cs with
  | case1 cs ih => simpa using ih
  | case2 cs ih => simpa using ih
  | case3 => simp
  | case4 => simp
  | case5 cs space tab carriage feed =>
    have none : (cs.takeWhile fun c => c = ' ' || c = '\t') = [] := by
      cases cs with
      | nil => rfl
      | cons c cs =>
        refine List.takeWhile_cons_of_neg ?_
        simp only [Bool.or_eq_true, decide_eq_true_eq, not_or]
        exact ⟨fun same => space cs (same ▸ rfl), fun same => tab cs (same ▸ rfl)⟩
    rw [none, List.length_nil, List.drop_zero]
    split
    next rest => exact (carriage rest rfl).elim
    next rest => exact (feed rest rfl).elim
    next => rfl

theorem lineTail_semicolon (cs : List Char) : lineTail (';' :: cs) = ';' :: blankTail cs := by
  rw [← blankTail_eq]
  rfl

theorem lineTail_of_ne {cs : List Char} (other : cs.head? ≠ some ';') : lineTail cs = blankTail cs := by
  rw [← blankTail_eq]
  unfold lineTail
  split
  next semicolon rest equal =>
    split at equal
    next => exact absurd rfl other
    next =>
      cases equal
      rfl

theorem blankTail_prefix (cs : List Char) : blankTail cs <+: cs := by
  fun_induction blankTail cs with
  | case1 cs ih => exact List.cons_prefix_cons.2 ⟨rfl, ih⟩
  | case2 cs ih => exact List.cons_prefix_cons.2 ⟨rfl, ih⟩
  | case3 cs => exact ⟨cs, rfl⟩
  | case4 cs => exact ⟨cs, rfl⟩
  | case5 => exact List.nil_prefix

theorem IsBlankTail.cons {c : Char} {t : List Char} (blank : c = ' ' ∨ c = '\t') (h : IsBlankTail t) :
    IsBlankTail (c :: t) := by
  obtain ⟨blanks, ending, rfl, all, last⟩ := h
  exact ⟨c :: blanks, ending, rfl, List.forall_mem_cons.2 ⟨blank, all⟩, last⟩

theorem isBlankTail_blankTail (cs : List Char) : IsBlankTail (blankTail cs) := by
  fun_induction blankTail cs with
  | case1 cs ih => exact ih.cons (.inl rfl)
  | case2 cs ih => exact ih.cons (.inr rfl)
  | case3 => exact ⟨[], _, rfl, List.forall_mem_nil _, .inr (.inr rfl)⟩
  | case4 => exact ⟨[], _, rfl, List.forall_mem_nil _, .inr (.inl rfl)⟩
  | case5 => exact ⟨[], _, rfl, List.forall_mem_nil _, .inl rfl⟩

theorem prefix_blankTail {cs t : List Char} (h : IsBlankTail t) (front : t <+: cs) :
    t <+: blankTail cs := by
  obtain ⟨blanks, ending, rfl, all, last⟩ := h
  induction blanks generalizing cs with
  | nil =>
    obtain ⟨rest, rfl⟩ := front
    rcases last with rfl | rfl | rfl
    · exact List.nil_prefix
    · exact List.prefix_rfl
    · exact List.prefix_rfl
  | cons c blanks ih =>
    obtain ⟨blank, others⟩ := List.forall_mem_cons.1 all
    cases cs with
    | nil => simp at front
    | cons d cs =>
      obtain ⟨rfl, later⟩ := List.cons_prefix_cons.1 front
      have step : blankTail (c :: cs) = c :: blankTail cs := by
        rcases blank with rfl | rfl <;> rfl
      rw [step]
      exact List.cons_prefix_cons.2 ⟨rfl, ih later others⟩

theorem IsBlankTail.mem {t : List Char} (h : IsBlankTail t) {c : Char} (member : c ∈ t) :
    c ∈ [' ', '\t', '\r', '\n'] := by
  obtain ⟨blanks, ending, rfl, all, last⟩ := h
  rcases List.mem_append.1 member with blank | closing
  · rcases all c blank with rfl | rfl <;> simp
  · rcases last with rfl | rfl | rfl
    · cases closing
    · simp_all
    · simp_all

theorem EndsLine.mem {t : List Char} (h : EndsLine t) {c : Char} (member : c ∈ t) :
    c ∈ [';', ' ', '\t', '\r', '\n'] := by
  obtain ⟨semicolon, rest, rfl, optional, blank⟩ := h
  rcases List.mem_append.1 member with first | later
  · rcases optional with rfl | rfl
    · cases first
    · simp_all
  · exact List.mem_cons_of_mem _ (blank.mem later)

theorem lineTail_prefix (cs : List Char) : lineTail cs <+: cs := by
  by_cases semicolon : cs.head? = some ';'
  · obtain ⟨rest, rfl⟩ := List.head?_eq_some_iff.1 semicolon
    rw [lineTail_semicolon]
    exact List.cons_prefix_cons.2 ⟨rfl, blankTail_prefix rest⟩
  · rw [lineTail_of_ne semicolon]
    exact blankTail_prefix cs

theorem endsLine_lineTail (cs : List Char) : EndsLine (lineTail cs) := by
  by_cases semicolon : cs.head? = some ';'
  · obtain ⟨rest, rfl⟩ := List.head?_eq_some_iff.1 semicolon
    exact ⟨[';'], blankTail rest, lineTail_semicolon rest, .inr rfl, isBlankTail_blankTail rest⟩
  · exact ⟨[], blankTail cs, lineTail_of_ne semicolon, .inl rfl, isBlankTail_blankTail cs⟩

/-- No longer text at the front ends the line. -/
theorem prefix_lineTail {cs t : List Char} (h : EndsLine t) (front : t <+: cs) :
    t <+: lineTail cs := by
  obtain ⟨semicolon, rest, rfl, optional, blank⟩ := h
  by_cases first : cs.head? = some ';'
  · obtain ⟨cs, rfl⟩ := List.head?_eq_some_iff.1 first
    rw [lineTail_semicolon]
    rcases optional with rfl | rfl
    · cases rest with
      | nil => exact List.nil_prefix
      | cons c rest =>
        -- a semicolon is no blank
        obtain ⟨rfl, -⟩ := List.cons_prefix_cons.1 front
        exact absurd (blank.mem List.mem_cons_self) (by decide)
    · exact List.cons_prefix_cons.2 ⟨rfl, prefix_blankTail blank (List.cons_prefix_cons.1 front).2⟩
  · rw [lineTail_of_ne first]
    rcases optional with rfl | rfl
    · exact prefix_blankTail blank front
    · obtain ⟨more, rfl⟩ := front
      exact absurd rfl first

/-! ## Lines and statements -/

theorem lineEnd_eq (front rest : List Char) :
    lineEnd (front ++ rest) (width front) = width front + width (lineTail rest) := by
  rw [lineEnd, Text.dropBytes?_width]

theorem le_lineEnd (text : List Char) (stop : Nat) : stop ≤ lineEnd text stop := by
  unfold lineEnd
  split <;> omega

/-- A statement starts at the place: there is a character that no rest of a line holds. -/
def OpensStatement (text : List Char) (place : Nat) : Prop :=
  ∃ c rest, Text.dropBytes? place text = some (c :: rest) ∧ c ∉ [';', ' ', '\t', '\r', '\n']

/-- A line ends before the next statement. -/
theorem OpensStatement.lineEnd_le {text : List Char} {stop place : Nat}
    (opens : OpensStatement text place) (after : stop ≤ place) : lineEnd text stop ≤ place := by
  obtain ⟨c, rest, here, other⟩ := opens
  unfold lineEnd
  split
  next cs cut =>
    obtain ⟨front, whole, wide⟩ := Text.exists_of_dropBytes? cut
    obtain ⟨ahead, parts, wide'⟩ := Text.exists_of_dropBytes? here
    obtain ⟨between, rfl, rfl⟩ := Text.exists_append_of_width_le (whole.symm.trans parts) (by omega)
    obtain ⟨back, split⟩ := lineTail_prefix (between ++ c :: rest)
    rw [Text.width_append] at wide'
    by_contra beyond
    -- the rest of the line would reach across the character
    obtain ⟨more, long, short⟩ := Text.exists_append_of_width_le split.symm (by omega)
    cases more with
    | nil =>
      rw [long, List.append_nil] at beyond
      omega
    | cons d more =>
      obtain ⟨rfl, -⟩ := List.cons.inj short
      refine other ((endsLine_lineTail (between ++ c :: rest)).mem ?_)
      rw [long]
      exact List.mem_append_right _ List.mem_cons_self
  next => exact after

/-- The span of a line: a statement and, of the texts after it that may end a line, the longest. -/
def Span.IsLineOf (text : List Char) (statement line : Span) : Prop :=
  ∃ front raw tail back, text = front ++ (raw ++ (tail ++ back)) ∧
    statement = ⟨width front, width front + width raw⟩ ∧
    line = ⟨width front, width front + width raw + width tail⟩ ∧
    EndsLine tail ∧ ∀ t, EndsLine t → t <+: tail ++ back → t <+: tail

namespace Occurrence

/-- Whether a removal takes the occurrence out of the text. -/
def isRemoved (chosen : String → Bool) (o : Occurrence) : Bool := o.kind.isExport && chosen o.value

/-- The statement and the rest of its line. -/
def line (text : List Char) (o : Occurrence) : Span :=
  ⟨o.statement.start, lineEnd text o.statement.stop⟩

variable {text : List Char} {o : Occurrence}

theorem isLineOf_line {raw : List Char}
    (stands : Text.between? text o.statement.start o.statement.stop = some raw) :
    Span.IsLineOf text o.statement (o.line text) := by
  obtain ⟨front, rest, rfl, start, stop⟩ := Text.between?_eq_some_iff.1 stands
  obtain ⟨back, split⟩ := lineTail_prefix rest
  refine ⟨front, raw, lineTail rest, back, by rw [split], ?_, ?_, endsLine_lineTail rest, ?_⟩
  · rw [start, stop]
  · have reach := lineEnd_eq (front ++ raw) rest
    rw [List.append_assoc, Text.width_append, start, stop] at reach
    rw [line, reach, start, stop]
  · rw [split]
    exact fun t ends => prefix_lineTail ends

/-- A line does not touch what is apart from its statement and starts like a statement. -/
theorem line_apart {s : Span} (apart : o.statement.Apart s) (opens : OpensStatement text s.start) :
    (o.line text).Apart s := by
  rcases apart with before | after
  · exact .inl (opens.lineEnd_le before)
  · exact .inr after

end Occurrence

/-! ## Removal -/

/-- The re-exports among the occurrences: their statements stand in the text, each starts with the
word for it, and no two share a byte. -/
structure ReExportsApart (text : List Char) (found : List Occurrence) : Prop where
  opens : ∀ o ∈ found, o.kind.isExport = true →
    ∃ raw ∈ Text.between? text o.statement.start o.statement.stop, "export".toList <+: raw
  apart : (found.filter (·.kind.isExport)).Pairwise fun a b => a.statement.Apart b.statement

instance (text : List Char) (found : List Occurrence) : Decidable (ReExportsApart text found) :=
  decidable_of_iff ((∀ o ∈ found, o.kind.isExport = true →
      ∃ raw ∈ Text.between? text o.statement.start o.statement.stop, "export".toList <+: raw) ∧
        (found.filter (·.kind.isExport)).Pairwise fun a b => a.statement.Apart b.statement)
    ⟨fun h => ⟨h.1, h.2⟩, fun h => ⟨h.opens, h.apart⟩⟩

namespace ReExportsApart

variable {text : List Char} {found : List Occurrence} {o other : Occurrence}

theorem opensStatement (h : ReExportsApart text found) (member : o ∈ found)
    (exports : o.kind.isExport = true) : OpensStatement text o.statement.start := by
  obtain ⟨raw, stands, more, rfl⟩ := h.opens o member exports
  obtain ⟨front, back, rfl, start, -⟩ := Text.between?_eq_some_iff.1 stands
  refine ⟨'e', "xport".toList ++ more ++ back, ?_, by decide⟩
  rw [← start, Text.dropBytes?_width]
  rfl

theorem start_lt_stop (h : ReExportsApart text found) (member : o ∈ found)
    (exports : o.kind.isExport = true) : o.statement.start < o.statement.stop := by
  obtain ⟨raw, stands, more, rfl⟩ := h.opens o member exports
  obtain ⟨front, back, -, -, stop⟩ := Text.between?_eq_some_iff.1 stands
  have wide : 0 < width "export".toList := by decide
  rw [Text.width_append] at stop
  omega

theorem apart_of_mem (h : ReExportsApart text found) (first : o ∈ found) (second : other ∈ found)
    (exports : o.kind.isExport = true) (exports' : other.kind.isExport = true) (differ : o ≠ other) :
    o.statement.Apart other.statement := by
  have related := eq_or_related h.apart (List.mem_filter.2 ⟨first, exports⟩)
    (List.mem_filter.2 ⟨second, exports'⟩)
  exact (related.resolve_left differ).elim id Span.Apart.symm

/-- The lines of re-exports are apart like their statements. -/
theorem scattered_lines (h : ReExportsApart text found) (chosen : String → Bool) :
    Span.Scattered text ((found.filter (Occurrence.isRemoved chosen)).map (·.line text)) := by
  have members : ∀ o ∈ found.filter (Occurrence.isRemoved chosen), o ∈ found ∧
      o.kind.isExport = true := by
    intro o member
    obtain ⟨inside, removed⟩ := List.mem_filter.1 member
    exact ⟨inside, (Bool.and_eq_true_iff.1 removed).1⟩
  constructor
  · rw [List.forall_mem_map]
    intro o member
    obtain ⟨inside, exports⟩ := members o member
    exact (h.start_lt_stop inside exports).trans_le (le_lineEnd text o.statement.stop)
  · rw [List.forall_mem_map]
    intro o member
    obtain ⟨inside, exports⟩ := members o member
    obtain ⟨raw, stands, -⟩ := h.opens o inside exports
    obtain ⟨front, raw, tail, back, rfl, -, line, -⟩ := Occurrence.isLineOf_line stands
    refine Option.isSome_iff_exists.2 ⟨raw ++ tail, ?_⟩
    rw [line]
    exact Text.between?_eq_some_iff.2 ⟨front, back, by simp, rfl, by simp [Nat.add_assoc]⟩
  · have exported : (found.filter (Occurrence.isRemoved chosen)).Sublist
        (found.filter (·.kind.isExport)) :=
      List.monotone_filter_right found fun o removed => (Bool.and_eq_true_iff.1 removed).1
    refine List.pairwise_map.2 ((h.apart.sublist exported).imp_of_mem fun {a b} first second apart => ?_)
    obtain ⟨inside, exports⟩ := members a first
    obtain ⟨inside', exports'⟩ := members b second
    rcases Occurrence.line_apart apart (h.opensStatement inside' exports') with before | after
    · exact .inl before
    · exact (Occurrence.line_apart (.inl after) (h.opensStatement inside exports)).symm

end ReExportsApart

/-- Removing re-exports cuts out the chosen ones, each with the rest of its line, and leaves the rest
of the text as it is: a line touches no other re-export, and nothing else that is apart from its
statement and starts like one. -/
theorem reExports_removed_exactly {text : List Char} {found : List Occurrence}
    (h : ReExportsApart text found) (chosen : String → Bool) :
    (removeExports? found text chosen = none ↔
      ∀ o ∈ found, o.kind.isExport = true → chosen o.value = false) ∧
    ∀ updated, removeExports? found text chosen = some updated →
      (∃ ps tail, text = Piece.source ps tail ∧ updated = Piece.result ps tail ∧
        (Piece.edits 0 ps).Perm
          ((found.filter (Occurrence.isRemoved chosen)).map fun o => ⟨o.line text, []⟩)) ∧
      ∀ o ∈ found, o.isRemoved chosen = true →
        Span.IsLineOf text o.statement (o.line text) ∧
        (∀ other ∈ found, other.kind.isExport = true → chosen other.value = false →
          (o.line text).Apart other.statement) ∧
        ∀ s : Span, o.statement.Apart s → OpensStatement text s.start → (o.line text).Apart s := by
  constructor
  · simp [removeExports?, List.filter_eq_nil_iff]
  · intro updated edited
    refine ⟨?_, fun o member removed => ?_⟩
    · simp only [removeExports?] at edited
      split at edited
      · cases edited
      · cases edited
        apply Edit.exists_spliced
        rw [List.map_map]
        exact h.scattered_lines chosen
    · obtain ⟨exports, picked⟩ := Bool.and_eq_true_iff.1 removed
      obtain ⟨raw, stands, -⟩ := h.opens o member exports
      refine ⟨Occurrence.isLineOf_line stands, fun other inside exports' spared => ?_,
        fun s => Occurrence.line_apart⟩
      have differ : o ≠ other := fun same => by
        rw [← same, picked] at spared
        cases spared
      exact Occurrence.line_apart (h.apart_of_mem member inside exports exports' differ)
        (h.opensStatement inside exports')

/-- Two statements that are removed stand on one line, which ends with a carriage return and a feed;
the third one has no line break behind it. -/
theorem reExports_removed_from_one_line :
    let text := "export * from './a';  export * as b from './b';\t\r\nexport * from './c'".toList
    let updated := "export * from './c'".toList
    let found : List Occurrence :=
      [⟨.wildcardReExport, "./a", ⟨14, 19⟩, ⟨0, 19⟩, .single⟩,
        ⟨.reExport, "./b", ⟨41, 46⟩, ⟨22, 46⟩, .single⟩,
        ⟨.wildcardReExport, "./c", ⟨64, 69⟩, ⟨50, 69⟩, .single⟩]
    ReExportsApart text found ∧ removeExports? found text (· != "./c") = some updated ∧
      ∃ ps tail, text = Piece.source ps tail ∧ updated = Piece.result ps tail ∧
        (Piece.edits 0 ps).Perm [⟨⟨0, 22⟩, []⟩, ⟨⟨22, 50⟩, []⟩] := by
  intro text updated found
  have apart : ReExportsApart text found := by decide +kernel
  have edited : removeExports? found text (· != "./c") = some updated := by decide +kernel
  have edits : (found.filter (Occurrence.isRemoved (· != "./c"))).map
      (fun o => (⟨o.line text, []⟩ : Edit)) = [⟨⟨0, 22⟩, []⟩, ⟨⟨22, 50⟩, []⟩] := by decide +kernel
  exact ⟨apart, edited, edits ▸ ((reExports_removed_exactly apart _).2 updated edited).1⟩

end Rehome.Specifier
