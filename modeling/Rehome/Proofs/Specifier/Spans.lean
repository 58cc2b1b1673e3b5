import Rehome.Proofs.Specifier.Reparse

/-!
# What stands at the place of an occurrence

The places that are given for the occurrences of a text are places of that text, and cut out of it
the string literals they are said to be: a literal keeps its value when it is read on its own,
since it was read to its end without a look at what follows. The literals come in the order of the
text, none reaches into the next, and each stands inside its declaration or call.
-/
namespace Rehome

open Text (width)

/-! ## Literals without what follows them -/

namespace Ecma.StringLiteral

open Character

variable {cs rest : List Char}

/-- Octal digits are read alike when less follows them. -/
theorem octal_of_prefix (first : Char) (short : rest <+: (octal first cs).rest) :
    ∃ digits, (octal first cs).taken = first :: digits ∧
      octal first (digits ++ rest) = ⟨(octal first cs).pieces, (octal first cs).taken, rest⟩ := by
  rcases cs with _ | ⟨b, cs⟩
  · obtain rfl := List.prefix_nil.1 short
    exact ⟨[], rfl, rfl⟩
  cases second : Digit.isOctal b with
  | false =>
    rw [octal_of_not second] at short ⊢
    refine ⟨[], rfl, ?_⟩
    rcases List.prefix_cons_iff.1 short with rfl | ⟨rest, rfl, -⟩
    · rfl
    · exact octal_of_not second ..
  | true =>
    rcases cs with _ | ⟨c, cs⟩
    · simp only [octal, second, if_true] at short ⊢
      obtain rfl := List.prefix_nil.1 short
      exact ⟨[b], rfl, by simp [second]⟩
    · simp only [octal, second, Bool.true_and, if_true] at short ⊢
      split at short
      next third =>
        rw [if_pos third]
        exact ⟨[b, c], rfl, by simp [second, third]⟩
      next third =>
        rw [if_neg third]
        refine ⟨[b], rfl, ?_⟩
        rcases List.prefix_cons_iff.1 short with rfl | ⟨rest, rfl, -⟩
        · simp [second]
        · simp only [List.singleton_append, second, Bool.true_and, if_neg third, if_true]

theorem braced_of_prefix {e : Escape} (read : braced cs = some e) (short : rest <+: e.rest) :
    escape? (e.taken ++ rest) = some ⟨e.pieces, e.taken, rest⟩ := by
  unfold braced at read
  split at read
  next d ds after digits closes =>
    obtain ⟨p, code, rfl⟩ := Option.map_eq_some_iff.1 read
    have hexes : ∀ c ∈ d :: ds, Digit.isHex c = true := by
      rw [← digits]
      exact fun c member => List.mem_takeWhile_imp member
    have stops : Digit.isHex '}' = false := by decide
    have taken : (d :: ds ++ '}' :: rest).takeWhile Digit.isHex = d :: ds := by
      rw [List.takeWhile_append_of_pos hexes]
      simp [stops]
    have closed : (d :: ds ++ '}' :: rest).dropWhile Digit.isHex = '}' :: rest := by
      rw [List.dropWhile_append_of_pos hexes]
      rfl
    have again := braced_of_close closed
    rw [taken, if_neg (List.cons_ne_nil d ds), code, Option.map_some] at again
    rw [← again]
    simp [escape?]
  next => cases read

/-- An escape is read alike when less follows it. -/
theorem escape?_of_prefix {e : Escape} (read : escape? cs = some e) (short : rest <+: e.rest) :
    escape? (e.taken ++ rest) = some ⟨e.pieces, e.taken, rest⟩ := by
  unfold escape? at read
  split at read
  · cases read
  · obtain rfl := Option.some.inj read
    rfl
  next a b after =>
    split at read
    next hexes =>
      obtain ⟨p, code, rfl⟩ := Option.map_eq_some_iff.1 read
      simp [escape?, hexes, code]
    next => cases read
  · exact braced_of_prefix read short
  next a b c d after bare =>
    split at read
    next hexes =>
      obtain ⟨p, code, rfl⟩ := Option.map_eq_some_iff.1 read
      simp [escape?, hexes, code]
    next => cases read
  next c after feed _ _ _ =>
    split at read
    · cases read
    next plain =>
      simp only [Bool.or_eq_true, decide_eq_true_eq, not_or] at plain
      by_cases carriage : c = '\r'
      · subst carriage
        obtain rfl := Option.some.inj read
        cases rest with
        | nil => rfl
        | cons d rest =>
          obtain ⟨skipped, rfl⟩ := short
          exact escape?_carriage (fun line => feed _ rfl (by rw [line]; rfl)) rest
      · have ordinary := escape?_of_ne carriage plain.1 plain.2
        split at read
        next ends =>
          obtain rfl := Option.some.inj read
          rw [List.singleton_append, ordinary, if_pos ends]
        next ends =>
          split at read
          next digit =>
            obtain rfl := Option.some.inj read
            obtain ⟨digits, taken, again⟩ := octal_of_prefix c short
            rw [taken, List.cons_append, ordinary, if_neg ends, if_pos digit, again, taken]
          next digit =>
            obtain rfl := Option.some.inj read
            rw [List.singleton_append, ordinary, if_neg ends, if_neg digit]

/-- The inside of a literal is read alike when less follows the literal. -/
theorem body?_of_prefix {quote : Char} (inside : '\\' ≠ quote) {b : Body}
    (read : body? quote cs = some b) (short : rest <+: b.rest) :
    body? quote (b.taken ++ rest) = some ⟨b.pieces, b.taken, rest⟩ := by
  fun_induction body? quote cs generalizing b with
  | case1 =>
    cases read
    obtain rfl := List.prefix_nil.1 short
    simp [body?]
  | case2 after =>
    cases read
    simp [body?]
  | case3 c after other ends =>
    -- the line ends behind the literal, or nothing follows it any more
    cases read
    rcases List.prefix_cons_iff.1 short with rfl | ⟨rest, rfl, -⟩
    · simp [body?]
    · rw [List.nil_append, body?, if_neg other, if_pos ends]
  | case4 => cases read
  | case5 after e found _ _ _ ih =>
    obtain ⟨b, later, rfl⟩ := Option.map_eq_some_iff.1 read
    have parts := (body?_spec later).1
    obtain ⟨skipped, split⟩ := short
    have near : b.taken ++ rest <+: e.rest := ⟨skipped, by simp [split, parts]⟩
    have again := escape?_of_prefix found near
    rw [List.append_assoc, List.cons_append, body?_of_escape inside again, ih later ⟨skipped, split⟩]
    rfl
  | case6 c after other line bare ih =>
    obtain ⟨b, later, rfl⟩ := Option.map_eq_some_iff.1 read
    rw [List.cons_append, body?_of_char other line bare, ih later short]
    rfl

/-- A literal of a text is the same literal on its own. -/
theorem IsLiteral.alone {raw : List Char} {value : String} (literal : IsLiteral raw value rest) :
    IsLiteral raw value [] := by
  obtain ⟨q, cs, quoted, rfl, read⟩ := literal
  obtain ⟨b, body, same⟩ := Option.map_eq_some_iff.1 read
  cases same
  have again := body?_of_prefix (quoted.ne (by decide)).symm body List.nil_prefix
  exact ⟨q, b.taken, quoted, rfl, by rw [read?, again]; rfl⟩

/-- A literal of a text is one token, when it is read on its own. -/
theorem IsLiteral.read_alone {raw : List Char} {value : String}
    (literal : IsLiteral raw value rest) :
    (Lexeme.read .plain 0 raw).token = ⟨.str, 0, width raw, value⟩ ∧
      (Lexeme.read .plain 0 raw).rest = [] := by
  obtain ⟨q, cs, quoted, rfl, read⟩ := literal.alone
  rw [List.append_nil] at read
  have gap : Scan.gap .plain 0 (q :: cs) = ⟨0, true, q :: cs⟩ := Trivia.skip_quote quoted 0 true cs
  have cut : Scan.cut? .plain (q :: cs) = some ⟨.str, value, q :: cs, []⟩ :=
    (Scan.plain?_quote quoted cs).trans read
  simp [Lexeme.read, gap, cut, Lexeme.ofCut]

/-- A literal without escapes is its value between quotes, or behind one quote where a line or a text
ends before the other. -/
theorem IsLiteral.eq_of_plain {q : Char} {raw : List Char} {value : String}
    (literal : IsLiteral raw value rest) (opens : raw.head? = some q) (plain : '\\' ∉ raw) :
    raw = q :: value.toList ∨ raw = q :: (value.toList ++ [q]) := by
  obtain ⟨q, cs, quoted, rfl, read⟩ := literal
  obtain ⟨b, body, same⟩ := Option.map_eq_some_iff.1 read
  cases same
  obtain rfl := Option.some.inj opens
  have value := (body?_spec body).2 fun member => plain (List.mem_cons_of_mem q member)
  simpa using value

end Ecma.StringLiteral

/-! ## Places of occurrences -/

namespace Specifier

/-- An occurrence is where it is said to be in the text: its declaration or call stands in the text
and its literal inside that, and the bytes of the literal are characters of the text that start with
its quote and, read on their own, are one string literal with its value. Without an escape they are
the value itself behind its quote, with the closing quote unless a line or the text ends before. -/
structure Occurrence.StandsIn (text : List Char) (o : Occurrence) : Prop where
  statement : o.statement.start ≤ o.literal.start ∧ o.literal.stop ≤ o.statement.stop ∧
    o.statement.stop ≤ width text
  literal : ∃ front raw rest, text = front ++ (raw ++ rest) ∧
    o.literal = ⟨width front, width front + width raw⟩ ∧ 2 ≤ width raw ∧
    raw.head? = some o.quote.toChar ∧
    (Ecma.Lexeme.read .plain 0 raw).token = ⟨.str, 0, width raw, o.value⟩ ∧
    (Ecma.Lexeme.read .plain 0 raw).rest = [] ∧
    ('\\' ∉ raw → raw = o.quote.toChar :: o.value.toList ∨
      raw = o.quote.toChar :: (o.value.toList ++ [o.quote.toChar]))

section

variable {mark body : List Char} {tree : Ecma.Tree}

/-- What is told of a finding holds in the text. -/
theorem Finding.standsIn_occurrence? (laid : tree.LaidOut body) {g : Finding}
    (found : g ∈ Finding.ofTree tree) {o : Occurrence}
    (made : g.occurrence? (mark ++ body) (width (mark ++ body)) (width mark) = some o) :
    o.StandsIn (mark ++ body) := by
  obtain ⟨raw, quote, cut, opens, wide, within, rfl⟩ := Finding.occurrence?_eq_some made
  obtain ⟨front, raw', rest, whole, start, stop, literal⟩ := exists_literal mark
    (laid.literals _ (Finding.mem_of_ofTree found) (Finding.isString_of_ofTree found))
  obtain ⟨before, behind, -⟩ := Finding.statement_covers laid found
  -- what was cut out of the text is the literal that the reader saw there
  obtain rfl : raw' = raw := by
    rw [start, stop, whole, Text.between?_width] at cut
    exact Option.some.inj cut
  obtain ⟨token, nothing⟩ := literal.read_alone
  refine ⟨⟨?_, ?_, within⟩, front, raw', rest, whole, ?_, wide, opens, token, nothing, ?_⟩
  · exact Nat.add_le_add_right before _
  · exact Nat.add_le_add_right behind _
  · rw [start, stop]
  · exact literal.eq_of_plain opens

/-- The literals that a tree names come one after the other. -/
theorem literals_ordered {shift : Nat} {found : List Occurrence} (laid : tree.LaidOut body)
    (cores : found.map Occurrence.core = (named tree).map (coreOf shift)) :
    found.Pairwise fun a b =>
      a.literal.start ≤ b.literal.start ∧ a.literal.stop ≤ b.literal.start := by
  have ordered : ((named tree).map (coreOf shift)).Pairwise fun a b =>
      a.2.2.start ≤ b.2.2.start ∧ a.2.2.stop ≤ b.2.2.start := by
    refine List.pairwise_map.2 ((named_ordered laid).imp_of_mem fun {a b} first _ before => ?_)
    have whole := (mem_named first).2.2
    simp only [isWhole, decide_eq_true_eq] at whole
    simp only [coreOf]
    omega
  rw [← cores] at ordered
  exact List.pairwise_map.1 ordered

end

section

variable {path : String} {text : List Char} {found : List Occurrence}

/-- The occurrences of a text come in the order of their literals, of which none reaches into the
next, and each is where it is said to be. -/
theorem occurrences_stand_in_text (single : ¬ [byteOrderMark, byteOrderMark] <+: text)
    (read : occurrences? path text = some found) :
    (found.Pairwise fun a b =>
      a.literal.start ≤ b.literal.start ∧ a.literal.stop ≤ b.literal.start) ∧
      ∀ o ∈ found, o.StandsIn text := by
  obtain ⟨mark, whole, inner, outer⟩ := exists_mark single
  generalize dropMark text = body at whole inner outer
  subst whole
  rw [occurrences?_eq (outer body inner) inner, Option.map_eq_some_iff] at read
  obtain ⟨tree, parsed, rfl⟩ := read
  have laid := Ecma.Module.parse?_laidOut parsed
  refine ⟨literals_ordered laid (core_sortBy mark laid), fun o member => ?_⟩
  rw [(sortBy_perm _ _).mem_iff, List.mem_filterMap] at member
  obtain ⟨g, inside, made⟩ := member
  exact Finding.standsIn_occurrence? laid inside made

end

/-- A mark, characters of several bytes and escapes stand before and in the literals. -/
theorem places_behind_mark :
    let text := "\ufeffconst é = '€'; import '\\u\x7b61\x7d\\\n/b'; require(\"ü\")".toList
    ∃ found, occurrences? "a.ts" text = some found ∧
      found.map (fun o => (o.value, o.literal)) = [("a/b", ⟨28, 40⟩), ("ü", ⟨50, 54⟩)] ∧
      ∀ o ∈ found, o.StandsIn text := by
  intro text
  have read : occurrences? "a.ts" text = some
      [⟨.staticImport, "a/b", ⟨28, 40⟩, ⟨21, 41⟩, .single⟩,
        ⟨.requireCall, "ü", ⟨50, 54⟩, ⟨42, 55⟩, .double⟩] := by decide +kernel
  exact ⟨_, read, rfl, (occurrences_stand_in_text (by decide) read).2⟩

end Specifier

end Rehome
