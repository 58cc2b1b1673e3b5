import Rehome.Proofs.Ecma.Swaps
import Rehome.Specifier.Basic

/-!
# Literals that are read as they were written

A literal for a value that holds no line break is read back as that value, whatever follows it. One
for a value with a line break ends before the first one. So exactly the values of one line can be
written.
-/
namespace Rehome.Specifier

open Ecma (IsQuote)
open Ecma.StringLiteral (body? escape? decode IsLiteral)

namespace Quote

theorem isQuote_toChar (q : Quote) : IsQuote q.toChar := by
  cases q
  · exact .inr rfl
  · exact .inl rfl

theorem toChar_ne_backslash (q : Quote) : '\\' ≠ q.toChar := by
  cases q <;> decide

/-- A quote or a backslash stands for itself after a backslash. -/
theorem escape?_special {q : Quote} {c : Char} (special : c = q.toChar ∨ c = '\\') (cs : List Char) :
    escape? (c :: cs) = some ⟨[.char c], [c], cs⟩ := by
  rcases special with rfl | rfl
  · cases q <;> rfl
  · rfl

/-- Characters that hold no line break are read as they were written, up to what comes after them. -/
theorem body?_escape_append (q : Quote) {value : List Char} (line : ∀ c ∈ value, c ≠ '\n' ∧ c ≠ '\r')
    (rest : List Char) :
    body? q.toChar (q.escape value ++ rest) = (body? q.toChar rest).map fun b =>
      ⟨value.map .char ++ b.pieces, q.escape value ++ b.taken, b.rest⟩ := by
  induction value with
  | nil => simp [escape]
  | cons c value ih =>
    have later := ih fun d member => line d (List.mem_cons_of_mem c member)
    obtain ⟨feed, carriage⟩ := line c List.mem_cons_self
    rw [escape]
    split
    next special =>
      have found : escape? (c :: (q.escape value ++ rest)) = some ⟨[.char c], [c], _⟩ :=
        escape?_special (by simpa using special) _
      rw [List.cons_append, List.cons_append,
        Ecma.StringLiteral.body?_of_escape q.toChar_ne_backslash found, later, Option.map_map]
      rfl
    next plain =>
      simp only [Bool.or_eq_true, decide_eq_true_eq, not_or] at plain
      rw [List.cons_append, Ecma.StringLiteral.body?_of_char plain.1 (by simp [feed, carriage])
        plain.2, later, Option.map_map]
      rfl

theorem body?_escape (q : Quote) {value : List Char} (line : ∀ c ∈ value, c ≠ '\n' ∧ c ≠ '\r')
    (rest : List Char) :
    body? q.toChar (q.escape value ++ q.toChar :: rest) =
      some ⟨value.map .char, q.escape value ++ [q.toChar], rest⟩ := by
  have closes : body? q.toChar (q.toChar :: rest) = some ⟨[], [q.toChar], rest⟩ := by
    rw [body?, if_pos rfl]
  rw [q.body?_escape_append line, closes, Option.map_some, List.append_nil]

theorem body?_escape_break (q : Quote) {value : List Char} (line : ∀ c ∈ value, c ≠ '\n' ∧ c ≠ '\r')
    {c : Char} (ends : c = '\n' ∨ c = '\r') (rest : List Char) :
    body? q.toChar (q.escape value ++ c :: rest) =
      some ⟨value.map .char, q.escape value, c :: rest⟩ := by
  have differs : c ≠ q.toChar := by
    rcases ends with rfl | rfl <;> cases q <;> decide
  have stops : body? q.toChar (c :: rest) = some ⟨[], [], c :: rest⟩ := by
    rw [body?, if_neg differs, if_pos (by simpa using ends)]
  rw [q.body?_escape_append line, stops, Option.map_some, List.append_nil, List.append_nil]

theorem escape_append (q : Quote) (xs ys : List Char) :
    q.escape (xs ++ ys) = q.escape xs ++ q.escape ys := by
  induction xs with
  | nil => rfl
  | cons c xs ih =>
    rw [List.cons_append, escape, escape, ih]
    split <;> rfl

/-- Takes the backslashes out that were put before characters. -/
def unescape : List Char → List Char
  | '\\' :: c :: cs => c :: unescape cs
  | c :: cs => c :: unescape cs
  | [] => []

theorem unescape_escape (q : Quote) (value : List Char) : unescape (q.escape value) = value := by
  induction value with
  | nil => rfl
  | cons c value ih =>
    rw [escape]
    split
    next => rw [unescape, ih]
    next plain =>
      simp only [Bool.or_eq_true, decide_eq_true_eq, not_or] at plain
      rw [unescape, ih]
      exact fun _ _ same _ => plain.2 same

/-- Different values have different literals. -/
theorem literal_injective (q : Quote) : Function.Injective q.literal := by
  intro value other same
  have inner : q.escape value ++ [q.toChar] = q.escape other ++ [q.toChar] := (List.cons.inj same).2
  have escaped := congrArg unescape (List.append_cancel_right inner)
  rwa [unescape_escape, unescape_escape] at escaped

theorem decode_chars (value : List Char) : decode (value.map .char) = value := by
  induction value with
  | nil => rfl
  | cons c value ih => rw [List.map_cons, decode, ih]

/-- A literal for a value without line breaks is read back. -/
theorem read?_literal (q : Quote) {value : List Char} (line : ∀ c ∈ value, c ≠ '\n' ∧ c ≠ '\r')
    (rest : List Char) :
    Ecma.StringLiteral.read? q.toChar (q.escape value ++ q.toChar :: rest) =
      some { kind := .str, value := String.ofList value, taken := q.literal value, rest } := by
  rw [Ecma.StringLiteral.read?, q.body?_escape line, Option.map_some, decode_chars]
  rfl

theorem isLiteral_literal (q : Quote) {value : List Char} (line : ∀ c ∈ value, c ≠ '\n' ∧ c ≠ '\r')
    (rest : List Char) : IsLiteral (q.literal value) (String.ofList value) rest := by
  refine ⟨q.toChar, q.escape value ++ [q.toChar], q.isQuote_toChar, rfl, ?_⟩
  rw [List.append_assoc, List.singleton_append, q.read?_literal line]

/-- A literal for a value with a line break ends before the first one. -/
theorem read?_literal_break (q : Quote) {front : List Char}
    (line : ∀ c ∈ front, c ≠ '\n' ∧ c ≠ '\r') {c : Char} (ends : c = '\n' ∨ c = '\r')
    (back rest : List Char) :
    Ecma.StringLiteral.read? q.toChar (q.escape (front ++ c :: back) ++ rest) =
      some { kind := .str, value := String.ofList front, taken := q.toChar :: q.escape front,
             rest := c :: q.escape back ++ rest } := by
  have plain : ¬ (c = q.toChar || c = '\\') = true := by
    rcases ends with rfl | rfl <;> cases q <;> decide
  rw [Ecma.StringLiteral.read?, escape_append, escape, if_neg plain, List.append_assoc,
    List.cons_append, q.body?_escape_break line ends, Option.map_some, decode_chars]

theorem exists_first_break {value : List Char} (breaks : ¬ ('\n' ∉ value ∧ '\r' ∉ value)) :
    ∃ front c back, value = front ++ c :: back ∧ (∀ d ∈ front, d ≠ '\n' ∧ d ≠ '\r') ∧
      (c = '\n' ∨ c = '\r') := by
  have found : (value.find? fun c => c = '\n' || c = '\r').isSome := by
    rw [List.find?_isSome]
    by_cases feed : '\n' ∈ value
    · exact ⟨_, feed, by decide⟩
    · exact ⟨_, not_not.1 fun carriage => breaks ⟨feed, carriage⟩, by decide⟩
  obtain ⟨c, first⟩ := Option.isSome_iff_exists.1 found
  obtain ⟨ends, front, back, parts, line⟩ := List.find?_eq_some_iff_append.1 first
  exact ⟨front, c, back, parts, by simpa using line, by simpa using ends⟩

/-- Wherever string literals are read, a literal for a value is read back as that value, whatever
follows it, exactly if the value holds no line break. Different values have different literals. -/
theorem literals_read_back (q : Quote) :
    (∀ mode : Ecma.ScanMode, mode.readsStrings = true → ∀ (value : String) (rest : List Char),
      Ecma.Scan.cut? mode (q.literal value.toList ++ rest) =
          some { kind := .str, value, taken := q.literal value.toList, rest } ↔
        '\n' ∉ value.toList ∧ '\r' ∉ value.toList) ∧
    Function.Injective fun value : String => q.literal value.toList := by
  refine ⟨fun mode strings value rest => ?_, fun value other same =>
    String.toList_injective (q.literal_injective same)⟩
  have opens : Ecma.Scan.cut? mode (q.literal value.toList ++ rest) =
      Ecma.StringLiteral.read? q.toChar (q.escape value.toList ++ q.toChar :: rest) := by
    rw [literal, List.cons_append, List.cons_append, Ecma.Scan.cut?_quote q.isQuote_toChar strings,
      List.append_assoc, List.singleton_append]
  rw [opens]
  constructor
  · intro read
    by_contra holds
    obtain ⟨front, c, back, parts, line, ends⟩ := exists_first_break holds
    rw [parts, q.read?_literal_break line ends] at read
    have taken := congrArg (fun cut => cut.taken.length) (Option.some.inj read)
    simp [literal, escape_append] at taken
  · rintro ⟨feed, carriage⟩
    have line : ∀ c ∈ value.toList, c ≠ '\n' ∧ c ≠ '\r' := fun c member =>
      ⟨fun same => feed (same ▸ member), fun same => carriage (same ▸ member)⟩
    rw [q.read?_literal line, String.ofList_toList]

/-- The value ends with a quote and a backslash, and more of both stand behind the literal. -/
theorem read_back_with_backslashes :
    let value := "a\\'\\"
    let raw := "'a\\\\\\'\\\\'".toList
    let rest := "\\';".toList
    '\n' ∉ value.toList ∧ '\r' ∉ value.toList ∧ Quote.single.literal value.toList = raw ∧
      Ecma.Scan.cut? .plain (raw ++ rest) = some { kind := .str, value, taken := raw, rest } := by
  intro value raw rest
  have line : '\n' ∉ value.toList ∧ '\r' ∉ value.toList := by decide
  have written : Quote.single.literal value.toList = raw := by decide
  have read := ((literals_read_back .single).1 .plain rfl value rest).2 line
  rw [written] at read
  exact ⟨line.1, line.2, written, read⟩

end Quote

end Rehome.Specifier
