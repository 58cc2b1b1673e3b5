import Rehome.Ecma.Character
import Rehome.Ecma.Token

/-!
# String literals

Reading a quoted literal and decoding it. Escapes may write halves of a surrogate pair; two halves
that meet are one character, and a half that stays alone is replaced by U+FFFD.
-/
namespace Rehome.Ecma.StringLiteral

open Character

/-- One unit of a decoded literal. -/
inductive Piece where
  | char (c : Char)
  /-- The first half of a surrogate pair. -/
  | lead (n : Nat)
  /-- The second half of a surrogate pair. -/
  | trail (n : Nat)
  deriving DecidableEq, Repr

/-- The unit a code point stands for; none beyond the last one. -/
def Piece.ofCode? (n : Nat) : Option Piece :=
  if n < 0xD800 then some (.char (Char.ofNat n))
  else if n < 0xDC00 then some (.lead n)
  else if n < 0xE000 then some (.trail n)
  else if n < 0x110000 then some (.char (Char.ofNat n))
  else none

/-- The characters the units stand for. -/
def decode : List Piece → List Char
  | [] => []
  | .char c :: ps => c :: decode ps
  | .lead a :: .trail b :: ps =>
    Char.ofNat (0x10000 + (a - 0xD800) * 0x400 + (b - 0xDC00)) :: decode ps
  | .lead _ :: ps => '\ufffd' :: decode ps
  | .trail _ :: ps => '\ufffd' :: decode ps

/-- A decoded escape: the units it stands for, the characters it takes, and the rest. -/
structure Escape where
  pieces : List Piece
  taken : List Char
  rest : List Char

/-- The character an escaped letter stands for when it is not itself. -/
def letter? : Char → Option Char
  | 'n' => some '\n'
  | 't' => some '\t'
  | 'r' => some '\r'
  | 'b' => some '\x08'
  | 'v' => some '\x0b'
  | 'f' => some '\x0c'
  | _ => none

/-- Up to three octal digits whose number fits in a byte. -/
def octal (first : Char) (cs : List Char) : Escape :=
  let value (c : Char) := c.toNat - 48
  match cs with
  | b :: c :: rest =>
    if Digit.isOctal b && Digit.isOctal c && 64 * value first + 8 * value b + value c < 256 then
      ⟨[.char (Char.ofNat (64 * value first + 8 * value b + value c))], [first, b, c], rest⟩
    else if Digit.isOctal b then
      ⟨[.char (Char.ofNat (8 * value first + value b))], [first, b], c :: rest⟩
    else ⟨[.char (Char.ofNat (value first))], [first], b :: c :: rest⟩
  | [b] =>
    if Digit.isOctal b then ⟨[.char (Char.ofNat (8 * value first + value b))], [first, b], []⟩
    else ⟨[.char (Char.ofNat (value first))], [first], [b]⟩
  | [] => ⟨[.char (Char.ofNat (value first))], [first], []⟩

/-- A code point written in braces after `\u`. -/
def braced (cs : List Char) : Option Escape :=
  match cs.takeWhile Digit.isHex, cs.dropWhile Digit.isHex with
  | d :: ds, '}' :: rest =>
    (Piece.ofCode? (Digit.number 16 (d :: ds))).map fun p =>
      ⟨[p], 'u' :: '{' :: (d :: ds) ++ ['}'], rest⟩
  | _, _ => none

/-- Reads what follows a backslash. A line break vanishes; a letter without a meaning stands for
itself; `\x` and `\u` need their digits. -/
def escape? : List Char → Option Escape
  | [] => none
  | '\r' :: '\n' :: cs => some ⟨[], ['\r', '\n'], cs⟩
  | 'x' :: a :: b :: cs =>
    if Digit.isHex a && Digit.isHex b then
      (Piece.ofCode? (Digit.number 16 [a, b])).map fun p => ⟨[p], ['x', a, b], cs⟩
    else none
  | 'u' :: '{' :: cs => braced cs
  | 'u' :: a :: b :: c :: d :: cs =>
    if Digit.isHex a && Digit.isHex b && Digit.isHex c && Digit.isHex d then
      (Piece.ofCode? (Digit.number 16 [a, b, c, d])).map fun p => ⟨[p], ['u', a, b, c, d], cs⟩
    else none
  | c :: cs =>
    if c = 'x' || c = 'u' then none
    else if isLineBreak c then some ⟨[], [c], cs⟩
    else if Digit.isOctal c then some (octal c cs)
    else some ⟨[.char ((letter? c).getD c)], [c], cs⟩

theorem octal_taken_append (c : Char) (cs : List Char) :
    (octal c cs).taken ++ (octal c cs).rest = c :: cs := by
  simp only [octal]
  split
  · split
    · rfl
    · split <;> rfl
  · split <;> rfl
  · rfl

theorem braced_taken_append {cs : List Char} {e : Escape} (h : braced cs = some e) :
    e.taken ++ e.rest = 'u' :: '{' :: cs := by
  unfold braced at h
  split at h
  · rename_i d ds rest hd hr
    obtain ⟨p, -, rfl⟩ := Option.map_eq_some_iff.1 h
    have := List.takeWhile_append_dropWhile (p := Digit.isHex) (l := cs)
    rw [hd, hr] at this
    simpa using this
  · simp at h

/-- An escape takes characters from the front and loses none. -/
theorem escape?_taken_append {cs : List Char} {e : Escape} (h : escape? cs = some e) :
    e.taken ++ e.rest = cs := by
  unfold escape? at h
  split at h
  · simp at h
  · obtain rfl := Option.some.inj h; rfl
  · split at h
    · obtain ⟨p, -, rfl⟩ := Option.map_eq_some_iff.1 h; rfl
    · simp at h
  · exact braced_taken_append h
  · split at h
    · obtain ⟨p, -, rfl⟩ := Option.map_eq_some_iff.1 h; rfl
    · simp at h
  · split at h
    · simp at h
    · split at h
      · obtain rfl := Option.some.inj h; rfl
      · split at h
        · obtain rfl := Option.some.inj h
          exact octal_taken_append _ _
        · obtain rfl := Option.some.inj h; rfl

theorem octal_taken_ne_nil (c : Char) (cs : List Char) : (octal c cs).taken ≠ [] := by
  simp only [octal]
  split
  · split
    · simp
    · split <;> simp
  · split <;> simp
  · simp

theorem escape?_taken_ne_nil {cs : List Char} {e : Escape} (h : escape? cs = some e) :
    e.taken ≠ [] := by
  unfold escape? at h
  split at h
  · simp at h
  · obtain rfl := Option.some.inj h; simp
  · split at h
    · obtain ⟨p, -, rfl⟩ := Option.map_eq_some_iff.1 h; simp
    · simp at h
  · unfold braced at h
    split at h
    · obtain ⟨p, -, rfl⟩ := Option.map_eq_some_iff.1 h; simp
    · simp at h
  · split at h
    · obtain ⟨p, -, rfl⟩ := Option.map_eq_some_iff.1 h; simp
    · simp at h
  · split at h
    · simp at h
    · split at h
      · obtain rfl := Option.some.inj h; simp
      · split at h
        · obtain rfl := Option.some.inj h
          exact octal_taken_ne_nil _ _
        · obtain rfl := Option.some.inj h; simp

/-- An escape makes progress. -/
theorem escape?_rest_lt {cs : List Char} {e : Escape} (h : escape? cs = some e) :
    e.rest.length < cs.length := by
  have h₁ := congrArg List.length (escape?_taken_append h)
  have h₂ := List.length_pos_iff.2 (escape?_taken_ne_nil h)
  simp only [List.length_append] at h₁
  omega

/-- The inside of a literal: its units, the characters it takes with its closing quote, and the
rest. -/
structure Body where
  pieces : List Piece
  taken : List Char
  rest : List Char

/-- Reads up to the closing quote. A literal whose line ends first ends there, without a quote; a
malformed escape refuses it. -/
def body? (quote : Char) (cs : List Char) : Option Body :=
  match cs with
  | [] => some ⟨[], [], []⟩
  | c :: rest =>
    if c = quote then some ⟨[], [c], rest⟩
    else if c = '\n' || c = '\r' then some ⟨[], [], c :: rest⟩
    else if c = '\\' then
      match h : escape? rest with
      | none => none
      | some e =>
        have := escape?_rest_lt h
        (body? quote e.rest).map fun b =>
          ⟨e.pieces ++ b.pieces, '\\' :: e.taken ++ b.taken, b.rest⟩
    else (body? quote rest).map fun b => ⟨.char c :: b.pieces, c :: b.taken, b.rest⟩
termination_by cs.length
decreasing_by all_goals simp_all <;> omega

/-- Reads the literal that starts with the quote character `quote`. -/
def read? (quote : Char) (cs : List Char) : Option Cut :=
  (body? quote cs).map fun b =>
    { kind := .str, value := String.ofList (decode b.pieces), taken := quote :: b.taken,
      rest := b.rest }

end Rehome.Ecma.StringLiteral
