import Rehome.Text.Bytes
import Mathlib.Data.String.Basic

/-!
# Texts in the order of their bytes

Texts are compared character by character. Compared byte by byte in UTF-8 they stand in the same
order: the first byte of a character tells how many bytes it has, longer ones belong to larger
characters, and among characters of one length the bytes are the digits of the character's number.
-/
namespace Rehome.Text

/-- The bytes of a text in UTF-8. -/
def bytes (text : String) : List UInt8 := text.toUTF8.data.toList

theorem bytes_eq_flatMap (text : String) :
    bytes text = text.toList.flatMap String.utf8EncodeChar := by
  rw [bytes, String.toUTF8, ← String.utf8Encode_toList, List.utf8Encode,
    List.toList_data_toByteArray]

/-- The bytes after the first one of a character: the `k` last digits of its number in base 64. -/
def trailing : (k n : Nat) → List UInt8
  | 0, _ => []
  | k + 1, n => UInt8.ofNat (n / 64 ^ k % 64 + 128) :: trailing k n

/-- The bytes of a character by its number. -/
theorem utf8EncodeChar_cases (c : Char) :
    ∃ k marker, String.utf8EncodeChar c =
        UInt8.ofNat (c.toNat / 64 ^ k + marker) :: trailing k c.toNat ∧
      (k = 0 ∧ marker = 0 ∧ c.toNat < 0x80 ∨
        k = 1 ∧ marker = 0xC0 ∧ 0x80 ≤ c.toNat ∧ c.toNat < 0x800 ∨
        k = 2 ∧ marker = 0xE0 ∧ 0x800 ≤ c.toNat ∧ c.toNat < 0x10000 ∨
        k = 3 ∧ marker = 0xF0 ∧ 0x10000 ≤ c.toNat ∧ c.toNat < 0x110000) := by
  have bound : c.toNat < 0x110000 := by
    rcases c.valid with low | high
    · exact low.trans (by decide)
    · exact high.2
  simp only [String.utf8EncodeChar, Char.toNat_val]
  generalize c.toNat = n at bound
  split_ifs with one two three
  · exact ⟨0, 0, by simp [trailing], .inl ⟨rfl, rfl, by omega⟩⟩
  · refine ⟨1, 0xC0, ?_, .inr (.inl ⟨rfl, rfl, by omega, by omega⟩)⟩
    simp [trailing, Nat.mod_eq_of_lt (show n / 64 < 32 by omega)]
  · refine ⟨2, 0xE0, ?_, .inr (.inr (.inl ⟨rfl, rfl, by omega, by omega⟩))⟩
    simp [trailing, Nat.mod_eq_of_lt (show n / 4096 < 16 by omega)]
  · refine ⟨3, 0xF0, ?_, .inr (.inr (.inr ⟨rfl, rfl, by omega, bound⟩))⟩
    simp [trailing, Nat.mod_eq_of_lt (show n / 262144 < 8 by omega)]

theorem cons_ofNat_lt {m n : Nat} {xs ys : List UInt8} (high : n < 256)
    (less : m < n ∨ m = n ∧ xs < ys) : UInt8.ofNat m :: xs < UInt8.ofNat n :: ys := by
  rw [List.cons_lt_cons_iff]
  rcases less with less | ⟨rfl, less⟩
  · refine .inl (UInt8.lt_iff_toNat_lt.2 ?_)
    rw [UInt8.toNat_ofNat', UInt8.toNat_ofNat']
    omega
  · exact .inr ⟨rfl, less⟩

/-- Of two numbers the smaller one has the smaller front digits, or the same and smaller ones after
them. -/
theorem div_lt_or_mod_lt {m n : Nat} (less : m < n) (p : Nat) :
    m / p < n / p ∨ m / p = n / p ∧ m % p < n % p := by
  rcases Nat.lt_or_eq_of_le (Nat.div_le_div_right (c := p) less.le) with front | front
  · exact .inl front
  · refine .inr ⟨front, ?_⟩
    have left := Nat.div_add_mod m p
    have right := Nat.div_add_mod n p
    rw [front] at left
    omega

/-- Digits of one length are in the order of the numbers, whatever follows them. -/
theorem trailing_lt {k m n : Nat} (less : m % 64 ^ k < n % 64 ^ k) (xs ys : List UInt8) :
    trailing k m ++ xs < trailing k n ++ ys := by
  induction k with
  | zero => simp [Nat.mod_one] at less
  | succ k ih =>
    have digits := div_lt_or_mod_lt less (64 ^ k)
    rw [Nat.pow_succ, Nat.mod_mul_right_div_self, Nat.mod_mul_right_div_self,
      Nat.mod_mul_right_mod, Nat.mod_mul_right_mod] at digits
    exact cons_ofNat_lt (by omega) (digits.imp (by omega) fun same => ⟨by omega, ih same.2⟩)

/-- A larger character has larger bytes, whatever follows them. -/
theorem utf8EncodeChar_lt {c d : Char} (less : c < d) (xs ys : List UInt8) :
    String.utf8EncodeChar c ++ xs < String.utf8EncodeChar d ++ ys := by
  have order : c.toNat < d.toNat := less
  obtain ⟨k, marker, bytesC, rangeC⟩ := utf8EncodeChar_cases c
  obtain ⟨l, marker', bytesD, rangeD⟩ := utf8EncodeChar_cases d
  rw [bytesC, bytesD]
  generalize c.toNat = m at order rangeC
  generalize d.toNat = n at order rangeD
  by_cases width : k = l
  · -- The same number of bytes: the numbers are compared digit by digit.
    subst width
    obtain rfl : marker = marker' := by omega
    have fits : n / 64 ^ k + marker < 256 := by
      rcases rangeD with ⟨rfl, rfl, _⟩ | ⟨rfl, rfl, _⟩ | ⟨rfl, rfl, _⟩ | ⟨rfl, rfl, _⟩ <;>
        simp only [Nat.reducePow, Nat.div_one] <;> omega
    exact cons_ofNat_lt fits ((div_lt_or_mod_lt order (64 ^ k)).imp (by omega)
      fun same => ⟨by omega, trailing_lt same.2 xs ys⟩)
  · -- More bytes: the first byte has a larger marker, with room for the digits that it carries.
    rcases rangeC with ⟨rfl, rfl, _⟩ | ⟨rfl, rfl, _⟩ | ⟨rfl, rfl, _⟩ | ⟨rfl, rfl, _⟩ <;>
      rcases rangeD with ⟨rfl, rfl, _⟩ | ⟨rfl, rfl, _⟩ | ⟨rfl, rfl, _⟩ | ⟨rfl, rfl, _⟩ <;>
        simp only [Nat.reducePow, Nat.div_one] <;>
        exact cons_ofNat_lt (by omega) (.inl (by omega))

theorem append_lt_append_left {front xs ys : List UInt8} : front ++ xs < front ++ ys ↔ xs < ys := by
  induction front with
  | nil => rfl
  | cons b front ih => simp [ih]

/-- Texts are in the order of their bytes. -/
theorem bytes_lt_iff {a b : String} : bytes a < bytes b ↔ a < b := by
  rw [String.lt_iff, bytes_eq_flatMap, bytes_eq_flatMap]
  generalize a.toList = l
  generalize b.toList = m
  induction l generalizing m with
  | nil =>
    cases m with
    | nil => simp
    | cons d m =>
      obtain ⟨first, rest, cut⟩ := List.exists_cons_of_ne_nil (@String.utf8EncodeChar_ne_nil d)
      simp [cut]
  | cons c l ih =>
    cases m with
    | nil => simp
    | cons d m =>
      rw [List.flatMap_cons, List.flatMap_cons, List.cons_lt_cons_iff]
      rcases lt_trichotomy c d with less | rfl | greater
      · simp [less, utf8EncodeChar_lt less]
      · rw [append_lt_append_left, ih]
        simp
      · have back := utf8EncodeChar_lt greater (m.flatMap String.utf8EncodeChar)
          (l.flatMap String.utf8EncodeChar)
        simp only [greater.not_gt, greater.ne', false_and, or_self, iff_false]
        exact List.lt_asymm back

end Rehome.Text
