import Rehome.Proofs.Ecma.Lexemes

/-!
# Texts that part at a quote

Two texts agree up to a place where each has a quote; what follows the quotes may differ. Words,
numbers and punctuators before that place are read from both texts alike, since none of them can
hold a quote.
-/
namespace Rehome.Ecma

open Character

/-- The characters that open a string literal. -/
def IsQuote (c : Char) : Prop := c = '"' ∨ c = '\''

instance : DecidablePred IsQuote := fun c => inferInstanceAs (Decidable (c = '"' ∨ c = '\''))

/-- Two texts that part at a quote; `x` and `y` follow the quotes. -/
inductive Fork (x y : List Char) : List Char → List Char → Prop where
  | here {q r : Char} (first : IsQuote q) (second : IsQuote r) : Fork x y (q :: x) (r :: y)
  | cons (c : Char) {cs ds : List Char} (later : Fork x y cs ds) : Fork x y (c :: cs) (c :: ds)

namespace IsQuote

variable {c : Char}

theorem ne (quote : IsQuote c) {d : Char} (plain : ¬ IsQuote d) : c ≠ d :=
  fun same => plain (same ▸ quote)

theorem not_idPart (quote : IsQuote c) : isIdPart c = false := by
  rcases quote with rfl | rfl <;> rfl

theorem not_idStart (quote : IsQuote c) : isIdStart c = false := by
  rcases quote with rfl | rfl <;> rfl

theorem not_decimal (quote : IsQuote c) : Digit.isDecimal c = false := by
  rcases quote with rfl | rfl <;> rfl

theorem not_hex (quote : IsQuote c) : Digit.isHex c = false := by
  rcases quote with rfl | rfl <;> rfl

theorem not_octal (quote : IsQuote c) : Digit.isOctal c = false := by
  rcases quote with rfl | rfl <;> rfl

theorem not_lineBreak (quote : IsQuote c) : isLineBreak c = false := by
  rcases quote with rfl | rfl <;> rfl

theorem not_blank (quote : IsQuote c) : isBlank c = false := by
  rcases quote with rfl | rfl <;> rfl

end IsQuote

section

variable {x y cs ds : List Char}

theorem Fork.exists_front (f : Fork x y cs ds) :
    ∃ front q r, IsQuote q ∧ IsQuote r ∧ cs = front ++ q :: x ∧ ds = front ++ r :: y := by
  induction f with
  | here first second => exact ⟨[], _, _, first, second, rfl, rfl⟩
  | cons c _ ih =>
    obtain ⟨front, q, r, first, second, rfl, rfl⟩ := ih
    exact ⟨c :: front, q, r, first, second, rfl, rfl⟩

theorem Fork.of_front {q r : Char} (first : IsQuote q) (second : IsQuote r) (front : List Char) :
    Fork x y (front ++ q :: x) (front ++ r :: y) := by
  induction front with
  | nil => exact .here first second
  | cons c front ih => exact .cons c ih

theorem Fork.prepend (front : List Char) (f : Fork x y cs ds) :
    Fork x y (front ++ cs) (front ++ ds) := by
  induction front with
  | nil => exact f
  | cons c front ih => exact .cons c ih

/-- What remains of two texts that part still parts at the same quotes. -/
theorem Fork.front_of_suffix {front : List Char} {q r : Char} (f : Fork x y cs ds)
    (first : cs <:+ front ++ q :: x) (second : ds <:+ front ++ r :: y) :
    ∃ near, cs = near ++ q :: x ∧ ds = near ++ r :: y := by
  have same : ∀ {near zs : List Char} {c d : Char}, near ++ c :: zs <:+ front ++ d :: zs → c = d := by
    intro near zs c d remains
    have short : c :: zs <:+ front ++ d :: zs := (List.suffix_append near _).trans remains
    have equal := (List.suffix_of_suffix_length_le short (List.suffix_append front _) (by simp)).eq_of_length
      (by simp)
    exact (List.cons.inj equal).1
  obtain ⟨near, c, d, -, -, rfl, rfl⟩ := f.exists_front
  obtain rfl := same first
  obtain rfl := same second
  exact ⟨near, rfl, rfl⟩

theorem Fork.head (f : Fork x y cs ds) {p : Char → Bool} (stops : ∀ c, IsQuote c → p c = false) :
    (cs.head?.map p).getD false = (ds.head?.map p).getD false := by
  cases f with
  | here first second => simp [stops _ first, stops _ second]
  | cons c later => rfl

theorem Fork.ne_nil (f : Fork x y cs ds) : cs ≠ [] := by
  cases f <;> simp

theorem Fork.symm (f : Fork x y cs ds) : Fork y x ds cs := by
  induction f with
  | here first second => exact .here second first
  | cons c _ ih => exact .cons c ih

/-- Characters other than quotes stand at the front of both texts or of none. -/
theorem Fork.of_append (front : List Char) (f : Fork x y (front ++ cs) ds)
    (plain : ∀ c ∈ front, ¬ IsQuote c) : ∃ rest, ds = front ++ rest ∧ Fork x y cs rest := by
  induction front generalizing ds with
  | nil => exact ⟨ds, rfl, f⟩
  | cons c front ih =>
    cases f with
    | here first => exact absurd first (plain c List.mem_cons_self)
    | cons _ later =>
      obtain ⟨rest, rfl, found⟩ := ih later fun d member => plain d (List.mem_cons_of_mem c member)
      exact ⟨rest, rfl, found⟩

theorem Fork.exists_append (front : List Char) (f : Fork x y cs (front ++ ds))
    (plain : ∀ c ∈ front, ¬ IsQuote c) : ∃ rest, cs = front ++ rest ∧ Fork x y rest ds := by
  obtain ⟨rest, same, found⟩ := f.symm.of_append front plain
  exact ⟨rest, same, found.symm⟩

/-- A run of characters among which there is no quote. -/
theorem Fork.span (f : Fork x y cs ds) {p : Char → Bool} (stops : ∀ c, IsQuote c → p c = false) :
    cs.takeWhile p = ds.takeWhile p ∧ Fork x y (cs.dropWhile p) (ds.dropWhile p) := by
  induction f with
  | here first second =>
    simp only [List.takeWhile_cons, List.dropWhile_cons, stops _ first, stops _ second]
    exact ⟨rfl, .here first second⟩
  | cons c later ih =>
    cases holds : p c with
    | false =>
      simp only [List.takeWhile_cons, List.dropWhile_cons, holds]
      exact ⟨rfl, .cons c later⟩
    | true => simpa [List.takeWhile_cons, List.dropWhile_cons, holds] using ih

/-- The characters of a run without quotes, as many as it has. -/
theorem Fork.drop (f : Fork x y cs ds) {p : Char → Bool} (stops : ∀ c, IsQuote c → p c = false)
    {n : Nat} (enough : n ≤ (ds.takeWhile p).length) :
    cs.take n = ds.take n ∧ Fork x y (cs.drop n) (ds.drop n) := by
  induction f generalizing n with
  | here first second =>
    obtain rfl : n = 0 := by simpa [List.takeWhile_cons, stops _ second] using enough
    exact ⟨rfl, .here first second⟩
  | cons c later ih =>
    cases n with
    | zero => exact ⟨rfl, .cons c later⟩
    | succ n =>
      rw [List.takeWhile_cons] at enough
      split at enough
      · simpa using ih (Nat.le_of_succ_le_succ enough)
      · simp at enough

/-! ## Tokens that end before a quote -/

/-- Two tokens that are cut alike from texts that part. -/
structure Cut.Forks (x y : List Char) (a b : Cut) : Prop where
  kind : a.kind = b.kind
  value : a.value = b.value
  taken : a.taken = b.taken
  rest : Fork x y a.rest b.rest

namespace Number

theorem finish?_fork {kind : TokenKind} {taken : List Char} (f : Fork x y cs ds) :
    Option.Rel (Cut.Forks x y) (finish? kind taken cs) (finish? kind taken ds) := by
  cases f with
  | here first second =>
    simp only [finish?, first.not_idStart, second.not_idStart, Bool.false_eq_true, if_false]
    exact .some ⟨rfl, rfl, rfl, .here first second⟩
  | cons c later =>
    simp only [finish?]
    split
    · exact .none
    · exact .some ⟨rfl, rfl, rfl, .cons c later⟩

theorem finishInteger?_of_ne {c : Char} {taken : List Char} (small : c ≠ 'n') (zs : List Char) :
    finishInteger? taken (c :: zs) = finish? .number taken (c :: zs) := by
  unfold finishInteger?
  split
  · simp_all
  · rfl

theorem finishInteger?_fork {taken : List Char} (f : Fork x y cs ds) :
    Option.Rel (Cut.Forks x y) (finishInteger? taken cs) (finishInteger? taken ds) := by
  cases f with
  | here first second =>
    rw [finishInteger?_of_ne (first.ne (by decide)), finishInteger?_of_ne (second.ne (by decide))]
    exact finish?_fork (.here first second)
  | cons c later =>
    by_cases big : c = 'n'
    · subst big
      exact finish?_fork later
    · rw [finishInteger?_of_ne big, finishInteger?_of_ne big]
      exact finish?_fork (.cons c later)

theorem isSpaced_quote {isDigit : Char → Bool} (plain : ∀ c, IsQuote c → isDigit c = false)
    (c : Char) (quote : IsQuote c) : isSpaced isDigit c = false := by
  simp [isSpaced, plain c quote, quote.ne (d := '_') (by decide)]

theorem digits_fork (f : Fork x y cs ds) {isDigit : Char → Bool}
    (plain : ∀ c, IsQuote c → isDigit c = false) :
    (digits isDigit cs).1 = (digits isDigit ds).1 ∧
      Fork x y (digits isDigit cs).2 (digits isDigit ds).2 :=
  f.span (isSpaced_quote plain)

theorem sign_of_ne {c : Char} (plus : c ≠ '+') (minus : c ≠ '-') (zs : List Char) :
    sign (c :: zs) = ([], c :: zs) := by
  unfold sign
  split <;> simp_all

theorem sign_fork (f : Fork x y cs ds) :
    (sign cs).1 = (sign ds).1 ∧ Fork x y (sign cs).2 (sign ds).2 := by
  cases f with
  | here first second =>
    rw [sign_of_ne (first.ne (by decide)) (first.ne (by decide)),
      sign_of_ne (second.ne (by decide)) (second.ne (by decide))]
    exact ⟨rfl, .here first second⟩
  | cons c later =>
    by_cases plus : c = '+'
    · subst plus
      exact ⟨rfl, later⟩
    by_cases minus : c = '-'
    · subst minus
      exact ⟨rfl, later⟩
    rw [sign_of_ne plus minus, sign_of_ne plus minus]
    exact ⟨rfl, .cons c later⟩

theorem exponent?_fork {taken : List Char} (f : Fork x y cs ds) :
    Option.Rel (Cut.Forks x y) (exponent? taken cs) (exponent? taken ds) := by
  cases f with
  | here first second =>
    simp only [exponent?, first.ne (d := 'e') (by decide), first.ne (d := 'E') (by decide),
      second.ne (d := 'e') (by decide), second.ne (d := 'E') (by decide), decide_false,
      Bool.or_self, Bool.false_eq_true, if_false]
    exact finish?_fork (.here first second)
  | cons c later =>
    simp only [exponent?]
    split
    · obtain ⟨signs, signed⟩ := sign_fork later
      obtain ⟨same, rests⟩ := digits_fork signed fun _ quote => quote.not_decimal
      rw [signs, same]
      split
      · exact finish?_fork rests
      · exact .none
    · exact finish?_fork (.cons c later)

theorem fraction?_of_ne {c : Char} {taken : List Char} (dot : c ≠ '.') (small : c ≠ 'e')
    (large : c ≠ 'E') (zs : List Char) :
    fraction? taken (c :: zs) = finishInteger? taken (c :: zs) := by
  unfold fraction?
  split <;> simp_all

theorem fraction?_fork {taken : List Char} (f : Fork x y cs ds) :
    Option.Rel (Cut.Forks x y) (fraction? taken cs) (fraction? taken ds) := by
  cases f with
  | here first second =>
    rw [fraction?_of_ne (first.ne (by decide)) (first.ne (by decide)) (first.ne (by decide)),
      fraction?_of_ne (second.ne (by decide)) (second.ne (by decide)) (second.ne (by decide))]
    exact finishInteger?_fork (.here first second)
  | cons c later =>
    by_cases dot : c = '.'
    · subst dot
      obtain ⟨same, rests⟩ := digits_fork later fun _ quote => quote.not_decimal
      simp only [fraction?, same]
      exact exponent?_fork rests
    by_cases small : c = 'e'
    · subst small
      exact exponent?_fork (.cons 'e' later)
    by_cases large : c = 'E'
    · subst large
      exact exponent?_fork (.cons 'E' later)
    rw [fraction?_of_ne dot small large, fraction?_of_ne dot small large]
    exact finishInteger?_fork (.cons c later)

theorem based?_fork {base : Nat} {mark : Char} (f : Fork x y cs ds)
    (plain : ∀ c, IsQuote c → Digit.isOf base c = false) :
    Option.Rel (Cut.Forks x y) (based? base mark cs) (based? base mark ds) := by
  obtain ⟨same, rests⟩ := digits_fork f plain
  simp only [based?, same]
  split
  · exact finishInteger?_fork rests
  · exact .none

theorem read?_of_ne {c : Char} (zero : c ≠ '0') (dot : c ≠ '.') (zs : List Char) :
    read? (c :: zs) =
      fraction? (digits Digit.isDecimal (c :: zs)).1 (digits Digit.isDecimal (c :: zs)).2 := by
  unfold read?
  split <;> simp_all

/-- A zero, unless a mark for another base follows it. -/
def zero? (zs : List Char) : Option Cut :=
  let (ds, rest) := digits Digit.isDecimal zs
  if ds.any Digit.isDecimal && ds.all (isSpaced Digit.isOctal) then finishInteger? ('0' :: ds) rest
  else fraction? ('0' :: ds) rest

theorem zero?_fork (f : Fork x y cs ds) :
    Option.Rel (Cut.Forks x y) (zero? cs) (zero? ds) := by
  obtain ⟨same, rests⟩ := digits_fork f fun _ quote => quote.not_decimal
  simp only [zero?, same]
  split
  · exact finishInteger?_fork rests
  · exact fraction?_fork rests

theorem read?_fork (f : Fork x y cs ds) :
    Option.Rel (Cut.Forks x y) (read? cs) (read? ds) := by
  have decimal : ∀ c, IsQuote c → Digit.isDecimal c = false := fun _ quote => quote.not_decimal
  cases f with
  | here first second =>
    rw [read?_of_ne (first.ne (by decide)) (first.ne (by decide)),
      read?_of_ne (second.ne (by decide)) (second.ne (by decide))]
    obtain ⟨same, rests⟩ := digits_fork (.here first second) decimal
    rw [same]
    exact fraction?_fork rests
  | cons c later =>
    by_cases zero : c = '0'
    · subst zero
      cases later with
      | here first second =>
        have unmarked : ∀ {q : Char} (zs : List Char), IsQuote q →
            read? ('0' :: q :: zs) = zero? (q :: zs) := by
          rintro q zs (rfl | rfl) <;> rfl
        rw [unmarked _ first, unmarked _ second]
        exact zero?_fork (.here first second)
      | cons m later =>
        simp only [read?]
        split
        · exact based?_fork later (by rintro _ (rfl | rfl) <;> rfl)
        split
        · exact based?_fork later (by rintro _ (rfl | rfl) <;> rfl)
        split
        · exact based?_fork later (by rintro _ (rfl | rfl) <;> rfl)
        · exact zero?_fork (.cons m later)
    by_cases dot : c = '.'
    · subst dot
      exact fraction?_fork (.cons '.' later)
    rw [read?_of_ne zero dot, read?_of_ne zero dot]
    obtain ⟨same, rests⟩ := digits_fork (.cons c later) decimal
    rw [same]
    exact fraction?_fork rests

end Number

/-! ## Escapes -/

namespace StringLiteral

/-- Two escapes that are read alike from texts that part. -/
structure Escape.Forks (x y : List Char) (a b : Escape) : Prop where
  pieces : a.pieces = b.pieces
  taken : a.taken = b.taken
  rest : Fork x y a.rest b.rest

theorem braced_of_close {rest : List Char} (closes : cs.dropWhile Digit.isHex = '}' :: rest) :
    braced cs =
      if cs.takeWhile Digit.isHex = [] then none
      else (Piece.ofCode? (Digit.number 16 (cs.takeWhile Digit.isHex))).map fun p =>
        ⟨[p], 'u' :: '{' :: cs.takeWhile Digit.isHex ++ ['}'], rest⟩ := by
  unfold braced
  split
  next d ds rest' taken dropped =>
    obtain rfl : rest' = rest := by simpa using dropped.symm.trans closes
    simp [taken]
  next refused =>
    cases taken : cs.takeWhile Digit.isHex with
    | nil => simp
    | cons d ds => exact absurd closes (refused d ds rest taken)

theorem braced_of_open (remains : ∀ rest, cs.dropWhile Digit.isHex ≠ '}' :: rest) :
    braced cs = none := by
  unfold braced
  split
  next dropped => exact absurd dropped (remains _)
  next => rfl

theorem braced_fork (f : Fork x y cs ds) :
    Option.Rel (Escape.Forks x y) (braced cs) (braced ds) := by
  obtain ⟨same, rests⟩ := f.span fun _ quote => quote.not_hex
  generalize dropped : cs.dropWhile Digit.isHex = t at rests
  generalize dropped' : ds.dropWhile Digit.isHex = u at rests
  cases rests with
  | here first second =>
    have open₁ := first.ne (d := '}') (by decide)
    have open₂ := second.ne (d := '}') (by decide)
    rw [braced_of_open (by simp [dropped, open₁]), braced_of_open (by simp [dropped', open₂])]
    exact .none
  | cons c later =>
    by_cases closing : c = '}'
    · subst closing
      rw [braced_of_close dropped, braced_of_close dropped', same]
      split
      · exact .none
      cases Piece.ofCode? (Digit.number 16 (ds.takeWhile Digit.isHex)) with
      | none => exact .none
      | some p => exact .some ⟨rfl, rfl, later⟩
    · rw [braced_of_open (by simp [dropped, closing]), braced_of_open (by simp [dropped', closing])]
      exact .none

/-- An escape without braces has four digits. -/
theorem escape?_of_bare {c : Char} (bare : c ≠ '{') (zs : List Char) :
    escape? ('u' :: c :: zs) =
      if 4 ≤ ((c :: zs).takeWhile Digit.isHex).length then
        (Piece.ofCode? (Digit.number 16 ((c :: zs).take 4))).map fun p =>
          ⟨[p], 'u' :: (c :: zs).take 4, (c :: zs).drop 4⟩
      else none := by
  rcases zs with _ | ⟨b, _ | ⟨d, _ | ⟨e, rest⟩⟩⟩
  · cases hex : Digit.isHex c <;> simp [escape?, bare, hex]
  · cases hex : Digit.isHex c <;> cases hex' : Digit.isHex b <;>
      simp [escape?, bare, hex, hex']
  · cases hex : Digit.isHex c <;> cases hex' : Digit.isHex b <;> cases hex'' : Digit.isHex d <;>
      simp [escape?, bare, hex, hex', hex'']
  · rw [escape?]
    · cases hex : Digit.isHex c <;> cases hex' : Digit.isHex b <;> cases hex'' : Digit.isHex d <;>
        cases hex''' : Digit.isHex e <;> simp [hex, hex', hex'', hex''']
    · simp [bare]

theorem escape?_unicode_fork (f : Fork x y cs ds) :
    Option.Rel (Escape.Forks x y) (escape? ('u' :: cs)) (escape? ('u' :: ds)) := by
  have hexes : ∀ c, IsQuote c → Digit.isHex c = false := fun _ quote => quote.not_hex
  cases f with
  | here first second =>
    rw [escape?_of_bare (first.ne (by decide)), escape?_of_bare (second.ne (by decide))]
    simp only [List.takeWhile_cons, first.not_hex, second.not_hex]
    exact .none
  | cons c later =>
    by_cases opening : c = '{'
    · subst opening
      exact braced_fork later
    rw [escape?_of_bare opening, escape?_of_bare opening,
      (Fork.span (.cons c later) hexes).1]
    split
    next enough =>
      obtain ⟨same, rests⟩ := Fork.drop (.cons c later) hexes enough
      rw [same]
      cases Piece.ofCode? _ with
      | none => exact .none
      | some p => exact .some ⟨rfl, rfl, rests⟩
    next => exact .none

theorem octal_of_not {b : Char} (no : Digit.isOctal b = false) (first : Char) (zs : List Char) :
    octal first (b :: zs) = ⟨[.char (Char.ofNat (first.toNat - 48))], [first], b :: zs⟩ := by
  cases zs <;> simp [octal, no]

theorem octal_fork (f : Fork x y cs ds) (first : Char) :
    Escape.Forks x y (octal first cs) (octal first ds) := by
  cases f with
  | here quote quote' =>
    rw [octal_of_not quote.not_octal, octal_of_not quote'.not_octal]
    exact ⟨rfl, rfl, .here quote quote'⟩
  | cons b later =>
    cases second : Digit.isOctal b with
    | false =>
      rw [octal_of_not second, octal_of_not second]
      exact ⟨rfl, rfl, .cons b later⟩
    | true =>
      cases later with
      | here quote quote' =>
        simp only [octal, second, quote.not_octal, quote'.not_octal, Bool.and_false, Bool.false_and,
          Bool.false_eq_true, if_false, if_true]
        exact ⟨rfl, rfl, .here quote quote'⟩
      | cons c later =>
        simp only [octal, second, Bool.true_and, if_true]
        split
        · exact ⟨rfl, rfl, later⟩
        · exact ⟨rfl, rfl, .cons c later⟩

theorem escape?_hex (zs : List Char) :
    escape? ('x' :: zs) =
      if 2 ≤ (zs.takeWhile Digit.isHex).length then
        (Piece.ofCode? (Digit.number 16 (zs.take 2))).map fun p => ⟨[p], 'x' :: zs.take 2, zs.drop 2⟩
      else none := by
  rcases zs with _ | ⟨a, _ | ⟨b, rest⟩⟩
  · simp [escape?]
  · cases hex : Digit.isHex a <;> simp [escape?, hex]
  · cases hex : Digit.isHex a <;> cases hex' : Digit.isHex b <;> simp [escape?, hex, hex']

theorem escape?_of_ne {c : Char} (carriage : c ≠ '\r') (hex : c ≠ 'x') (unicode : c ≠ 'u')
    (zs : List Char) :
    escape? (c :: zs) =
      if isLineBreak c then some ⟨[], [c], zs⟩
      else if Digit.isOctal c then some (octal c zs)
      else some ⟨[.char ((letter? c).getD c)], [c], zs⟩ := by
  unfold escape?
  split <;> simp_all

/-- An escaped carriage return vanishes alone, if no line feed comes after it. -/
theorem escape?_carriage {c : Char} (feed : c ≠ '\n') (zs : List Char) :
    escape? ('\r' :: c :: zs) = some ⟨[], ['\r'], c :: zs⟩ := by
  simp [escape?, feed, isLineBreak]

/-- An escape is read alike from texts that part, unless it takes the quote itself. -/
theorem escape?_fork (f : Fork x y cs ds) :
    Option.Rel (fun a b => Escape.Forks x y a b ∨ a.rest = x) (escape? cs) (escape? ds) := by
  cases f with
  | here first second =>
    have quoted : ∀ {q : Char} (zs : List Char), IsQuote q →
        escape? (q :: zs) = some ⟨[.char q], [q], zs⟩ := by
      rintro q zs (rfl | rfl) <;> rfl
    rw [quoted _ first, quoted _ second]
    exact .some (.inr rfl)
  | @cons c cs ds later =>
    by_cases carriage : c = '\r'
    · subst carriage
      cases later with
      | here first second =>
        rw [escape?_carriage (first.ne (by decide)), escape?_carriage (second.ne (by decide))]
        exact .some (.inl ⟨rfl, rfl, .here first second⟩)
      | cons d later =>
        by_cases feed : d = '\n'
        · subst feed
          exact .some (.inl ⟨rfl, rfl, later⟩)
        · rw [escape?_carriage feed, escape?_carriage feed]
          exact .some (.inl ⟨rfl, rfl, .cons d later⟩)
    by_cases hex : c = 'x'
    · subst hex
      have hexes : ∀ c, IsQuote c → Digit.isHex c = false := fun _ quote => quote.not_hex
      rw [escape?_hex, escape?_hex, (later.span hexes).1]
      split
      next enough =>
        obtain ⟨same, rests⟩ := later.drop hexes enough
        rw [same]
        cases Piece.ofCode? _ with
        | none => exact .none
        | some p => exact .some (.inl ⟨rfl, rfl, rests⟩)
      next => exact .none
    by_cases unicode : c = 'u'
    · subst unicode
      have alike := escape?_unicode_fork later
      generalize escape? ('u' :: cs) = a at alike ⊢
      generalize escape? ('u' :: ds) = b at alike ⊢
      cases alike with
      | none => exact .none
      | some alike => exact .some (.inl alike)
    rw [escape?_of_ne carriage hex unicode, escape?_of_ne carriage hex unicode]
    split
    · exact .some (.inl ⟨rfl, rfl, later⟩)
    split
    · exact .some (.inl (octal_fork later c))
    · exact .some (.inl ⟨rfl, rfl, later⟩)

end StringLiteral

/-! ## Words -/

namespace Word

/-- Two words that are read alike from texts that part. -/
structure Letters.Forks (x y : List Char) (a b : Letters) : Prop where
  decoded : a.decoded = b.decoded
  taken : a.taken = b.taken
  escaped : a.escaped = b.escaped
  rest : Fork x y a.rest b.rest

theorem letters?_of_part {c : Char} (part : isIdPart c = true) (zs : List Char) :
    letters? (c :: zs) =
      (letters? zs).map fun l => { l with decoded := c :: l.decoded, taken := c :: l.taken } := by
  rw [letters?, if_pos part]

theorem letters?_of_end {c : Char} (plain : isIdPart c = false) (bare : c ≠ '\\') (zs : List Char) :
    letters? (c :: zs) = some ⟨[], [], c :: zs, false⟩ := by
  rw [letters?, if_neg (by simp [plain]), if_neg bare]

/-- The character of a word that an escape stands for. -/
def escaped? (pieces : List StringLiteral.Piece) : Option Char :=
  match pieces with
  | [.char d] => if isIdPart d then some d else none
  | _ => none

theorem letters?_of_unicode (zs : List Char) :
    letters? ('\\' :: 'u' :: zs) =
      (StringLiteral.escape? ('u' :: zs)).bind fun e =>
        (escaped? e.pieces).bind fun d =>
          (letters? e.rest).map fun l =>
            ⟨d :: l.decoded, '\\' :: e.taken ++ l.taken, l.rest, true⟩ := by
  rw [letters?, if_neg (by decide), if_pos rfl]
  split
  next e found =>
    simp only [found, List.head?_cons, Option.bind_some, escaped?]
    split <;> split <;> simp_all
  next missing => simp [missing]

theorem letters?_of_other {zs : List Char} (other : zs.head? ≠ some 'u') :
    letters? ('\\' :: zs) = none := by
  rw [letters?, if_neg (by decide), if_pos rfl]
  split
  · split <;> simp_all
  · rfl

theorem letters?_fork (f : Fork x y cs ds) :
    Option.Rel (Letters.Forks x y) (letters? cs) (letters? ds) := by
  -- an escape takes several characters, so the induction is on the length
  induction size : cs.length using Nat.strongRecOn generalizing cs ds with
  | ind n ih =>
    cases f with
    | here first second =>
      rw [letters?_of_end first.not_idPart (first.ne (by decide)),
        letters?_of_end second.not_idPart (second.ne (by decide))]
      exact .some ⟨rfl, rfl, rfl, .here first second⟩
    | @cons c cs ds later =>
      cases part : isIdPart c with
      | true =>
        rw [letters?_of_part part, letters?_of_part part]
        have inner := ih cs.length (by simp [← size]) later rfl
        generalize letters? cs = a at inner ⊢
        generalize letters? ds = b at inner ⊢
        cases inner with
        | none => exact .none
        | some alike =>
          exact .some ⟨congrArg (c :: ·) alike.decoded, congrArg (c :: ·) alike.taken, alike.escaped,
            alike.rest⟩
      | false =>
        by_cases bare : c ≠ '\\'
        · rw [letters?_of_end part bare, letters?_of_end part bare]
          exact .some ⟨rfl, rfl, rfl, .cons c later⟩
        obtain rfl : c = '\\' := not_not.1 bare
        cases later with
        | here first second =>
          rw [letters?_of_other (by simpa using first.ne (by decide)),
            letters?_of_other (by simpa using second.ne (by decide))]
          exact .none
        | @cons d cs ds later =>
          by_cases unicode : d ≠ 'u'
          · rw [letters?_of_other (by simpa using unicode), letters?_of_other (by simpa using unicode)]
            exact .none
          obtain rfl : d = 'u' := not_not.1 unicode
          rw [letters?_of_unicode, letters?_of_unicode]
          have escapes := StringLiteral.escape?_unicode_fork later
          cases found : StringLiteral.escape? ('u' :: cs) with
          | none =>
            rw [found] at escapes
            generalize StringLiteral.escape? ('u' :: ds) = b at escapes ⊢
            cases escapes
            exact .none
          | some e =>
            have shorter := StringLiteral.escape?_rest_lt found
            rw [found] at escapes
            generalize StringLiteral.escape? ('u' :: ds) = b at escapes ⊢
            cases escapes with
            | @some _ e' alike =>
              simp only [Option.bind_some, alike.pieces]
              cases escaped? e'.pieces with
              | none => exact .none
              | some d =>
                have inner := ih e.rest.length (by simp at shorter size; omega) alike.rest rfl
                simp only [Option.bind_some]
                generalize letters? e.rest = a at inner ⊢
                generalize letters? e'.rest = b at inner ⊢
                cases inner with
                | none => exact .none
                | some inner =>
                  exact .some ⟨congrArg (d :: ·) inner.decoded, by simp [alike.taken, inner.taken], rfl,
                    inner.rest⟩

theorem read?_fork (f : Fork x y cs ds) :
    Option.Rel (Cut.Forks x y) (read? cs) (read? ds) := by
  have letters := letters?_fork f
  unfold read?
  generalize letters? cs = a at letters ⊢
  generalize letters? ds = b at letters ⊢
  cases letters with
  | none => exact .none
  | @some a b alike =>
    simp only [Option.bind_eq_bind, Option.bind_some, alike.decoded, alike.escaped]
    cases b.decoded.head? with
    | none => exact .none
    | some first =>
      simp only [Option.bind_some]
      split
      · exact .some ⟨rfl, rfl, alike.taken, alike.rest⟩
      · exact .none

theorem readPrivate?_fork (f : Fork x y cs ds) :
    Option.Rel (Cut.Forks x y) (readPrivate? cs) (readPrivate? ds) := by
  have letters := letters?_fork f
  unfold readPrivate?
  generalize letters? cs = a at letters ⊢
  generalize letters? ds = b at letters ⊢
  cases letters with
  | none => exact .none
  | @some a b alike =>
    simp only [Option.bind_eq_bind, Option.bind_some, alike.decoded]
    cases b.decoded.head? with
    | none => exact .none
    | some first =>
      simp only [Option.bind_some]
      split
      · exact .some ⟨rfl, rfl, congrArg ('#' :: ·) alike.taken, alike.rest⟩
      · exact .none

end Word

/-! ## Punctuators -/

theorem dropFront?_fork (f : Fork x y cs ds) {text : List Char} (plain : ∀ c ∈ text, ¬ IsQuote c) :
    Option.Rel (Fork x y) (Text.dropFront? text cs) (Text.dropFront? text ds) := by
  induction text generalizing cs ds with
  | nil => exact .some f
  | cons t text ih =>
    have other := plain t List.mem_cons_self
    cases f with
    | here first second =>
      rw [Text.dropFront?, Text.dropFront?, if_neg (first.ne other).symm,
        if_neg (second.ne other).symm]
      exact .none
    | cons c later =>
      rw [Text.dropFront?, Text.dropFront?]
      split
      · exact ih later fun c member => plain c (List.mem_cons_of_mem t member)
      · exact .none

theorem Scan.punct?_fork (f : Fork x y cs ds) :
    Option.Rel (Cut.Forks x y) (punct? cs) (punct? ds) := by
  have plain : ∀ entry ∈ punctuators, ∀ c ∈ entry.1, ¬ IsQuote c := by
    simp [punctuators, IsQuote]
  unfold punct?
  generalize punctuators = entries at plain ⊢
  induction entries with
  | nil => exact .none
  | cons entry entries ih =>
    obtain ⟨text, p⟩ := entry
    have fronts := dropFront?_fork f (plain (text, p) List.mem_cons_self)
    have others := ih fun entry member => plain entry (List.mem_cons_of_mem _ member)
    rw [List.findSome?_cons, List.findSome?_cons]
    dsimp only at fronts ⊢
    generalize Text.dropFront? text cs = a at fronts ⊢
    generalize Text.dropFront? text ds = b at fronts ⊢
    cases fronts with
    | none => exact others
    | some rests => exact .some ⟨rfl, rfl, rfl, rests⟩

end

end Rehome.Ecma
