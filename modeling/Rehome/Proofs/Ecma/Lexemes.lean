import Rehome.Ecma.Token.Scan
import Rehome.Proofs.Path.Canonical

/-!
# Tokens stand in their text

Every way to read a token takes characters from the front of the text and loses none. The value of
a string literal without escapes is among the characters that the literal takes.
-/
namespace Rehome.Ecma

/-- A token that is cut from the front of a text: nothing is lost, and its value stands in the text
as it is, unless the text has an escape. -/
structure Cut.Fits (cs : List Char) (c : Cut) : Prop where
  whole : c.taken ++ c.rest = cs
  value : '\\' ∉ cs → c.value.toList <:+: cs

/-- Most tokens have no value. -/
theorem Cut.fits_plain {kind : TokenKind} {taken rest cs : List Char} (whole : taken ++ rest = cs) :
    Cut.Fits cs { kind, taken, rest } :=
  ⟨whole, fun _ => List.nil_infix⟩

/-! ## String literals -/

namespace StringLiteral

/-- The inside of a literal loses no characters; without escapes it stands for itself. -/
theorem body?_spec {quote : Char} {cs : List Char} {b : Body} (read : body? quote cs = some b) :
    b.taken ++ b.rest = cs ∧ ('\\' ∉ b.taken →
      b.taken = decode b.pieces ∨ b.taken = decode b.pieces ++ [quote]) := by
  fun_induction body? quote cs generalizing b with
  | case1 =>
    cases read
    exact ⟨rfl, fun _ => .inl rfl⟩
  | case2 =>
    cases read
    exact ⟨rfl, fun _ => .inr rfl⟩
  | case3 =>
    cases read
    exact ⟨rfl, fun _ => .inl rfl⟩
  | case4 => cases read
  | case5 rest e found _ _ _ ih =>
    obtain ⟨inner, here, rfl⟩ := Option.map_eq_some_iff.1 read
    refine ⟨?_, fun plain => absurd List.mem_cons_self plain⟩
    have taken := escape?_taken_append found
    simp [← taken, (ih here).1]
  | case6 c rest _ _ _ ih =>
    obtain ⟨inner, here, rfl⟩ := Option.map_eq_some_iff.1 read
    obtain ⟨whole, value⟩ := ih here
    refine ⟨by simp [whole], fun plain => ?_⟩
    have later := value fun member => plain (List.mem_cons_of_mem c member)
    simpa [decode] using later

theorem read?_fits {quote : Char} {cs : List Char} {cut : Cut} (read : read? quote cs = some cut) :
    cut.Fits (quote :: cs) := by
  obtain ⟨b, here, rfl⟩ := Option.map_eq_some_iff.1 read
  obtain ⟨whole, value⟩ := body?_spec here
  refine ⟨by simp [whole], fun plain => ?_⟩
  have bare : '\\' ∉ b.taken := fun member =>
    plain (List.mem_cons_of_mem quote (whole ▸ List.mem_append_left b.rest member))
  rcases value bare with open' | closed
  · exact ⟨[quote], b.rest, by simp [← whole, open']⟩
  · exact ⟨[quote], quote :: b.rest, by simp [← whole, closed]⟩

end StringLiteral

/-! ## Words, numbers, regular expressions and templates -/

theorem Word.letters?_append {cs : List Char} {l : Letters} (read : letters? cs = some l) :
    l.taken ++ l.rest = cs := by
  fun_induction letters? cs generalizing l with
  | case1 =>
    cases read
    rfl
  | case2 c rest _ ih =>
    obtain ⟨inner, here, rfl⟩ := Option.map_eq_some_iff.1 read
    simp [ih here]
  | case3 rest e found _ d _ _ _ _ ih =>
    obtain ⟨inner, here, rfl⟩ := Option.map_eq_some_iff.1 read
    have taken := StringLiteral.escape?_taken_append found
    simp [← taken, ih here]
  | case4 => cases read
  | case5 => cases read
  | case6 => cases read
  | case7 =>
    cases read
    rfl

theorem Word.read?_fits {cs : List Char} {cut : Cut} (read : read? cs = some cut) : cut.Fits cs := by
  simp only [read?, Option.bind_eq_bind, Option.bind_eq_some_iff] at read
  obtain ⟨l, here, _, _, read⟩ := read
  split at read
  · cases read
    exact Cut.fits_plain (letters?_append here)
  · cases read

theorem Word.readPrivate?_fits {cs : List Char} {cut : Cut} (read : readPrivate? cs = some cut) :
    cut.Fits ('#' :: cs) := by
  simp only [readPrivate?, Option.bind_eq_bind, Option.bind_eq_some_iff] at read
  obtain ⟨l, here, _, _, read⟩ := read
  split at read
  · cases read
    exact Cut.fits_plain (by simp [letters?_append here])
  · cases read

namespace Number

theorem digits_append (isDigit : Char → Bool) (cs : List Char) :
    (digits isDigit cs).1 ++ (digits isDigit cs).2 = cs :=
  List.takeWhile_append_dropWhile

theorem sign_append (cs : List Char) : (sign cs).1 ++ (sign cs).2 = cs := by
  unfold sign
  split <;> rfl

theorem finish?_fits {kind : TokenKind} {taken rest : List Char} {cut : Cut}
    (read : finish? kind taken rest = some cut) : cut.Fits (taken ++ rest) := by
  unfold finish? at read
  split at read
  · split at read
    · cases read
    · cases read
      exact Cut.fits_plain rfl
  · cases read
    exact Cut.fits_plain rfl

theorem finishInteger?_fits {taken rest : List Char} {cut : Cut}
    (read : finishInteger? taken rest = some cut) : cut.Fits (taken ++ rest) := by
  unfold finishInteger? at read
  split at read
  · simpa using finish?_fits read
  · exact finish?_fits read

theorem exponent?_fits {taken rest : List Char} {cut : Cut}
    (read : exponent? taken rest = some cut) : cut.Fits (taken ++ rest) := by
  unfold exponent? at read
  split at read
  · rename_i e cs
    split at read
    · dsimp only at read
      split at read
      · have fits := finish?_fits read
        rw [List.append_assoc, digits_append] at fits
        simpa [sign_append] using fits
      · cases read
    · exact finish?_fits read
  · exact finish?_fits read

theorem fraction?_fits {taken rest : List Char} {cut : Cut}
    (read : fraction? taken rest = some cut) : cut.Fits (taken ++ rest) := by
  unfold fraction? at read
  split at read
  · have fits := exponent?_fits read
    simpa [digits_append] using fits
  · exact exponent?_fits read
  · exact exponent?_fits read
  · exact finishInteger?_fits read

theorem based?_fits {base : Nat} {mark : Char} {cs : List Char} {cut : Cut}
    (read : based? base mark cs = some cut) : cut.Fits ('0' :: mark :: cs) := by
  unfold based? at read
  dsimp only at read
  split at read
  · have fits := finishInteger?_fits read
    simpa [digits_append] using fits
  · cases read

theorem read?_fits {cs : List Char} {cut : Cut} (read : read? cs = some cut) : cut.Fits cs := by
  unfold read? at read
  split at read
  · split at read
    · exact based?_fits read
    split at read
    · exact based?_fits read
    split at read
    · exact based?_fits read
    · dsimp only at read
      split at read
      · have fits := finishInteger?_fits read
        rwa [List.cons_append, digits_append] at fits
      · have fits := fraction?_fits read
        rwa [List.cons_append, digits_append] at fits
  · exact fraction?_fits read
  · have fits := fraction?_fits read
    rwa [List.takeWhile_append_dropWhile] at fits

end Number

theorem Regex.body?_append {escaped inClass : Bool} {cs taken rest : List Char}
    (read : body? escaped inClass cs = some (taken, rest)) : taken ++ rest = cs := by
  induction cs generalizing escaped inClass taken rest with
  | nil => cases read
  | cons c cs ih =>
    rw [body?] at read
    split at read
    · cases read
    split at read
    · obtain ⟨⟨t, r⟩, here, same⟩ := Option.map_eq_some_iff.1 read
      cases same
      simp [ih here]
    split at read
    · cases read
      rfl
    · obtain ⟨⟨t, r⟩, here, same⟩ := Option.map_eq_some_iff.1 read
      cases same
      simp [ih here]

theorem Regex.read?_fits {cs : List Char} {cut : Cut} (read : read? cs = some cut) :
    cut.Fits ('/' :: cs) := by
  simp only [read?, Option.bind_eq_bind, Option.bind_eq_some_iff] at read
  obtain ⟨⟨taken, rest⟩, here, read⟩ := read
  have whole := body?_append here
  dsimp only at read
  split at read
  · obtain ⟨flags, there, read⟩ := Option.bind_eq_some_iff.1 read
    cases read
    exact Cut.fits_plain (by simp [Word.letters?_append there, whole])
  · cases read
    exact Cut.fits_plain (by simp [whole])

theorem Template.chunk?_fits {cs : List Char} {cut : Cut} (read : chunk? cs = some cut) :
    cut.Fits cs := by
  fun_induction chunk? cs generalizing cut with
  | case1 => cases read
  | case2 =>
    cases read
    exact Cut.fits_plain rfl
  | case3 =>
    cases read
    exact Cut.fits_plain rfl
  | case4 c cs ih =>
    obtain ⟨inner, here, rfl⟩ := Option.map_eq_some_iff.1 read
    exact ⟨by simp [(ih here).whole], fun plain => absurd List.mem_cons_self plain⟩
  | case5 c cs _ _ _ ih =>
    obtain ⟨inner, here, rfl⟩ := Option.map_eq_some_iff.1 read
    refine ⟨by simp [(ih here).whole], fun plain => ?_⟩
    have later := (ih here).value fun member => plain (List.mem_cons_of_mem c member)
    exact later.trans (List.suffix_cons c cs).isInfix

/-! ## Markup and punctuators -/

theorem Markup.child?_fits {cs : List Char} {cut : Cut} (read : child? cs = some cut) :
    cut.Fits cs := by
  unfold child? at read
  split at read
  · cases read
  all_goals
    cases read
    exact Cut.fits_plain (by simp)

theorem Markup.name_fits (c : Char) (cs : List Char) : (name c cs).Fits (c :: cs) :=
  Cut.fits_plain (by simp)

theorem Markup.quoted?_fits {q : Char} {cs : List Char} {cut : Cut}
    (read : quoted? q cs = some cut) : cut.Fits (q :: cs) := by
  unfold quoted? at read
  split at read
  · cases read
  · rename_i c rest dropped
    cases read
    -- what is dropped starts with the quote itself
    have ends : c = q := by
      have first := List.head?_dropWhile_not (· ≠ q) cs
      rw [dropped] at first
      simpa using first
    have whole := List.takeWhile_append_dropWhile (p := (· ≠ q)) (l := cs)
    rw [dropped, ends] at whole
    exact Cut.fits_plain (by simpa using whole)

namespace Scan

theorem punct?_fits {cs : List Char} {cut : Cut} (read : punct? cs = some cut) : cut.Fits cs := by
  obtain ⟨⟨text, p⟩, -, found⟩ := List.exists_of_findSome?_eq_some read
  obtain ⟨rest, dropped, rfl⟩ := Option.map_eq_some_iff.1 found
  exact Cut.fits_plain (Text.dropFront?_eq_some_iff.1 dropped).symm

theorem plain?_fits {cs : List Char} {cut : Cut} (read : plain? cs = some cut) : cut.Fits cs := by
  unfold plain? at read
  split at read
  · cases read
    exact Cut.fits_plain rfl
  · split at read
    · cases read
      exact Cut.fits_plain rfl
    · cases read
      exact Cut.fits_plain rfl
  · split at read
    · exact Number.read?_fits read
    · exact punct?_fits read
  · exact StringLiteral.read?_fits read
  · exact StringLiteral.read?_fits read
  · exact Word.readPrivate?_fits read
  · split at read
    · exact Number.read?_fits read
    split at read
    · exact Word.read?_fits read
    · exact punct?_fits read

theorem cut?_fits {mode : ScanMode} {cs : List Char} {cut : Cut} (read : cut? mode cs = some cut) :
    cut.Fits cs := by
  unfold cut? at read
  split at read
  · exact Regex.read?_fits read
  · exact Template.chunk?_fits read
  · cases read
    exact Cut.fits_plain rfl
  · cases read
    exact Cut.fits_plain rfl
  · exact Markup.child?_fits read
  · split at read
    · cases read
      exact Markup.name_fits ..
    · exact plain?_fits read
  · exact Markup.quoted?_fits read
  · exact Markup.quoted?_fits read
  · cases read
  · exact plain?_fits read

end Scan

/-! ## Every token takes a character -/

theorem Word.letters?_taken_ne_nil {cs : List Char} {l : Letters} (read : letters? cs = some l)
    {first : Char} (starts : l.decoded.head? = some first) : l.taken ≠ [] := by
  unfold letters? at read
  split at read
  · cases read
    cases starts
  split at read
  · obtain ⟨inner, -, rfl⟩ := Option.map_eq_some_iff.1 read
    exact List.cons_ne_nil _ _
  split at read
  · split at read
    · split at read
      · split at read
        · obtain ⟨inner, -, rfl⟩ := Option.map_eq_some_iff.1 read
          exact List.cons_ne_nil _ _
        · cases read
      · cases read
    · cases read
  · cases read
    cases starts

theorem Word.read?_taken_ne_nil {cs : List Char} {cut : Cut} (read : read? cs = some cut) :
    cut.taken ≠ [] := by
  simp only [read?, Option.bind_eq_bind, Option.bind_eq_some_iff] at read
  obtain ⟨l, here, first, starts, read⟩ := read
  split at read
  · cases read
    exact letters?_taken_ne_nil here starts
  · cases read

theorem Word.readPrivate?_taken_ne_nil {cs : List Char} {cut : Cut}
    (read : readPrivate? cs = some cut) : cut.taken ≠ [] := by
  simp only [readPrivate?, Option.bind_eq_bind, Option.bind_eq_some_iff] at read
  obtain ⟨l, here, _, _, read⟩ := read
  split at read
  · cases read
    exact List.cons_ne_nil _ _
  · cases read

namespace Number

variable {taken rest : List Char} {cut : Cut}

theorem finish?_taken {kind : TokenKind} (read : finish? kind taken rest = some cut) :
    cut.taken = taken := by
  unfold finish? at read
  split at read
  · split at read
    · cases read
    · cases read
      rfl
  · cases read
    rfl

theorem finishInteger?_keeps_front (read : finishInteger? taken rest = some cut) :
    taken <+: cut.taken := by
  unfold finishInteger? at read
  split at read
  · exact finish?_taken read ▸ List.prefix_append ..
  · exact finish?_taken read ▸ List.prefix_rfl

theorem exponent?_keeps_front (read : exponent? taken rest = some cut) : taken <+: cut.taken := by
  unfold exponent? at read
  split at read
  · split at read
    · dsimp only at read
      split at read
      · rw [finish?_taken read, List.append_assoc]
        exact List.prefix_append ..
      · cases read
    · exact finish?_taken read ▸ List.prefix_rfl
  · exact finish?_taken read ▸ List.prefix_rfl

theorem fraction?_keeps_front (read : fraction? taken rest = some cut) : taken <+: cut.taken := by
  unfold fraction? at read
  split at read
  · exact (List.prefix_append ..).trans (exponent?_keeps_front read)
  · exact exponent?_keeps_front read
  · exact exponent?_keeps_front read
  · exact finishInteger?_keeps_front read

theorem based?_keeps_front {base : Nat} {mark : Char} {cs : List Char}
    (read : based? base mark cs = some cut) : ['0'] <+: cut.taken := by
  unfold based? at read
  dsimp only at read
  split at read
  · exact (List.prefix_append ['0'] _).trans (finishInteger?_keeps_front read)
  · cases read

theorem ne_nil_of_cons_front {c : Char} {cs ds : List Char} (h : c :: cs <+: ds) : ds ≠ [] := by
  rintro rfl
  simp at h

/-- A number that starts with a digit or a point takes it. -/
theorem read?_taken_ne_nil {c : Char} {cs : List Char} (read : read? (c :: cs) = some cut)
    (starts : c = '.' ∨ Digit.isDecimal c = true) : cut.taken ≠ [] := by
  unfold read? at read
  split at read
  · split at read
    · exact ne_nil_of_cons_front (based?_keeps_front read)
    split at read
    · exact ne_nil_of_cons_front (based?_keeps_front read)
    split at read
    · exact ne_nil_of_cons_front (based?_keeps_front read)
    · dsimp only at read
      split at read
      · exact ne_nil_of_cons_front (finishInteger?_keeps_front read)
      · exact ne_nil_of_cons_front (fraction?_keeps_front read)
  · exact ne_nil_of_cons_front (exponent?_keeps_front read)
  next other =>
    have digit : isSpaced Digit.isDecimal c = true := by
      rcases starts with rfl | decimal
      · exact absurd rfl (other cs)
      · simp [isSpaced, decimal]
    have prefixed := fraction?_keeps_front read
    rw [List.takeWhile_cons_of_pos digit] at prefixed
    exact ne_nil_of_cons_front prefixed

end Number

theorem Regex.read?_taken_ne_nil {cs : List Char} {cut : Cut} (read : read? cs = some cut) :
    cut.taken ≠ [] := by
  simp only [read?, Option.bind_eq_bind, Option.bind_eq_some_iff] at read
  obtain ⟨⟨taken, rest⟩, -, read⟩ := read
  dsimp only at read
  split at read
  · obtain ⟨flags, -, read⟩ := Option.bind_eq_some_iff.1 read
    cases read
    exact List.cons_ne_nil _ _
  · cases read
    exact List.cons_ne_nil _ _

theorem Template.chunk?_taken_ne_nil {cs : List Char} {cut : Cut} (read : chunk? cs = some cut) :
    cut.taken ≠ [] := by
  unfold chunk? at read
  split at read
  · cases read
  · cases read
    exact List.cons_ne_nil _ _
  · cases read
    exact List.cons_ne_nil _ _
  · obtain ⟨inner, -, rfl⟩ := Option.map_eq_some_iff.1 read
    exact List.cons_ne_nil _ _
  · obtain ⟨inner, -, rfl⟩ := Option.map_eq_some_iff.1 read
    exact List.cons_ne_nil _ _

theorem Markup.child?_taken_ne_nil {cs : List Char} {cut : Cut} (read : child? cs = some cut) :
    cut.taken ≠ [] := by
  unfold child? at read
  split at read
  · cases read
  all_goals
    cases read
    exact List.cons_ne_nil _ _

theorem Markup.quoted?_taken_ne_nil {q : Char} {cs : List Char} {cut : Cut}
    (read : quoted? q cs = some cut) : cut.taken ≠ [] := by
  unfold quoted? at read
  split at read
  · cases read
  · cases read
    exact List.cons_ne_nil _ _

namespace Scan

theorem punct?_taken_ne_nil {cs : List Char} {cut : Cut} (read : punct? cs = some cut) :
    cut.taken ≠ [] := by
  have some_chars : ∀ entry ∈ punctuators, entry.1 ≠ [] := by decide
  obtain ⟨entry, member, found⟩ := List.exists_of_findSome?_eq_some read
  obtain ⟨rest, -, rfl⟩ := Option.map_eq_some_iff.1 found
  exact some_chars entry member

theorem plain?_taken_ne_nil {cs : List Char} {cut : Cut} (read : plain? cs = some cut)
    (present : cut.kind.isPresent = true) : cut.taken ≠ [] := by
  unfold plain? at read
  split at read
  · cases read
    cases present
  · split at read
    · cases read
      exact List.cons_ne_nil _ _
    · cases read
      exact List.cons_ne_nil _ _
  · split at read
    · exact Number.read?_taken_ne_nil read (.inl rfl)
    · exact punct?_taken_ne_nil read
  · obtain ⟨b, -, rfl⟩ := Option.map_eq_some_iff.1 read
    exact List.cons_ne_nil _ _
  · obtain ⟨b, -, rfl⟩ := Option.map_eq_some_iff.1 read
    exact List.cons_ne_nil _ _
  · exact Word.readPrivate?_taken_ne_nil read
  · split at read
    next decimal => exact Number.read?_taken_ne_nil read (.inr decimal)
    split at read
    · exact Word.read?_taken_ne_nil read
    · exact punct?_taken_ne_nil read

theorem cut?_taken_ne_nil {mode : ScanMode} {cs : List Char} {cut : Cut}
    (read : cut? mode cs = some cut) (present : cut.kind.isPresent = true) : cut.taken ≠ [] := by
  unfold cut? at read
  split at read
  · exact Regex.read?_taken_ne_nil read
  · exact Template.chunk?_taken_ne_nil read
  · cases read
    exact List.cons_ne_nil _ _
  · cases read
    exact List.cons_ne_nil _ _
  · exact Markup.child?_taken_ne_nil read
  · split at read
    · cases read
      exact List.cons_ne_nil _ _
    · exact plain?_taken_ne_nil read present
  · exact Markup.quoted?_taken_ne_nil read
  · exact Markup.quoted?_taken_ne_nil read
  · cases read
  · exact plain?_taken_ne_nil read present

end Scan

/-! ## The next token -/

theorem Trivia.skip_suffix (mode : Mode) (size : Nat) (newline : Bool) (cs : List Char) :
    (skip mode size newline cs).rest <:+ cs := by
  fun_induction skip mode size newline cs with
  | case1 => exact List.suffix_rfl
  | case2 size newline cs ih => exact ih.trans ⟨['/', '/'], rfl⟩
  | case3 size newline cs ih => exact ih.trans ⟨['/', '*'], rfl⟩
  | case4 size newline cs ih => exact ih.trans ⟨['<', '!', '-', '-'], rfl⟩
  | case5 size cs ih => exact ih.trans ⟨['-', '-', '>'], rfl⟩
  | case6 => exact List.suffix_rfl
  | case7 size newline c cs _ _ _ _ _ ih => exact ih.trans (List.suffix_cons c cs)
  | case8 size newline c cs _ _ _ _ _ _ ih => exact ih.trans (List.suffix_cons c cs)
  | case9 => exact List.suffix_rfl
  | case10 size newline c cs _ ih => exact ih.trans (List.suffix_cons c cs)
  | case11 size newline c cs _ ih => exact ih.trans (List.suffix_cons c cs)
  | case12 size newline cs ih => exact ih.trans ⟨['*', '/'], rfl⟩
  | case13 size newline c cs _ ih => exact ih.trans (List.suffix_cons c cs)

theorem Scan.gap_suffix (mode : ScanMode) (offset : Nat) (cs : List Char) :
    (gap mode offset cs).rest <:+ cs := by
  unfold gap
  split
  · exact Trivia.skip_suffix ..
  · exact List.suffix_rfl

/-- Behind a token that is there, less of the text is left. -/
theorem Lexeme.rest_length_lt {mode : ScanMode} {offset : Nat} {cs : List Char}
    (present : (read mode offset cs).token.kind.isPresent = true) :
    (read mode offset cs).rest.length < cs.length := by
  have reached := (Scan.gap_suffix mode offset cs).length_le
  unfold Lexeme.read at present ⊢
  dsimp only at present ⊢
  split at present
  next cut found =>
    have taken := List.length_pos_iff.2 (Scan.cut?_taken_ne_nil found present)
    have whole := congrArg List.length (Scan.cut?_fits found).whole
    rw [List.length_append] at whole
    simp only [ofCut]
    omega
  next =>
    split at present
    · cases present
    · cases present

/-- The next token of what remains of a text without escapes: its value stands in the text, and so
does what remains after it. -/
theorem Lexeme.read_within {text cs : List Char} (plain : '\\' ∉ text) (remains : cs <:+ text)
    (mode : ScanMode) (offset : Nat) :
    (Lexeme.read mode offset cs).rest <:+ text ∧
      (Lexeme.read mode offset cs).token.value.toList <:+: text := by
  have reached := (Scan.gap_suffix mode offset cs).trans remains
  unfold Lexeme.read
  dsimp only
  split
  next cut found =>
    have fits := Scan.cut?_fits found
    refine ⟨List.IsSuffix.trans ⟨cut.taken, fits.whole⟩ reached, ?_⟩
    exact (fits.value fun member => plain (reached.subset member)).trans reached.isInfix
  next => exact ⟨reached, List.nil_infix⟩

end Rehome.Ecma
