import Rehome.Proofs.Ecma.Quotes

/-!
# Literals that run beyond a quote

Of two texts that part at a quote, a literal that opens before that place is read from both alike if
it ends before it too. Otherwise it runs beyond the quote, and so do comments; every other token is
read alike. The next token of the texts is therefore the same, or the first text has one that passes
over the place where they part, or both have the literals that open there.
-/
namespace Rehome.Ecma

open Character

section

variable {x y cs ds : List Char}

/-! ## Literals that may run beyond the quote -/

namespace StringLiteral

/-- Two literals that are read alike from texts that part. -/
structure Body.Forks (x y : List Char) (a b : Body) : Prop where
  pieces : a.pieces = b.pieces
  taken : a.taken = b.taken
  rest : Fork x y a.rest b.rest

theorem body?_of_escape {quote : Char} (inside : '\\' ≠ quote) {zs : List Char} {e : Escape}
    (found : escape? zs = some e) :
    body? quote ('\\' :: zs) =
      (body? quote e.rest).map fun b => ⟨e.pieces ++ b.pieces, '\\' :: e.taken ++ b.taken, b.rest⟩ := by
  rw [body?, if_neg inside, if_neg (by decide), if_pos rfl]
  split <;> simp_all

theorem body?_of_char {quote c : Char} (inside : c ≠ quote) (feed : ¬(c = '\n' || c = '\r') = true)
    (bare : c ≠ '\\') (zs : List Char) :
    body? quote (c :: zs) =
      (body? quote zs).map fun b => ⟨.char c :: b.pieces, c :: b.taken, b.rest⟩ := by
  rw [body?, if_neg inside, if_neg feed, if_neg bare]

theorem body?_rest_le {quote : Char} {zs : List Char} {b : Body} (read : body? quote zs = some b) :
    b.rest.length ≤ zs.length := by
  simp [← (body?_spec read).1]

theorem body?_fork {quote : Char} (f : Fork x y cs ds) {b : Body}
    (read : body? quote cs = some b) :
    (∃ b', body? quote ds = some b' ∧ Body.Forks x y b b') ∨ b.rest.length ≤ x.length := by
  fun_induction body? quote cs generalizing ds b with
  | case1 => cases f
  | case2 rest =>
    cases read
    cases f with
    | here => exact .inr (Nat.le_refl _)
    | @cons _ _ ds later =>
      exact .inl ⟨⟨[], [quote], ds⟩, by rw [body?, if_pos rfl], rfl, rfl, later⟩
  | case3 c rest inside feed =>
    cases read
    cases f with
    | here first =>
      rcases first with rfl | rfl <;> exact absurd feed (by decide)
    | @cons _ _ ds later =>
      exact .inl ⟨⟨[], [], c :: ds⟩, by rw [body?, if_neg inside, if_pos feed], rfl, rfl,
        .cons c later⟩
  | case4 => cases read
  | case5 rest e found _ inside _ ih =>
    obtain ⟨inner, here, rfl⟩ := Option.map_eq_some_iff.1 read
    cases f with
    | here first => exact absurd first (by decide)
    | @cons _ _ ds later =>
      have escapes := escape?_fork later
      rw [found] at escapes
      cases found' : escape? ds with
      | none =>
        rw [found'] at escapes
        cases escapes
      | some e' =>
        rw [found'] at escapes
        obtain alike | passed : Escape.Forks x y e e' ∨ e.rest = x := by
          cases escapes
          assumption
        · rcases ih alike.rest here with ⟨inner', there, inner_alike⟩ | beyond
          · have whole := body?_of_escape inside found'
            rw [there, Option.map_some] at whole
            refine .inl ⟨_, whole, ?_, ?_, inner_alike.rest⟩
            · exact congrArg₂ (· ++ ·) alike.pieces inner_alike.pieces
            · simp [alike.taken, inner_alike.taken]
          · exact .inr beyond
        · have short := body?_rest_le here
          exact .inr (passed ▸ short)
  | case6 c rest inside feed bare ih =>
    obtain ⟨inner, here, rfl⟩ := Option.map_eq_some_iff.1 read
    cases f with
    | here =>
      have short := body?_rest_le here
      exact .inr short
    | cons _ later =>
      rcases ih later here with ⟨inner', there, alike⟩ | beyond
      · have whole := body?_of_char inside feed bare
        refine .inl ⟨_, (whole _).trans (congrArg _ there), ?_, ?_, alike.rest⟩
        · exact congrArg (.char c :: ·) alike.pieces
        · exact congrArg (c :: ·) alike.taken
      · exact .inr beyond

end StringLiteral

/-- A token is read alike from texts that part, or it runs beyond the quote of the first. -/
def Cut.RunsOn (x y : List Char) (a : Cut) (b? : Option Cut) : Prop :=
  (∃ b, b? = some b ∧ a.Forks x y b) ∨ a.rest.length ≤ x.length

theorem StringLiteral.read?_fork {quote : Char} (f : Fork x y cs ds) {a : Cut}
    (read : read? quote cs = some a) : a.RunsOn x y (read? quote ds) := by
  obtain ⟨b, here, rfl⟩ := Option.map_eq_some_iff.1 read
  rcases body?_fork f here with ⟨b', there, alike⟩ | beyond
  · refine .inl ⟨_, congrArg _ there, rfl, ?_, ?_, alike.rest⟩
    · simp [alike.pieces]
    · exact congrArg (quote :: ·) alike.taken
  · exact .inr beyond

namespace Regex

theorem body?_rest_lt {escaped inClass : Bool} {zs taken rest : List Char}
    (read : body? escaped inClass zs = some (taken, rest)) : rest.length < zs.length := by
  have whole := body?_append read
  have some_taken : taken ≠ [] := by
    rintro rfl
    cases zs with
    | nil => cases read
    | cons c zs =>
      rw [body?] at read
      split at read
      · cases read
      split at read
      · simp at read
      split at read
      · simp at read
      · simp at read
  have size := congrArg List.length whole
  have := List.length_pos_iff.2 some_taken
  simp only [List.length_append] at size
  omega

theorem body?_fork (f : Fork x y cs ds) {escaped inClass : Bool} {taken rest : List Char}
    (read : body? escaped inClass cs = some (taken, rest)) :
    (∃ rest', body? escaped inClass ds = some (taken, rest') ∧ Fork x y rest rest') ∨
      rest.length ≤ x.length := by
  induction f generalizing escaped inClass taken rest with
  | here first second => exact .inr (Nat.le_of_lt_succ (body?_rest_lt read))
  | cons c later ih =>
    rw [body?] at read ⊢
    split at read
    · cases read
    next unbroken =>
    rw [if_neg unbroken]
    split at read
    next after =>
      rw [if_pos after]
      obtain ⟨⟨t, r⟩, here, same⟩ := Option.map_eq_some_iff.1 read
      cases same
      rcases ih here with ⟨rest', there, alike⟩ | beyond
      · exact .inl ⟨rest', by rw [there]; rfl, alike⟩
      · exact .inr beyond
    next before =>
    rw [if_neg before]
    split at read
    next closing =>
      rw [if_pos closing]
      cases read
      exact .inl ⟨_, rfl, later⟩
    next inside =>
      rw [if_neg inside]
      obtain ⟨⟨t, r⟩, here, same⟩ := Option.map_eq_some_iff.1 read
      cases same
      rcases ih here with ⟨rest', there, alike⟩ | beyond
      · exact .inl ⟨rest', by simp only [there]; rfl, alike⟩
      · exact .inr beyond

theorem read?_fork (f : Fork x y cs ds) {a : Cut} (read : read? cs = some a) :
    a.RunsOn x y (read? ds) := by
  simp only [read?, Option.bind_eq_bind, Option.bind_eq_some_iff] at read
  obtain ⟨⟨taken, rest⟩, here, read⟩ := read
  dsimp only at read
  rcases body?_fork f here with ⟨rest', there, rests⟩ | beyond
  · have heads := rests.head fun _ quote => quote.not_idStart
    simp only [read?, there, Option.bind_eq_bind, Option.bind_some, Cut.RunsOn, ← heads]
    split at read
    next flagged =>
      obtain ⟨flags, found, read⟩ := Option.bind_eq_some_iff.1 read
      cases read
      have alike := Word.letters?_fork rests
      rw [found] at alike
      generalize Word.letters? rest' = other at alike ⊢
      cases alike with
      | some alike =>
        rw [if_pos flagged]
        exact .inl ⟨_, rfl, rfl, rfl, by simp [alike.taken], alike.rest⟩
    next plain =>
      cases read
      rw [if_neg plain]
      exact .inl ⟨_, rfl, rfl, rfl, rfl, rests⟩
  · split at read
    · obtain ⟨flags, found, read⟩ := Option.bind_eq_some_iff.1 read
      cases read
      have whole := congrArg List.length (Word.letters?_append found)
      rw [List.length_append] at whole
      exact .inr (by dsimp only; omega)
    · cases read
      exact .inr beyond

end Regex

namespace Template

theorem isEscape_fork (f : Fork x y cs ds) : isEscape cs = isEscape ds := by
  have found : (StringLiteral.escape? cs).isSome = (StringLiteral.escape? ds).isSome := by
    have alike := StringLiteral.escape?_fork f
    generalize StringLiteral.escape? cs = a at alike ⊢
    generalize StringLiteral.escape? ds = b at alike ⊢
    cases alike <;> rfl
  cases f with
  | here first second =>
    rcases first with rfl | rfl <;> rcases second with rfl | rfl <;> exact found
  | cons c later =>
    by_cases zero : c = '0'
    · subst zero
      cases later with
      | here first second => simp [isEscape, first.not_octal, second.not_octal]
      | cons d later => rfl
    · have plain : ∀ zs, isEscape (c :: zs) =
          if Digit.isOctal c then false else (StringLiteral.escape? (c :: zs)).isSome := by
        intro zs
        cases octal : Digit.isOctal c <;> simp [isEscape, zero, octal]
      rw [plain, plain, found]

theorem chunk?_rest_lt {zs : List Char} {a : Cut} (read : chunk? zs = some a) :
    a.rest.length < zs.length := by
  fun_induction chunk? zs generalizing a with
  | case1 => cases read
  | case2 =>
    cases read
    simp
  | case3 =>
    cases read
    simp only [List.length_cons]
    omega
  | case4 c zs ih =>
    obtain ⟨inner, here, rfl⟩ := Option.map_eq_some_iff.1 read
    have := ih here
    simp
    omega
  | case5 c zs _ _ _ ih =>
    obtain ⟨inner, here, rfl⟩ := Option.map_eq_some_iff.1 read
    have := ih here
    simp
    omega

theorem chunk?_of_ne {c : Char} {zs : List Char} (closing : c ≠ '`')
    (hole : ∀ rest, c :: zs ≠ '$' :: '{' :: rest) (escape : ∀ d rest, c :: zs ≠ '\\' :: d :: rest) :
    chunk? (c :: zs) = (chunk? zs).map fun cut => { cut with taken := c :: cut.taken } := by
  rw [chunk?]
  · simpa using closing
  · simpa using hole
  · simpa using escape

theorem chunk?_fork (f : Fork x y cs ds) {a : Cut} (read : chunk? cs = some a) :
    a.RunsOn x y (chunk? ds) := by
  fun_induction chunk? cs generalizing ds a with
  | case1 => cases read
  | case2 zs =>
    cases read
    cases f with
    | here first => exact absurd first (by decide)
    | cons _ later => exact .inl ⟨_, rfl, rfl, rfl, rfl, later⟩
  | case3 zs =>
    cases read
    cases f with
    | here first => exact absurd first (by decide)
    | cons _ later =>
      cases later with
      | here first => exact absurd first (by decide)
      | cons _ later => exact .inl ⟨_, rfl, rfl, rfl, rfl, later⟩
  | case4 c zs ih =>
    obtain ⟨inner, here, rfl⟩ := Option.map_eq_some_iff.1 read
    cases f with
    | here first => exact absurd first (by decide)
    | cons _ later =>
      have escapes := isEscape_fork later
      cases later with
      | here =>
        have short := chunk?_rest_lt here
        exact .inr (Nat.le_of_lt short)
      | cons _ later =>
        rcases ih later here with ⟨inner', there, alike⟩ | beyond
        · refine .inl ⟨_, congrArg _ there, ?_, alike.value, ?_, alike.rest⟩
          · simp only [alike.kind, escapes]
          · simp only [alike.taken]
        · exact .inr beyond
  | case5 c zs closing hole escape ih =>
    obtain ⟨inner, here, rfl⟩ := Option.map_eq_some_iff.1 read
    cases f with
    | here =>
      have short := chunk?_rest_lt here
      exact .inr (Nat.le_of_lt short)
    | @cons _ _ ds later =>
      have plain : chunk? (c :: ds) = (chunk? ds).map fun cut => { cut with taken := c :: cut.taken } := by
        refine chunk?_of_ne closing ?_ ?_
        · intro rest same
          obtain ⟨rfl, rfl⟩ := List.cons.inj same
          obtain ⟨rest', rfl, -⟩ := later.exists_append ['{'] (by simp [IsQuote])
          exact hole rest' rfl rfl
        · intro d rest same
          obtain ⟨rfl, rfl⟩ := List.cons.inj same
          obtain ⟨d', rest', rfl⟩ := List.exists_cons_of_ne_nil later.ne_nil
          exact escape d' rest' rfl rfl
      rcases ih later here with ⟨inner', there, alike⟩ | beyond
      · refine .inl ⟨_, plain.trans (congrArg _ there), alike.kind, alike.value, ?_, alike.rest⟩
        simp only [alike.taken]
      · exact .inr beyond

end Template

namespace Markup

theorem text_fork (f : Fork x y cs ds) :
    cs.takeWhile (!endsText ·) = ds.takeWhile (!endsText ·) ∧
        Fork x y (cs.dropWhile (!endsText ·)) (ds.dropWhile (!endsText ·)) ∨
      (cs.dropWhile (!endsText ·)).length ≤ x.length := by
  induction f with
  | @here q r first second =>
    have passes : endsText q = false := by rcases first with rfl | rfl <;> rfl
    simp only [List.dropWhile_cons, passes]
    exact .inr (List.dropWhile_suffix _).length_le
  | cons c later ih =>
    cases stops : endsText c with
    | true =>
      simp only [List.takeWhile_cons, List.dropWhile_cons, stops]
      exact .inl ⟨rfl, .cons c later⟩
    | false => simpa [List.takeWhile_cons, List.dropWhile_cons, stops] using ih

theorem child?_fork (f : Fork x y cs ds) {a : Cut} (read : child? cs = some a) :
    (∃ b, child? ds = some b ∧ a.Forks x y b) ∨ a.kind = .jsxText ∧ a.rest.length ≤ x.length := by
  unfold child? at read
  split at read
  · cases read
  · cases read
    cases f with
    | here first => exact absurd first (by decide)
    | cons _ later => exact .inl ⟨_, rfl, rfl, rfl, rfl, later⟩
  · cases read
    cases f with
    | here first => exact absurd first (by decide)
    | cons _ later => exact .inl ⟨_, rfl, rfl, rfl, rfl, later⟩
  next c zs tag hole =>
    cases read
    cases f with
    | here => exact .inr ⟨rfl, (List.dropWhile_suffix _).length_le⟩
    | @cons _ _ ds later =>
      rcases text_fork later with ⟨same, rests⟩ | beyond
      · exact .inl ⟨_, child?.eq_4 c ds tag hole, rfl, rfl, congrArg (c :: ·) same, rests⟩
      · exact .inr ⟨rfl, beyond⟩

theorem name_fork {c : Char} (f : Fork x y cs ds) : (name c cs).Forks x y (name c ds) := by
  have parts : ∀ c, IsQuote c → isNamePart c = false := by rintro _ (rfl | rfl) <;> rfl
  obtain ⟨same, rests⟩ := f.span parts
  exact ⟨by simp [name, same], rfl, by simp [name, same], rests⟩

/-- A run that ends at the character `q`, which may be a quote. -/
theorem until_fork {q c : Char} (f : Fork x y cs ds) {rest : List Char}
    (ends : cs.dropWhile (· ≠ q) = c :: rest) :
    (∃ rest', ds.dropWhile (· ≠ q) = c :: rest' ∧
        cs.takeWhile (· ≠ q) = ds.takeWhile (· ≠ q) ∧ Fork x y rest rest') ∨
      rest.length ≤ x.length := by
  induction f with
  | @here first _ _ _ =>
    have short := (List.dropWhile_suffix (l := first :: x) (· ≠ q)).length_le
    rw [ends] at short
    exact .inr (Nat.le_of_succ_le_succ short)
  | @cons d _ ds later ih =>
    by_cases stops : d = q
    · subst stops
      simp only [ne_eq, not_true_eq_false, decide_false, Bool.false_eq_true, not_false_eq_true,
        List.dropWhile_cons_of_neg, List.cons.injEq] at ends
      obtain ⟨rfl, rfl⟩ := ends
      exact .inl ⟨ds, by simp, by simp, later⟩
    · rw [List.dropWhile_cons_of_pos (by simpa using stops)] at ends
      rcases ih ends with ⟨rest', there, same, rests⟩ | beyond
      · refine .inl ⟨rest', ?_, ?_, rests⟩
        · rw [List.dropWhile_cons_of_pos (by simpa using stops), there]
        · simp only [List.takeWhile_cons, same]
      · exact .inr beyond

theorem quoted?_fork {q : Char} (f : Fork x y cs ds) {a : Cut} (read : quoted? q cs = some a) :
    a.RunsOn x y (quoted? q ds) := by
  unfold quoted? at read
  split at read
  · cases read
  next c rest ends =>
    cases read
    rcases until_fork f ends with ⟨rest', there, same, rests⟩ | beyond
    · have whole : quoted? q ds =
          some { kind := .jsxString, taken := q :: ds.takeWhile (· ≠ q) ++ [q], rest := rest' } := by
        unfold quoted?
        rw [there]
      exact .inl ⟨_, whole, rfl, rfl, by simp only [same], rests⟩
    · exact .inr beyond

end Markup


/-! ## The token at one place -/

namespace Scan

theorem plain?_of_ne {c : Char} (question : c ≠ '?') (dot : c ≠ '.') (hash : c ≠ '#')
    (plain : ¬ IsQuote c) (zs : List Char) :
    plain? (c :: zs) =
      if Digit.isDecimal c then Number.read? (c :: zs)
      else if isIdStart c || c = '\\' then Word.read? (c :: zs)
      else punct? (c :: zs) := by
  have double : c ≠ '"' := fun same => plain (.inl same)
  have single : c ≠ '\'' := fun same => plain (.inr same)
  unfold plain?
  split <;> simp_all

theorem plain?_question {c : Char} (other : c ≠ '.') (zs : List Char) :
    plain? ('?' :: c :: zs) = punct? ('?' :: c :: zs) := by
  unfold plain?
  split
  case h_7 same =>
    obtain ⟨rfl, rfl⟩ := List.cons.inj same
    rfl
  all_goals simp_all

/-- Every token but a literal is read alike from texts that part. -/
theorem plain?_fork {c : Char} (plain : ¬ IsQuote c) (later : Fork x y cs ds) :
    Option.Rel (Cut.Forks x y) (plain? (c :: cs)) (plain? (c :: ds)) := by
  by_cases question : c = '?'
  · subst question
    cases later with
    | here first second =>
      rw [plain?_question (first.ne (by decide)), plain?_question (second.ne (by decide))]
      exact punct?_fork (.cons '?' (.here first second))
    | cons d later =>
      by_cases dot : d = '.'
      · subst dot
        simp only [plain?, later.head fun _ quote => quote.not_decimal]
        split
        · exact .some ⟨rfl, rfl, rfl, .cons '.' later⟩
        · exact .some ⟨rfl, rfl, rfl, later⟩
      · rw [plain?_question dot, plain?_question dot]
        exact punct?_fork (.cons '?' (.cons d later))
  by_cases dot : c = '.'
  · subst dot
    cases later with
    | here first second =>
      simp only [plain?, first.not_decimal, second.not_decimal]
      exact punct?_fork (.cons '.' (.here first second))
    | cons d later =>
      simp only [plain?]
      split
      · exact Number.read?_fork (.cons '.' (.cons d later))
      · exact punct?_fork (.cons '.' (.cons d later))
  by_cases hash : c = '#'
  · subst hash
    exact Word.readPrivate?_fork later
  rw [plain?_of_ne question dot hash plain, plain?_of_ne question dot hash plain]
  split
  · exact Number.read?_fork (.cons c later)
  split
  · exact Word.read?_fork (.cons c later)
  · exact punct?_fork (.cons c later)

/-- How the next tokens of two texts that part compare. A token of the first is one of the second too,
or a literal that runs beyond the quote. Where the first has none, the second has none either, unless
a literal opens there. -/
structure Compares (x y : List Char) (a? b? : Option Cut) (opens opens' : Bool) : Prop where
  found : ∀ a, a? = some a → (∃ b, b? = some b ∧ a.Forks x y b) ∨
    a.kind.mayHoldQuotes = true ∧ a.rest.length ≤ x.length
  missing : a? = none → opens = true ∨ b? = none ∧ opens' = false

theorem Compares.of_rel {a? b? : Option Cut} {opens : Bool}
    (alike : Option.Rel (Cut.Forks x y) a? b?) : Compares x y a? b? opens false := by
  cases alike with
  | none =>
    constructor
    · intro a found
      cases found
    · intro _
      exact .inr ⟨rfl, rfl⟩
  | some alike =>
    constructor
    · intro a found
      exact .inl ⟨_, rfl, Option.some.inj found ▸ alike⟩
    · intro missing
      cases missing

theorem Compares.of_literal {a? b? : Option Cut} {opens' : Bool}
    (literal : ∀ a, a? = some a → a.kind.mayHoldQuotes = true ∧ a.RunsOn x y b?) :
    Compares x y a? b? true opens' where
  found a found := (literal a found).2.imp_right fun beyond => ⟨(literal a found).1, beyond⟩
  missing _ := .inl rfl

theorem read?_literal {q : Char} {zs : List Char} {a : Cut}
    (read : StringLiteral.read? q zs = some a) :
    a.kind.mayHoldQuotes = true ∧ a.rest.length ≤ zs.length := by
  obtain ⟨b, here, rfl⟩ := Option.map_eq_some_iff.1 read
  exact ⟨rfl, StringLiteral.body?_rest_le here⟩

theorem plain?_compares (f : Fork x y cs ds) :
    Compares x y (plain? cs) (plain? ds) (opensLiteral .plain cs) (opensLiteral .plain ds) := by
  have opens : ∀ {q : Char} (zs : List Char), IsQuote q → opensLiteral .plain (q :: zs) = true := by
    rintro q zs (rfl | rfl) <;> rfl
  cases f with
  | here first second =>
    rw [plain?_quote first, opens _ first]
    exact .of_literal fun a read => ⟨(read?_literal read).1, .inr (read?_literal read).2⟩
  | @cons c _ ds later =>
    by_cases quote : IsQuote c
    · rw [plain?_quote quote, plain?_quote quote, opens _ quote]
      exact .of_literal fun a read => ⟨(read?_literal read).1, StringLiteral.read?_fork later read⟩
    · have closed : opensLiteral .plain (c :: ds) = false := by
        simpa [opensLiteral, IsQuote] using quote
      rw [closed]
      exact .of_rel (plain?_fork quote later)

theorem regex_compares (f : Fork x y cs ds) :
    Compares x y (cut? .regex cs) (cut? .regex ds) (opensLiteral .regex cs)
      (opensLiteral .regex ds) := by
  have ordinary : ∀ {c : Char} (zs : List Char), c ≠ '/' →
      cut? .regex (c :: zs) = plain? (c :: zs) ∧
        opensLiteral .regex (c :: zs) = opensLiteral .plain (c :: zs) := by
    intro c zs other
    simp [cut?, opensLiteral, other]
  cases f with
  | here first second =>
    have fst := ordinary x (first.ne (by decide))
    have snd := ordinary y (second.ne (by decide))
    rw [fst.1, fst.2, snd.1, snd.2]
    exact plain?_compares (.here first second)
  | @cons c cs ds later =>
    by_cases slash : c = '/'
    · subst slash
      refine .of_literal fun a read => ⟨?_, Regex.read?_fork later read⟩
      rw [Regex.read?_kind read]
      rfl
    · have fst := ordinary cs slash
      have snd := ordinary ds slash
      rw [fst.1, fst.2, snd.1, snd.2]
      exact plain?_compares (.cons c later)

theorem angle_compares (f : Fork x y cs ds) :
    Compares x y (cut? .angle cs) (cut? .angle ds) (opensLiteral .angle cs)
      (opensLiteral .angle ds) := by
  have ordinary : ∀ {c : Char} (zs : List Char), c ≠ '<' → c ≠ '>' →
      cut? .angle (c :: zs) = plain? (c :: zs) := by
    intro c zs opening closing
    simp [cut?, opening, closing]
  cases f with
  | here first second =>
    rw [ordinary _ (first.ne (by decide)) (first.ne (by decide)),
      ordinary _ (second.ne (by decide)) (second.ne (by decide))]
    exact plain?_compares (.here first second)
  | cons c later =>
    by_cases opening : c = '<'
    · subst opening
      exact .of_rel (.some ⟨rfl, rfl, rfl, later⟩)
    by_cases closing : c = '>'
    · subst closing
      exact .of_rel (.some ⟨rfl, rfl, rfl, later⟩)
    rw [ordinary _ opening closing, ordinary _ opening closing]
    exact plain?_compares (.cons c later)

theorem name_compares (f : Fork x y cs ds) :
    Compares x y (cut? .markupName cs) (cut? .markupName ds) (opensLiteral .markupName cs)
      (opensLiteral .markupName ds) := by
  cases f with
  | here first second =>
    simp only [cut?, first.not_idStart, second.not_idStart]
    exact plain?_compares (.here first second)
  | @cons c cs ds later =>
    simp only [cut?]
    split
    next start =>
      have plain : ¬ IsQuote c := by
        intro quote
        rw [quote.not_idStart] at start
        cases start
      have closed : opensLiteral .markupName (c :: ds) = false := by
        simpa [opensLiteral, IsQuote] using plain
      rw [closed]
      exact .of_rel (.some (Markup.name_fork later))
    next => exact plain?_compares (.cons c later)

theorem string_compares (f : Fork x y cs ds) :
    Compares x y (cut? .markupString cs) (cut? .markupString ds) (opensLiteral .markupString cs)
      (opensLiteral .markupString ds) := by
  have literal : ∀ {q : Char} {zs : List Char} {a : Cut}, Markup.quoted? q zs = some a →
      a.kind.mayHoldQuotes = true ∧ a.rest.length ≤ zs.length := by
    intro q zs a read
    unfold Markup.quoted? at read
    split at read
    · cases read
    next c rest ends =>
      cases read
      have short := (List.dropWhile_suffix (l := zs) (· ≠ q)).length_le
      rw [ends] at short
      exact ⟨rfl, Nat.le_of_succ_le short⟩
  have opens : ∀ {q : Char} (zs : List Char), IsQuote q →
      cut? .markupString (q :: zs) = Markup.quoted? q zs ∧
        opensLiteral .markupString (q :: zs) = true := by
    rintro q zs (rfl | rfl) <;> exact ⟨rfl, rfl⟩
  cases f with
  | here first second =>
    rw [(opens _ first).1, (opens _ first).2]
    exact .of_literal fun a read => ⟨(literal read).1, .inr (literal read).2⟩
  | @cons c cs ds later =>
    by_cases quote : IsQuote c
    · rw [(opens _ quote).1, (opens _ quote).1, (opens _ quote).2]
      exact .of_literal fun a read => ⟨(literal read).1, Markup.quoted?_fork later read⟩
    · have ordinary : ∀ zs, cut? .markupString (c :: zs) = plain? (c :: zs) := by
        intro zs
        have double : c ≠ '"' := fun same => quote (.inl same)
        have single : c ≠ '\'' := fun same => quote (.inr same)
        simp [cut?, double, single]
      rw [ordinary, ordinary]
      exact plain?_compares (.cons c later)

theorem child_compares (f : Fork x y cs ds) :
    Compares x y (cut? .markupChild cs) (cut? .markupChild ds) (opensLiteral .markupChild cs)
      (opensLiteral .markupChild ds) := by
  rw [cut?_markupChild, cut?_markupChild]
  constructor
  · intro a read
    rcases Markup.child?_fork f read with alike | ⟨text, beyond⟩
    · exact .inl alike
    · exact .inr ⟨by rw [text]; rfl, beyond⟩
  · intro missing
    unfold Markup.child? at missing
    split at missing
    · exact absurd rfl f.ne_nil
    all_goals cases missing

/-- The next tokens of two texts that part, in every mode. -/
theorem cut?_compares (mode : ScanMode) (f : Fork x y cs ds) :
    Compares x y (cut? mode cs) (cut? mode ds) (opensLiteral mode cs) (opensLiteral mode ds) := by
  cases mode with
  | plain =>
    rw [cut?_plain, cut?_plain]
    exact plain?_compares f
  | regex => exact regex_compares f
  | template =>
    have chunks : ∀ zs, cut? .template zs = Template.chunk? zs ∧ opensLiteral .template zs = true := by
      intro zs
      cases zs <;> exact ⟨rfl, rfl⟩
    rw [(chunks cs).1, (chunks ds).1, (chunks cs).2]
    refine .of_literal fun a read => ⟨?_, Template.chunk?_fork f read⟩
    obtain ⟨closing, valid, chunk⟩ := Template.chunk?_kind read
    rw [chunk]
    rfl
  | angle => exact angle_compares f
  | markupChild => exact child_compares f
  | markupName => exact name_compares f
  | markupString => exact string_compares f
  | nothing =>
    rw [cut?_nothing, cut?_nothing, opensLiteral_nothing ds]
    exact .of_rel .none

end Scan

/-! ## The next token -/

namespace Trivia

theorem skip_size (mode : Mode) (size : Nat) (newline : Bool) (cs : List Char) :
    (skip mode size newline cs).size + Text.width (skip mode size newline cs).rest =
      size + Text.width cs := by
  have ascii : '/'.utf8Size = 1 ∧ '*'.utf8Size = 1 ∧ '<'.utf8Size = 1 ∧ '!'.utf8Size = 1 ∧
      '-'.utf8Size = 1 ∧ '>'.utf8Size = 1 := by decide
  fun_induction skip mode size newline cs with
  | case1 => rfl
  | case6 => rfl
  | case9 => rfl
  | _ =>
    simp only [Text.width_cons] at *
    omega

/-- Where no comment opens in the first of two texts that part, none opens in the second. -/
theorem skip_other {c : Char} {size : Nat} {newline : Bool} (later : Fork x y cs ds)
    (slashes : ∀ rest, c = '/' → cs = '/' :: rest → False)
    (stars : ∀ rest, c = '/' → cs = '*' :: rest → False)
    (tag : ∀ rest, c = '<' → cs = '!' :: '-' :: '-' :: rest → False)
    (arrow : ∀ rest, c = '-' → cs = '-' :: '>' :: rest → False) :
    skip .plain size newline (c :: ds) =
      if isLineBreak c then skip .plain (size + c.utf8Size) true ds
      else if isBlank c then skip .plain (size + c.utf8Size) newline ds
      else ⟨size, newline, c :: ds⟩ := by
  refine skip.eq_6 size newline c ds ?_ ?_ ?_ ?_
  · rintro rest here rfl
    obtain ⟨rest', rfl, -⟩ := later.exists_append ['/'] (by simp [IsQuote])
    exact slashes rest' here rfl
  · rintro rest here rfl
    obtain ⟨rest', rfl, -⟩ := later.exists_append ['*'] (by simp [IsQuote])
    exact stars rest' here rfl
  · rintro rest here rfl
    obtain ⟨rest', rfl, -⟩ := later.exists_append ['!', '-', '-'] (by simp [IsQuote])
    exact tag rest' here rfl
  · rintro rest here rfl
    obtain ⟨rest', rfl, -⟩ := later.exists_append ['-', '>'] (by simp [IsQuote])
    exact arrow rest' here rfl

theorem skip_quote {q : Char} (quote : IsQuote q) (size : Nat) (newline : Bool) (zs : List Char) :
    skip .plain size newline (q :: zs) = ⟨size, newline, q :: zs⟩ := by
  rcases quote with rfl | rfl <;> rfl

theorem skip_fork {mode : Mode} {size : Nat} {newline : Bool} (f : Fork x y cs ds) :
    (skip mode size newline cs).size = (skip mode size newline ds).size ∧
        (skip mode size newline cs).newline = (skip mode size newline ds).newline ∧
        Fork x y (skip mode size newline cs).rest (skip mode size newline ds).rest ∨
      (skip mode size newline cs).rest.length ≤ x.length := by
  fun_induction skip mode size newline cs generalizing ds with
  | case1 => cases f
  | case2 size newline cs ih =>
    obtain ⟨ds, rfl, later⟩ := f.of_append ['/', '/'] (by simp [IsQuote])
    exact ih later
  | case3 size newline cs ih =>
    obtain ⟨ds, rfl, later⟩ := f.of_append ['/', '*'] (by simp [IsQuote])
    exact ih later
  | case4 size newline cs ih =>
    obtain ⟨ds, rfl, later⟩ := f.of_append ['<', '!', '-', '-'] (by simp [IsQuote])
    exact ih later
  | case5 size cs ih =>
    obtain ⟨ds, rfl, later⟩ := f.of_append ['-', '-', '>'] (by simp [IsQuote])
    exact ih later
  | case6 size newline cs stays =>
    obtain ⟨ds, rfl, later⟩ := f.of_append ['-', '-', '>'] (by simp [IsQuote])
    simp only [List.cons_append, List.nil_append, skip, stays]
    exact .inl ⟨rfl, rfl, f⟩
  | case7 size newline c cs slashes stars tag arrow ends ih =>
    cases f with
    | here first => rw [first.not_lineBreak] at ends; cases ends
    | cons _ later =>
      rw [skip_other later slashes stars tag arrow, if_pos ends]
      exact ih later
  | case8 size newline c cs slashes stars tag arrow unbroken blank ih =>
    cases f with
    | here first => rw [first.not_blank] at blank; cases blank
    | cons _ later =>
      rw [skip_other later slashes stars tag arrow, if_neg unbroken, if_pos blank]
      exact ih later
  | case9 size newline c cs slashes stars tag arrow unbroken filled =>
    cases f with
    | here first second =>
      rw [skip_quote second]
      exact .inl ⟨rfl, rfl, .here first second⟩
    | cons _ later =>
      rw [skip_other later slashes stars tag arrow, if_neg unbroken, if_neg filled]
      exact .inl ⟨rfl, rfl, .cons c later⟩
  | case10 size newline c cs ends ih =>
    cases f with
    | here first => rw [first.not_lineBreak] at ends; cases ends
    | cons _ later =>
      rw [skip.eq_7, if_pos ends]
      exact ih later
  | case11 size newline c cs within ih =>
    cases f with
    | here => exact .inr (skip_suffix ..).length_le
    | cons _ later =>
      rw [skip.eq_7, if_neg within]
      exact ih later
  | case12 size newline cs ih =>
    obtain ⟨ds, rfl, later⟩ := f.of_append ['*', '/'] (by simp [IsQuote])
    exact ih later
  | case13 size newline c cs within ih =>
    cases f with
    | here => exact .inr (skip_suffix ..).length_le
    | @cons _ _ ds later =>
      have inside : ∀ rest, c = '*' → ds = '/' :: rest → False := by
        rintro rest star rfl
        obtain ⟨rest', rfl, -⟩ := later.exists_append ['/'] (by simp [IsQuote])
        exact within rest' star rfl
      rw [skip.eq_9 size newline c ds inside]
      exact ih later

end Trivia

theorem Scan.gap_size (mode : ScanMode) (offset : Nat) (cs : List Char) :
    (gap mode offset cs).size + Text.width (gap mode offset cs).rest = Text.width cs := by
  unfold gap
  split
  · simpa using Trivia.skip_size .plain 0 (decide (offset = 0)) cs
  · simp

theorem Scan.gap_fork (mode : ScanMode) {o o' : Nat} (origin : o = 0 ↔ o' = 0)
    (f : Fork x y cs ds) :
    (gap mode o cs).size = (gap mode o' ds).size ∧
        (gap mode o cs).newline = (gap mode o' ds).newline ∧
        Fork x y (gap mode o cs).rest (gap mode o' ds).rest ∨
      (gap mode o cs).rest.length ≤ x.length := by
  have same : decide (o = 0) = decide (o' = 0) := by simp [origin]
  unfold gap
  rw [same]
  split
  · exact Trivia.skip_fork f
  · exact .inl ⟨rfl, rfl, f⟩

namespace Lexeme

/-- The token passes over byte `s` without being a string literal that starts there: it starts
later, or it is a literal that holds the byte, or one that breaks off nobody knows where. -/
def Overruns (l : Lexeme) (s : Nat) : Prop :=
  s < l.token.start ∨ l.token.kind = .broken ∨
    l.token.kind.mayHoldQuotes = true ∧ s < l.token.stop ∧ (l.token.kind = .str → l.token.start ≠ s)

instance (l : Lexeme) (s : Nat) : Decidable (l.Overruns s) :=
  inferInstanceAs (Decidable (_ ∨ _ ∨ _ ∧ _ ∧ (_ → _)))

/-- Two tokens that are read alike from texts that part, one from byte `o` on and the other from
byte `o'` on. -/
structure Forks (x y : List Char) (o o' : Nat) (l l' : Lexeme) : Prop where
  kind : l.token.kind = l'.token.kind
  value : l.token.value = l'.token.value
  newline : l.newline = l'.newline
  start : l.token.start + o' = l'.token.start + o
  stop : l.token.stop + o' = l'.token.stop + o
  rest : Fork x y l.rest l'.rest

theorem read_width (mode : ScanMode) (o : Nat) (cs : List Char) :
    (read mode o cs).token.stop + Text.width (read mode o cs).rest = o + Text.width cs := by
  have size := Scan.gap_size mode o cs
  unfold read
  dsimp only
  split
  next cut found =>
    have whole := congrArg Text.width (Scan.cut?_fits found).whole
    rw [Text.width_append] at whole
    simp only [ofCut]
    omega
  next =>
    dsimp only
    omega

theorem le_start (mode : ScanMode) (o : Nat) (cs : List Char) :
    o ≤ (read mode o cs).token.start := by
  unfold read
  dsimp only
  split <;> exact Nat.le_add_right ..

/-- What is left of a text after its quote and more has been read is narrower than what follows the
quote. -/
theorem width_le_of_passed {front zs : List Char} {q : Char} (remains : zs <:+ front ++ q :: x)
    (passed : zs.length ≤ x.length) : Text.width zs ≤ Text.width x := by
  have tail : x <:+ front ++ q :: x := ⟨front ++ [q], by simp⟩
  obtain ⟨skipped, rfl⟩ := List.suffix_of_suffix_length_le remains tail passed
  simp

end Lexeme

namespace Lexeme

/-- A token that starts after the quote passes over it. -/
theorem overruns_of_passed {mode : ScanMode} {o : Nat} {front : List Char} {q : Char}
    (passed : (Scan.gap mode o (front ++ q :: x)).rest.length ≤ x.length) :
    (read mode o (front ++ q :: x)).Overruns (o + Text.width front) := by
  have size := Scan.gap_size mode o (front ++ q :: x)
  have narrow := width_le_of_passed (Scan.gap_suffix mode o (front ++ q :: x)) passed
  have positive := q.utf8Size_pos
  simp only [Text.width_append, Text.width_cons] at size
  have late : o + Text.width front < o + (Scan.gap mode o (front ++ q :: x)).size := by omega
  refine .inl ?_
  unfold read
  dsimp only
  split <;> exact late

/-- The token at the front of two texts that part is the same, or a literal that runs beyond the
quote, unless it is a string literal of the first one. -/
theorem read_compares {mode : ScanMode} {o o' : Nat} {front : List Char} {q : Char}
    (sizes : (Scan.gap mode o (front ++ q :: x)).size = (Scan.gap mode o' ds).size)
    (newlines : (Scan.gap mode o (front ++ q :: x)).newline = (Scan.gap mode o' ds).newline)
    (rests : Fork x y (Scan.gap mode o (front ++ q :: x)).rest (Scan.gap mode o' ds).rest)
    (other : ∀ a, Scan.cut? mode (Scan.gap mode o (front ++ q :: x)).rest = some a →
      a.kind = .str → (Scan.gap mode o (front ++ q :: x)).size ≠ Text.width front) :
    (read mode o (front ++ q :: x)).Overruns (o + Text.width front) ∨
      Forks x y o o' (read mode o (front ++ q :: x)) (read mode o' ds) := by
  have compares := Scan.cut?_compares mode rests
  have whole := read_width mode o (front ++ q :: x)
  have remains := Scan.gap_suffix mode o (front ++ q :: x)
  unfold read at whole ⊢
  dsimp only at whole ⊢
  rw [← sizes, ← newlines]
  split
  next a found =>
    rcases compares.found a found with ⟨b, found', alike⟩ | ⟨literal, beyond⟩
    · right
      simp only [found', ofCut, ← alike.taken]
      exact ⟨alike.kind, alike.value, rfl, by dsimp only; omega, by dsimp only; omega, alike.rest⟩
    · left
      have after : a.rest <:+ front ++ q :: x :=
        (List.suffix_append a.taken a.rest).trans ((Scan.cut?_fits found).whole ▸ remains)
      have narrow := width_le_of_passed after beyond
      have positive := q.utf8Size_pos
      simp only [found, ofCut, Text.width_append, Text.width_cons] at whole
      refine .inr (.inr ⟨literal, ?_, ?_⟩)
      · dsimp only [ofCut]
        omega
      · intro string same
        dsimp only [ofCut] at same
        exact other a found string (Nat.add_left_cancel same)
  next missing =>
    rcases compares.missing missing with opens | ⟨missing', closed⟩
    · exact .inl (.inr (.inl (by simp only [opens, if_true])))
    · by_cases opens : Scan.opensLiteral mode (Scan.gap mode o (front ++ q :: x)).rest = true
      · exact .inl (.inr (.inl (by simp only [opens, if_true])))
      · right
        simp only [missing', closed, opens]
        exact ⟨rfl, rfl, rfl, by dsimp only; omega, by dsimp only; omega, rests⟩

/-- How the next tokens of two texts compare that part after a quote each. The token of the first
text runs across the quote, or the tokens are alike and stand before the quotes, or they are the
string literals that the quotes open. -/
theorem read_fork (mode : ScanMode) {o o' : Nat} (origin : o = 0 ↔ o' = 0) {q r : Char}
    (first : IsQuote q) (second : IsQuote r) (front x y : List Char) :
    (read mode o (front ++ q :: x)).Overruns (o + Text.width front) ∨
      Forks x y o o' (read mode o (front ++ q :: x)) (read mode o' (front ++ r :: y)) ∨
      ∃ newline,
        (∀ a, StringLiteral.read? q x = some a →
          read mode o (front ++ q :: x) = ofCut (o + Text.width front) newline a) ∧
        (∀ b, StringLiteral.read? r y = some b →
          read mode o' (front ++ r :: y) = ofCut (o' + Text.width front) newline b) := by
  have f : Fork x y (front ++ q :: x) (front ++ r :: y) := .of_front first second front
  have size := Scan.gap_size mode o (front ++ q :: x)
  rcases Scan.gap_fork mode origin f with ⟨sizes, newlines, rests⟩ | passed
  · obtain ⟨near, here, there⟩ := rests.front_of_suffix (Scan.gap_suffix mode o _)
      (Scan.gap_suffix mode o' _)
    rw [here] at size
    simp only [Text.width_append, Text.width_cons] at size
    have widths : (Scan.gap mode o (front ++ q :: x)).size + Text.width near = Text.width front := by
      omega
    by_cases atQuote : near = [] ∧ mode.readsStrings = true
    · obtain ⟨rfl, ordinary⟩ := atQuote
      simp only [Text.width_nil, Nat.add_zero, List.nil_append] at widths here there
      refine .inr (.inr ⟨(Scan.gap mode o (front ++ q :: x)).newline, ?_, ?_⟩)
      · intro a literal
        unfold read
        simp only [here, Scan.cut?_quote first ordinary, literal, widths]
      · intro b literal
        unfold read
        simp only [there, Scan.cut?_quote second ordinary, literal, ← sizes, ← newlines, widths]
    · have other : ∀ a, Scan.cut? mode (Scan.gap mode o (front ++ q :: x)).rest = some a →
          a.kind = .str → (Scan.gap mode o (front ++ q :: x)).size ≠ Text.width front := by
        intro a found string same
        cases near with
        | nil =>
          rw [here, List.nil_append] at found
          exact atQuote ⟨rfl, (Scan.cut?_literal found string).1⟩
        | cons c near =>
          have positive := c.utf8Size_pos
          rw [Text.width_cons] at widths
          omega
      exact (read_compares sizes newlines rests other).imp_right .inl
  · exact .inl (overruns_of_passed passed)

end Lexeme

end

end Rehome.Ecma
