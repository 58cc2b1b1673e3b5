import Rehome.Proofs.Ecma.Forks

/-!
# Tokens that hold quotes

Few kinds of tokens may hold a quote, and in the ordinary ways of reading only a string literal does:
it starts with one.
-/
namespace Rehome.Ecma

/-- Whether a token of the kind may hold quotes. -/
def TokenKind.mayHoldQuotes : TokenKind → Bool
  | broken | str | regex | chunk _ _ | jsxText | jsxString => true
  | _ => false

/-- Whether a quote opens a string literal in the mode. -/
def ScanMode.readsStrings : ScanMode → Bool
  | plain | regex | angle | markupName => true
  | _ => false

namespace Number

theorem finish?_holds {kind : TokenKind} {taken rest : List Char} {a : Cut}
    (holds : kind.mayHoldQuotes = false) (read : finish? kind taken rest = some a) :
    a.kind.mayHoldQuotes = false := by
  unfold finish? at read
  split at read
  · split at read
    · cases read
    · cases read
      exact holds
  · cases read
    exact holds

theorem finishInteger?_holds {taken rest : List Char} {a : Cut}
    (read : finishInteger? taken rest = some a) : a.kind.mayHoldQuotes = false := by
  unfold finishInteger? at read
  split at read <;> exact finish?_holds rfl read

theorem exponent?_holds {taken rest : List Char} {a : Cut}
    (read : exponent? taken rest = some a) : a.kind.mayHoldQuotes = false := by
  unfold exponent? at read
  split at read
  · split at read
    · dsimp only at read
      split at read
      · exact finish?_holds rfl read
      · cases read
    · exact finish?_holds rfl read
  · exact finish?_holds rfl read

theorem fraction?_holds {taken rest : List Char} {a : Cut}
    (read : fraction? taken rest = some a) : a.kind.mayHoldQuotes = false := by
  unfold fraction? at read
  split at read
  · exact exponent?_holds read
  · exact exponent?_holds read
  · exact exponent?_holds read
  · exact finishInteger?_holds read

theorem based?_holds {base : Nat} {mark : Char} {cs : List Char} {a : Cut}
    (read : based? base mark cs = some a) : a.kind.mayHoldQuotes = false := by
  unfold based? at read
  dsimp only at read
  split at read
  · exact finishInteger?_holds read
  · cases read

theorem read?_holds {cs : List Char} {a : Cut} (read : read? cs = some a) :
    a.kind.mayHoldQuotes = false := by
  unfold read? at read
  split at read
  · split at read
    · exact based?_holds read
    split at read
    · exact based?_holds read
    split at read
    · exact based?_holds read
    · dsimp only at read
      split at read
      · exact finishInteger?_holds read
      · exact fraction?_holds read
  · exact fraction?_holds read
  · exact fraction?_holds read

end Number
theorem Regex.read?_kind {zs : List Char} {a : Cut} (read : read? zs = some a) : a.kind = .regex := by
  simp only [read?, Option.bind_eq_bind, Option.bind_eq_some_iff] at read
  obtain ⟨⟨taken, rest⟩, -, read⟩ := read
  dsimp only at read
  split at read
  · obtain ⟨flags, -, read⟩ := Option.bind_eq_some_iff.1 read
    cases read
    rfl
  · cases read
    rfl

theorem Word.read?_holds {cs : List Char} {a : Cut} (read : read? cs = some a) :
    a.kind.mayHoldQuotes = false := by
  simp only [read?, Option.bind_eq_bind, Option.bind_eq_some_iff] at read
  obtain ⟨l, -, _, -, read⟩ := read
  split at read <;> cases read
  rfl

theorem Word.readPrivate?_holds {cs : List Char} {a : Cut} (read : readPrivate? cs = some a) :
    a.kind.mayHoldQuotes = false := by
  simp only [readPrivate?, Option.bind_eq_bind, Option.bind_eq_some_iff] at read
  obtain ⟨l, -, _, -, read⟩ := read
  split at read <;> cases read
  rfl

theorem Template.chunk?_kind {zs : List Char} {a : Cut} (read : chunk? zs = some a) :
    ∃ closing valid, a.kind = .chunk closing valid := by
  fun_induction chunk? zs generalizing a with
  | case1 => cases read
  | case2 =>
    cases read
    exact ⟨true, true, rfl⟩
  | case3 =>
    cases read
    exact ⟨false, true, rfl⟩
  | case4 c zs ih =>
    obtain ⟨inner, here, rfl⟩ := Option.map_eq_some_iff.1 read
    obtain ⟨closing, valid, chunk⟩ := ih here
    exact ⟨closing, valid && isEscape (c :: zs), by simp only [chunk]⟩
  | case5 c zs _ _ _ ih =>
    obtain ⟨inner, here, rfl⟩ := Option.map_eq_some_iff.1 read
    obtain ⟨closing, valid, chunk⟩ := ih here
    exact ⟨closing, valid, chunk⟩

theorem Markup.quoted?_kind {q : Char} {zs : List Char} {a : Cut} (read : quoted? q zs = some a) :
    a.kind = .jsxString := by
  unfold quoted? at read
  split at read
  · cases read
  · cases read
    rfl

/-! ## At a quote -/

namespace Scan

theorem cut?_plain (cs : List Char) : cut? .plain cs = plain? cs := by
  cases cs <;> rfl

theorem cut?_markupChild (cs : List Char) : cut? .markupChild cs = Markup.child? cs := by
  cases cs <;> rfl

theorem cut?_nothing (cs : List Char) : cut? .nothing cs = none := by
  cases cs <;> rfl

theorem opensLiteral_nothing (cs : List Char) : opensLiteral .nothing cs = false := by
  cases cs <;> rfl

theorem plain?_quote {q : Char} (quote : IsQuote q) (zs : List Char) :
    plain? (q :: zs) = StringLiteral.read? q zs := by
  rcases quote with rfl | rfl <;> rfl

/-- In the modes that go on like the ordinary one a quote opens a string literal. -/
theorem cut?_quote {mode : ScanMode} {q : Char} (quote : IsQuote q)
    (strings : mode.readsStrings = true) (zs : List Char) :
    cut? mode (q :: zs) = StringLiteral.read? q zs := by
  cases mode with
  | plain => exact plain?_quote quote zs
  | regex => rcases quote with rfl | rfl <;> rfl
  | angle => rcases quote with rfl | rfl <;> rfl
  | markupName => rcases quote with rfl | rfl <;> rfl
  | template => cases strings
  | markupChild => cases strings
  | markupString => cases strings
  | nothing => cases strings

theorem punct?_kind {cs : List Char} {a : Cut} (read : punct? cs = some a) :
    a.kind.mayHoldQuotes = false := by
  obtain ⟨⟨text, p⟩, -, found⟩ := List.exists_of_findSome?_eq_some read
  obtain ⟨rest, -, rfl⟩ := Option.map_eq_some_iff.1 found
  rfl

/-- A token that is read in the ordinary way and may hold quotes is a string literal. -/
theorem plain?_literal {cs : List Char} {a : Cut} (read : plain? cs = some a)
    (holds : a.kind.mayHoldQuotes = true) :
    ∃ q zs, IsQuote q ∧ cs = q :: zs ∧ StringLiteral.read? q zs = some a := by
  refine Classical.byContradiction fun other => ?_
  have free : a.kind.mayHoldQuotes = false := by
    unfold plain? at read
    split at read
    · cases read
      rfl
    · split at read <;> cases read <;> rfl
    · split at read
      · exact Number.read?_holds read
      · exact punct?_kind read
    · exact absurd ⟨_, _, .inl rfl, rfl, read⟩ other
    · exact absurd ⟨_, _, .inr rfl, rfl, read⟩ other
    · exact Word.readPrivate?_holds read
    · split at read
      · exact Number.read?_holds read
      split at read
      · exact Word.read?_holds read
      · exact punct?_kind read
  rw [holds] at free
  cases free

/-- A string literal is what a quote opens, in a mode that reads string literals. -/
theorem cut?_literal {mode : ScanMode} {cs : List Char} {a : Cut} (read : cut? mode cs = some a)
    (string : a.kind = .str) :
    mode.readsStrings = true ∧
      ∃ q zs, IsQuote q ∧ cs = q :: zs ∧ StringLiteral.read? q zs = some a := by
  have ordinary : plain? cs = some a →
      ∃ q zs, IsQuote q ∧ cs = q :: zs ∧ StringLiteral.read? q zs = some a :=
    fun read => plain?_literal read (by rw [string]; rfl)
  unfold cut? at read
  split at read
  · rw [Regex.read?_kind read] at string
    cases string
  · obtain ⟨closing, valid, chunk⟩ := Template.chunk?_kind read
    rw [chunk] at string
    cases string
  · cases read
    cases string
  · cases read
    cases string
  · unfold Markup.child? at read
    split at read <;> cases read <;> cases string
  · split at read
    · cases read
      cases string
    · exact ⟨rfl, ordinary read⟩
  · rw [Markup.quoted?_kind read] at string
    cases string
  · rw [Markup.quoted?_kind read] at string
    cases string
  · cases read
  next chunks child nothing' _ _ _ _ double single =>
    obtain ⟨q, zs, quote, rfl, literal⟩ := ordinary read
    refine ⟨?_, q, zs, quote, rfl, literal⟩
    cases mode with
    | plain => rfl
    | regex => rfl
    | angle => rfl
    | markupName => rfl
    | template => exact absurd rfl chunks
    | markupChild => exact absurd rfl child
    | markupString =>
      rcases quote with rfl | rfl
      · exact (double zs rfl rfl).elim
      · exact (single zs rfl rfl).elim
    | nothing => exact absurd rfl nothing'

end Scan
end Rehome.Ecma
