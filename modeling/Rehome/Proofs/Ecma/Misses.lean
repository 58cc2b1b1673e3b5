import Rehome.Proofs.Ecma.Layout

/-!
# Literals that a reader misses

Once a token has run across a literal of the text, or the reader is stuck before it, no rule brings
the literal back: it never becomes part of a tree. Reading a token again does not help, since only
operators are read again, and they start where they started.
-/
namespace Rehome.Ecma

/-- Only operators are read again, unless they are refused. -/
theorem ScanMode.rereads_cases {mode : ScanMode} {kind : TokenKind} (again : mode.rereads kind = true) :
    mode = .nothing ∨ (mode = .regex ∨ mode = .angle) ∧
      ∃ p, kind = .punct p ∧ p ∉ [.lt, .lbrace] ∧ kind.leadsOn = false := by
  cases mode with
  | nothing => exact .inl rfl
  | regex =>
    cases kind with
    | punct p =>
      refine .inr ⟨.inl rfl, p, rfl, ?_⟩
      cases p <;> first | exact ⟨by decide, rfl⟩ | cases again
    | _ => cases again
  | angle =>
    cases kind with
    | punct p =>
      refine .inr ⟨.inr rfl, p, rfl, ?_⟩
      cases p <;> first | exact ⟨by decide, rfl⟩ | cases again
    | _ => cases again
  | _ => cases again

namespace Lexeme

theorem read_start (mode : ScanMode) (o : Nat) (cs : List Char) :
    (read mode o cs).token.start = o + (Scan.gap mode o cs).size := by
  unfold read
  dsimp only
  split <;> rfl

theorem read_nothing (o : Nat) (cs : List Char) : (read .nothing o cs).token.kind = .invalid := by
  unfold read
  simp [Scan.cut?_nothing, Scan.opensLiteral_nothing]

/-- An operator that may be read again was read after the blanks. -/
theorem skipsTrivia_of_punct {mode : ScanMode} {o : Nat} {cs : List Char} {p : Punct}
    (operator : (read mode o cs).token.kind = .punct p) (other : p ∉ [.lt, .lbrace]) :
    Scan.skipsTrivia mode = true := by
  unfold read at operator
  dsimp only at operator
  split at operator
  next cut found =>
    cases mode with
    | template =>
      obtain ⟨closing, valid, chunk⟩ := Template.chunk?_kind found
      rw [ofCut, chunk] at operator
      cases operator
    | markupChild =>
      rw [Scan.cut?_markupChild] at found
      unfold Markup.child? at found
      split at found
      · cases found
      all_goals
        cases found
        cases operator
      · exact absurd List.mem_cons_self other
      · exact absurd (List.mem_cons_of_mem _ List.mem_cons_self) other
    | _ => rfl
  next => split at operator <;> cases operator

theorem gap_eq_plain {mode : ScanMode} (skips : Scan.skipsTrivia mode = true) (o : Nat)
    (cs : List Char) : Scan.gap mode o cs = Scan.gap .plain o cs := by
  unfold Scan.gap
  rw [skips]
  rfl

/-- At a quote the modes that read string literals do not differ. -/
theorem read_eq_plain {mode : ScanMode} (strings : mode.readsStrings = true) {o : Nat}
    {cs zs : List Char} {q : Char} (quote : IsQuote q)
    (here : (Scan.gap .plain o cs).rest = q :: zs) : read mode o cs = read .plain o cs := by
  have skips : Scan.skipsTrivia mode = true := by
    cases mode <;> first | rfl | cases strings
  have opens : Scan.opensLiteral mode (q :: zs) = Scan.opensLiteral .plain (q :: zs) := by
    rcases quote with rfl | rfl <;> cases mode <;> first | rfl | cases strings
  have ordinary : Scan.cut? .plain (q :: zs) = StringLiteral.read? q zs :=
    Scan.cut?_quote quote rfl zs
  unfold read
  simp only [gap_eq_plain skips, here, Scan.cut?_quote quote strings, ordinary, opens]

/-- In the ordinary way only a quote opens what may hold quotes. -/
theorem quote_of_holds {o : Nat} {cs : List Char}
    (holds : (read .plain o cs).token.kind.mayHoldQuotes = true) :
    ∃ q zs, IsQuote q ∧ (Scan.gap .plain o cs).rest = q :: zs := by
  unfold read at holds
  dsimp only at holds
  split at holds
  next cut found =>
    rw [Scan.cut?_plain] at found
    obtain ⟨q, zs, quote, here, -⟩ := Scan.plain?_literal found holds
    exact ⟨q, zs, quote, here⟩
  next =>
    split at holds
    next opens =>
      generalize (Scan.gap .plain o cs).rest = ds at opens ⊢
      cases ds with
      | nil => cases opens
      | cons c ds => exact ⟨c, ds, by simpa [Scan.opensLiteral, IsQuote] using opens, rfl⟩
    next => cases holds

/-- A token that overruns a place when it is read in the ordinary way does so in each mode that
reads string literals. -/
theorem overruns_of_plain {mode : ScanMode} {o s : Nat} {cs : List Char}
    (strings : mode.readsStrings = true) (overruns : (read .plain o cs).Overruns s) :
    (read mode o cs).Overruns s := by
  have skips : Scan.skipsTrivia mode = true := by
    cases mode <;> first | rfl | cases strings
  by_cases holds : (read .plain o cs).token.kind.mayHoldQuotes = true
  · obtain ⟨q, zs, quote, here⟩ := quote_of_holds holds
    rwa [read_eq_plain strings quote here]
  rcases overruns with late | broken | ⟨may, -, -⟩
  · left
    rw [read_start] at late ⊢
    rwa [gap_eq_plain skips]
  · rw [broken] at holds
    exact absurd rfl holds
  · exact absurd may holds

end Lexeme

/-- After a token that leads on, the text goes on in a mode that reads string literals, or is
refused. -/
theorem ScanMode.after_cases (mode : ScanMode) {kind : TokenKind} (leads : kind.leadsOn = true) :
    mode.after kind = .nothing ∨ (mode.after kind).readsStrings = true := by
  cases mode with
  | nothing => exact .inl rfl
  | template => exact .inr (by simp [after, leads, readsStrings])
  | markupChild => exact .inr (by simp [after, leads, readsStrings])
  | markupString => exact .inr (by simp [after, leads, readsStrings])
  | plain => exact .inr rfl
  | regex => exact .inr rfl
  | angle => exact .inr rfl
  | markupName => exact .inr rfl

namespace Reader

/-- The reader has not taken the literal that starts at byte `s`, and stands beyond it, or before a
token that overruns it or cannot be taken, or two tokens before. -/
structure Misses (s : Nat) (r : Reader) : Prop where
  next : ∃ mode, r.next = Lexeme.read mode r.offset r.input
  tokens : ∀ t ∈ r.tokens, t.kind = .str → t.start = s → t.stop ≤ s
  passed : s < r.offset ∨ r.next.Overruns s ∨ r.next.token.kind = .invalid ∨
    r.next.token.kind.leadsOn = true ∧ r.ahead.Overruns s

variable {s : Nat} {r : Reader}

/-- The token ahead is not the literal. -/
theorem Misses.other (missed : r.Misses s) (string : r.next.token.kind = .str) :
    r.next.token.start ≠ s := by
  obtain ⟨mode, next⟩ := missed.next
  have start := Lexeme.le_start mode r.offset r.input
  rw [← next] at start
  rcases missed.passed with beyond | (late | broken | ⟨-, -, other⟩) | invalid | ⟨leads, -⟩
  · omega
  · omega
  · rw [string] at broken
    cases broken
  · exact other string
  · rw [string] at invalid
    cases invalid
  · rw [string] at leads
    cases leads

theorem Misses.take (missed : r.Misses s) (mode : ScanMode)
    (present : r.next.token.kind.isPresent = true) : (r.take mode).Misses s := by
  obtain ⟨current, next⟩ := missed.next
  have start := Lexeme.le_start current r.offset r.input
  have stop := Lexeme.start_le_stop current r.offset r.input
  rw [← next] at start stop
  refine ⟨⟨_, rfl⟩, ?_, ?_⟩
  · intro t member string here
    rw [tokens_take, List.mem_append, List.mem_singleton] at member
    rcases member with old | rfl
    · exact missed.tokens t old string here
    · exact absurd here (missed.other string)
  · rcases missed.passed with beyond | (late | broken | ⟨-, within, -⟩) | invalid | ⟨leads, ahead⟩
    · exact .inl (by simp only [Reader.take]; omega)
    · exact .inl (by simp only [Reader.take]; omega)
    · rw [broken] at present
      cases present
    · exact .inl within
    · rw [invalid] at present
      cases present
    · right
      rcases mode.after_cases leads with refused | strings
      · right
        left
        simp only [Reader.take, refused]
        exact Lexeme.read_nothing ..
      · left
        exact Lexeme.overruns_of_plain strings ahead

theorem Misses.rescan (missed : r.Misses s) (mode : ScanMode) : (r.rescan mode).Misses s := by
  obtain ⟨current, next⟩ := missed.next
  unfold Reader.rescan
  split
  next again =>
    refine ⟨⟨mode, rfl⟩, missed.tokens, ?_⟩
    rcases ScanMode.rereads_cases again with rfl | ⟨way, p, operator, other, stays⟩
    · exact .inr (.inr (.inl (Lexeme.read_nothing ..)))
    rcases missed.passed with beyond | (late | broken | ⟨holds, -, -⟩) | invalid | ⟨leads, -⟩
    · exact .inl beyond
    · right
      left
      left
      have skips : Scan.skipsTrivia mode = true := by rcases way with rfl | rfl <;> rfl
      rw [next] at operator late
      have skipped := Lexeme.skipsTrivia_of_punct operator other
      rw [Lexeme.read_start, Lexeme.gap_eq_plain skipped] at late
      rw [Lexeme.read_start, Lexeme.gap_eq_plain skips]
      exact late
    · rw [operator] at broken
      cases broken
    · rw [operator] at holds
      cases holds
    · rw [operator] at invalid
      cases invalid
    · rw [stays] at leads
      cases leads
  next => exact missed

/-- No rule brings a missed literal back. -/
theorem lasting_misses (s : Nat) : Lasting (Misses s) where
  take r mode missed present := missed.take mode present
  rescan r mode missed := missed.rescan mode
  wrap r kind height missed := by
    have tokens := r.tokens_wrap kind height
    exact ⟨missed.next, by rw [tokens]; exact missed.tokens, missed.passed⟩
  forget r height missed :=
    ⟨missed.next, fun t member => missed.tokens t ((r.tokens_forget height).subset member),
      missed.passed⟩

end Reader

end Rehome.Ecma
