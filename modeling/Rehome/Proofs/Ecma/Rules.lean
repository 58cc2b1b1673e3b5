import Rehome.Ecma.Module
import Rehome.Proofs.Ecma.Lexemes

/-!
# What every grammar keeps

A rule can only move tokens onto the stack, group trees, forget them and read the next token another
way. What these instructions keep, every rule keeps, whatever the grammar says; so the tokens of a
tree are tokens of its text.
-/
namespace Rehome.Ecma

/-! ## Rules -/

/-- Where a rule stands after it answered or failed. -/
def Outcome.reader {α : Type} : Outcome α → Reader
  | .ok _ r => r
  | .failed r => r

/-- A property of readers that the single instructions of rules keep. -/
structure Reader.Lasting (inv : Reader → Prop) : Prop where
  take : ∀ r mode, inv r → r.next.token.kind.isPresent = true → inv (r.take mode)
  rescan : ∀ r mode, inv r → inv (r.rescan mode)
  wrap : ∀ r kind height, inv r → inv (r.wrap kind height)
  forget : ∀ r height, inv r → inv (r.forget height)

section Rules

variable {inv : Reader → Prop}

theorem Outcome.iterate_keeps {σ : Type} {step : σ → Reader → Outcome (Option σ)}
    (keeps : ∀ s r, inv r → inv (step s r).reader) (n : Nat) (s : σ) (r : Reader) (holds : inv r) :
    inv (Outcome.iterate step n s r).reader := by
  induction n generalizing s r with
  | zero => exact holds
  | succ n ih =>
    have after := keeps s r holds
    rw [Outcome.iterate]
    split
    next s' r' again =>
      rw [again] at after
      split
      · exact ih s' r' after
      · exact after
    next r' ended =>
      rw [ended] at after
      exact after
    next r' failed =>
      rw [failed] at after
      exact after

/-- What the instructions keep, and the rules of the nonterminals keep, every rule keeps. -/
theorem Rule.run_keeps {N : Type} (lasting : Reader.Lasting inv)
    {follow : N → Context → Reader → Outcome Unit}
    (keeps : ∀ n c r, inv r → inv (follow n c r).reader) {α : Type} (p : Rule N α) (c : Context)
    (r : Reader) (holds : inv r) : inv (p.run follow c r).reader := by
  induction p generalizing c r with
  | done a => exact holds
  | andThen p k ihp ihk =>
    have first := ihp c r holds
    rw [Rule.run]
    split
    next a r' answered =>
      rw [answered] at first
      exact ihk a c r' first
    next r' failed =>
      rw [failed] at first
      exact first
  | fail => exact holds
  | look => exact holds
  | lookAhead => exact holds
  | take mode =>
    rw [Rule.run]
    split
    next present => exact lasting.take r mode holds present
    next => exact holds
  | rescan mode => exact lasting.rescan r mode holds
  | mark => exact holds
  | wrap kind height => exact lasting.wrap r kind height holds
  | forget height => exact lasting.forget r height holds
  | ask query => exact holds
  | context => exact holds
  | within change p ih => exact ih (c.change change) r holds
  | attempt p q ihp ihq =>
    have first := ihp c r holds
    rw [Rule.run]
    split
    · split
      next a r' answered =>
        rw [answered] at first
        exact first
      next => exact ihq c r holds
    · exact ihq c r holds
  | recover p q ihp ihq =>
    have first := ihp c r holds
    rw [Rule.run]
    split
    next a r' answered =>
      rw [answered] at first
      exact first
    next r' failed =>
      rw [failed] at first
      exact ihq c r' first
  | probe p ih =>
    rw [Rule.run]
    split
    · split
      next => exact holds
      next => exact holds
    · exact holds
  | call n => exact keeps n c r holds
  | iterate body s ih => exact Outcome.iterate_keeps (fun s => ih s c) r.left s r holds

theorem Rule.enter_keeps {N : Type} (lasting : Reader.Lasting inv) (rules : N → Rule N Unit)
    {deeper : N → Context → Reader → Outcome Unit}
    (keeps : ∀ m c r, inv r → inv (deeper m c r).reader) (n : Nat) (m : N) (c : Context) (r : Reader)
    (holds : inv r) : inv (Rule.enter rules deeper n m c r).reader := by
  induction n generalizing m c r with
  | zero => exact holds
  | succ n ih =>
    refine Rule.run_keeps lasting (fun m c r' later => ?_) (rules m) c r holds
    split
    · exact keeps m c r' later
    · exact ih m c r' later

theorem Rule.follow_keeps {N : Type} (lasting : Reader.Lasting inv) (rules : N → Rule N Unit)
    (n : Nat) (m : N) (c : Context) (r : Reader) (holds : inv r) :
    inv (Rule.follow rules n m c r).reader := by
  induction n generalizing m c r with
  | zero => exact holds
  | succ n ih => exact Rule.enter_keeps lasting rules ih Rule.chainLimit m c r holds

end Rules

/-! ## Trees of a text -/

/-- A tree whose tokens have values that stand in the text. -/
def Tree.StandsIn (text : List Char) (t : Tree) : Prop :=
  ∀ token ∈ t.tokens, token.value.toList <:+: text

theorem Tree.mem_tokensOf {token : Token} {ts : List Tree} :
    token ∈ tokensOf ts ↔ ∃ t ∈ ts, token ∈ t.tokens := by
  induction ts with
  | nil => simp [tokensOf]
  | cons t ts ih => simp [tokensOf, ih]

/-- A reader of a text: what it has still to read remains of the text, and the values of what it has
read stand there. -/
structure Reader.ReadsIn (text : List Char) (r : Reader) : Prop where
  input : r.input <:+ text
  rest : r.next.rest <:+ text
  next : r.next.token.value.toList <:+: text
  stack : ∀ t ∈ r.stack, t.StandsIn text

theorem Reader.lasting_readsIn {text : List Char} (plain : '\\' ∉ text) :
    Reader.Lasting (Reader.ReadsIn text) where
  take r mode reads _ := by
    have after := Lexeme.read_within plain reads.rest (mode.after r.next.token.kind)
      r.next.token.stop
    have leaf : (Tree.leaf r.next.token).StandsIn text := by
      simpa [Tree.StandsIn, Tree.tokens] using reads.next
    exact ⟨reads.rest, after.1, after.2, by simpa [Reader.take] using ⟨leaf, reads.stack⟩⟩
  rescan r mode reads := by
    have again := Lexeme.read_within plain reads.input mode r.offset
    unfold Reader.rescan
    split
    · exact ⟨reads.input, again.1, again.2, reads.stack⟩
    · exact reads
  wrap r kind height reads := by
    refine ⟨reads.input, reads.rest, reads.next, fun t member => ?_⟩
    rcases List.mem_cons.1 member with rfl | old
    · intro token inside
      rw [Tree.tokens, Tree.mem_tokensOf] at inside
      obtain ⟨part, here, within⟩ := inside
      exact reads.stack part (List.mem_of_mem_take (List.mem_reverse.1 here)) token within
    · exact reads.stack t (List.mem_of_mem_drop old)
  forget r height reads :=
    ⟨reads.input, reads.rest, reads.next, fun t member =>
      reads.stack t (List.mem_of_mem_drop member)⟩

theorem Module.skipInterpreter_suffix (text : List Char) : (skipInterpreter text).2 <:+ text := by
  unfold skipInterpreter
  split
  next cs => exact (List.drop_suffix _ cs).trans ⟨['#', '!'], rfl⟩
  next => exact List.suffix_rfl

/-- What the instructions keep holds where a module has been read. -/
theorem Module.parse?_keeps {inv : Reader → Prop} (lasting : Reader.Lasting inv) {d : Dialect}
    {text : List Char} {tree : Tree}
    (start : inv (Reader.start (skipInterpreter text).1 (skipInterpreter text).2))
    (parsed : parse? d text = some tree) : ∃ r, inv r ∧ r.stack.head? = some tree := by
  have ends := Rule.follow_keeps lasting Nonterminal.rule
    (Reader.start (skipInterpreter text).1 (skipInterpreter text).2).left .program (context d) _ start
  unfold parse? at parsed
  dsimp only at parsed
  split at parsed
  next r answered =>
    rw [answered] at ends
    exact ⟨r, ends, parsed⟩
  next => cases parsed

/-- The tree of a text without escapes holds no value that the text does not hold. -/
theorem Module.parse?_standsIn {d : Dialect} {text : List Char} {tree : Tree}
    (plain : '\\' ∉ text) (parsed : parse? d text = some tree) : tree.StandsIn text := by
  have body := skipInterpreter_suffix text
  have start : (Reader.start (skipInterpreter text).1 (skipInterpreter text).2).ReadsIn text := by
    have first := Lexeme.read_within plain body .plain (skipInterpreter text).1
    exact ⟨body, first.1, first.2, by simp [Reader.start]⟩
  obtain ⟨r, reads, newest⟩ := parse?_keeps (Reader.lasting_readsIn plain) start parsed
  exact reads.stack tree (List.mem_of_head? newest)

end Rehome.Ecma
