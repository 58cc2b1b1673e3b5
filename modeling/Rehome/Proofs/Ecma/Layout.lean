import Rehome.Proofs.Ecma.Rules
import Rehome.Proofs.Ecma.Swaps

/-!
# Where the tokens of a tree stand

The tokens that a reader has taken stand in its text one after the other, and its string literals are
the string literals of the text. What a rule does to the stack of trees changes none of that, since
it only groups trees or forgets the newest.
-/
namespace Rehome.Ecma

open Text (width)

/-! ## The tokens of a stack -/

namespace Tree

@[simp] theorem tokensOf_append (ts us : List Tree) :
    tokensOf (ts ++ us) = tokensOf ts ++ tokensOf us := by
  induction ts with
  | nil => rfl
  | cons t ts ih => simp [tokensOf, ih]

@[simp] theorem tokensOf_singleton (t : Tree) : tokensOf [t] = t.tokens := by
  simp [tokensOf]

mutual
/-- A tree starts where its first token starts. -/
theorem start?_eq (t : Tree) : t.start? = t.tokens.head?.map Token.start := by
  match t with
  | .leaf _ => rfl
  | .node _ children => rw [start?, tokens, startOf?_eq children]

theorem startOf?_eq (ts : List Tree) : startOf? ts = (tokensOf ts).head?.map Token.start := by
  match ts with
  | [] => rfl
  | t :: ts =>
    rw [startOf?, tokensOf, start?_eq t, startOf?_eq ts, List.head?_append, Option.map_or]
end

mutual
/-- A tree ends where its last token ends. -/
theorem stop?_eq (t : Tree) : t.stop? = t.tokens.getLast?.map Token.stop := by
  match t with
  | .leaf _ => rfl
  | .node _ children => rw [stop?, tokens, stopOf?_eq children]

theorem stopOf?_eq (ts : List Tree) : stopOf? ts = (tokensOf ts).getLast?.map Token.stop := by
  match ts with
  | [] => rfl
  | t :: ts =>
    rw [stopOf?, tokensOf, stop?_eq t, stopOf?_eq ts, List.getLast?_append, Option.map_or]
end

end Tree

namespace Reader

/-- The tokens of the trees that are finished, in the order of the text. -/
def tokens (r : Reader) : List Token := Tree.tokensOf r.stack.reverse

@[simp] theorem tokens_take (r : Reader) (mode : ScanMode) :
    (r.take mode).tokens = r.tokens ++ [r.next.token] := by
  simp [tokens, take, Tree.tokens]

@[simp] theorem tokens_rescan (r : Reader) (mode : ScanMode) :
    (r.rescan mode).tokens = r.tokens := by
  unfold rescan
  split <;> rfl

@[simp] theorem tokens_wrap (r : Reader) (kind : NodeKind) (height : Nat) :
    (r.wrap kind height).tokens = r.tokens := by
  have parts := List.take_append_drop (r.height - height) r.stack
  unfold tokens
  rw [← parts, List.reverse_append, Tree.tokensOf_append]
  simp [wrap, Tree.tokens]

theorem tokens_forget (r : Reader) (height : Nat) : (r.forget height).tokens <+: r.tokens := by
  have parts := List.take_append_drop (r.height - height) r.stack
  unfold tokens
  rw [← parts, List.reverse_append, Tree.tokensOf_append]
  simp [forget]

theorem tokens_of_head? {r : Reader} {t : Tree} (newest : r.stack.head? = some t) :
    t.tokens <:+ r.tokens := by
  obtain ⟨older, stack⟩ := List.head?_eq_some_iff.1 newest
  simp [tokens, stack]

end Reader

/-! ## Literals in their places -/

/-- The token is a string literal of the text. -/
def Token.IsLiteralOf (text : List Char) (t : Token) : Prop :=
  ∃ front raw rest, text = front ++ (raw ++ rest) ∧ t.start = width front ∧
    t.stop = t.start + width raw ∧ StringLiteral.IsLiteral raw t.value rest

/-- A token of a text that is a string literal for the grammar is one. -/
theorem Lexeme.isLiteralOf_read {mode : ScanMode} {front cs : List Char}
    (string : (read mode (width front) cs).token.kind = .str) :
    (read mode (width front) cs).token.IsLiteralOf (front ++ cs) := by
  obtain ⟨skipped, whole⟩ := Scan.gap_suffix mode (width front) cs
  have size : (Scan.gap mode (width front) cs).size = width skipped := by
    have sizes := Scan.gap_size mode (width front) cs
    have widths := congrArg width whole
    rw [Text.width_append] at widths
    omega
  unfold read at string ⊢
  dsimp only at string ⊢
  split at string
  next cut found =>
    obtain ⟨-, quote, zs, mark, here, literal⟩ := Scan.cut?_literal found string
    obtain ⟨b, body, rfl⟩ := Option.map_eq_some_iff.1 literal
    have parts := (StringLiteral.body?_spec body).1
    refine ⟨front ++ skipped, quote :: b.taken, b.rest, ?_, ?_, rfl, quote, b.taken, mark, rfl, ?_⟩
    · rw [← whole, here, ← parts]
      simp
    · simp [ofCut, size]
    · rw [parts]
      exact literal
  next =>
    split at string <;> cases string

/-! ## Readers -/

/-- A reader of a text that started at byte `origin`: the tokens it has taken stand one after the
other between there and the text that is still to be read. -/
structure Reader.LaidOut (text : List Char) (origin : Nat) (r : Reader) : Prop where
  input : ∃ front, text = front ++ r.input ∧ r.offset = width front
  next : ∃ mode, r.next = Lexeme.read mode r.offset r.input
  begun : origin ≤ r.offset
  ordered : r.tokens.Pairwise fun a b => a.stop ≤ b.start
  within : ∀ t ∈ r.tokens, origin ≤ t.start ∧ t.start ≤ t.stop ∧ t.stop ≤ r.offset
  literals : ∀ t ∈ r.tokens, t.kind = .str → t.IsLiteralOf text

namespace Reader

variable {text : List Char} {origin : Nat} {r : Reader}

/-- Taking a token puts it behind the others. -/
theorem LaidOut.take (laid : r.LaidOut text origin) (mode : ScanMode) :
    (r.take mode).LaidOut text origin := by
  obtain ⟨front, whole, offset⟩ := laid.input
  obtain ⟨current, next⟩ := laid.next
  have begun := laid.begun
  have start := Lexeme.le_start current r.offset r.input
  have stop := Lexeme.start_le_stop current r.offset r.input
  have size := Lexeme.read_width current r.offset r.input
  obtain ⟨skipped, parts⟩ := Lexeme.rest_suffix current r.offset r.input
  rw [← next] at start stop size parts
  constructor
  · refine ⟨front ++ skipped, ?_, ?_⟩
    · simp [Reader.take, whole, ← parts]
    · rw [← parts, Text.width_append] at size
      simp only [Reader.take, Text.width_append]
      omega
  · exact ⟨_, rfl⟩
  · simp only [Reader.take]
    omega
  · rw [tokens_take, List.pairwise_append]
    refine ⟨laid.ordered, List.pairwise_singleton .., fun a old b new => ?_⟩
    obtain rfl := List.mem_singleton.1 new
    exact Nat.le_trans (laid.within a old).2.2 start
  · intro t member
    rw [tokens_take, List.mem_append, List.mem_singleton] at member
    simp only [Reader.take]
    rcases member with old | rfl
    · have before := laid.within t old
      omega
    · omega
  · intro t member string
    rw [tokens_take, List.mem_append, List.mem_singleton] at member
    rcases member with old | rfl
    · exact laid.literals t old string
    · rw [next, offset] at string ⊢
      rw [whole]
      exact Lexeme.isLiteralOf_read string

theorem lasting_laidOut (text : List Char) (origin : Nat) :
    Lasting (Reader.LaidOut text origin) where
  take r mode laid _ := laid.take mode
  rescan r mode laid := by
    have tokens := r.tokens_rescan mode
    have next : ∃ mode', (r.rescan mode).next = Lexeme.read mode' r.offset r.input := by
      unfold rescan
      split
      · exact ⟨mode, rfl⟩
      · exact laid.next
    have place : (r.rescan mode).input = r.input ∧ (r.rescan mode).offset = r.offset := by
      unfold rescan
      split <;> exact ⟨rfl, rfl⟩
    rw [← place.1, ← place.2] at next
    refine ⟨?_, next, ?_, ?_, ?_, ?_⟩
    · rw [place.1, place.2]
      exact laid.input
    · rw [place.2]
      exact laid.begun
    · rw [tokens]
      exact laid.ordered
    · rw [tokens, place.2]
      exact laid.within
    · rw [tokens]
      exact laid.literals
  wrap r kind height laid := by
    have tokens := r.tokens_wrap kind height
    refine ⟨laid.input, laid.next, laid.begun, ?_, ?_, ?_⟩
    · rw [tokens]
      exact laid.ordered
    · rw [tokens]
      exact laid.within
    · rw [tokens]
      exact laid.literals
  forget r height laid := by
    have fewer := (r.tokens_forget height).sublist
    exact ⟨laid.input, laid.next, laid.begun, laid.ordered.sublist fewer,
      fun t member => laid.within t (fewer.subset member),
      fun t member => laid.literals t (fewer.subset member)⟩

theorem laidOut_start (front input : List Char) :
    (start (width front) input).LaidOut (front ++ input) (width front) := by
  refine ⟨⟨front, rfl, rfl⟩, ⟨.plain, rfl⟩, Nat.le_refl _, ?_, ?_, ?_⟩
  · exact .nil
  · intro t member
    cases member
  · intro t member
    cases member

end Reader

/-! ## Modules -/

/-- A first line that names an interpreter is counted. -/
theorem Module.skipInterpreter_front (text : List Char) :
    ∃ line, text = line ++ (skipInterpreter text).2 ∧ (skipInterpreter text).1 = width line := by
  unfold skipInterpreter
  split
  next cs =>
    refine ⟨'#' :: '!' :: cs.takeWhile (!Character.isLineBreak ·), ?_, ?_⟩
    · have line := List.prefix_iff_eq_append.1 (List.takeWhile_prefix (!Character.isLineBreak ·) (l := cs))
      simp [line]
    · rw [Text.width_cons, Text.width_cons, ← Nat.add_assoc]
      rfl
  next => exact ⟨[], rfl, rfl⟩

/-- The tokens of a tree stand in the text one after the other. -/
structure Tree.LaidOut (text : List Char) (t : Tree) : Prop where
  ordered : t.tokens.Pairwise fun a b => a.stop ≤ b.start
  within : ∀ token ∈ t.tokens, (Module.skipInterpreter text).1 ≤ token.start ∧
    token.start ≤ token.stop ∧ token.stop ≤ width text
  literals : ∀ token ∈ t.tokens, token.kind = .str → token.IsLiteralOf text

theorem Module.parse?_laidOut {d : Dialect} {text : List Char} {tree : Tree}
    (parsed : parse? d text = some tree) : tree.LaidOut text := by
  obtain ⟨line, whole, size⟩ := skipInterpreter_front text
  have start : (Reader.start (skipInterpreter text).1 (skipInterpreter text).2).LaidOut text
      (skipInterpreter text).1 := by
    have laid := Reader.laidOut_start line (skipInterpreter text).2
    rwa [← whole, ← size] at laid
  obtain ⟨r, ends, newest⟩ := parse?_keeps (Reader.lasting_laidOut text _) start parsed
  have inside := (Reader.tokens_of_head? newest).sublist
  obtain ⟨front, text', offset⟩ := ends.input
  refine ⟨ends.ordered.sublist inside, fun token member => ?_, fun token member =>
    ends.literals token (inside.subset member)⟩
  have place := ends.within token (inside.subset member)
  have wide := congrArg width text'
  rw [Text.width_append] at wide
  omega

end Rehome.Ecma
