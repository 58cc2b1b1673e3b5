import Rehome.Proofs.Ecma.Overruns

/-!
# Literals in the place of others

Two texts are the same but for some string literals. As long as no token of the first text runs
across one of these literals, the second text gives the same tokens, further on or back, with other
literals in their places.
-/
namespace Rehome.Ecma

open Text (width)

/-- The characters are a string literal, when `rest` follows them. -/
def StringLiteral.IsLiteral (raw : List Char) (value : String) (rest : List Char) : Prop :=
  ∃ q cs, IsQuote q ∧ raw = q :: cs ∧
    StringLiteral.read? q (cs ++ rest) = some { kind := .str, value, taken := raw, rest }

/-- A string literal of a text and another one for its place, with the characters before it. -/
structure Swap where
  before : List Char
  old : List Char
  new : List Char
  /-- The value of the new literal. -/
  value : String

namespace Swap

/-- The text with the old literals. -/
def source (ps : List Swap) (tail : List Char) : List Char :=
  ps.flatMap (fun p => p.before ++ p.old) ++ tail

/-- The text with the new literals. -/
def result (ps : List Swap) (tail : List Char) : List Char :=
  ps.flatMap (fun p => p.before ++ p.new) ++ tail

theorem source_cons (p : Swap) (ps : List Swap) (tail : List Char) :
    source (p :: ps) tail = p.before ++ (p.old ++ source ps tail) := by
  simp [source]

theorem result_cons (p : Swap) (ps : List Swap) (tail : List Char) :
    result (p :: ps) tail = p.before ++ (p.new ++ result ps tail) := by
  simp [result]

/-- Old and new characters are literals where they stand. -/
def Sound : List Swap → List Char → Prop
  | [], _ => True
  | p :: ps, tail =>
    (∃ value, StringLiteral.IsLiteral p.old value (source ps tail)) ∧
      StringLiteral.IsLiteral p.new p.value (result ps tail) ∧ Sound ps tail

/-- Texts with swapped literals part at the first one. -/
theorem exists_fork {p : Swap} {ps : List Swap} {tail : List Char} (sound : Sound (p :: ps) tail) :
    ∃ x y, Fork x y (source (p :: ps) tail) (result (p :: ps) tail) := by
  obtain ⟨⟨_, q, x, first, old, -⟩, ⟨r, y, second, new, -⟩, -⟩ := sound
  rw [source_cons, result_cons, old, new]
  exact ⟨_, _, .of_front first second p.before⟩

/-- Where the old literals start, in a text that starts at byte `o`. -/
def places : (o : Nat) → List Swap → List Nat
  | _, [] => []
  | o, p :: ps => (o + width p.before) :: places (o + width p.before + width p.old) ps

/-- The token that stands for a token of the first text, in a second text that starts at byte `o'`
when the first one starts at byte `o`. -/
def carry : (o o' : Nat) → List Swap → Token → Token
  | o, o', [], t => { t with start := o' + (t.start - o), stop := o' + (t.stop - o) }
  | o, o', p :: ps, t =>
    if t.stop ≤ o + width p.before then
      { t with start := o' + (t.start - o), stop := o' + (t.stop - o) }
    else if t.start = o + width p.before then
      { t with start := o' + width p.before, stop := o' + width p.before + width p.new,
               value := p.value }
    else carry (o + width p.before + width p.old) (o' + width p.before + width p.new) ps t

@[simp] theorem carry_kind (o o' : Nat) (ps : List Swap) (t : Token) :
    (carry o o' ps t).kind = t.kind := by
  induction ps generalizing o o' with
  | nil => rfl
  | cons p ps ih =>
    rw [carry]
    split
    · rfl
    · split
      · rfl
      · exact ih ..

/-- Two texts that start at bytes `o` and `o'` and are the same but for swapped literals. All of the
old literals start at one of the given places, and `f` tells which token stands for which. -/
structure Aligned (place : Nat → Prop) (f : Token → Token) (o o' : Nat) (ps : List Swap)
    (tail : List Char) : Prop where
  sound : Sound ps tail
  places : ∀ s ∈ places o ps, place s
  origin : o = 0 ↔ o' = 0
  carried : ∀ t, o ≤ t.start → t.start ≤ t.stop → f t = carry o o' ps t

end Swap

namespace Lexeme

theorem start_le_stop (mode : ScanMode) (o : Nat) (cs : List Char) :
    (read mode o cs).token.start ≤ (read mode o cs).token.stop := by
  unfold read
  dsimp only
  split
  · exact Nat.le_add_right ..
  · exact Nat.le_refl _

theorem rest_suffix (mode : ScanMode) (o : Nat) (cs : List Char) : (read mode o cs).rest <:+ cs := by
  have remains := Scan.gap_suffix mode o cs
  unfold read
  dsimp only
  split
  next cut found =>
    exact (List.suffix_append cut.taken cut.rest).trans ((Scan.cut?_fits found).whole ▸ remains)
  next => exact remains

/-- The place of a text does not matter for its tokens, but for the question whether it is the very
start. -/
theorem read_moved (mode : ScanMode) {o o' : Nat} (origin : o = 0 ↔ o' = 0) (cs : List Char) :
    read mode o' cs =
      { read mode o cs with token :=
        { (read mode o cs).token with
          start := o' + ((read mode o cs).token.start - o)
          stop := o' + ((read mode o cs).token.stop - o) } } := by
  have same : Scan.gap mode o' cs = Scan.gap mode o cs := by
    unfold Scan.gap
    rw [decide_eq_decide.2 origin]
  unfold read
  dsimp only
  rw [same]
  split
  · simp [ofCut, Nat.add_assoc]
  · simp

/-- The next tokens of two texts correspond, and what follows them does. -/
structure Aligned (place : Nat → Prop) (f : Token → Token) (l l' : Lexeme) : Prop where
  kind : l'.token.kind = l.token.kind
  newline : l'.newline = l.newline
  token : l'.token = f l.token
  rest : ∃ ps tail, l.rest = Swap.source ps tail ∧ l'.rest = Swap.result ps tail ∧
    Swap.Aligned place f l.token.stop l'.token.stop ps tail

end Lexeme

namespace Swap.Aligned

variable {place : Nat → Prop} {f : Token → Token} {o o' : Nat} {p : Swap} {ps : List Swap}
  {tail : List Char}

/-- After the last literal the texts are the same. -/
theorem read_nil (a : Aligned place f o o' [] tail) (mode : ScanMode) :
    Lexeme.Aligned place f (Lexeme.read mode o (source [] tail))
      (Lexeme.read mode o' (result [] tail)) := by
  have origin := a.origin
  have start := Lexeme.le_start mode o tail
  have stop := Lexeme.start_le_stop mode o tail
  simp only [source, result, List.flatMap_nil, List.nil_append]
  rw [Lexeme.read_moved mode a.origin tail]
  refine ⟨rfl, rfl, (a.carried _ start stop).symm, [], (Lexeme.read mode o tail).rest, rfl, rfl, ?_⟩
  refine ⟨trivial, fun s none' => absurd none' List.not_mem_nil, by dsimp only; omega, ?_⟩
  intro t after forward
  rw [a.carried t (by omega) forward, carry, carry, Token.mk.injEq]
  refine ⟨rfl, ?_, ?_, rfl⟩ <;> dsimp only <;> omega

/-- Tokens that stand alike before the literal correspond. -/
theorem aligned_front {x y near : List Char} {l l' : Lexeme} (a : Aligned place f o o' (p :: ps) tail)
    (alike : l.Forks x y o o' l') (start : o ≤ l.token.start) (forward : l.token.start ≤ l.token.stop)
    (rest : l.rest = near ++ (p.old ++ source ps tail))
    (rest' : l'.rest = near ++ (p.new ++ result ps tail))
    (size : l.token.stop + width near = o + width p.before) : Lexeme.Aligned place f l l' := by
  have starts := alike.start
  have stops := alike.stop
  have origin := a.origin
  refine ⟨alike.kind.symm, alike.newline.symm, ?_, { p with before := near } :: ps, tail, ?_, ?_, ?_⟩
  · rw [a.carried _ start forward, carry, if_pos (by omega), alike.kind, alike.value,
      show o' + (l.token.start - o) = l'.token.start by omega,
      show o' + (l.token.stop - o) = l'.token.stop by omega]
  · rw [rest, source_cons]
  · rw [rest', result_cons]
  have starts' : l'.token.stop + width near = o' + width p.before := by omega
  refine ⟨a.sound, ?_, by omega, ?_⟩
  · simpa only [Swap.places, size] using a.places
  · intro t after later
    rw [a.carried t (by omega) later, carry, carry]
    dsimp only
    rw [size, starts', show l'.token.stop + (t.start - l.token.stop) = o' + (t.start - o) by omega,
      show l'.token.stop + (t.stop - l.token.stop) = o' + (t.stop - o) by omega]

/-- The literals themselves correspond. -/
theorem aligned_literal (a : Aligned place f o o' (p :: ps) tail) (value : String) (newline : Bool) :
    Lexeme.Aligned place f
      (.ofCut (o + width p.before) newline
        { kind := .str, value, taken := p.old, rest := source ps tail })
      (.ofCut (o' + width p.before) newline
        { kind := .str, value := p.value, taken := p.new, rest := result ps tail }) := by
  obtain ⟨⟨_, q, x, -, old, -⟩, ⟨r, y, -, new, -⟩, sound⟩ := a.sound
  have origin := a.origin
  have wide : 0 < width p.old := old ▸ Nat.add_pos_left q.utf8Size_pos (width x)
  have wide' : 0 < width p.new := new ▸ Nat.add_pos_left r.utf8Size_pos (width y)
  refine ⟨rfl, rfl, ?_, ps, tail, rfl, rfl, sound, ?_, ?_, ?_⟩
  · rw [a.carried _ (Nat.le_add_right ..) (Nat.le_add_right ..), carry, if_neg, if_pos]
    · rfl
    · rfl
    · simp only [Lexeme.ofCut]
      omega
  · exact fun s member => a.places s (List.mem_cons_of_mem _ member)
  · simp only [Lexeme.ofCut]
    omega
  · intro t after forward
    simp only [Lexeme.ofCut] at after ⊢
    rw [a.carried t (by omega) forward, carry, if_neg (by omega), if_neg (by omega)]

/-- How the next tokens compare: the first one runs across the old literal ahead, or they
correspond. -/
theorem read_cons (a : Aligned place f o o' (p :: ps) tail) (mode : ScanMode) :
    (Lexeme.read mode o (source (p :: ps) tail)).Overruns (o + width p.before) ∨
      Lexeme.Aligned place f (Lexeme.read mode o (source (p :: ps) tail))
        (Lexeme.read mode o' (result (p :: ps) tail)) := by
  obtain ⟨⟨value, q, x, first, old, readOld⟩, ⟨r, y, second, new, readNew⟩, sound⟩ := a.sound
  have text : source (p :: ps) tail = p.before ++ q :: (x ++ source ps tail) := by
    rw [source_cons, old, List.cons_append]
  have text' : result (p :: ps) tail = p.before ++ r :: (y ++ result ps tail) := by
    rw [result_cons, new, List.cons_append]
  rw [text, text']
  rcases Lexeme.read_fork mode a.origin first second p.before (x ++ source ps tail)
    (y ++ result ps tail) with overruns | alike | ⟨newline, literal, literal'⟩
  · exact .inl overruns
  · obtain ⟨near, rest, rest'⟩ := alike.rest.front_of_suffix (Lexeme.rest_suffix mode o _)
      (Lexeme.rest_suffix mode o' _)
    have whole := Lexeme.read_width mode o (p.before ++ q :: (x ++ source ps tail))
    rw [rest] at whole
    simp only [Text.width_append] at whole
    have after := rest.trans (by rw [← List.cons_append, ← old])
    have after' := rest'.trans (by rw [← List.cons_append, ← new])
    exact .inr (a.aligned_front alike (Lexeme.le_start ..) (Lexeme.start_le_stop ..) after after'
      (by omega))
  · rw [literal _ readOld, literal' _ readNew]
    exact .inr (a.aligned_literal value newline)

/-- How the next tokens of two texts compare that are the same but for some literals: the token of
the first text runs across an old literal that is still ahead, or the tokens correspond. -/
theorem read (a : Aligned place f o o' ps tail) (mode : ScanMode) :
    (∃ s, place s ∧ o ≤ s ∧ (Lexeme.read mode o (source ps tail)).Overruns s) ∨
      Lexeme.Aligned place f (Lexeme.read mode o (source ps tail))
        (Lexeme.read mode o' (result ps tail)) := by
  cases ps with
  | nil => exact .inr (a.read_nil mode)
  | cons p ps =>
    refine (a.read_cons mode).imp_left fun overruns => ?_
    exact ⟨_, a.places _ List.mem_cons_self, Nat.le_add_right .., overruns⟩

end Swap.Aligned
end Rehome.Ecma
