import Rehome.Proofs.Ecma.Lockstep
import Rehome.Proofs.Specifier.Findings
import Rehome.Proofs.Specifier.Literals

/-!
# Literals that are replaced

Replacing literals of a text cuts the text at these literals. The edited text has the new literals in
the places of the old ones and is the same everywhere else.
-/
namespace Rehome

theorem Text.exists_append_of_width_le {xs ys xs' ys' : List Char} (same : xs ++ ys = xs' ++ ys')
    (short : width xs ≤ width xs') : ∃ between, xs' = xs ++ between ∧ ys = between ++ ys' := by
  rcases List.append_eq_append_iff.1 same with ⟨between, long, rest⟩ | ⟨between, long, rest⟩
  · exact ⟨between, long, rest⟩
  · rw [long, Text.width_append] at short
    cases between with
    | nil => exact ⟨[], by simpa using long.symm, by simpa using rest.symm⟩
    | cons c between =>
      have positive := c.utf8Size_pos
      rw [Text.width_cons] at short
      omega

namespace Specifier

open Ecma (Tree Token Swap)
open Text (width)

/-- A literal of a text, and the literal that replaces it with its value. -/
structure Exchange where
  token : Token
  new : List Char
  value : String

namespace Exchange

/-- The text is cut at the literals: swaps stand for the exchanges, in a text that starts at byte
`o`. -/
inductive Fills : Nat → List Exchange → List Swap → Prop
  | nil (o : Nat) : Fills o [] []
  | cons {o : Nat} {e : Exchange} {es : List Exchange} {p : Swap} {ps : List Swap}
      (start : e.token.start = o + width p.before)
      (stop : e.token.stop = e.token.start + width p.old) (new : p.new = e.new)
      (value : p.value = e.value) (rest : Fills e.token.stop es ps) : Fills o (e :: es) (p :: ps)

/-- Literals that stand in a text one after the other cut it. -/
theorem exists_fills {text : List Char} {es : List Exchange}
    (ordered : es.Pairwise fun a b => a.token.stop ≤ b.token.start)
    (literals : ∀ e ∈ es, e.token.IsLiteralOf text)
    (written : ∀ e ∈ es, ∀ rest, Ecma.StringLiteral.IsLiteral e.new e.value rest)
    {front cs : List Char} (whole : text = front ++ cs)
    (after : ∀ e ∈ es, width front ≤ e.token.start) :
    ∃ ps tail, cs = Swap.source ps tail ∧ Swap.Sound ps tail ∧ Fills (width front) es ps := by
  induction es generalizing front cs with
  | nil => exact ⟨[], cs, rfl, trivial, .nil _⟩
  | cons e es ih =>
    obtain ⟨first, raw, rest, parts, start, stop, literal⟩ := literals e List.mem_cons_self
    have early := after e List.mem_cons_self
    rw [start] at early
    obtain ⟨before, long, cut⟩ := Text.exists_append_of_width_le (whole.symm.trans parts) early
    have later := List.pairwise_cons.1 ordered
    have reach : width (front ++ before ++ raw) = e.token.stop := by
      rw [stop, start, long, Text.width_append]
    have onward : text = front ++ before ++ raw ++ rest := by simp [parts, long]
    obtain ⟨ps, tail, source, sound, fills⟩ := ih later.2
      (fun e' member => literals e' (List.mem_cons_of_mem e member))
      (fun e' member => written e' (List.mem_cons_of_mem e member)) onward
      (fun e' member => by rw [reach]; exact later.1 e' member)
    rw [reach] at fills
    refine ⟨⟨before, raw, e.new, e.value⟩ :: ps, tail, ?_, ?_, ?_⟩
    · rw [Swap.source_cons, ← source, cut]
    · exact ⟨⟨_, source ▸ literal⟩, written e List.mem_cons_self _, sound⟩
    · exact .cons (by rw [start, long, Text.width_append]) stop rfl rfl fills

section

variable {o : Nat} {es : List Exchange} {ps : List Swap}

theorem Fills.le_start (fills : Fills o es ps) : ∀ e ∈ es, o ≤ e.token.start := by
  induction fills with
  | nil => simp
  | cons start stop _ _ _ ih =>
    intro e member
    rcases List.mem_cons.1 member with rfl | later
    · omega
    · have beyond := ih e later
      omega

theorem Fills.places (fills : Fills o es ps) :
    Swap.places o ps = es.map fun e => e.token.start := by
  induction fills with
  | nil => rfl
  | cons start stop _ _ _ ih =>
    rw [Swap.places, List.map_cons, ← start, ← stop, ih]

/-- The edits that exchange the literals are those of the cut text. -/
theorem Fills.edits (fills : Fills o es ps) (shift : Nat) :
    Piece.edits (o + shift) (ps.map fun p => ⟨p.before, p.old, some p.new⟩) =
      es.map fun e => ⟨⟨e.token.start + shift, e.token.stop + shift⟩, e.new⟩ := by
  induction fills with
  | nil => rfl
  | @cons o e es p ps start stop new value _ ih =>
    have here : o + shift + width p.before = e.token.start + shift := by omega
    have there : o + shift + width p.before + width p.old = e.token.stop + shift := by omega
    rw [List.map_cons, Piece.edits, List.map_cons]
    dsimp only
    rw [there, here, ih, new]
    rfl

/-- The new literal stands for the literal that is replaced. -/
theorem Fills.carry_mem (fills : Fills o es ps) (wide : ∀ e ∈ es, e.token.start < e.token.stop)
    (o' : Nat) : ∀ e ∈ es, (Swap.carry o o' ps e.token).value = e.value ∧
      (Swap.carry o o' ps e.token).stop = (Swap.carry o o' ps e.token).start + width e.new := by
  induction fills generalizing o' with
  | nil => simp
  | @cons o e es p ps start stop new value rest ih =>
    have first := wide e List.mem_cons_self
    intro e' member
    rcases List.mem_cons.1 member with rfl | later
    · rw [Swap.carry, if_neg (by omega), if_pos start, new, value]
      exact ⟨rfl, rfl⟩
    · have beyond := rest.le_start e' later
      have wide' := wide e' member
      rw [Swap.carry, if_neg (by omega), if_neg (by omega), ← start, ← stop]
      exact ih (fun e'' inside => wide e'' (List.mem_cons_of_mem e inside)) _ e' later

/-- Other tokens stay as they are and as wide. -/
theorem Fills.carry_other (fills : Fills o es ps) (wide : ∀ e ∈ es, e.token.start < e.token.stop)
    {t : Token} (o' : Nat) (after : o ≤ t.start) (forward : t.start ≤ t.stop)
    (apart : ∀ e ∈ es, t.stop ≤ e.token.start ∨ e.token.stop ≤ t.start) :
    (Swap.carry o o' ps t).value = t.value ∧
      (Swap.carry o o' ps t).stop + t.start = (Swap.carry o o' ps t).start + t.stop := by
  induction fills generalizing o' with
  | nil =>
    refine ⟨rfl, ?_⟩
    simp only [Swap.carry]
    omega
  | @cons o e es p ps start stop new value rest ih =>
    have first := wide e List.mem_cons_self
    rw [Swap.carry]
    split
    · refine ⟨rfl, ?_⟩
      dsimp only
      omega
    · have beyond : e.token.stop ≤ t.start := by
        rcases apart e List.mem_cons_self with before | beyond <;> omega
      rw [if_neg (by omega), ← start, ← stop]
      exact ih (fun e' inside => wide e' (List.mem_cons_of_mem e inside)) _ beyond
        fun e' inside => apart e' (List.mem_cons_of_mem e inside)

end

end Exchange

end Specifier
end Rehome
