import Rehome.Specifier.Edit
import Rehome.Proofs.Table

/-!
# Edits piece by piece

A text that is cut into pieces, some of which get another text, is edited piece by piece: what the
edits at the places of those pieces make of the whole is made of what they make of each.
-/
namespace Rehome

namespace Text

theorem dropBytes?_width (xs ys : List Char) : dropBytes? (width xs) (xs ++ ys) = some ys := by
  induction xs with
  | nil => simp [dropBytes?]
  | cons c cs ih =>
    obtain ⟨n, size⟩ := Nat.exists_eq_add_one_of_ne_zero
      (Nat.ne_of_gt (Nat.add_pos_left c.utf8Size_pos (width cs)))
    have rest : n + 1 - c.utf8Size = width cs := by omega
    rw [width_cons, size, List.cons_append, dropBytes?, if_pos (by omega), rest, ih]

theorem takeBytes?_width (xs ys : List Char) : takeBytes? (width xs) (xs ++ ys) = some xs := by
  induction xs with
  | nil => simp [takeBytes?]
  | cons c cs ih =>
    obtain ⟨n, size⟩ := Nat.exists_eq_add_one_of_ne_zero
      (Nat.ne_of_gt (Nat.add_pos_left c.utf8Size_pos (width cs)))
    have rest : n + 1 - c.utf8Size = width cs := by omega
    rw [width_cons, size, List.cons_append, takeBytes?, if_pos (by omega), rest, ih]
    rfl

theorem between?_width (front middle back : List Char) :
    between? (front ++ (middle ++ back)) (width front) (width front + width middle) =
      some middle := by
  simp [between?, dropBytes?_width, takeBytes?_width]

theorem exists_of_dropBytes? {n : Nat} {text rest : List Char} (h : dropBytes? n text = some rest) :
    ∃ front, text = front ++ rest ∧ width front = n := by
  fun_induction dropBytes? n text with
  | case1 text => exact ⟨[], by simpa using h, rfl⟩
  | case2 => cases h
  | case3 n c cs short ih =>
    obtain ⟨front, rfl, wide⟩ := ih h
    exact ⟨c :: front, rfl, by rw [width_cons, wide]; omega⟩
  | case4 => cases h

theorem exists_of_takeBytes? {n : Nat} {text front : List Char}
    (h : takeBytes? n text = some front) : ∃ rest, text = front ++ rest ∧ width front = n := by
  fun_induction takeBytes? n text generalizing front with
  | case1 text =>
    cases h
    exact ⟨text, rfl, rfl⟩
  | case2 => cases h
  | case3 n c cs short ih =>
    obtain ⟨front, found, rfl⟩ := Option.map_eq_some_iff.1 h
    obtain ⟨rest, rfl, wide⟩ := ih found
    exact ⟨rest, rfl, by rw [width_cons, wide]; omega⟩
  | case4 => cases h

/-- What is cut out of a text stands in it at the two offsets. -/
theorem between?_eq_some_iff {text middle : List Char} {start stop : Nat} :
    between? text start stop = some middle ↔ ∃ front back, text = front ++ (middle ++ back) ∧
      width front = start ∧ start + width middle = stop := by
  constructor
  · intro h
    unfold between? at h
    split at h
    next forward =>
      obtain ⟨rest, dropped, taken⟩ := Option.bind_eq_some_iff.1 h
      obtain ⟨front, rfl, wide⟩ := exists_of_dropBytes? dropped
      obtain ⟨back, rfl, wide'⟩ := exists_of_takeBytes? taken
      exact ⟨front, back, rfl, wide, by omega⟩
    next => cases h
  · rintro ⟨front, back, rfl, rfl, rfl⟩
    exact between?_width front middle back

end Text

namespace Specifier

open Text (width)

/-- A piece of a text: characters that stay, and characters that may get another text. -/
structure Piece where
  before : List Char
  old : List Char
  new? : Option (List Char)

namespace Piece

/-- The text that pieces and a tail make. -/
def source (ps : List Piece) (tail : List Char) : List Char :=
  ps.flatMap (fun p => p.before ++ p.old) ++ tail

/-- The text with the new characters in their places. -/
def result (ps : List Piece) (tail : List Char) : List Char :=
  ps.flatMap (fun p => p.before ++ p.new?.getD p.old) ++ tail

/-- The edits that the pieces ask for, in a text whose pieces start at byte `start`. -/
def edits : (start : Nat) → List Piece → List Edit
  | _, [] => []
  | start, p :: ps =>
    let span : Span := ⟨start + width p.before, start + width p.before + width p.old⟩
    (p.new?.map fun new => ⟨span, new⟩).toList ++ edits span.stop ps

theorem start_le_of_mem_edits {start : Nat} {ps : List Piece} {e : Edit}
    (member : e ∈ edits start ps) : start ≤ e.span.start := by
  induction ps generalizing start with
  | nil => cases member
  | cons p ps ih =>
    rcases List.mem_append.1 member with here | later
    · obtain ⟨new, -, rfl⟩ := Option.map_eq_some_iff.1 (Option.mem_toList.1 here)
      exact Nat.le_add_right ..
    · have beyond := ih later
      dsimp only at beyond
      omega

theorem edits_ordered (start : Nat) (ps : List Piece) :
    (edits start ps).Pairwise fun a b => decide (a.span.start ≤ b.span.start) = true := by
  induction ps generalizing start with
  | nil => exact .nil
  | cons p ps ih =>
    refine List.pairwise_append.2 ⟨?_, ih _, fun e here other later => ?_⟩
    · cases p.new? with
      | none => exact .nil
      | some new => exact List.pairwise_singleton ..
    · obtain ⟨new, -, rfl⟩ := Option.map_eq_some_iff.1 (Option.mem_toList.1 here)
      have beyond := start_le_of_mem_edits later
      dsimp only at beyond ⊢
      rw [decide_eq_true_eq]
      omega

/-- Edits of the pieces after a place, when the last edit before them ended at `front`. -/
theorem applyFrom_edits (front gap tail : List Char) (ps : List Piece) :
    Edit.applyFrom (front ++ (gap ++ source ps tail)) (width front)
      (edits (width front + width gap) ps) = gap ++ result ps tail := by
  induction ps generalizing front gap with
  | nil => simp [edits, Edit.applyFrom, source, result, Text.dropBytes?_width]
  | cons p ps ih =>
    cases new : p.new? with
    | none =>
      have later := ih front (gap ++ p.before ++ p.old)
      simpa [edits, source, result, new, Nat.add_assoc] using later
    | some text =>
      have later := ih (front ++ gap ++ p.before ++ p.old) []
      have kept := Text.between?_width front (gap ++ p.before) (p.old ++ source ps tail)
      have whole : front ++ (gap ++ source (p :: ps) tail) =
          front ++ (gap ++ p.before ++ (p.old ++ source ps tail)) := by
        simp [source]
      have inside : (decide (width front + width (gap ++ p.before) < width front) ||
          decide (width (front ++ (gap ++ p.before ++ (p.old ++ source ps tail))) <
            width front + width (gap ++ p.before) + width p.old)) = false := by
        simp only [Text.width_append, Bool.or_eq_false_iff, decide_eq_false_iff_not]
        omega
      have starts : width front + width gap + width p.before =
          width front + width (gap ++ p.before) := by
        rw [Text.width_append, Nat.add_assoc]
      rw [edits, new, Option.map_some, Option.toList_some, List.singleton_append, whole, starts,
        Edit.applyFrom, inside, if_neg Bool.false_ne_true, kept]
      have rest : Edit.applyFrom (front ++ (gap ++ p.before ++ (p.old ++ source ps tail)))
          (width front + width (gap ++ p.before) + width p.old)
          (edits (width front + width (gap ++ p.before) + width p.old) ps) = result ps tail := by
        simpa [Nat.add_assoc] using later
      dsimp only
      rw [rest]
      simp [result, new]

theorem sortBy_eq_self {α : Type} {ahead : α → α → Bool} {l : List α}
    (ordered : l.Pairwise fun a b => ahead a b = true) : sortBy ahead l = l := by
  rw [sortBy_eq_insertionSort]
  exact ordered.insertionSort_eq

/-- The edits of pieces change the pieces and nothing else. -/
theorem applyAll_edits (ps : List Piece) (tail : List Char) :
    Edit.applyAll (source ps tail) (edits 0 ps) = result ps tail := by
  rw [Edit.applyAll, sortBy_eq_self (edits_ordered 0 ps)]
  simpa using applyFrom_edits [] [] tail ps

end Piece
end Specifier
end Rehome
