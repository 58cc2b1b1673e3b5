import Rehome.Proofs.Specifier.Exchange

/-!
# What is found after a replacement

A text whose specifiers were replaced is read like the text before: it has the same occurrences with
other values. This holds for every text without types. With types a reading may be tried and given
up, and what it runs across may change when a literal changes; it holds if no such reading runs
across a literal that is replaced.
-/
namespace Rehome.Specifier

open Ecma (Tree Token Swap Fork)
open Text (width)

/-! ## Marks at the front -/

/-- A text with at most one mark is the mark and the rest. -/
theorem exists_mark {text : List Char} (single : ¬ [byteOrderMark, byteOrderMark] <+: text) :
    ∃ mark, text = mark ++ dropMark text ∧ dropMark (dropMark text) = dropMark text ∧
      ∀ body, dropMark body = body → dropMark (mark ++ body) = body := by
  cases text with
  | nil => exact ⟨[], rfl, rfl, fun body bare => bare⟩
  | cons c cs =>
    by_cases marked : c = byteOrderMark
    · subst marked
      have rest : ∀ body, dropMark (byteOrderMark :: body) = body := fun body => by
        rw [dropMark, if_pos rfl]
      refine ⟨[byteOrderMark], by rw [rest]; rfl, ?_, fun body _ => rest body⟩
      rw [rest]
      cases cs with
      | nil => rfl
      | cons d ds =>
        refine if_neg fun twice => single ?_
        rw [twice]
        exact ⟨ds, rfl⟩
    · have rest : dropMark (c :: cs) = c :: cs := if_neg marked
      rw [rest]
      exact ⟨[], rfl, rest, fun body bare => bare⟩

theorem dropMark_fork {x y cs ds : List Char} (f : Fork x y cs ds) (bare : dropMark cs = cs) :
    dropMark ds = ds := by
  cases f with
  | here _ second => exact if_neg (second.ne (by decide))
  | @cons c cs ds later =>
    by_cases marked : c = byteOrderMark
    · rw [dropMark, if_pos marked] at bare
      exact absurd (congrArg List.length bare) (by simp)
    · exact if_neg marked

/-! ## Occurrences and trees -/

section

variable {path : String} {mark body : List Char}

theorem occurrences?_eq (outer : dropMark (mark ++ body) = body) (inner : dropMark body = body) :
    occurrences? path (mark ++ body) = (Ecma.Module.parse? (dialect path) body).map fun tree =>
      sortBy (fun a b => a.literal.start ≤ b.literal.start) ((Finding.ofTree tree).filterMap
        (Finding.occurrence? (mark ++ body) (width (mark ++ body)) (width mark))) := by
  have shift : width (mark ++ body) - width body = width mark := by
    rw [Text.width_append]
    omega
  simp only [occurrences?, outer, inner, shift, Option.bind_eq_bind]
  cases Ecma.Module.parse? (dialect path) body <;> rfl

/-- The occurrences of a text are the literals that its tree names. -/
theorem exists_tree (outer : dropMark (mark ++ body) = body) (inner : dropMark body = body)
    {found : List Occurrence} (read : occurrences? path (mark ++ body) = some found) :
    ∃ tree, Ecma.Module.parse? (dialect path) body = some tree ∧
      found.map Occurrence.core = (named tree).map (coreOf (width mark)) := by
  rw [occurrences?_eq outer inner, Option.map_eq_some_iff] at read
  obtain ⟨tree, parsed, rfl⟩ := read
  exact ⟨tree, parsed, core_sortBy mark (Ecma.Module.parse?_laidOut parsed)⟩

theorem exists_found (outer : dropMark (mark ++ body) = body) (inner : dropMark body = body)
    {tree : Tree} (parsed : Ecma.Module.parse? (dialect path) body = some tree) :
    ∃ found, occurrences? path (mark ++ body) = some found ∧
      found.map Occurrence.core = (named tree).map (coreOf (width mark)) := by
  rw [occurrences?_eq outer inner, parsed]
  exact ⟨_, rfl, core_sortBy mark (Ecma.Module.parse?_laidOut parsed)⟩

end

/-! ## Trees in which literals are exchanged -/

/-- Of two elements of an ordered list, one comes before the other. -/
theorem eq_or_related {α : Type} {related : α → α → Prop} {l : List α} (ordered : l.Pairwise related)
    {a b : α} (first : a ∈ l) (second : b ∈ l) : a = b ∨ related a b ∨ related b a := by
  induction ordered with
  | nil => cases first
  | cons before _ ih =>
    rcases List.mem_cons.1 first with rfl | later
    · rcases List.mem_cons.1 second with rfl | later'
      · exact .inl rfl
      · exact .inr (.inl (before b later'))
    · rcases List.mem_cons.1 second with rfl | later'
      · exact .inr (.inr (before a later))
      · exact ih later later'

/-- The literals that a tree names stand in the text one after the other. -/
theorem named_ordered {body : List Char} {tree : Tree} (laid : tree.LaidOut body) :
    (named tree).Pairwise fun a b => a.2.stop ≤ b.2.start := by
  have apart : (named tree).Pairwise fun a b => a.2.stop ≤ b.2.start ∨ b.2.stop ≤ a.2.start := by
    obtain ⟨tokens, perm, within⟩ := Finding.subperm_ofTree tree
    have taken : tokens.Pairwise fun a b => a.stop ≤ b.start ∨ b.stop ≤ a.start :=
      (laid.ordered.sublist within).imp .inl
    have findings := List.pairwise_map.1 (taken.perm perm fun either => either.symm)
    have pairs : ((Finding.ofTree tree).map fun g => (g.kind, g.token)).Pairwise
        fun a b => a.2.stop ≤ b.2.start ∨ b.2.stop ≤ a.2.start := List.pairwise_map.2 findings
    exact (pairs.sublist List.filter_sublist).perm (sortBy_perm _ _).symm fun either => either.symm
  have sorted : (named tree).Pairwise fun a b => a.2.start ≤ b.2.start :=
    sortBy_key_pairwise (fun n : Kind × Token => n.2.start) _
  refine (apart.and sorted).imp_of_mem fun {a b} first second ⟨either, ahead⟩ => ?_
  have whole := (mem_named second).2.2
  simp only [isWhole, decide_eq_true_eq] at whole
  omega

/-- Literals of a tree that are exchanged for other literals. -/
structure Exchanges (tree : Tree) (es : List Exchange) : Prop where
  tokens : ∀ e ∈ es, e.token ∈ tree.tokens ∧ e.token.kind = .str ∧
    e.token.start + 2 ≤ e.token.stop
  ordered : es.Pairwise fun a b => a.token.stop ≤ b.token.start
  wide : ∀ e ∈ es, 2 ≤ width e.new
  written : ∀ e ∈ es, ∀ rest, Ecma.StringLiteral.IsLiteral e.new e.value rest

namespace Exchanges

variable {d : Ecma.Dialect} {body : List Char} {tree : Tree} {es : List Exchange}

/-- A text in which literals are exchanged has the tree with the new literals, and no mark comes to
stand at its front. -/
theorem parse (ex : Exchanges tree es) (parsed : Ecma.Module.parse? d body = some tree)
    (spared : ∀ g ∈ Ecma.Module.givenUp d body, ∀ e ∈ es, ¬ g.Crosses e.token.start) :
    ∃ line ps tail, body = line ++ Swap.source ps tail ∧
      (Ecma.Module.skipInterpreter body).1 = width line ∧ Exchange.Fills (width line) es ps ∧
      Ecma.Module.parse? d (line ++ Swap.result ps tail) =
        some (tree.map (Swap.carry (width line) (width line) ps)) ∧
      (dropMark body = body →
        dropMark (line ++ Swap.result ps tail) = line ++ Swap.result ps tail) := by
  have laid := Ecma.Module.parse?_laidOut parsed
  obtain ⟨line, whole, size⟩ := Ecma.Module.skipInterpreter_front body
  obtain ⟨ps, tail, source, sound, fills⟩ := Exchange.exists_fills ex.ordered
    (fun e member => laid.literals _ (ex.tokens e member).1 (ex.tokens e member).2.1) ex.written whole
    (fun e member => size ▸ (laid.within _ (ex.tokens e member).1).1)
  have split : Ecma.Module.skipInterpreter body = (width line, Swap.source ps tail) := by
    rw [← size, ← source]
  have text : body = line ++ Swap.source ps tail := source ▸ whole
  -- the interpreter and the mark stand before the first literal
  obtain ⟨split', bare⟩ : Ecma.Module.skipInterpreter (line ++ Swap.result ps tail) =
      (width line, Swap.result ps tail) ∧ (dropMark body = body →
        dropMark (line ++ Swap.result ps tail) = line ++ Swap.result ps tail) := by
    cases ps with
    | nil => exact ⟨text ▸ split, fun bare => text ▸ bare⟩
    | cons p ps =>
      obtain ⟨x, y, fork⟩ := Swap.exists_fork sound
      rw [text] at split
      refine ⟨Ecma.Module.skipInterpreter_fork fork split, fun bare => ?_⟩
      exact dropMark_fork (fork.prepend line) (text ▸ bare)
  refine ⟨line, ps, tail, text, size, fills, ?_, bare⟩
  refine Ecma.Module.parse?_swapped split split' sound parsed ?_ ?_
  · intro s place
    rw [fills.places, List.mem_map] at place
    obtain ⟨e, member, rfl⟩ := place
    have token := ex.tokens e member
    exact ⟨e.token, token.1, token.2.1, rfl, by omega⟩
  · intro g member s place
    rw [fills.places, List.mem_map] at place
    obtain ⟨e, inside, rfl⟩ := place
    exact spared g member e inside

section

variable {o : Nat} {ps : List Swap}

theorem narrow (ex : Exchanges tree es) : ∀ e ∈ es, e.token.start < e.token.stop := by
  intro e member
  have token := (ex.tokens e member).2.2
  omega

/-- A token of the tree gets another value if it is exchanged, and stays the same otherwise. -/
theorem carried (ex : Exchanges tree es) (laid : tree.LaidOut body)
    (origin : (Ecma.Module.skipInterpreter body).1 = o) (fills : Exchange.Fills o es ps) {t : Token}
    (member : t ∈ tree.tokens) :
    (∃ e ∈ es, e.token = t ∧ (Swap.carry o o ps t).value = e.value ∧
        (Swap.carry o o ps t).stop = (Swap.carry o o ps t).start + width e.new) ∨
      (∀ e ∈ es, e.token ≠ t) ∧ (Swap.carry o o ps t).value = t.value ∧
        (Swap.carry o o ps t).stop + t.start = (Swap.carry o o ps t).start + t.stop := by
  by_cases exchanged : ∃ e ∈ es, e.token = t
  · obtain ⟨e, inside, rfl⟩ := exchanged
    exact .inl ⟨e, inside, rfl, fills.carry_mem ex.narrow o e inside⟩
  · have other : ∀ e ∈ es, e.token ≠ t := fun e inside same => exchanged ⟨e, inside, same⟩
    have place := laid.within t member
    refine .inr ⟨other, fills.carry_other ex.narrow o (by omega) place.2.1 fun e inside => ?_⟩
    rcases eq_or_related laid.ordered member (ex.tokens e inside).1 with same | before | after
    · exact absurd same.symm (other e inside)
    · exact .inl before
    · exact .inr after

theorem isWhole_carried (ex : Exchanges tree es) (laid : tree.LaidOut body)
    (origin : (Ecma.Module.skipInterpreter body).1 = o) (fills : Exchange.Fills o es ps) {t : Token}
    (member : t ∈ tree.tokens) (kind : Kind) :
    isWhole (kind, Swap.carry o o ps t) = isWhole (kind, t) := by
  rw [isWhole, isWhole, decide_eq_decide]
  dsimp only
  rcases ex.carried laid origin fills member with ⟨e, inside, rfl, -, stop⟩ | ⟨-, -, stop⟩
  · have wide := ex.wide e inside
    have token := (ex.tokens e inside).2.2
    omega
  · omega

/-- The exchanged literals are named in the same order. -/
theorem named_carried (ex : Exchanges tree es) (laid : tree.LaidOut body)
    (origin : (Ecma.Module.skipInterpreter body).1 = o) (fills : Exchange.Fills o es ps)
    {body' : List Char} (laid' : (tree.map (Swap.carry o o ps)).LaidOut body') :
    named (tree.map (Swap.carry o o ps)) =
      (named tree).map fun n => (n.1, Swap.carry o o ps n.2) := by
  refine named_map (Swap.carry_kind o o ps) ?_ ?_
  · exact fun g found => ex.isWhole_carried laid origin fills (Finding.mem_of_ofTree found) g.kind
  · intro a first b second
    obtain ⟨inside, -, whole⟩ := mem_named first
    obtain ⟨inside', -, whole'⟩ := mem_named second
    have moved := ex.isWhole_carried laid origin fills inside a.1
    have moved' := ex.isWhole_carried laid origin fills inside' b.1
    have ordered := laid'.ordered
    rw [Tree.tokens_map, List.pairwise_map] at ordered
    rw [whole] at moved
    rw [whole'] at moved'
    simp only [isWhole, decide_eq_true_eq] at whole whole' moved moved'
    rcases eq_or_related (laid.ordered.and ordered) inside inside' with same | before | after
    · rw [same]
      exact ⟨fun _ => Nat.le_refl _, fun _ => Nat.le_refl _⟩
    · omega
    · omega

end

end Exchanges

/-! ## Replaced occurrences -/

/-- The token at an occurrence, in a text whose places are moved by `shift`. -/
def Occurrence.token (shift : Nat) (o : Occurrence) : Token :=
  ⟨.str, o.literal.start - shift, o.literal.stop - shift, o.value⟩

/-- Whether a replacement gives the occurrence another value. -/
def Occurrence.isReplaced (chosen : String → Bool) (change : String → String) (o : Occurrence) : Bool :=
  chosen o.value && change o.value != o.value

/-- The exchange of literals that gives an occurrence another value. -/
def Occurrence.exchange (shift : Nat) (quote? : Option Quote) (change : String → String)
    (o : Occurrence) : Exchange where
  token := o.token shift
  new := (quote?.getD o.quote).literal (change o.value).toList
  value := change o.value

section

variable {chosen : String → Bool} {change : String → String}

theorem edits_eq (quote? : Option Quote) (found : List Occurrence) :
    ((found.filter (chosen ·.value)).filterMap fun o =>
      if change o.value = o.value then none
      else some (⟨o.literal, (quote?.getD o.quote).literal (change o.value).toList⟩ : Edit)) =
      (found.filter (Occurrence.isReplaced chosen change)).map fun o =>
        ⟨o.literal, (quote?.getD o.quote).literal (change o.value).toList⟩ := by
  induction found with
  | nil => rfl
  | cons o found ih =>
    rw [List.filter_cons, List.filter_cons, Occurrence.isReplaced]
    by_cases picked : chosen o.value = true
    · by_cases same : change o.value = o.value
      · simp [picked, same, ih]
      · simp [picked, same, ih]
    · simp [picked, ih]

theorem Quote.two_le_width_literal (q : Quote) (value : List Char) : 2 ≤ width (q.literal value) := by
  have positive := q.toChar.utf8Size_pos
  simp only [Quote.literal, List.cons_append, Text.width_cons, Text.width_append, Text.width_nil]
  omega

variable {tree : Tree} {found : List Occurrence} {shift : Nat}

theorem tokens_eq (cores : found.map Occurrence.core = (named tree).map (coreOf shift)) :
    found.map (Occurrence.token shift) = (named tree).map fun n => n.2 := by
  calc
    found.map (Occurrence.token shift) = (found.map Occurrence.core).map
        (fun c => (⟨.str, c.2.2.start - shift, c.2.2.stop - shift, c.2.1⟩ : Token)) := by
      rw [List.map_map]
      rfl
    _ = (named tree).map fun n => n.2 := by
      rw [cores, List.map_map]
      refine List.map_congr_left fun n member => ?_
      obtain ⟨kind, ⟨tokenKind, start, stop, value⟩⟩ := n
      obtain rfl : tokenKind = .str := (mem_named member).2.1
      simp [coreOf]

/-- Replacing occurrences exchanges literals of the tree. -/
theorem exchanges_of_replaced {body : List Char} (laid : tree.LaidOut body)
    (cores : found.map Occurrence.core = (named tree).map (coreOf shift)) (quote? : Option Quote)
    (chosen : String → Bool)
    (line : ∀ value, '\n' ∉ (change value).toList ∧ '\r' ∉ (change value).toList) :
    Exchanges tree ((found.filter (Occurrence.isReplaced chosen change)).map
      (Occurrence.exchange shift quote? change)) := by
  have tokens := tokens_eq cores
  constructor
  · intro e member
    obtain ⟨o, inside, rfl⟩ := List.mem_map.1 member
    have listed : o.token shift ∈ found.map (Occurrence.token shift) :=
      List.mem_map_of_mem (List.mem_of_mem_filter inside)
    rw [tokens] at listed
    obtain ⟨n, here, same⟩ := List.mem_map.1 listed
    have facts := mem_named here
    rw [same] at facts
    exact ⟨facts.1, facts.2.1, by simpa [isWhole, same, Occurrence.exchange] using facts.2.2⟩
  · have ordered : ((named tree).map fun n => n.2).Pairwise fun a b => a.stop ≤ b.start :=
      List.pairwise_map.2 (named_ordered laid)
    rw [← tokens] at ordered
    exact List.pairwise_map.2 ((List.pairwise_map.1 ordered).sublist List.filter_sublist)
  · intro e member
    obtain ⟨o, -, rfl⟩ := List.mem_map.1 member
    exact Quote.two_le_width_literal ..
  · intro e member rest
    obtain ⟨o, -, rfl⟩ := List.mem_map.1 member
    have plain : ∀ c ∈ (change o.value).toList, c ≠ '\n' ∧ c ≠ '\r' := fun c inside =>
      ⟨fun feed => (line o.value).1 (feed ▸ inside),
        fun carriage => (line o.value).2 (carriage ▸ inside)⟩
    have read := (quote?.getD o.quote).isLiteral_literal plain rest
    rwa [String.ofList_toList] at read

/-- The place of an occurrence is that of its token, moved. -/
theorem literal_eq (cores : found.map Occurrence.core = (named tree).map (coreOf shift))
    {o : Occurrence} (member : o ∈ found) :
    o.literal = ⟨(o.token shift).start + shift, (o.token shift).stop + shift⟩ := by
  have listed : o.core ∈ found.map Occurrence.core := List.mem_map_of_mem member
  rw [cores] at listed
  obtain ⟨n, -, same⟩ := List.mem_map.1 listed
  have place : o.literal = ⟨n.2.start + shift, n.2.stop + shift⟩ := congrArg (fun c => c.2.2) same.symm
  simp [Occurrence.token, place]

/-- The edits of a replacement exchange the literals. -/
theorem edits_of_replaced (cores : found.map Occurrence.core = (named tree).map (coreOf shift))
    (quote? : Option Quote) :
    ((found.filter (Occurrence.isReplaced chosen change)).map fun o =>
      (⟨o.literal, (quote?.getD o.quote).literal (change o.value).toList⟩ : Edit)) =
      ((found.filter (Occurrence.isReplaced chosen change)).map
        (Occurrence.exchange shift quote? change)).map
          fun e => ⟨⟨e.token.start + shift, e.token.stop + shift⟩, e.new⟩ := by
  rw [List.map_map]
  refine List.map_congr_left fun o member => ?_
  rw [literal_eq cores (List.mem_of_mem_filter member)]
  rfl

/-- Replacing occurrences puts the new literals into the text. -/
theorem replace?_swapped {text updated mark line tail : List Char} {ps : List Swap}
    (whole : text = mark ++ (line ++ Swap.source ps tail))
    (cores : found.map Occurrence.core = (named tree).map (coreOf (width mark)))
    (fills : Exchange.Fills (width line) ((found.filter (Occurrence.isReplaced chosen change)).map
      (Occurrence.exchange (width mark) (dominantQuote? found) change)) ps)
    (edited : replace? found text chosen change = some updated) :
    updated = mark ++ (line ++ Swap.result ps tail) ∧
      (Piece.edits (width (mark ++ line)) (ps.map fun p => ⟨p.before, p.old, some p.new⟩)).map
        (·.span) = (found.filter (Occurrence.isReplaced chosen change)).map (·.literal) := by
  have edits := fills.edits (width mark)
  rw [← edits_of_replaced cores, Nat.add_comm, ← Text.width_append] at edits
  refine ⟨?_, by rw [edits, List.map_map]; rfl⟩
  have source : text = [] ++ ((mark ++ line) ++
      Piece.source (ps.map fun p => ⟨p.before, p.old, some p.new⟩) tail) := by
    simp [whole, Piece.source, Swap.source, List.flatMap_map]
  have result : mark ++ (line ++ Swap.result ps tail) = (mark ++ line) ++
      Piece.result (ps.map fun p => ⟨p.before, p.old, some p.new⟩) tail := by
    simp [Piece.result, Swap.result, List.flatMap_map]
  simp only [replace?, edits_eq] at edited
  split at edited
  · cases edited
  · rw [Option.some.injEq] at edited
    rw [← edited, Edit.applyAll, ← edits, Piece.sortBy_eq_self (Piece.edits_ordered _ _), source,
      result]
    simpa using Piece.applyFrom_edits [] (mark ++ line) tail
      (ps.map fun p => ⟨p.before, p.old, some p.new⟩)

/-- A literal that a replacement gives another value has it afterwards, and the others keep theirs. -/
theorem value_carried {body : List Char} {o : Nat} {ps : List Swap} {quote? : Option Quote}
    (laid : tree.LaidOut body) (origin : (Ecma.Module.skipInterpreter body).1 = o)
    (cores : found.map Occurrence.core = (named tree).map (coreOf shift))
    (ex : Exchanges tree ((found.filter (Occurrence.isReplaced chosen change)).map
      (Occurrence.exchange shift quote? change)))
    (fills : Exchange.Fills o ((found.filter (Occurrence.isReplaced chosen change)).map
      (Occurrence.exchange shift quote? change)) ps) {n : Kind × Token} (member : n ∈ named tree) :
    (Swap.carry o o ps n.2).value =
      if chosen n.2.value then change n.2.value else n.2.value := by
  rcases ex.carried laid origin fills (mem_named member).1 with
    ⟨e, inside, same, value, -⟩ | ⟨other, value, -⟩
  · obtain ⟨found', picked, rfl⟩ := List.mem_map.1 inside
    have old : found'.value = n.2.value := congrArg Token.value same
    have replaced := (List.mem_filter.1 picked).2
    rw [Occurrence.isReplaced, Bool.and_eq_true, old] at replaced
    rw [value, if_pos replaced.1, ← old]
    rfl
  · have listed : n.2 ∈ found.map (Occurrence.token shift) := by
      rw [tokens_eq cores]
      exact List.mem_map_of_mem member
    obtain ⟨found', inside, same⟩ := List.mem_map.1 listed
    have old : found'.value = n.2.value := congrArg Token.value same
    have kept : found'.isReplaced chosen change ≠ true := fun replaced =>
      other _ (List.mem_map_of_mem (List.mem_filter.2 ⟨inside, replaced⟩)) same
    rw [value]
    rw [Occurrence.isReplaced, old] at kept
    by_cases picked : chosen n.2.value = true
    · simp only [picked, Bool.true_and, bne_iff_ne, ne_eq, Classical.not_not] at kept
      rw [if_pos picked, kept]
    · rw [if_neg picked]

end

/-! ## The main result -/

/-- No reading of the text that is given up runs across the literal of the occurrence. -/
def IsFirm (path : String) (text : List Char) (o : Occurrence) : Prop :=
  ∀ g ∈ Ecma.Module.givenUp (dialect path) (dropMark text),
    ¬ g.Crosses (o.literal.start - (width text - width (dropMark text)))

instance (path : String) (text : List Char) (o : Occurrence) : Decidable (IsFirm path text o) :=
  inferInstanceAs (Decidable (∀ g ∈ Ecma.Module.givenUp (dialect path) (dropMark text), ¬ _))

/-- Without types every literal is firm. -/
theorem isFirm_of_plain {path : String} (plain : (dialect path).typescript = false) (text : List Char)
    (o : Occurrence) : IsFirm path text o := by
  intro g member
  rw [Ecma.Module.givenUp_eq_nil plain] at member
  cases member

section

variable {path : String} {text updated : List Char} {found : List Occurrence}
  {chosen : String → Bool} {change : String → String}

/-- A text whose specifiers were replaced by values of one line has the occurrences it had before,
with the values they were given, and differs from it in the replaced literals only. Where types are
read, the replaced literals have to be firm. -/
theorem replaced_text_is_reread (single : ¬ [byteOrderMark, byteOrderMark] <+: text)
    (read : occurrences? path text = some found)
    (line : ∀ value, '\n' ∉ (change value).toList ∧ '\r' ∉ (change value).toList)
    (firm : (dialect path).typescript = true →
      ∀ o ∈ found, o.isReplaced chosen change = true → IsFirm path text o)
    (edited : replace? found text chosen change = some updated) :
    (∃ found', occurrences? path updated = some found' ∧
      found'.map (fun o => (o.kind, o.value)) = found.map fun o =>
        (o.kind, if chosen o.value then change o.value else o.value)) ∧
    ∃ front ps tail, text = front ++ Piece.source ps tail ∧
      updated = front ++ Piece.result ps tail ∧
      (Piece.edits (width front) ps).map (·.span) =
        (found.filter (Occurrence.isReplaced chosen change)).map (·.literal) := by
  obtain ⟨mark, whole, inner, outer⟩ := exists_mark single
  have shift : width text - width (dropMark text) = width mark := by
    have size := congrArg width whole
    rw [Text.width_append] at size
    omega
  have spans : ∀ o ∈ found, o.isReplaced chosen change = true → IsFirm path text o := by
    cases typed : (dialect path).typescript with
    | true => exact firm typed
    | false => exact fun o _ _ => isFirm_of_plain typed text o
  generalize body : dropMark text = rest at whole inner outer shift
  have read' := read
  rw [whole] at read'
  obtain ⟨tree, parsed, cores⟩ := exists_tree (outer rest inner) inner read'
  have laid := Ecma.Module.parse?_laidOut parsed
  have ex := exchanges_of_replaced laid cores (dominantQuote? found) chosen line
  obtain ⟨before, ps, tail, parts, origin, fills, parsed', bare⟩ := ex.parse parsed (by
    intro g member e inside
    obtain ⟨o, picked, rfl⟩ := List.mem_map.1 inside
    have clear := spans o (List.mem_filter.1 picked).1 (List.mem_filter.1 picked).2 g
      (body ▸ member)
    rw [body, shift] at clear
    exact clear)
  rw [parts] at whole
  obtain ⟨edits, places⟩ := replace?_swapped whole cores fills edited
  have laid' := Ecma.Module.parse?_laidOut parsed'
  obtain ⟨found', reread, cores'⟩ := exists_found (outer _ (bare inner)) (bare inner) parsed'
  rw [ex.named_carried laid origin fills laid', List.map_map] at cores'
  refine ⟨⟨found', edits ▸ reread, ?_⟩, mark ++ before, _, tail, ?_, ?_, places⟩
  · calc
      found'.map (fun o => (o.kind, o.value))
          = (found'.map Occurrence.core).map fun c => (c.1, c.2.1) := by
        rw [List.map_map]
        rfl
      _ = (named tree).map fun n =>
            (n.1, if chosen n.2.value then change n.2.value else n.2.value) := by
        rw [cores', List.map_map]
        refine List.map_congr_left fun n member => ?_
        simp only [Function.comp_apply, coreOf, value_carried laid origin cores ex fills member]
      _ = (found.map Occurrence.core).map fun c =>
            (c.1, if chosen c.2.1 then change c.2.1 else c.2.1) := by
        rw [cores, List.map_map]
        rfl
      _ = found.map fun o => (o.kind, if chosen o.value then change o.value else o.value) := by
        rw [List.map_map]
        rfl
  · simp [whole, Piece.source, Swap.source, List.flatMap_map]
  · simp [edits, Piece.result, Swap.result, List.flatMap_map]

end

/-- The comparison is read as type arguments first, which is given up before the literal. -/
theorem reread_after_comparison :
    let text := "import '@org/a';\nif (n < m) require('./g');\n".toList
    let updated := "import '@org/a';\nif (n < m) require('./it\\'s');\n".toList
    Ecma.Module.givenUp (dialect "a.ts") text ≠ [] ∧
      ∃ found, occurrences? "a.ts" text = some found ∧
        replace? found text (· == "./g") (fun _ => "./it's") = some updated ∧
        ∃ found', occurrences? "a.ts" updated = some found' ∧
          found'.map (fun o => (o.kind, o.value)) =
            [(.staticImport, "@org/a"), (.requireCall, "./it's")] := by
  intro text updated
  let found : List Occurrence :=
    [⟨.staticImport, "@org/a", ⟨7, 15⟩, ⟨0, 16⟩, .single⟩,
      ⟨.requireCall, "./g", ⟨36, 41⟩, ⟨28, 42⟩, .single⟩]
  have read : occurrences? "a.ts" text = some found := by decide +kernel
  have edited : replace? found text (· == "./g") (fun _ => "./it's") = some updated := by
    decide +kernel
  obtain ⟨⟨found', reread, values⟩, -⟩ := replaced_text_is_reread (by decide) read
    (fun _ => ⟨by decide, by decide⟩) (fun _ => by decide +kernel) edited
  exact ⟨by decide +kernel, found, read, edited, found', reread, values⟩

/-- An element of markup is read as a generic function first. That is given up, because the default
of the parameter is a template without an end. A literal that ends the template makes the reading
succeed, and the call is a piece of the template. -/
theorem template_closed_by_value :
    let text := "const f = <T>(x = `\x7brequire('a')\x7d</T>;\n".toList
    let updated := "const f = <T>(x = `\x7brequire('`) => x; //')\x7d</T>;\n".toList
    ∃ found, occurrences? "a.tsx" text = some found ∧ found.length = 1 ∧
      replace? found text (fun _ => true) (fun _ => "`) => x; //") = some updated ∧
      occurrences? "a.tsx" updated = some [] := by
  refine ⟨[⟨.requireCall, "a", ⟨28, 31⟩, ⟨20, 32⟩, .single⟩], ?_, rfl, ?_, ?_⟩ <;> decide +kernel

end Rehome.Specifier
