import Mathlib.Data.List.Perm.Subperm
import Rehome.Proofs.Ecma.Layout
import Rehome.Proofs.Ecma.Relabel
import Rehome.Proofs.Specifier.Pieces
import Rehome.Proofs.Specifier.Verbatim

/-!
# What a tree names

The findings of a tree depend on the kinds of its tokens only. Each is a string literal inside its
declaration or call, and no literal is found twice.
-/
namespace Rehome.Specifier

open Ecma (Tree Token NodeKind)
open Text (width)

namespace Finding

/-! ## Places of declarations and calls -/

/-- The place of a tree holds the places of its tokens. -/
theorem spanOf_covers {t : Tree} (ordered : t.tokens.Pairwise fun a b => a.stop ≤ b.start)
    (narrow : ∀ token ∈ t.tokens, token.start ≤ token.stop) {token : Token}
    (member : token ∈ t.tokens) :
    (spanOf t).start ≤ token.start ∧ token.stop ≤ (spanOf t).stop := by
  rw [spanOf, Tree.start?_eq, Tree.stop?_eq]
  generalize t.tokens = tokens at ordered narrow member
  constructor
  · cases tokens with
    | nil => cases member
    | cons first later =>
      change first.start ≤ token.start
      rcases List.mem_cons.1 member with rfl | behind
      · exact Nat.le_refl _
      · have before := List.rel_of_pairwise_cons ordered behind
        have size := narrow first List.mem_cons_self
        omega
  · rcases List.eq_nil_or_concat' tokens with rfl | ⟨front, last, rfl⟩
    · cases member
    · rw [List.getLast?_concat]
      change token.stop ≤ last.stop
      rcases List.mem_append.1 member with ahead | here
      · have before := (List.pairwise_append.1 ordered).2.2 token ahead last List.mem_cons_self
        have size := narrow last (List.mem_append_right front List.mem_cons_self)
        omega
      · rw [List.mem_singleton.1 here]

theorem spanOf_stop_le {bound : Nat} {t : Tree} (within : ∀ token ∈ t.tokens, token.stop ≤ bound) :
    (spanOf t).stop ≤ bound := by
  rw [spanOf, Tree.stop?_eq]
  cases ends : t.tokens.getLast? with
  | none => exact Nat.zero_le bound
  | some last => exact within last (List.mem_of_getLast? ends)

/-- A declaration or call stands in the text, and around the literal that it names. -/
theorem statement_covers {body : List Char} {t : Tree} (laid : t.LaidOut body) {g : Finding}
    (found : g ∈ ofTree t) :
    g.statement.start ≤ g.token.start ∧ g.token.stop ≤ g.statement.stop ∧
      g.statement.stop ≤ width body := by
  obtain ⟨part, inside, place, member, -⟩ := exists_part found
  have within : ∀ token ∈ part.tokens, token.start ≤ token.stop ∧ token.stop ≤ width body :=
    fun token here => (laid.within token (inside.subset here)).2
  obtain ⟨start, stop⟩ := spanOf_covers (laid.ordered.sublist inside.sublist)
    (fun token here => (within token here).1) member
  rw [place]
  exact ⟨start, stop, spanOf_stop_le fun token here => (within token here).2⟩

/-! ## No literal is found twice -/

/-- The first argument stands in the first child that is a list of arguments, or in a later one. -/
theorem firstArgument?_cons {t : Tree} {rest : List Tree} {token : Token}
    (found : firstArgument? (t :: rest) = some token) :
    (∃ opening more,
        t = .node .arguments (opening :: .node .stringLiteral [.leaf token] :: more)) ∨
      firstArgument? rest = some token := by
  unfold firstArgument? at found
  split at found
  next none' => cases none'
  next opening literal more rest' same =>
    cases same
    split at found
    · cases found
      exact .inl ⟨opening, more, rfl⟩
    · exact .inr found
  next t' rest' _ same =>
    cases same
    exact .inr found

mutual
/-- The literals that a tree names are tokens of the tree, each found at most once. -/
theorem subperm_ofTree (t : Tree) : List.Subperm ((ofTree t).map (·.token)) t.tokens := by
  match t with
  | .leaf _ => simp [ofTree]
  | .node kind children =>
    rw [Tree.tokens, ofTree]
    split
    · split
      next token named => simpa using (literal_of_source? named).1
      next => simp
    · split
      · cases called : ofCall? (spanOf (.node kind children)) children with
        | none => simpa using subperm_ofTrees children
        | some g => exact subperm_ofCall? called
      · exact subperm_ofTrees children

theorem subperm_ofTrees (ts : List Tree) :
    List.Subperm ((ofTrees ts).map (·.token)) (Tree.tokensOf ts) := by
  match ts with
  | [] => simp [ofTrees]
  | t :: ts =>
    rw [ofTrees, List.map_append, Tree.tokensOf]
    exact (subperm_ofTree t).append (subperm_ofTrees ts)

/-- The literal that a call names is not found again below the call. -/
theorem subperm_ofCall? {span : Span} {children : List Tree} {g : Finding}
    (called : ofCall? span children = some g) :
    List.Subperm (((some g).toList ++ ofTrees children).map (·.token)) (Tree.tokensOf children) := by
  match children with
  | [] => cases called
  | callee :: rest =>
    simp only [ofCall?, Option.bind_eq_bind, Option.bind_eq_some_iff] at called
    obtain ⟨kind, -, token, here, made⟩ := called
    cases made
    have inside := subperm_firstArgument? here
    simp only [Option.toList_some, List.singleton_append, List.map_cons, ofTrees, List.map_append,
      Tree.tokensOf]
    exact (List.Perm.subperm_right List.perm_middle.symm).2 ((subperm_ofTree callee).append inside)

theorem subperm_firstArgument? {ts : List Tree} {token : Token}
    (found : firstArgument? ts = some token) :
    List.Subperm (token :: (ofTrees ts).map (·.token)) (Tree.tokensOf ts) := by
  match ts with
  | [] => cases found
  | .leaf t :: rest =>
    have later : firstArgument? rest = some token := found
    rw [ofTrees, ofTree, List.nil_append, Tree.tokensOf]
    exact (subperm_firstArgument? later).trans (List.sublist_append_right ..).subperm
  | .node kind children :: rest =>
    have below := subperm_arguments children
    rw [ofTrees, List.map_append, Tree.tokensOf]
    rcases firstArgument?_cons found with ⟨opening, more, same⟩ | later
    · obtain ⟨rfl, parts⟩ := Tree.node.inj same
      have here := (below opening token more parts).append (subperm_ofTrees rest)
      rw [Tree.tokens, ofTree]
      exact here
    · have others := (subperm_ofTree (.node kind children)).append (subperm_firstArgument? later)
      exact (List.Perm.subperm_right List.perm_middle.symm).2 others

theorem subperm_arguments (ts : List Tree) :
    ∀ opening token more, ts = opening :: .node .stringLiteral [.leaf token] :: more →
      List.Subperm (token :: (ofTrees ts).map (·.token)) (Tree.tokensOf ts) := by
  match ts with
  | [] => simp
  | [t] => simp
  | opening :: second :: more =>
    intro _ token _ same
    obtain ⟨-, tail⟩ := List.cons.inj same
    obtain ⟨rfl, -⟩ := List.cons.inj tail
    have others := (subperm_ofTree opening).append ((List.subperm_cons token).2 (subperm_ofTrees more))
    have nothing : ofTree (.node .stringLiteral [.leaf token]) = [] := rfl
    rw [ofTrees, ofTrees, nothing, List.nil_append, List.map_append]
    exact (List.Perm.subperm_right List.perm_middle.symm).2 others
end

/-! ## Other tokens of the same kinds -/

/-- A callee is `require`, or its member `resolve`. -/
theorem isRequire_iff {t : Tree} :
    isRequire t = true ↔
      (∃ obj dot name, t = .node .member [obj, .leaf dot, .leaf name] ∧ dot.kind = .punct .dot ∧
        name.kind = .word "resolve" ∧ obj.identName? = some "require") ∨
      t.identName? = some "require" := by
  constructor
  · intro required
    unfold isRequire at required
    split at required
    next obj _ _ _ name _ _ _ =>
      simp only [Bool.and_eq_true, decide_eq_true_eq] at required
      obtain ⟨named, rfl⟩ := required
      exact .inl ⟨obj, _, _, rfl, rfl, rfl, named⟩
    next => exact .inr (by simpa using required)
  · rintro (⟨obj, ⟨_, _, _, _⟩, ⟨_, _, _, _⟩, rfl, rfl, rfl, named⟩ | named)
    · simp [isRequire, named]
    · unfold isRequire
      split
      next => cases named
      next => simp [named]

section

variable {f : Token → Token} (kinds : ∀ t, (f t).kind = t.kind)
include kinds

theorem source?_map (ts : List Tree) : source? (Tree.mapAll f ts) = (source? ts).map f := by
  fun_induction source? ts with
  | case1 => rfl
  | case2 token rest string =>
    simp only [Tree.mapAll, Ecma.Tree.map, source?, kinds, string]
    rfl
  | case3 token rest other ih =>
    simp only [Tree.mapAll, Ecma.Tree.map, source?, kinds, other]
    exact ih
  | case4 t rest other ih =>
    rw [Tree.mapAll, ← ih]
    refine source?.eq_3 _ _ ?_
    intro token same
    obtain ⟨children, rfl, parts⟩ := Tree.exists_node_of_map f same
    obtain ⟨part, rfl, leaf⟩ := List.map_eq_singleton_iff.1 parts
    obtain ⟨old, rfl⟩ := Tree.exists_leaf_of_map f leaf
    exact other old rfl

theorem firstArgument?_map (ts : List Tree) :
    firstArgument? (Tree.mapAll f ts) = (firstArgument? ts).map f := by
  fun_induction firstArgument? ts with
  | case1 => rfl
  | case2 opening token more rest string =>
    simp only [Tree.mapAll, Ecma.Tree.map, firstArgument?, kinds, string]
    rfl
  | case3 opening token more rest other ih =>
    simp only [Tree.mapAll, Ecma.Tree.map, firstArgument?, kinds, other]
    exact ih
  | case4 t rest other ih =>
    rw [Tree.mapAll, ← ih]
    refine firstArgument?.eq_3 _ _ ?_
    intro opening token more same
    obtain ⟨children, rfl, parts⟩ := Tree.exists_node_of_map f same
    obtain ⟨first, others, rfl, -, tail⟩ := List.map_eq_cons_iff.1 parts
    obtain ⟨second, others, rfl, literal, -⟩ := List.map_eq_cons_iff.1 tail
    obtain ⟨children, rfl, inner⟩ := Tree.exists_node_of_map f literal
    obtain ⟨part, rfl, leaf⟩ := List.map_eq_singleton_iff.1 inner
    obtain ⟨old, rfl⟩ := Tree.exists_leaf_of_map f leaf
    exact other first old others rfl

theorem isRequire_map (t : Tree) : isRequire (t.map f) = isRequire t := by
  rw [Bool.eq_iff_iff, isRequire_iff, isRequire_iff, Tree.identName?_map kinds]
  refine or_congr ⟨?_, ?_⟩ Iff.rfl
  · rintro ⟨obj, dot, name, same, point, word, named⟩
    obtain ⟨children, rfl, parts⟩ := Tree.exists_node_of_map f same
    obtain ⟨obj', rest, rfl, rfl, tail⟩ := List.map_eq_cons_iff.1 parts
    obtain ⟨second, rest, rfl, leaf, last⟩ := List.map_eq_cons_iff.1 tail
    obtain ⟨third, rfl, leaf'⟩ := List.map_eq_singleton_iff.1 last
    obtain ⟨dot', rfl⟩ := Tree.exists_leaf_of_map f leaf
    obtain ⟨name', rfl⟩ := Tree.exists_leaf_of_map f leaf'
    obtain rfl := Tree.leaf.inj leaf
    obtain rfl := Tree.leaf.inj leaf'
    rw [kinds] at point word
    rw [Tree.identName?_map kinds] at named
    exact ⟨obj', dot', name', rfl, point, word, named⟩
  · rintro ⟨obj, dot, name, rfl, point, word, named⟩
    refine ⟨obj.map f, f dot, f name, rfl, by rw [kinds, point], by rw [kinds, word], ?_⟩
    rw [Tree.identName?_map kinds, named]

theorem callKind?_map (t : Tree) : callKind? (t.map f) = callKind? t := by
  rw [callKind?, callKind?, Tree.isKind_map, isRequire_map kinds]

theorem ofCall?_map (span span' : Span) (ts : List Tree) :
    (ofCall? span' (Tree.mapAll f ts)).map (fun g => (g.kind, g.token)) =
      (ofCall? span ts).map fun g => (g.kind, f g.token) := by
  cases ts with
  | nil => rfl
  | cons callee rest =>
    rw [Tree.mapAll, ofCall?, ofCall?, callKind?_map kinds, firstArgument?_map kinds]
    cases callKind? callee with
    | none => rfl
    | some kind =>
      cases firstArgument? rest with
      | none => rfl
      | some token => rfl

end

mutual
/-- What a tree names has the same kinds in a tree with other tokens. -/
theorem ofTree_map {f : Token → Token} (kinds : ∀ t, (f t).kind = t.kind) (t : Tree) :
    (ofTree (t.map f)).map (fun g => (g.kind, g.token)) =
      (ofTree t).map fun g => (g.kind, f g.token) := by
  match t with
  | .leaf _ => rfl
  | .node kind children =>
    rw [Ecma.Tree.map, ofTree, ofTree]
    cases declarationKind? kind with
    | some k =>
      dsimp only
      rw [source?_map kinds]
      cases source? children <;> rfl
    | none =>
      dsimp only
      split
      · have called := ofCall?_map kinds (spanOf (.node kind children))
          (spanOf (.node kind (Tree.mapAll f children))) children
        rw [List.map_append, List.map_append, ofTrees_mapAll kinds children, ← Option.toList_map,
          ← Option.toList_map, called]
      · exact ofTrees_mapAll kinds children

theorem ofTrees_mapAll {f : Token → Token} (kinds : ∀ t, (f t).kind = t.kind) (ts : List Tree) :
    (ofTrees (Tree.mapAll f ts)).map (fun g => (g.kind, g.token)) =
      (ofTrees ts).map fun g => (g.kind, f g.token) := by
  match ts with
  | [] => rfl
  | t :: ts =>
    rw [Tree.mapAll, ofTrees, ofTrees, List.map_append, List.map_append, ofTree_map kinds t,
      ofTrees_mapAll kinds ts]
end

end Finding

/-! ## The literals that a text names -/

theorem map_sortBy {α β : Type} {ahead : α → α → Bool} (ahead' : β → β → Bool) (g : α → β)
    {l : List α} (same : ∀ a ∈ l, ∀ b ∈ l, ahead a b = ahead' (g a) (g b)) :
    (sortBy ahead l).map g = sortBy ahead' (l.map g) := by
  rw [sortBy_eq_insertionSort, sortBy_eq_insertionSort]
  refine List.map_insertionSort _ _ g l fun a here b there => ?_
  rw [same a here b there]

/-- The kind, the value and the place of an occurrence. -/
def Occurrence.core (o : Occurrence) : Kind × String × Span := (o.kind, o.value, o.literal)

/-- The order of places. -/
def coreAhead (a b : Kind × String × Span) : Bool := a.2.2.start ≤ b.2.2.start

/-- The occurrence at a token, with all places moved by `shift`. -/
def coreOf (shift : Nat) (n : Kind × Token) : Kind × String × Span :=
  (n.1, n.2.value, ⟨n.2.start + shift, n.2.stop + shift⟩)

/-- A literal has at least its two quotes. A line or a text may end after the first one. -/
def isWhole (n : Kind × Token) : Bool := n.2.start + 2 ≤ n.2.stop

/-- The literals that a tree names, in the order of the text. -/
def named (t : Tree) : List (Kind × Token) :=
  sortBy (fun a b => a.2.start ≤ b.2.start)
    (((Finding.ofTree t).map fun g => (g.kind, g.token)).filter isWhole)

theorem mem_named {t : Tree} {n : Kind × Token} (member : n ∈ named t) :
    n.2 ∈ t.tokens ∧ n.2.kind = .str ∧ isWhole n = true := by
  rw [named, sortBy_eq_insertionSort, List.mem_insertionSort, List.mem_filter, List.mem_map] at member
  obtain ⟨⟨g, found, rfl⟩, whole⟩ := member
  exact ⟨Finding.mem_of_ofTree found, Finding.isString_of_ofTree found, whole⟩

theorem exists_ofChar? {q : Char} (quoted : Ecma.IsQuote q) :
    ∃ quote, Quote.ofChar? q = some quote := by
  rcases quoted with rfl | rfl
  · exact ⟨.double, rfl⟩
  · exact ⟨.single, rfl⟩

section

variable (mark : List Char) {body : List Char}

/-- A literal of a text is one of the text behind a mark. -/
theorem exists_literal {t : Token} (literal : t.IsLiteralOf body) :
    ∃ front raw rest, mark ++ body = front ++ (raw ++ rest) ∧ t.start + width mark = width front ∧
      t.stop + width mark = width front + width raw ∧
      Ecma.StringLiteral.IsLiteral raw t.value rest := by
  obtain ⟨front, raw, rest, text, start, stop, read⟩ := literal
  refine ⟨mark ++ front, raw, rest, by rw [text, List.append_assoc], ?_, ?_, read⟩
  · rw [start, Text.width_append, Nat.add_comm]
  · rw [stop, start, Text.width_append]
    omega

/-- A literal of the text is an occurrence, if it is whole. -/
theorem core_occurrence? {g : Finding} (literal : g.token.IsLiteralOf body)
    (statement : g.statement.stop ≤ width body) :
    (g.occurrence? (mark ++ body) (width (mark ++ body)) (width mark)).map Occurrence.core =
      if isWhole (g.kind, g.token) then some (coreOf (width mark) (g.kind, g.token)) else none := by
  obtain ⟨front, raw, rest, whole, start, stop, q, cs, quoted, opens, -⟩ := exists_literal mark literal
  obtain ⟨quote, named⟩ := exists_ofChar? quoted
  have within : ¬ width (mark ++ body) < g.statement.stop + width mark := by
    rw [Text.width_append]
    omega
  have raws : Text.between? (mark ++ body) (g.token.start + width mark) (g.token.stop + width mark) =
      some raw := by
    rw [start, stop, whole, Text.between?_width]
  have head : raw.head?.bind Quote.ofChar? = some quote := by
    rw [opens, List.head?_cons, Option.bind_some, named]
  simp only [Finding.occurrence?, within, if_false, raws, head, Option.bind_eq_bind, Option.bind_some,
    Option.pure_def]
  by_cases short : width raw < 2
  · have cut : isWhole (g.kind, g.token) = false := by
      simp only [isWhole, decide_eq_false_iff_not]
      omega
    rw [if_pos short, cut]
    rfl
  · have whole : isWhole (g.kind, g.token) = true := by
      simp only [isWhole, decide_eq_true_eq]
      omega
    rw [if_neg short, whole]
    rfl

theorem core_filterMap {gs : List Finding}
    (literals : ∀ g ∈ gs, g.token.IsLiteralOf body ∧ g.statement.stop ≤ width body) :
    (gs.filterMap (Finding.occurrence? (mark ++ body) (width (mark ++ body)) (width mark))).map
        Occurrence.core =
      ((gs.map fun g => (g.kind, g.token)).filter isWhole).map (coreOf (width mark)) := by
  induction gs with
  | nil => rfl
  | cons g gs ih =>
    have later := ih fun other member => literals other (List.mem_cons_of_mem g member)
    obtain ⟨literal, statement⟩ := literals g List.mem_cons_self
    have here := core_occurrence? mark literal statement
    rw [List.map_cons, List.filter_cons, List.filterMap_cons]
    split
    next none' =>
      rw [none'] at here
      split at here
      · cases here
      next cut => rw [if_neg cut, later]
    next o some' =>
      rw [some', Option.map_some] at here
      split at here
      next whole =>
        rw [if_pos whole, List.map_cons, List.map_cons, later, Option.some.inj here]
      · cases here

/-- The occurrences of a text are the literals that its tree names, in their order. -/
theorem core_sortBy {tree : Tree} (laid : tree.LaidOut body) :
    (sortBy (fun a b => a.literal.start ≤ b.literal.start) ((Finding.ofTree tree).filterMap
        (Finding.occurrence? (mark ++ body) (width (mark ++ body)) (width mark)))).map
          Occurrence.core = (named tree).map (coreOf (width mark)) := by
  have literals : ∀ g ∈ Finding.ofTree tree,
      g.token.IsLiteralOf body ∧ g.statement.stop ≤ width body := by
    intro g found
    refine ⟨laid.literals _ (Finding.mem_of_ofTree found) (Finding.isString_of_ofTree found), ?_⟩
    exact (Finding.statement_covers laid found).2.2
  calc
    _ = sortBy coreAhead (((Finding.ofTree tree).filterMap (Finding.occurrence? (mark ++ body)
          (width (mark ++ body)) (width mark))).map Occurrence.core) :=
      map_sortBy coreAhead Occurrence.core fun _ _ _ _ => rfl
    _ = sortBy coreAhead ((((Finding.ofTree tree).map fun g => (g.kind, g.token)).filter isWhole).map
          (coreOf (width mark))) := by rw [core_filterMap mark literals]
    _ = (named tree).map (coreOf (width mark)) :=
      (map_sortBy coreAhead (coreOf (width mark)) (by simp [coreAhead, coreOf])).symm

end

/-- Putting other tokens into a tree keeps the order of the literals that it names, if they stay
whole and in their order. -/
theorem named_map {f : Token → Token} (kinds : ∀ t, (f t).kind = t.kind) {tree : Tree}
    (wholes : ∀ g ∈ Finding.ofTree tree, isWhole (g.kind, f g.token) = isWhole (g.kind, g.token))
    (order : ∀ a ∈ named tree, ∀ b ∈ named tree,
      (a.2.start ≤ b.2.start ↔ (f a.2).start ≤ (f b.2).start)) :
    named (tree.map f) = (named tree).map fun n => (n.1, f n.2) := by
  have pairs : ((Finding.ofTree tree).map fun g => (g.kind, f g.token)).filter isWhole =
      (((Finding.ofTree tree).map fun g => (g.kind, g.token)).filter isWhole).map
        fun n => (n.1, f n.2) := by
    rw [List.filter_map, List.filter_map, List.map_map]
    congr 1
    exact List.filter_congr wholes
  rw [named, Finding.ofTree_map kinds, pairs, named]
  refine (map_sortBy _ _ fun a here b there => ?_).symm
  have same := order a (by rw [named]; exact (sortBy_perm _ _).mem_iff.2 here) b
    (by rw [named]; exact (sortBy_perm _ _).mem_iff.2 there)
  simpa using same

end Rehome.Specifier
