import Rehome.Ecma.Tree

/-!
# Trees with other tokens

Putting other tokens of the same kinds into a tree changes no answer that a rule of the grammar may
ask for.
-/
namespace Rehome.Ecma

namespace Tree

mutual
/-- The tree with other tokens in the places of its own. -/
def map (f : Token → Token) : Tree → Tree
  | leaf t => leaf (f t)
  | node kind children => node kind (mapAll f children)

def mapAll (f : Token → Token) : List Tree → List Tree
  | [] => []
  | t :: ts => map f t :: mapAll f ts
end

section

variable (f : Token → Token)

theorem mapAll_eq (ts : List Tree) : mapAll f ts = ts.map (map f) := by
  induction ts with
  | nil => rfl
  | cons t ts ih => rw [mapAll, ih, List.map_cons]

theorem exists_leaf_of_map {t : Tree} {token : Token} (same : t.map f = leaf token) :
    ∃ old, t = leaf old := by
  cases t with
  | leaf old => exact ⟨old, rfl⟩
  | node kind children => cases same

theorem exists_node_of_map {t : Tree} {kind : NodeKind} {parts : List Tree}
    (same : t.map f = node kind parts) : ∃ children, t = node kind children ∧ children.map (map f) = parts := by
  cases t with
  | leaf old => cases same
  | node k children =>
    rw [map, mapAll_eq] at same
    obtain ⟨rfl, rfl⟩ := node.inj same
    exact ⟨children, rfl, rfl⟩

mutual
@[simp] theorem tokens_map (t : Tree) : (t.map f).tokens = t.tokens.map f := by
  cases t with
  | leaf token => simp [map, tokens]
  | node kind children => simp [map, tokens, tokensOf_mapAll children]

theorem tokensOf_mapAll (ts : List Tree) : tokensOf (mapAll f ts) = (tokensOf ts).map f := by
  cases ts with
  | nil => rfl
  | cons t ts => simp [mapAll, tokensOf, tokens_map t, tokensOf_mapAll ts]
end

@[simp] theorem isKind_map (kind : NodeKind) (t : Tree) : (t.map f).isKind kind = t.isKind kind := by
  cases t <;> rfl

@[simp] theorem isSimpleTarget_map (t : Tree) : (t.map f).isSimpleTarget = t.isSimpleTarget := by
  cases t <;> rfl

mutual
@[simp] theorem readsAsPattern_map (t : Tree) : (t.map f).readsAsPattern = t.readsAsPattern := by
  cases t with
  | leaf token => rfl
  | node kind children =>
    have parts := partsReadAsPattern_mapAll children
    cases kind <;> first | rfl | exact parts

theorem partsReadAsPattern_mapAll (ts : List Tree) :
    partsReadAsPattern (mapAll f ts) = partsReadAsPattern ts := by
  cases ts with
  | nil => rfl
  | cons t ts =>
    rw [mapAll, partsReadAsPattern, partsReadAsPattern, readsAsPattern_map t,
      partsReadAsPattern_mapAll ts]
end

@[simp] theorem isTarget_map (t : Tree) : (t.map f).isTarget = t.isTarget := by
  simp [isTarget]

@[simp] theorem readsAsParameters_map (t : Tree) :
    (t.map f).readsAsParameters = t.readsAsParameters := by
  cases t with
  | leaf token => rfl
  | node kind children => exact partsReadAsPattern_mapAll f children

@[simp] theorem hasChild_map (kind : NodeKind) (t : Tree) :
    (t.map f).hasChild kind = t.hasChild kind := by
  cases t with
  | leaf token => rfl
  | node k children =>
    rw [map, hasChild, hasChild, mapAll_eq, List.any_map]
    congr 1
    funext child
    exact isKind_map f kind child

@[simp] theorem hasOnlyTokens_map (t : Tree) : (t.map f).hasOnlyTokens = t.hasOnlyTokens := by
  cases t with
  | leaf token => rfl
  | node k children =>
    rw [map, hasOnlyTokens, hasOnlyTokens, mapAll_eq, List.all_map]
    congr 1
    funext child
    cases child <;> rfl

@[simp] theorem isOptionalChain_map (t : Tree) : (t.map f).isOptionalChain = t.isOptionalChain := by
  cases t with
  | leaf token => rfl
  | node kind children =>
    cases children with
    | nil => cases kind <;> rfl
    | cons child rest => cases kind <;> simp [map, mapAll, isOptionalChain]

theorem identName?_leaf (token : Token) (rest : List Tree) :
    (node .ident (leaf token :: rest)).identName? =
      if rest.isEmpty then (node .ident [leaf ⟨token.kind, 0, 0, ""⟩]).identName? else none := by
  obtain ⟨kind, start, stop, value⟩ := token
  cases rest with
  | nil => cases kind <;> rfl
  | cons second rest => cases kind <;> rfl

theorem identName?_map {f : Token → Token} (kinds : ∀ t, (f t).kind = t.kind) (t : Tree) :
    (t.map f).identName? = t.identName? := by
  cases t with
  | leaf token => rfl
  | node kind children =>
    by_cases named : kind = .ident
    · subst named
      cases children with
      | nil => rfl
      | cons child rest =>
        cases child with
        | node kind children => rfl
        | leaf token =>
          rw [map, mapAll, map, identName?_leaf, identName?_leaf token, kinds, mapAll_eq,
            List.isEmpty_map]
    · cases kind <;> first | rfl | exact absurd rfl named

end

end Tree

/-- No answer depends on more of a token than its kind. -/
theorem Query.holds_map {f : Token → Token} (kinds : ∀ t, (f t).kind = t.kind) (query : Query)
    (t : Tree) : query.holds (t.map f) = query.holds t := by
  cases query <;> simp [holds, Tree.identName?_map kinds]

end Rehome.Ecma
