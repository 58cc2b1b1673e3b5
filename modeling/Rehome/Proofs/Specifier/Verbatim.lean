import Rehome.Specifier.Edit
import Rehome.Specifier.Finder
import Rehome.Specifier.Query
import Rehome.Proofs.Ecma.Rules
import Rehome.Proofs.Table

/-!
# Values that stand in their text

A look at the bare text may spare reading it: a text without escapes that does not hold what is
looked for has no literal with that value. This is right for a finder whose values stand in their
texts as they are, and the finder for modules is one: what it finds are tokens of the text.
-/
namespace Rehome

theorem Text.contains_iff {needle cs : List Char} :
    Text.contains needle cs = true ↔ needle <:+: cs := by
  induction cs with
  | nil => simp [Text.contains]
  | cons c cs ih =>
    rw [Text.contains, Bool.or_eq_true, ih, List.isPrefixOf_iff_prefix, List.infix_cons_iff]

namespace Specifier

open Ecma (Tree Token)

theorem Quote.eq_toChar_of_ofChar? {c : Char} {q : Quote} (named : ofChar? c = some q) :
    c = q.toChar := by
  unfold ofChar? at named
  split at named <;> cases named <;> rfl

/-! ## Findings are literals of the tree -/

namespace Finding

theorem literal_of_source? {children : List Tree} {token : Token}
    (found : source? children = some token) :
    token ∈ Tree.tokensOf children ∧ token.kind = .str := by
  fun_induction source? children with
  | case1 => cases found
  | case2 token _ string =>
    cases found
    exact ⟨by simp [Tree.tokensOf, Tree.tokens], by simpa [Ecma.TokenKind.isString] using string⟩
  | case3 _ _ _ ih => simp [Tree.tokensOf, ih found]
  | case4 t rest _ ih => simp [Tree.tokensOf, ih found]

theorem literal_of_firstArgument? {children : List Tree} {token : Token}
    (found : firstArgument? children = some token) :
    token ∈ Tree.tokensOf children ∧ token.kind = .str := by
  fun_induction firstArgument? children with
  | case1 => cases found
  | case2 _ token _ _ string =>
    cases found
    exact ⟨by simp [Tree.tokensOf, Tree.tokens], by simpa [Ecma.TokenKind.isString] using string⟩
  | case3 _ _ _ _ _ ih => simp [Tree.tokensOf, ih found]
  | case4 t rest _ ih => simp [Tree.tokensOf, ih found]

theorem literal_of_ofCall? {span : Span} {children : List Tree} {g : Finding}
    (found : ofCall? span children = some g) :
    g.statement = span ∧ g.token ∈ Tree.tokensOf children ∧ g.token.kind = .str := by
  cases children with
  | nil => cases found
  | cons callee rest =>
    simp only [ofCall?, Option.bind_eq_bind, Option.bind_eq_some_iff] at found
    obtain ⟨kind, -, token, here, made⟩ := found
    cases made
    simp [Tree.tokensOf, literal_of_firstArgument? here]

mutual
/-- What a tree names is a string literal of a declaration or call in the tree, and its place is
given with the place of that part. -/
theorem exists_part {t : Tree} {g : Finding} (found : g ∈ ofTree t) :
    ∃ part : Tree, part.tokens <:+: t.tokens ∧ g.statement = spanOf part ∧
      g.token ∈ part.tokens ∧ g.token.kind = .str := by
  match t with
  | .leaf _ => simp [ofTree] at found
  | .node kind children =>
    rw [ofTree] at found
    split at found
    · split at found
      next token named =>
        rw [List.mem_singleton] at found
        subst found
        exact ⟨.node kind children, List.infix_rfl, rfl, literal_of_source? named⟩
      next => cases found
    · split at found
      · rcases List.mem_append.1 found with called | below
        · exact ⟨.node kind children, List.infix_rfl, literal_of_ofCall? (Option.mem_toList.1 called)⟩
        · exact exists_part_of_ofTrees below
      · exact exists_part_of_ofTrees found

theorem exists_part_of_ofTrees {ts : List Tree} {g : Finding} (found : g ∈ ofTrees ts) :
    ∃ part : Tree, part.tokens <:+: Tree.tokensOf ts ∧ g.statement = spanOf part ∧
      g.token ∈ part.tokens ∧ g.token.kind = .str := by
  match ts with
  | [] => simp [ofTrees] at found
  | t :: ts =>
    rw [ofTrees, List.mem_append] at found
    rw [Tree.tokensOf]
    rcases found with here | later
    · obtain ⟨part, inside, facts⟩ := exists_part here
      exact ⟨part, inside.trans (List.prefix_append ..).isInfix, facts⟩
    · obtain ⟨part, inside, facts⟩ := exists_part_of_ofTrees later
      exact ⟨part, inside.trans (List.suffix_append ..).isInfix, facts⟩
end

theorem mem_of_ofTree {t : Tree} {g : Finding} (found : g ∈ ofTree t) : g.token ∈ t.tokens := by
  obtain ⟨part, inside, -, member, -⟩ := exists_part found
  exact inside.subset member

theorem isString_of_ofTree {t : Tree} {g : Finding} (found : g ∈ ofTree t) : g.token.kind = .str := by
  obtain ⟨part, -, -, -, string⟩ := exists_part found
  exact string

/-- An occurrence tells of a literal that stands in the text with its quotes. -/
theorem occurrence?_eq_some {text : List Char} {width shift : Nat} {g : Finding} {o : Occurrence}
    (made : occurrence? text width shift g = some o) :
    ∃ raw quote, Text.between? text (g.token.start + shift) (g.token.stop + shift) = some raw ∧
      raw.head? = some quote.toChar ∧ 2 ≤ Text.width raw ∧
      g.statement.stop + shift ≤ width ∧
      o = ⟨g.kind, g.token.value, ⟨g.token.start + shift, g.token.stop + shift⟩,
        ⟨g.statement.start + shift, g.statement.stop + shift⟩, quote⟩ := by
  simp only [occurrence?, Option.pure_def, Option.bind_eq_bind] at made
  split at made
  · cases made
  next within =>
    simp only [Option.bind_eq_some_iff] at made
    obtain ⟨raw, here, quote, ⟨c, opens, named⟩, made⟩ := made
    rw [Quote.eq_toChar_of_ofChar? named] at opens
    split at made
    · cases made
    next long =>
      exact ⟨raw, quote, here, opens, Nat.not_lt.1 long, Nat.not_lt.1 within,
        (Option.some.inj made).symm⟩

end Finding

theorem dropMark_suffix (cs : List Char) : dropMark cs <:+ cs := by
  unfold dropMark
  split
  · split
    · exact List.suffix_cons _ _
    · exact List.suffix_rfl
  · exact List.suffix_rfl

/-! ## A look at the bare text -/

/-- A finder whose values stand in their texts as they are, unless the text has an escape. -/
def Finder.IsVerbatim (f : Finder) : Prop :=
  ∀ path text, '\\' ∉ text.toList → ∀ o ∈ f.occurrences path text, o.value.toList <:+: text.toList

/-- What is found in a text without escapes stands in it as it is, whether the file is one that is
read or not. -/
theorem value_isInfix {path : String} {text : List Char} {found : List Occurrence} {o : Occurrence}
    (plain : '\\' ∉ text) (parsed : occurrences? path text = some found) (member : o ∈ found) :
    o.value.toList <:+: text := by
  simp only [occurrences?, Option.pure_def, Option.bind_eq_bind, Option.bind_eq_some_iff,
    Option.some.injEq] at parsed
  obtain ⟨tree, built, rfl⟩ := parsed
  rw [(sortBy_perm _ _).mem_iff, List.mem_filterMap] at member
  obtain ⟨g, inside, made⟩ := member
  have body : dropMark (dropMark text) <:+ text := (dropMark_suffix _).trans (dropMark_suffix _)
  have stands := Ecma.Module.parse?_standsIn (fun here => plain (body.subset here)) built
  obtain ⟨-, -, -, -, -, -, rfl⟩ := Finding.occurrence?_eq_some made
  exact (stands g.token (Finding.mem_of_ofTree inside)).trans body.isInfix

theorem Finder.modules_isVerbatim : Finder.modules.IsVerbatim := by
  intro path text plain o member
  unfold Finder.occurrences at member
  split at member
  · cases parsed : Finder.modules.read? path text with
    | none => simp [parsed] at member
    | some found =>
      rw [parsed, Option.getD_some] at member
      exact value_isInfix plain parsed member
  · cases member

theorem Query.text_isInfix {q : Query} {value : String} (asked : q.matches value = true) :
    q.text.toList <:+: value.toList := by
  cases q with
  | exact s =>
    have same : value = s := by simpa [Query.matches] using asked
    rw [same]
    exact List.infix_rfl
  | aliased name =>
    simp only [Query.matches, isUnderAlias, Bool.or_eq_true, decide_eq_true_eq,
      List.isPrefixOf_iff_prefix] at asked
    rcases asked with rfl | below
    · exact List.infix_rfl
    · exact ((List.prefix_append name.toList ['/']).trans below).isInfix

/-- A text that a look at it rules out has no specifier of the kind looked for. -/
theorem mayContain_of_matches {f : Finder} {q : Query} {path text : String}
    (verbatim : f.IsVerbatim) (found : (f.occurrences path text).any (q.matches ·.value) = true) :
    mayContain text.toList q.text = true := by
  unfold mayContain
  by_cases plain : '\\' ∈ text.toList
  · simp [plain]
  · obtain ⟨o, member, asked⟩ := List.any_eq_true.1 found
    have inside := (Query.text_isInfix asked).trans (verbatim path text plain o member)
    rw [Text.contains_iff.2 inside, Bool.true_or]

end Specifier
end Rehome
