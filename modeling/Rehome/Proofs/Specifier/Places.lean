import Rehome.Proofs.Specifier.Spans

/-!
# Where a tree names modules

A tree names a module at each of its nodes that is an import, an export of what another module
exports, or a call of `import`, `require` or `require.resolve` with a string literal as its first
argument. Nodes are told apart by their places, so that two equal ones count as two. The search goes
to every place of the tree that does not lie inside one of the declarations, and at each of them
reports the node that stands there, if it names a module, once.
-/
namespace Rehome

namespace Ecma.Tree

/-! ## Places of a tree -/

/-- The trees directly below a tree. -/
def children : Tree → List Tree
  | leaf _ => []
  | node _ parts => parts

/-- What stands at a place. A place leads down from the tree and gives, for every level, the number
of the child to go to. -/
def at? (t : Tree) : List Nat → Option Tree
  | [] => some t
  | i :: place => t.children[i]?.bind fun child => child.at? place

/-- Whether a tree is a declaration that may name a module in a clause of its own. -/
def isModuleDeclaration : Tree → Bool
  | node kind _ => kind ∈ [.importDeclaration, .exportNamed, .exportAll, .importEquals]
  | leaf _ => false

/-- A place that does not lie inside a declaration that names modules: nothing above it is one. -/
def IsOpen (t : Tree) (place : List Nat) : Prop :=
  ∀ above, above <+: place → above ≠ place → ∀ outer, t.at? above = some outer →
    outer.isModuleDeclaration = false

theorem isOpen_nil (t : Tree) : t.IsOpen [] := by
  intro above start differs
  exact absurd (List.prefix_nil.1 start) differs

theorem isOpen_cons {t : Tree} {i : Nat} {place : List Nat} :
    t.IsOpen (i :: place) ↔ t.isModuleDeclaration = false ∧
      ∀ child, t.children[i]? = some child → child.IsOpen place := by
  constructor
  · intro isOpen
    refine ⟨isOpen [] List.nil_prefix (List.cons_ne_nil i place).symm t rfl, ?_⟩
    intro child here above start differs outer found
    refine isOpen (i :: above) ((List.prefix_cons_inj i).2 start) (by simpa using differs) outer ?_
    rw [at?, here, Option.bind_some, found]
  · rintro ⟨entered, below⟩ above start differs outer found
    rcases List.prefix_cons_iff.1 start with rfl | ⟨above, rfl, later⟩
    · obtain rfl := Option.some.inj found
      exact entered
    · rw [at?, Option.bind_eq_some_iff] at found
      obtain ⟨child, here, found⟩ := found
      exact below child here above later (by simpa using differs) outer found

mutual
/-- The open places of a tree with what stands there, every tree before its parts. -/
def openParts : Tree → List (List Nat × Tree)
  | leaf token => [([], leaf token)]
  | node kind parts =>
    ([], node kind parts) ::
      if isModuleDeclaration (node kind parts) then [] else openPartsOf 0 parts

/-- The open places of trees that are the children of a tree from the `n`th one on. -/
def openPartsOf (n : Nat) : List Tree → List (List Nat × Tree)
  | [] => []
  | t :: ts => (openParts t).map (fun part => (n :: part.1, part.2)) ++ openPartsOf (n + 1) ts
end

theorem openParts_eq (t : Tree) :
    t.openParts = ([], t) :: if t.isModuleDeclaration then [] else openPartsOf 0 t.children := by
  cases t <;> simp [openParts, children, isModuleDeclaration, openPartsOf]

theorem mem_openPartsOf {n : Nat} {ts : List Tree} {place : List Nat} {part : Tree} :
    (place, part) ∈ openPartsOf n ts ↔ ∃ i rest child, place = (n + i) :: rest ∧
      ts[i]? = some child ∧ (rest, part) ∈ child.openParts := by
  induction ts generalizing n with
  | nil => simp [openPartsOf]
  | cons t ts ih =>
    rw [openPartsOf, List.mem_append, List.mem_map, ih]
    constructor
    · rintro (⟨⟨rest, part⟩, member, same⟩ | ⟨i, rest, child, rfl, here, member⟩)
      · cases same
        exact ⟨0, rest, t, rfl, rfl, member⟩
      · exact ⟨i + 1, rest, child, by rw [Nat.add_assoc, Nat.add_comm 1], here, member⟩
    · rintro ⟨i, rest, child, rfl, here, member⟩
      cases i with
      | zero =>
        obtain rfl := Option.some.inj here
        exact .inl ⟨(rest, part), member, rfl⟩
      | succ i =>
        exact .inr ⟨i, rest, child, by rw [Nat.add_assoc, Nat.add_comm 1], here, member⟩

/-- The open places are those that do not lie inside a declaration. -/
theorem mem_openParts {t part : Tree} {place : List Nat} :
    (place, part) ∈ t.openParts ↔ t.IsOpen place ∧ t.at? place = some part := by
  induction place generalizing t with
  | nil =>
    have below : ([], part) ∉ (if t.isModuleDeclaration then [] else openPartsOf 0 t.children) := by
      split
      · exact List.not_mem_nil
      · simp [mem_openPartsOf]
    rw [openParts_eq, List.mem_cons, or_iff_left below]
    simp [isOpen_nil, at?, eq_comm]
  | cons i place ih =>
    have later : (i :: place, part) ∈ t.openParts ↔ t.isModuleDeclaration = false ∧
        ∃ child, t.children[i]? = some child ∧ (place, part) ∈ child.openParts := by
      rw [openParts_eq, List.mem_cons]
      cases t.isModuleDeclaration <;> simp [mem_openPartsOf]
    rw [later, isOpen_cons, at?, Option.bind_eq_some_iff]
    constructor
    · rintro ⟨entered, child, here, member⟩
      obtain ⟨isOpen, found⟩ := ih.1 member
      refine ⟨⟨entered, fun other there => ?_⟩, child, here, found⟩
      rwa [Option.some.inj (there.symm.trans here)]
    · rintro ⟨⟨entered, isOpen⟩, child, here, found⟩
      exact ⟨entered, child, here, ih.2 ⟨isOpen child here, found⟩⟩

mutual
/-- No place is listed twice. -/
theorem nodup_openParts (t : Tree) : (t.openParts.map (·.1)).Nodup := by
  match t with
  | .leaf _ => simp [openParts]
  | .node kind parts =>
    rw [openParts, List.map_cons, List.nodup_cons]
    split
    · simp
    · refine ⟨?_, nodup_openPartsOf 0 parts⟩
      simp [mem_openPartsOf]

theorem nodup_openPartsOf (n : Nat) (ts : List Tree) : ((openPartsOf n ts).map (·.1)).Nodup := by
  match ts with
  | [] => simp [openPartsOf]
  | t :: ts =>
    rw [openPartsOf, List.map_append, List.nodup_append]
    refine ⟨?_, nodup_openPartsOf (n + 1) ts, ?_⟩
    · have inner := (nodup_openParts t).map (List.cons_injective (a := n))
      rwa [List.map_map] at inner ⊢
    · -- the places in the first tree start with `n`, and those in the others with a later number
      intro place first other later same
      rw [List.map_map, List.mem_map] at first
      obtain ⟨part, -, rfl⟩ := first
      obtain ⟨⟨place, part'⟩, member, rfl⟩ := List.mem_map.1 later
      obtain ⟨i, rest, child, rfl, -, -⟩ := mem_openPartsOf.1 member
      have equal := (List.cons.inj same).1
      omega
end

end Ecma.Tree

namespace Specifier

open Ecma (Tree Token NodeKind)
open Text (width)

/-! ## Nodes that name a module -/

/-- The first of some trees that has a token of a certain kind. -/
def First (has : Tree → Token → Prop) (parts : List Tree) (token : Token) : Prop :=
  ∃ before part after, parts = before ++ part :: after ∧ has part token ∧
    ∀ earlier ∈ before, ∀ other, ¬ has earlier other

/-- A clause that names a module by a string literal. -/
def IsSource (part : Tree) (token : Token) : Prop :=
  part = .node .source [.leaf token] ∧ token.kind = .str

/-- The arguments of a call, of which the first is a string literal and nothing else. -/
def LeadsArguments (part : Tree) (token : Token) : Prop :=
  (∃ opening more,
    part = .node .arguments (opening :: .node .stringLiteral [.leaf token] :: more)) ∧
    token.kind = .str

/-- The plain name `require`, or its plain member `resolve`. -/
def IsRequire (callee : Tree) : Prop :=
  (∃ obj dot name, callee = .node .member [obj, .leaf dot, .leaf name] ∧ dot.kind = .punct .dot ∧
    name.kind = .word "resolve" ∧ obj.identName? = some "require") ∨
  callee.identName? = some "require"

/-- A node names a module in one of the known ways, by a literal of its own. -/
inductive Bears : Tree → Kind → Token → Prop
  | importDeclaration {parts token} (named : First IsSource parts token) :
      Bears (.node .importDeclaration parts) .staticImport token
  | exportNamed {parts token} (named : First IsSource parts token) :
      Bears (.node .exportNamed parts) .reExport token
  | exportAll {parts token} (named : First IsSource parts token) :
      Bears (.node .exportAll parts) .wildcardReExport token
  | importEquals {parts token} (named : First IsSource parts token) :
      Bears (.node .importEquals parts) .requireCall token
  | importCall {inner rest token} (named : First LeadsArguments rest token) :
      Bears (.node .call (.node .importRef inner :: rest)) .dynamicImport token
  | requireCall {callee rest token} (required : IsRequire callee)
      (named : First LeadsArguments rest token) :
      Bears (.node .call (callee :: rest)) .requireCall token

section

variable {has : Tree → Token → Prop} {t : Tree} {ts : List Tree} {literal token : Token}

theorem not_first_nil : ¬ First has [] token := by
  rintro ⟨before, part, after, parts, -⟩
  simp at parts

theorem first_cons_of_has (here : has t literal) (only : ∀ other, has t other → literal = other) :
    First has (t :: ts) token ↔ literal = token := by
  constructor
  · rintro ⟨before, part, after, parts, found, none⟩
    cases before with
    | nil =>
      obtain ⟨rfl, -⟩ := List.cons.inj parts
      exact only token found
    | cons _ before =>
      obtain ⟨rfl, -⟩ := List.cons.inj parts
      exact absurd here (none t List.mem_cons_self literal)
  · rintro rfl
    exact ⟨[], t, ts, rfl, here, by simp⟩

theorem first_cons_of_not (lacks : ∀ other, ¬ has t other) :
    First has (t :: ts) token ↔ First has ts token := by
  constructor
  · rintro ⟨before, part, after, parts, found, none⟩
    cases before with
    | nil =>
      obtain ⟨rfl, -⟩ := List.cons.inj parts
      exact absurd found (lacks token)
    | cons _ before =>
      obtain ⟨rfl, rest⟩ := List.cons.inj parts
      exact ⟨before, part, after, rest, found,
        fun earlier member => none earlier (List.mem_cons_of_mem t member)⟩
  · rintro ⟨before, part, after, rfl, found, none⟩
    refine ⟨t :: before, part, after, rfl, found, ?_⟩
    simpa using ⟨lacks, none⟩

end

namespace Finding

theorem source?_eq_some_iff {parts : List Tree} {token : Token} :
    source? parts = some token ↔ First IsSource parts token := by
  fun_induction source? parts with
  | case1 => simp [not_first_nil]
  | case2 literal rest string =>
    have here : IsSource (.node .source [.leaf literal]) literal :=
      ⟨rfl, by simpa [Ecma.TokenKind.isString] using string⟩
    rw [first_cons_of_has here fun other same => by simpa using same.1, Option.some.injEq]
  | case3 literal rest other ih =>
    rw [ih, first_cons_of_not]
    rintro _ ⟨same, kind⟩
    cases same
    exact other (by rw [kind]; rfl)
  | case4 t rest other ih =>
    rw [ih, first_cons_of_not]
    rintro literal ⟨rfl, -⟩
    exact other literal rfl

theorem firstArgument?_eq_some_iff {parts : List Tree} {token : Token} :
    firstArgument? parts = some token ↔ First LeadsArguments parts token := by
  fun_induction firstArgument? parts with
  | case1 => simp [not_first_nil]
  | case2 opening literal more rest string =>
    have here : LeadsArguments
        (.node .arguments (opening :: .node .stringLiteral [.leaf literal] :: more)) literal :=
      ⟨⟨opening, more, rfl⟩, by simpa [Ecma.TokenKind.isString] using string⟩
    rw [first_cons_of_has here, Option.some.injEq]
    rintro other ⟨⟨opening', more', same⟩, -⟩
    cases same
    rfl
  | case3 opening literal more rest other ih =>
    rw [ih, first_cons_of_not]
    rintro _ ⟨⟨opening', more', same⟩, kind⟩
    cases same
    exact other (by rw [kind]; rfl)
  | case4 t rest other ih =>
    rw [ih, first_cons_of_not]
    rintro literal ⟨⟨opening, more, rfl⟩, -⟩
    exact other opening literal more rfl

/-- What a node itself names. -/
def ofNode? (t : Tree) : Option Finding :=
  match t with
  | .leaf _ => none
  | .node kind parts =>
    match declarationKind? kind with
    | some k => (source? parts).map fun token => ⟨k, token, spanOf t⟩
    | none => if kind = .call then ofCall? (spanOf t) parts else none

theorem isKind_importRef_of_isRequire {callee : Tree} (required : IsRequire callee) :
    callee.isKind .importRef = false := by
  rcases required with ⟨obj, dot, name, rfl, -⟩ | named
  · rfl
  · cases callee with
    | leaf _ => rfl
    | node kind parts =>
      have other : kind ≠ .importRef := by
        rintro rfl
        cases named
      simpa [Ecma.Tree.isKind] using other

theorem callKind?_of_isRequire {callee : Tree} (required : IsRequire callee) :
    callKind? callee = some .requireCall := by
  have yes : isRequire callee = true := isRequire_iff.2 required
  rw [callKind?, isKind_importRef_of_isRequire required, if_neg Bool.false_ne_true, if_pos yes]

/-- A call names a module if it calls `import`, `require` or `require.resolve`. -/
theorem callKind?_eq_some {callee : Tree} {kind : Kind} (named : callKind? callee = some kind) :
    (kind = .dynamicImport ∧ ∃ inner, callee = .node .importRef inner) ∨
      (kind = .requireCall ∧ IsRequire callee) := by
  unfold callKind? at named
  split at named
  next imports =>
    cases callee with
    | leaf _ => cases imports
    | node k inner =>
      obtain rfl : k = .importRef := by simpa [Ecma.Tree.isKind] using imports
      exact .inl ⟨(Option.some.inj named).symm, inner, rfl⟩
  next =>
    split at named
    next required => exact .inr ⟨(Option.some.inj named).symm, isRequire_iff.1 required⟩
    next => cases named

/-- A declaration names the module of its clause. -/
theorem bears_of_declarationKind? {k : NodeKind} {kind : Kind} {parts : List Tree} {token : Token}
    (declares : declarationKind? k = some kind) (named : First IsSource parts token) :
    Bears (.node k parts) kind token := by
  unfold declarationKind? at declares
  split at declares
  · exact Option.some.inj declares ▸ .importDeclaration named
  · exact Option.some.inj declares ▸ .exportNamed named
  · exact Option.some.inj declares ▸ .exportAll named
  · exact Option.some.inj declares ▸ .importEquals named
  · cases declares

/-- A call names its first argument. -/
theorem bears_of_ofCall? {span : Span} {parts : List Tree} {g : Finding}
    (named : ofCall? span parts = some g) :
    Bears (.node .call parts) g.kind g.token ∧ g.statement = span := by
  cases parts with
  | nil => cases named
  | cons callee rest =>
    simp only [ofCall?, Option.bind_eq_bind, Option.bind_eq_some_iff] at named
    obtain ⟨kind, calls, token, first, made⟩ := named
    obtain rfl := Option.some.inj made
    have named := firstArgument?_eq_some_iff.1 first
    refine ⟨?_, rfl⟩
    rcases callKind?_eq_some calls with ⟨rfl, inner, rfl⟩ | ⟨rfl, required⟩
    · exact .importCall named
    · exact .requireCall required named

/-- What a node names is what it bears, and its place is that of the node. -/
theorem ofNode?_eq_some_iff {t : Tree} {g : Finding} :
    ofNode? t = some g ↔ Bears t g.kind g.token ∧ g.statement = spanOf t := by
  constructor
  · intro named
    cases t with
    | leaf _ => cases named
    | node k parts =>
      unfold ofNode? at named
      dsimp only at named
      split at named
      next kind declares =>
        obtain ⟨token, first, rfl⟩ := Option.map_eq_some_iff.1 named
        exact ⟨bears_of_declarationKind? declares (source?_eq_some_iff.1 first), rfl⟩
      next =>
        split at named
        next calls =>
          subst calls
          exact bears_of_ofCall? named
        next => cases named
  · obtain ⟨kind, token, statement⟩ := g
    rintro ⟨bears, rfl⟩
    cases bears with
    | importDeclaration named | exportNamed named | exportAll named | importEquals named =>
      simp only [ofNode?, declarationKind?, source?_eq_some_iff.2 named, Option.map_some]
    | importCall named =>
      simp only [ofNode?, declarationKind?, ofCall?, firstArgument?_eq_some_iff.2 named]
      rfl
    | requireCall required named =>
      simp only [ofNode?, declarationKind?, ofCall?, firstArgument?_eq_some_iff.2 named,
        callKind?_of_isRequire required]
      rfl

theorem isModuleDeclaration_node (kind : NodeKind) (parts : List Tree) :
    Ecma.Tree.isModuleDeclaration (.node kind parts) = (declarationKind? kind).isSome := by
  cases kind <;> rfl

/-- The search reports what a node names, and goes on below it unless it is a declaration. -/
theorem ofTree_node (kind : NodeKind) (parts : List Tree) :
    ofTree (.node kind parts) = (ofNode? (.node kind parts)).toList ++
      if Ecma.Tree.isModuleDeclaration (.node kind parts) then [] else ofTrees parts := by
  rw [isModuleDeclaration_node, ofTree, ofNode?]
  cases declarationKind? kind with
  | some k =>
    dsimp only
    cases source? parts <;> rfl
  | none =>
    dsimp only
    split <;> simp

mutual
/-- The search reports what the nodes at the open places of a tree name, in their order. -/
theorem ofTree_eq (t : Tree) : ofTree t = t.openParts.filterMap fun part => ofNode? part.2 := by
  match t with
  | .leaf _ => rfl
  | .node kind parts =>
    have here : ∀ more : List (List Nat × Tree),
        ((([], .node kind parts) : List Nat × Tree) :: more).filterMap
          (fun part => ofNode? part.2) =
          (ofNode? (.node kind parts)).toList ++ more.filterMap fun part => ofNode? part.2 := by
      intro more
      rw [List.filterMap_cons]
      cases ofNode? (.node kind parts) <;> rfl
    rw [Ecma.Tree.openParts, here, ofTree_node]
    split
    · rfl
    · rw [ofTrees_eq 0 parts]

theorem ofTrees_eq (n : Nat) (ts : List Tree) :
    ofTrees ts = (Ecma.Tree.openPartsOf n ts).filterMap fun part => ofNode? part.2 := by
  match ts with
  | [] => rfl
  | t :: ts =>
    rw [ofTrees, Ecma.Tree.openPartsOf, List.filterMap_append, List.filterMap_map, ofTree_eq t,
      ofTrees_eq (n + 1) ts]
    rfl
end

end Finding

/-! ## What is reported -/

/-- An occurrence reports the node at a place of a tree that `shift` bytes stand before: the way the
node names a module, its literal and its own place. At the place of the literal the text has the
quote, and another byte at least. -/
structure Occurrence.Reports (text : List Char) (shift : Nat) (tree : Tree) (place : List Nat)
    (o : Occurrence) : Prop where
  node : ∃ part token, tree.at? place = some part ∧ Bears part o.kind token ∧
    o.value = token.value ∧
    o.literal = ⟨token.start + shift, token.stop + shift⟩ ∧
    o.statement = ⟨(Finding.spanOf part).start + shift, (Finding.spanOf part).stop + shift⟩
  quoted : ∃ raw, Text.between? text o.literal.start o.literal.stop = some raw ∧
    raw.head? = some o.quote.toChar ∧ 2 ≤ width raw

theorem Quote.ofChar?_toChar (q : Quote) : ofChar? q.toChar = some q := by cases q <;> rfl

theorem Finding.occurrence?_of_quoted {text raw : List Char} {bound shift : Nat} {g : Finding}
    {quote : Quote} (within : g.statement.stop + shift ≤ bound)
    (cut : Text.between? text (g.token.start + shift) (g.token.stop + shift) = some raw)
    (opens : raw.head? = some quote.toChar) (long : 2 ≤ width raw) :
    g.occurrence? text bound shift = some ⟨g.kind, g.token.value,
      ⟨g.token.start + shift, g.token.stop + shift⟩,
      ⟨g.statement.start + shift, g.statement.stop + shift⟩, quote⟩ := by
  simp only [occurrence?, if_neg (Nat.not_lt.2 within), cut, opens, Quote.ofChar?_toChar,
    if_neg (Nat.not_lt.2 long), Option.bind_eq_bind, Option.bind_some, Option.pure_def]

section

variable {text : List Char} {bound shift : Nat} {tree : Tree}

/-- The reports at the open places of a tree. -/
def nodeReports (text : List Char) (bound shift : Nat) (tree : Tree) :
    List (List Nat × Occurrence) :=
  tree.openParts.filterMap fun part =>
    ((Finding.ofNode? part.2).bind (Finding.occurrence? text bound shift)).map (part.1, ·)

theorem map_snd_nodeReports : (nodeReports text bound shift tree).map (·.2) =
    (Finding.ofTree tree).filterMap (Finding.occurrence? text bound shift) := by
  rw [Finding.ofTree_eq, List.filterMap_filterMap, nodeReports, List.map_filterMap]
  congr 1
  funext part
  rw [Option.map_map]
  exact Option.map_id_apply

theorem nodup_map_fst_nodeReports : ((nodeReports text bound shift tree).map (·.1)).Nodup := by
  have sublist : ∀ parts : List (List Nat × Tree),
      ((parts.filterMap fun part => ((Finding.ofNode? part.2).bind
        (Finding.occurrence? text bound shift)).map (part.1, ·)).map (·.1)).Sublist
          (parts.map (·.1)) := by
    intro parts
    induction parts with
    | nil => exact .slnil
    | cons part parts ih =>
      rw [List.filterMap_cons, List.map_cons]
      cases (Finding.ofNode? part.2).bind (Finding.occurrence? text bound shift) with
      | none => exact ih.cons _
      | some o => exact ih.cons_cons _
  exact (Ecma.Tree.nodup_openParts tree).sublist (sublist tree.openParts)

/-- The reports are those of the open places at which a node names a module. -/
theorem mem_nodeReports (within : ∀ g ∈ Finding.ofTree tree, g.statement.stop + shift ≤ bound)
    {place : List Nat} {o : Occurrence} :
    (place, o) ∈ nodeReports text bound shift tree ↔
      tree.IsOpen place ∧ o.Reports text shift tree place := by
  simp only [nodeReports, List.mem_filterMap, Option.map_eq_some_iff, Option.bind_eq_some_iff]
  constructor
  · rintro ⟨⟨place', part⟩, member, o', ⟨g, named, made⟩, same⟩
    cases same
    obtain ⟨isOpen, found⟩ := Ecma.Tree.mem_openParts.1 member
    obtain ⟨bears, statement⟩ := Finding.ofNode?_eq_some_iff.1 named
    obtain ⟨raw, quote, cut, opens, long, -, rfl⟩ := Finding.occurrence?_eq_some made
    exact ⟨isOpen, ⟨part, g.token, found, bears, rfl, rfl, by rw [statement]⟩,
      raw, cut, opens, long⟩
  · rintro ⟨isOpen, ⟨part, token, found, bears, value, literal, statement⟩, raw, cut, opens, long⟩
    have member := Ecma.Tree.mem_openParts.2 ⟨isOpen, found⟩
    have named : Finding.ofNode? part = some ⟨o.kind, token, Finding.spanOf part⟩ :=
      Finding.ofNode?_eq_some_iff.2 ⟨bears, rfl⟩
    have searched : ⟨o.kind, token, Finding.spanOf part⟩ ∈ Finding.ofTree tree := by
      rw [Finding.ofTree_eq]
      exact List.mem_filterMap.2 ⟨(place, part), member, named⟩
    rw [literal] at cut
    have made := Finding.occurrence?_of_quoted (within _ searched) cut opens long
    refine ⟨(place, part), member, o, ⟨_, named, made.trans ?_⟩, rfl⟩
    rw [← value, ← literal, ← statement]

end

theorem exists_parsed {path : String} {text : List Char} {found : List Occurrence}
    (read : occurrences? path text = some found) :
    ∃ tree, Ecma.Module.parse? (dialect path) (dropMark (dropMark text)) = some tree := by
  simp only [occurrences?, Option.bind_eq_bind, Option.bind_eq_some_iff] at read
  obtain ⟨tree, parsed, -⟩ := read
  exact ⟨tree, parsed⟩

/-- The bytes before the text of the tree: those of a mark at the front. -/
def markWidth (text : List Char) : Nat := width text - width (dropMark text)

/-- Nothing that a tree names reaches beyond the text. -/
theorem statement_within {path : String} {text : List Char} {tree : Tree}
    (parsed : Ecma.Module.parse? (dialect path) (dropMark (dropMark text)) = some tree) :
    ∀ g ∈ Finding.ofTree tree, g.statement.stop + markWidth text ≤ width text := by
  intro g found
  have inside := (Finding.statement_covers (Ecma.Module.parse?_laidOut parsed) found).2.2
  obtain ⟨mark, first⟩ := dropMark_suffix text
  obtain ⟨mark', second⟩ := dropMark_suffix (dropMark text)
  have outer := congrArg width first
  have inner := congrArg width second
  rw [Text.width_append] at outer inner
  unfold markWidth
  omega

/-- The specifiers of a text are reported for exactly the nodes of its tree that name a module and
do not lie inside a declaration that may name one, each once, in the order of their literals. -/
theorem reported_at_open_places {path : String} {text : List Char} {tree : Tree}
    (parsed : Ecma.Module.parse? (dialect path) (dropMark (dropMark text)) = some tree) :
    ∃ found places, occurrences? path text = some found ∧
      (found.Pairwise fun a b => a.literal.start ≤ b.literal.start) ∧ places.Nodup ∧
      (∀ place, place ∈ places ↔
        tree.IsOpen place ∧ ∃ o : Occurrence, o.Reports text (markWidth text) tree place) ∧
      List.Forall₂ (fun place (o : Occurrence) => o.Reports text (markWidth text) tree place)
        places found := by
  have within := statement_within parsed
  let sorted := sortBy (fun a b : List Nat × Occurrence => a.2.literal.start ≤ b.2.literal.start)
    (nodeReports text (width text) (markWidth text) tree)
  have perm : sorted.Perm (nodeReports text (width text) (markWidth text) tree) := sortBy_perm _ _
  have told : ∀ r ∈ sorted, tree.IsOpen r.1 ∧ r.2.Reports text (markWidth text) tree r.1 :=
    fun r member => (mem_nodeReports within).1 (perm.mem_iff.1 member)
  refine ⟨sorted.map (·.2), sorted.map (·.1), ?_, ?_, ?_, fun place => ?_, ?_⟩
  · have order : sorted.map (·.2) =
        sortBy (fun a b : Occurrence => a.literal.start ≤ b.literal.start)
          ((nodeReports text (width text) (markWidth text) tree).map (·.2)) :=
      map_sortBy _ _ fun _ _ _ _ => rfl
    rw [order, map_snd_nodeReports]
    simp only [occurrences?, parsed, Option.bind_eq_bind, Option.bind_some, Option.pure_def]
    rfl
  · exact List.pairwise_map.2
      (sortBy_key_pairwise (fun r : List Nat × Occurrence => r.2.literal.start) _)
  · exact (perm.map (·.1)).nodup_iff.2 nodup_map_fst_nodeReports
  · constructor
    · intro member
      obtain ⟨r, here, rfl⟩ := List.mem_map.1 member
      exact ⟨(told r here).1, r.2, (told r here).2⟩
    · rintro ⟨isOpen, o, reported⟩
      have told := (mem_nodeReports within).2 ⟨isOpen, reported⟩
      exact List.mem_map.2 ⟨(place, o), perm.mem_iff.2 told, rfl⟩
  · rw [List.forall₂_map_left_iff, List.forall₂_map_right_iff, List.forall₂_same]
    exact fun r member => (told r member).2

/-- A body of declarations, a decorator, a call among the arguments of another and the hole of a
template. The string of a call that names no module is not reported. -/
theorem reported_at_any_depth :
    let text :=
      "declare module 'm' \x7b import a = require('./a'); export * from './b' \x7d\n".toList ++
      "@d(require.resolve('./c', require('./d')))\n".toList ++
      "class C \x7b x = `$\x7bimport(\"./e\")\x7d` \x7d\nload('./f');\n".toList
    ∃ tree found, ∃ places : List (List Nat),
      Ecma.Module.parse? (dialect "a.ts") (dropMark (dropMark text)) = some tree ∧
      occurrences? "a.ts" text = some found ∧
      found.map (fun o => (o.kind, o.value)) = [(.requireCall, "./a"), (.wildcardReExport, "./b"),
        (.requireCall, "./c"), (.requireCall, "./d"), (.dynamicImport, "./e")] ∧
      places.Nodup ∧ places.length = 5 ∧
      ∀ place, place ∈ places ↔
        tree.IsOpen place ∧ ∃ o : Occurrence, o.Reports text (markWidth text) tree place := by
  intro text
  have named : (occurrences? "a.ts" text).map (List.map fun o => (o.kind, o.value)) =
      some [(.requireCall, "./a"), (.wildcardReExport, "./b"), (.requireCall, "./c"),
        (.requireCall, "./d"), (.dynamicImport, "./e")] := by decide +kernel
  obtain ⟨found, read, named⟩ := Option.map_eq_some_iff.1 named
  obtain ⟨tree, parsed⟩ := exists_parsed read
  obtain ⟨_, places, again, -, distinct, all, told⟩ := reported_at_open_places parsed
  obtain rfl := Option.some.inj (again.symm.trans read)
  refine ⟨tree, _, places, parsed, read, named, distinct, ?_, all⟩
  rw [told.length_eq, ← List.length_map (f := fun o : Occurrence => (o.kind, o.value)), named]
  rfl

/-- The attributes of an import are not searched: a call that stands there is not reported. -/
theorem call_in_attributes_unreported :
    let text := "import x from './a' with \x7b k: require('./b') \x7d;\n".toList
    let missed : Occurrence := ⟨.requireCall, "./b", ⟨38, 43⟩, ⟨30, 44⟩, .single⟩
    ∃ tree found place, Ecma.Module.parse? (dialect "a.ts") (dropMark (dropMark text)) = some tree ∧
      occurrences? "a.ts" text = some found ∧ missed.Reports text (markWidth text) tree place ∧
      missed ∉ found := by
  intro text missed
  have node : ((Ecma.Module.parse? (dialect "a.ts") (dropMark (dropMark text))).bind
      (·.at? [0, 4, 1, 1, 2])).bind Finding.ofNode? =
        some ⟨.requireCall, ⟨.str, 38, 43, "./b"⟩, ⟨30, 44⟩⟩ := by decide +kernel
  have read : occurrences? "a.ts" text =
      some [⟨.staticImport, "./a", ⟨14, 19⟩, ⟨0, 47⟩, .single⟩] := by decide +kernel
  obtain ⟨part, found, named⟩ := Option.bind_eq_some_iff.1 node
  obtain ⟨tree, parsed, found⟩ := Option.bind_eq_some_iff.1 found
  obtain ⟨bears, statement⟩ := Finding.ofNode?_eq_some_iff.1 named
  refine ⟨tree, _, [0, 4, 1, 1, 2], parsed, read, ⟨⟨part, _, found, bears, rfl, rfl, ?_⟩, ?_⟩,
    by decide⟩
  · rw [← statement]
    rfl
  · exact ⟨"'./b'".toList, by decide +kernel, rfl, by decide⟩

end Specifier
end Rehome
