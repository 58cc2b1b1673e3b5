import Rehome.Ecma.Module

/-!
# Reading imports and exports

A rule is followed step by step where the kinds of the next tokens are known. So the grammar reads
an import for its effects, and an export of everything that another module exports, wherever they
stand and whatever string names the other module.
-/
namespace Rehome.Ecma

/-! ## Following a rule -/

namespace Rule

variable {N : Type} {α β : Type} {follow : N → Context → Reader → Outcome Unit} {c : Context}
  {r r' r'' : Reader}

/-- Followed from the first reader, the rule answers and leaves the second one. -/
def Leads (follow : N → Context → Reader → Outcome Unit) (c : Context) (p : Rule N α) (r : Reader)
    (a : α) (r' : Reader) : Prop :=
  p.run follow c r = .ok a r'

theorem Leads.bind {p : Rule N α} {k : α → Rule N β} {a : α} {b : β}
    (first : p.Leads follow c r a r') (later : (k a).Leads follow c r' b r'') :
    (p >>= k).Leads follow c r b r'' := by
  change (andThen p k).run follow c r = _
  rw [run, first]
  exact later

theorem leads_pure (a : α) : (pure a : Rule N α).Leads follow c r a r := rfl

theorem leads_look : (look : Rule N Look).Leads follow c r r.look r := rfl

theorem leads_lookAhead : (lookAhead : Rule N Look).Leads follow c r r.lookAhead r := rfl

theorem leads_mark : (mark : Rule N Nat).Leads follow c r r.height r := rfl

theorem leads_wrap (kind : NodeKind) (height : Nat) :
    (wrap kind height : Rule N Unit).Leads follow c r () (r.wrap kind height) := rfl

theorem leads_forget : (forget r.height : Rule N Unit).Leads follow c r () r := by
  change Outcome.ok () (r.forget r.height) = _
  simp [Reader.forget]

theorem leads_call {n : N} (called : follow n c r = .ok () r') :
    (call n : Rule N Unit).Leads follow c r () r' := called

/-- A rule is followed with the answer true, each time taking a token, and once more with the answer
false. -/
inductive Repeats (follow : N → Context → Reader → Outcome Unit) (c : Context)
    (body : Rule N Bool) : Reader → Reader → Prop
  | last {r r' : Reader} (room : 0 < r.left) (ends : body.Leads follow c r false r') :
      Repeats follow c body r r'
  | again {r r' r'' : Reader} (goes : body.Leads follow c r true r') (taken : r'.left < r.left)
      (rest : Repeats follow c body r' r'') : Repeats follow c body r r''

theorem Repeats.leads {body : Rule N Bool} (h : Repeats follow c body r r') :
    (loop body).Leads follow c r () r' := by
  let round (_ : Unit) : Rule N (Option Unit) := do return if (← body) then some () else none
  have once : ∀ {r r' : Reader} {again : Bool}, body.Leads follow c r again r' →
      (round ()).run follow c r = .ok (if again then some () else none) r' :=
    fun goes => goes.bind (leads_pure _)
  suffices enough : ∀ n, r.left ≤ n →
      Outcome.iterate (fun s => (round s).run follow c) n () r = .ok () r' from
    enough r.left (Nat.le_refl _)
  induction h with
  | last room ends =>
    intro n fits
    obtain ⟨k, rfl⟩ := Nat.exists_eq_add_one_of_ne_zero (Nat.ne_of_gt (Nat.lt_of_lt_of_le room fits))
    rw [Outcome.iterate, once ends]
    rfl
  | again goes taken rest ih =>
    intro n fits
    obtain ⟨k, rfl⟩ := Nat.exists_eq_add_one_of_ne_zero
      (Nat.ne_of_gt (Nat.lt_of_lt_of_le (Nat.zero_lt_of_lt taken) fits))
    rw [Outcome.iterate, once goes]
    exact (if_pos taken).trans (ih k (by omega))

end Rule

/-- The next token has the given kind, and the second reader stands behind it. -/
structure Reader.Passes (r : Reader) (kind : TokenKind) (r' : Reader) : Prop where
  kind : r.look.kind = kind
  take : r.take .plain = r'

namespace Grammar

open Rule

variable {follow : Nonterminal → Context → Reader → Outcome Unit} {c : Context}
  {r r₁ r₂ r₃ r₄ r₅ r₆ r₇ : Reader} {kind : TokenKind}

theorem leads_shift (h : r.Passes kind r₁) (present : kind.isPresent = true) :
    (shift : Grammar Unit).Leads follow c r () r₁ := by
  have taken := h.take
  subst taken
  exact if_pos ((congrArg TokenKind.isPresent h.kind).trans present)

theorem leads_isWord (name : String) :
    (isWord name).Leads follow c r (r.look.kind = .word name) r := rfl

theorem leads_isPunct (p : Punct) :
    (isPunct p).Leads follow c r (r.look.kind = .punct p) r := rfl

theorem leads_isTypescript : isTypescript.Leads follow c r c.typescript r := rfl

theorem leads_aheadIsPunct (p : Punct) :
    (aheadIsPunct p).Leads follow c r (r.lookAhead.kind = .punct p) r := rfl

theorem leads_aheadIsWord (name : String) :
    (aheadIsWord name).Leads follow c r (r.lookAhead.kind = .word name) r := rfl

/-- Behind a token that leads on the token ahead is the one that comes after it. -/
theorem lookAhead_kind (h : r.Passes kind r₁) (on : kind.leadsOn = true) :
    r.lookAhead.kind = r₁.look.kind := by
  have taken := h.take
  subst taken
  have follows : r.next.token.kind.leadsOn = true := (congrArg TokenKind.leadsOn h.kind).trans on
  rw [Reader.lookAhead, if_pos follows]
  rfl

/-! ## The vocabulary of rules -/

theorem leads_eatWord {name : String} (h : r.Passes (.word name) r₁) :
    (eatWord name).Leads follow c r true r₁ := by
  refine (leads_isWord name).bind ?_
  rw [if_pos (by simpa using h.kind)]
  exact (leads_shift h rfl).bind (leads_pure true)

theorem leads_eatWord_of_ne {name : String} (other : r.look.kind ≠ .word name) :
    (eatWord name).Leads follow c r false r := by
  refine (leads_isWord name).bind ?_
  rw [if_neg (by simpa using other)]
  exact leads_pure false

theorem leads_expectWord {name : String} (h : r.Passes (.word name) r₁) :
    (expectWord name).Leads follow c r () r₁ :=
  (leads_eatWord h).bind (leads_pure ())

theorem leads_eat {p : Punct} (h : r.Passes (.punct p) r₁) : (eat p).Leads follow c r true r₁ := by
  refine (leads_isPunct p).bind ?_
  rw [if_pos (by simpa using h.kind)]
  exact (leads_shift h rfl).bind (leads_pure true)

theorem leads_eat_of_ne {p : Punct} (other : r.look.kind ≠ .punct p) :
    (eat p).Leads follow c r false r := by
  refine (leads_isPunct p).bind ?_
  rw [if_neg (by simpa using other)]
  exact leads_pure false

theorem leads_terminator (h : r.Passes (.punct .semicolon) r₁) :
    terminator.Leads follow c r () r₁ := by
  have ends : eatTerminator.Leads follow c r true r₁ := (leads_eat h).bind (leads_pure true)
  exact ends.bind (leads_pure ())

theorem leads_decorators (room : 0 < r.left) (other : r.look.kind ≠ .punct .atSign) :
    decorators.Leads follow c r () r := by
  refine (Repeats.last room ((leads_isPunct .atSign).bind ?_)).leads
  rw [if_neg (by simpa using other)]
  exact leads_pure false

/-- Where no decorator opens, the nonterminal for decorators reads nothing. -/
def SkipsDecorators (follow : Nonterminal → Context → Reader → Outcome Unit) (c : Context) : Prop :=
  ∀ r : Reader, 0 < r.left → r.look.kind ≠ .punct .atSign → follow .decorators c r = .ok () r

/-! ## The parts of a declaration -/

/-- The string that names a module becomes a node of its own. -/
theorem leads_source (string : r.Passes .str r₁) (grouped : r₁.wrap .source r.height = r₂) :
    source.Leads follow c r () r₂ := by
  have named : expectString.Leads follow c r () r₁ := by
    refine leads_look.bind ?_
    rw [if_pos (by rw [string.kind]; rfl)]
    exact leads_shift string rfl
  subst grouped
  exact leads_mark.bind (named.bind (leads_wrap .source r.height))

theorem leads_importAttributes (semicolon : r.look.kind = .punct .semicolon) :
    importAttributes.Leads follow c r () r := by
  refine leads_look.bind ?_
  rw [if_neg (by simp [semicolon])]
  exact leads_pure ()

theorem leads_fromClause (word : r.Passes (.word "from") r₁) (string : r₁.Passes .str r₂)
    (grouped : r₂.wrap .source r₁.height = r₃) (semicolon : r₃.Passes (.punct .semicolon) r₄) :
    fromClause.Leads follow c r () r₄ :=
  (leads_expectWord word).bind ((leads_source string grouped).bind
    ((leads_importAttributes semicolon.kind).bind (leads_terminator semicolon)))

/-! ## Imports -/

theorem leads_importRest (start : Nat) (string : r.Passes .str r₁)
    (grouped : r₁.wrap .source r.height = r₂) (semicolon : r₂.Passes (.punct .semicolon) r₃) :
    (importRest start).Leads follow c r () (r₃.wrap .importDeclaration start) := by
  refine leads_look.bind ?_
  rw [if_pos (by rw [string.kind]; rfl)]
  exact (leads_source string grouped).bind ((leads_importAttributes semicolon.kind).bind
    ((leads_terminator semicolon).bind (leads_wrap .importDeclaration start)))

theorem leads_importItem (word : r.Passes (.word "import") r₁) (string : r₁.Passes .str r₂)
    (grouped : r₂.wrap .source r₁.height = r₃) (semicolon : r₃.Passes (.punct .semicolon) r₄) :
    importItem.Leads follow c r () (r₄.wrap .importDeclaration r.height) := by
  have ahead : r.lookAhead.kind = .str := (lookAhead_kind word rfl).trans string.kind
  refine (leads_aheadIsPunct .lparen).bind ((leads_aheadIsPunct .dot).bind ?_)
  rw [if_neg (by simp [ahead])]
  exact leads_mark.bind ((leads_shift word rfl).bind
    (leads_importRest r.height string grouped semicolon))

theorem leads_moduleItem_of_import (undecorated : SkipsDecorators follow c) (room : 0 < r.left)
    (word : r.Passes (.word "import") r₁) (string : r₁.Passes .str r₂)
    (grouped : r₂.wrap .source r₁.height = r₃) (semicolon : r₃.Passes (.punct .semicolon) r₄)
    (finished : r₄.wrap .importDeclaration r.height = r₅) :
    moduleItem.Leads follow c r () r₅ := by
  subst finished
  refine leads_mark.bind ((leads_call (undecorated r room (by simp [word.kind]))).bind ?_)
  refine leads_mark.bind ((leads_isWord "import").bind ?_)
  rw [if_pos (by simpa using word.kind)]
  exact leads_forget.bind (leads_importItem word string grouped semicolon)

/-! ## Exports of everything -/

/-- A star opens none of the exports that only the language with types has. -/
theorem leads_typescriptExport (start : Nat) (star : r.look.kind = .punct .star) :
    (typescriptExport start).Leads follow c r false r := by
  have other : ∀ name, (eatWord name).Leads follow c r false r := fun name =>
    leads_eatWord_of_ne (by simp [star])
  refine (other "declare").bind ((leads_pure false).bind (leads_look.bind ?_))
  simp only [star]
  refine (leads_pure false).bind ((other "import").bind ?_)
  exact (leads_eat_of_ne (by simp [star])).bind ((other "as").bind (leads_pure false))

theorem leads_exportedDeclaration (star : r.look.kind = .punct .star) :
    (exportedDeclaration false).Leads follow c r false r := by
  refine leads_look.bind (leads_lookAhead.bind ?_)
  simp only [star, Bool.false_eq_true, if_false]
  exact leads_pure false

theorem leads_exportList (start : Nat) (star : r.Passes (.punct .star) r₁)
    (word : r₁.Passes (.word "from") r₂) (string : r₂.Passes .str r₃)
    (grouped : r₃.wrap .source r₂.height = r₄) (semicolon : r₄.Passes (.punct .semicolon) r₅) :
    (exportList start).Leads follow c r () (r₅.wrap .exportAll start) := by
  have ahead : r.lookAhead.kind = .word "from" := (lookAhead_kind star rfl).trans word.kind
  refine (leads_isPunct .star).bind ((leads_aheadIsWord "as").bind ?_)
  rw [if_pos (by simp [star.kind, ahead])]
  exact (leads_shift star rfl).bind ((leads_fromClause word string grouped semicolon).bind
    (leads_wrap .exportAll start))

theorem leads_exportItem (undecorated : SkipsDecorators follow c) (room : 0 < r₁.left)
    (first : r.Passes (.word "export") r₁) (star : r₁.Passes (.punct .star) r₂)
    (word : r₂.Passes (.word "from") r₃) (string : r₃.Passes .str r₄)
    (grouped : r₄.wrap .source r₃.height = r₅) (semicolon : r₅.Passes (.punct .semicolon) r₆) :
    exportItem.Leads follow c r () (r₆.wrap .exportAll r.height) := by
  have other : ∀ name, (eatWord name).Leads follow c r₁ false r₁ := fun name =>
    leads_eatWord_of_ne (by simp [star.kind])
  have list : (do
      call .decorators
      if (← exportedDeclaration false) then wrap .exportOther r.height
      else exportList r.height : Grammar Unit).Leads follow c r₁ () (r₆.wrap .exportAll r.height) :=
    (leads_call (undecorated r₁ room (by simp [star.kind]))).bind
      ((leads_exportedDeclaration star.kind).bind
      (leads_exportList r.height star word string grouped semicolon))
  refine leads_mark.bind ((leads_expectWord first).bind (leads_isTypescript.bind ?_))
  cases c.typescript with
  | true =>
    refine (leads_typescriptExport r.height star.kind).bind ?_
    exact (other "type").bind ((other "default").bind list)
  | false => exact (leads_pure false).bind ((leads_pure false).bind ((other "default").bind list))

theorem leads_moduleItem_of_export (undecorated : SkipsDecorators follow c) (room : 0 < r₁.left)
    (first : r.Passes (.word "export") r₁) (star : r₁.Passes (.punct .star) r₂)
    (word : r₂.Passes (.word "from") r₃) (string : r₃.Passes .str r₄)
    (grouped : r₄.wrap .source r₃.height = r₅) (semicolon : r₅.Passes (.punct .semicolon) r₆)
    (finished : r₆.wrap .exportAll r.height = r₇) :
    moduleItem.Leads follow c r () r₇ := by
  subst finished
  have before : 0 < r.left := by
    have taken := congrArg Reader.left first.take
    simp only [Reader.take] at taken
    omega
  refine leads_mark.bind ((leads_call (undecorated r before (by simp [first.kind]))).bind ?_)
  refine leads_mark.bind ((leads_isWord "import").bind ?_)
  rw [if_neg (by simp [first.kind])]
  refine (leads_isWord "export").bind ?_
  rw [if_pos (by simpa using first.kind)]
  simp only [ne_eq, not_true_eq_false, decide_false]
  refine leads_isTypescript.bind ?_
  exact (leads_exportItem undecorated room first star word string grouped semicolon).bind
    (leads_pure ())

/-! ## Modules -/

/-- One round of reading a module: an item, unless the text has ended. -/
def moduleRound : Grammar Bool := do
  if (← look).kind = .eof then return false
  call .moduleItem
  return true

theorem leads_moduleRound (more : r.look.kind ≠ .eof) (item : follow .moduleItem c r = .ok () r₁) :
    moduleRound.Leads follow c r true r₁ := by
  refine leads_look.bind ?_
  rw [if_neg more]
  exact (leads_call item).bind (leads_pure true)

theorem leads_moduleRound_of_eof (ends : r.look.kind = .eof) :
    moduleRound.Leads follow c r false r := by
  refine leads_look.bind ?_
  rw [if_pos ends]
  exact leads_pure false

theorem leads_program (items : Repeats follow c moduleRound r r₁) :
    program.Leads follow c r () (r₁.wrap .program r.height) :=
  leads_mark.bind (items.leads.bind (leads_wrap .program r.height))

/-! ## Following the rules of modules -/

/-- Whatever skips decorators, an item that is read by its rule is read. -/
def ReadsItems (follow : Nonterminal → Context → Reader → Outcome Unit) (c : Context) (n : Nat) :
    Prop :=
  ∀ {r r'}, 0 < r.left → r.left ≤ n →
    (∀ next, SkipsDecorators next c → moduleItem.Leads next c r () r') →
      follow .moduleItem c r = .ok () r'

theorem skipsDecorators_enter (deeper : Nonterminal → Context → Reader → Outcome Unit) (k : Nat)
    (c : Context) : SkipsDecorators (enter Nonterminal.rule deeper (k + 1)) c :=
  fun _ room other => leads_decorators room other

theorem skipsDecorators_follow {n : Nat} (room : 0 < r.left) (enough : r.left ≤ n)
    (other : r.look.kind ≠ .punct .atSign) :
    Rule.follow Nonterminal.rule n .decorators c r = .ok () r := by
  obtain ⟨k, rfl⟩ := Nat.exists_eq_add_one_of_ne_zero (Nat.ne_of_gt (Nat.lt_of_lt_of_le room enough))
  exact leads_decorators room other

theorem readsItems_enter (n k : Nat) (c : Context) :
    ReadsItems (enter Nonterminal.rule (Rule.follow Nonterminal.rule n) (k + 2)) c (n + 1) := by
  intro r r' room enough item
  refine item _ fun s left other => ?_
  split
  next taken => exact skipsDecorators_follow left (by omega) other
  next => exact skipsDecorators_enter _ k c s left other

theorem readsItems_follow (n : Nat) (c : Context) :
    ReadsItems (Rule.follow Nonterminal.rule n) c n := by
  intro r r' room enough item
  obtain ⟨k, rfl⟩ := Nat.exists_eq_add_one_of_ne_zero (Nat.ne_of_gt (Nat.lt_of_lt_of_le room enough))
  exact readsItems_enter k _ c room enough item

/-- Items that are read one after the other are read as a module. -/
theorem follow_program (items : ∀ next, ReadsItems next c r.left → Repeats next c moduleRound r r₁)
    (room : 0 < r.left) :
    Rule.follow Nonterminal.rule r.left .program c r = .ok () (r₁.wrap .program r.height) := by
  obtain ⟨n, left⟩ := Nat.exists_eq_add_one_of_ne_zero (Nat.ne_of_gt room)
  rw [left]
  refine leads_program (items _ fun {s s'} more enough item => ?_)
  split
  next taken => exact readsItems_follow n c more (by omega) item
  next => exact readsItems_enter n _ c more (by omega) item

end Grammar

/-! ## Tokens of a text -/

open Text (width)

/-- A character that opens no comment and is no blank. -/
def Character.isSolid (c : Char) : Bool :=
  !(c = '/' || c = '<' || c = '-' || isLineBreak c || isBlank c)

theorem Trivia.skip_of_isSolid {cs : List Char} (solid : cs.head?.any Character.isSolid = true)
    (size : Nat) (newline : Bool) : skip .plain size newline cs = ⟨size, newline, cs⟩ := by
  cases cs with
  | nil => rfl
  | cons c cs =>
    simp only [List.head?_cons, Option.any_some, Character.isSolid, Bool.not_eq_true',
      Bool.or_eq_false_iff, decide_eq_false_iff_not] at solid
    obtain ⟨⟨⟨⟨slash, less⟩, minus⟩, ends⟩, blank⟩ := solid
    unfold skip
    split <;> simp_all

/-- What may stand before a token of a plain text. -/
inductive IsGap : List Char → Prop
  | none : IsGap []
  | blank : IsGap [' ']
  | line : IsGap ['\n']

theorem IsGap.skip {gap : List Char} (isGap : IsGap gap) {cs : List Char}
    (stops : ∀ size newline, Trivia.skip .plain size newline cs = ⟨size, newline, cs⟩) (o : Nat) :
    ∃ newline, Scan.gap .plain o (gap ++ cs) = ⟨width gap, newline, cs⟩ := by
  change ∃ newline, Trivia.skip .plain 0 (o = 0) (gap ++ cs) = _
  cases isGap with
  | none => exact ⟨_, stops 0 _⟩
  | blank => exact ⟨_, stops 1 _⟩
  | line => exact ⟨_, stops 1 true⟩

/-- A reader of a text whose first byte has the given offset, with the trees that are finished. -/
def Reader.facing (o : Nat) (cs : List Char) (stack : List Tree) (left : Nat) : Reader :=
  { input := cs, offset := o, next := Lexeme.read .plain o cs, stack, height := stack.length, left }

/-- A token that takes the given characters from byte `start` on. -/
def Token.cutAt (start : Nat) (kind : TokenKind) (taken : List Char) (value : String) : Token :=
  ⟨kind, start, start + width taken, value⟩

/-- A token is taken from behind a gap. -/
theorem Reader.passes_facing {gap cs : List Char} (isGap : IsGap gap)
    (solid : cs.head?.any Character.isSolid = true) {kind : TokenKind} {value : String}
    {taken rest : List Char} (found : Scan.plain? cs = some { kind, value, taken, rest })
    (o : Nat) (stack : List Tree) (left : Nat) :
    (facing o (gap ++ cs) stack left).Passes kind (facing (o + width gap + width taken) rest
      (.leaf (.cutAt (o + width gap) kind taken value) :: stack) (left - 1)) := by
  obtain ⟨newline, skips⟩ := isGap.skip (Trivia.skip_of_isSolid solid) o
  have read : Lexeme.read .plain o (gap ++ cs) =
      .ofCut (o + width gap) newline { kind, value, taken, rest } := by
    have cuts : Scan.cut? .plain cs = some { kind, value, taken, rest } := found
    rw [Lexeme.read, skips]
    simp only [cuts]
  constructor
  · rw [facing, look, read]
    rfl
  · rw [take, facing]
    simp only [read]
    rfl

theorem Reader.look_facing_end {gap : List Char} (isGap : IsGap gap) (o : Nat) (stack : List Tree)
    (left : Nat) : (facing o gap stack left).look.kind = .eof := by
  have stops : ∀ size newline, Trivia.skip .plain size newline [] = ⟨size, newline, []⟩ :=
    fun _ _ => rfl
  obtain ⟨newline, skips⟩ := isGap.skip stops o
  rw [List.append_nil] at skips
  rw [facing, look, Lexeme.read, skips]
  rfl

theorem Reader.wrap_facing (o : Nat) (cs : List Char) (kind : NodeKind) (newest stack : List Tree)
    (left : Nat) : (facing o cs (newest ++ stack) left).wrap kind stack.length =
      facing o cs (.node kind newest.reverse :: stack) left := by
  simp [facing, wrap]

theorem Word.letters?_of_isIdPart {name rest : List Char} {c : Char}
    (parts : ∀ d ∈ name, Character.isIdPart d = true) (stops : Character.isIdPart c = false)
    (plain : c ≠ '\\') :
    letters? (name ++ c :: rest) = some ⟨name, name, c :: rest, false⟩ := by
  induction name with
  | nil => rw [List.nil_append, letters?, if_neg (by simp [stops]), if_neg plain]
  | cons d name ih =>
    have later := ih fun e member => parts e (List.mem_cons_of_mem d member)
    rw [List.cons_append, letters?, if_pos (parts d List.mem_cons_self), later]
    rfl

theorem Word.read?_append {name rest : List Char} {c d : Char}
    (starts : Character.isIdStart d = true)
    (parts : ∀ e ∈ d :: name, Character.isIdPart e = true) (stops : Character.isIdPart c = false)
    (plain : c ≠ '\\') :
    read? (d :: name ++ c :: rest) = some
      { kind := .word (String.ofList (d :: name)), taken := d :: name, rest := c :: rest } := by
  rw [read?, letters?_of_isIdPart parts stops plain]
  simp [starts]

/-- A word is read up to a blank. -/
theorem Scan.plain?_word (name : String) {d : Char} {ds : List Char}
    (spelled : name.toList = d :: ds) (word : ∀ cs, plain? (d :: cs) = Word.read? (d :: cs))
    (starts : Character.isIdStart d = true)
    (parts : (d :: ds).all Character.isIdPart = true) (rest : List Char) :
    plain? (name.toList ++ ' ' :: rest) =
      some { kind := .word name, taken := name.toList, rest := ' ' :: rest } := by
  have read : Word.read? (d :: ds ++ ' ' :: rest) = some
      { kind := .word (String.ofList (d :: ds)), taken := d :: ds, rest := ' ' :: rest } :=
    Word.read?_append starts (List.all_eq_true.1 parts) (by decide) (by decide)
  rw [← spelled, String.ofList_toList] at read
  rw [← read, spelled]
  exact word _

theorem Scan.plain?_star (rest : List Char) : Scan.plain? ('*' :: ' ' :: rest) =
    some { kind := .punct .star, taken := ['*'], rest := ' ' :: rest } := rfl

theorem Scan.plain?_semicolon (rest : List Char) : Scan.plain? (';' :: rest) =
    some { kind := .punct .semicolon, taken := [';'], rest := rest } := rfl

end Rehome.Ecma
