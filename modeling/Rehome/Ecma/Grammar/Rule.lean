import Rehome.Ecma.Token.Scan
import Rehome.Ecma.Tree

/-!
# Grammars as data

A rule is a program of reading instructions: look at the next token, move it onto the stack of
finished trees, group the newest trees into a node, try one way and then another, follow another
rule. Keeping rules as data lets a fact about every grammar be proved once, by induction on rules.

A rule sees the kinds of tokens and never their places, so the same rules accept a text wherever it
starts.
-/
namespace Rehome.Ecma

/-- What a rule sees of a token: its kind, and whether a line ended before it. -/
structure Look where
  kind : TokenKind
  newline : Bool
  deriving DecidableEq, Repr

/-- The circumstances an expression or a statement is read in. -/
structure Context where
  /-- Type annotations and declarations are part of the language. -/
  typescript : Bool
  /-- Elements of markup are expressions. -/
  markup : Bool
  /-- `in` is an operator. -/
  inOperator : Bool := true
  /-- The next word or parenthesis may open an arrow function. -/
  arrowStart : Bool := false
  inAsync : Bool := false
  inGenerator : Bool := false
  inFunction : Bool := false
  inParameters : Bool := false
  inStaticBlock : Bool := false
  inClass : Bool := false
  inDeclare : Bool := false
  /-- Inside a conditional expression. -/
  inConditional : Bool := false
  /-- Inside the middle of a conditional expression, which a colon ends. -/
  colonExpected : Bool := false
  /-- `extends` does not open a conditional type. -/
  noConditionalType : Bool := false
  inForHead : Bool := false
  deriving DecidableEq, Repr

/-- Other circumstances in the same language. -/
def Context.change (c : Context) (f : Context → Context) : Context :=
  { f c with typescript := c.typescript, markup := c.markup }

/-- A rule over the nonterminals `N` with a result. -/
inductive Rule (N : Type) : Type → Type 1 where
  | done {α : Type} (a : α) : Rule N α
  | andThen {α β : Type} (p : Rule N α) (k : α → Rule N β) : Rule N β
  | fail {α : Type} : Rule N α
  /-- The next token. -/
  | look : Rule N Look
  /-- The token after the next one, if the next one leads on to it. -/
  | lookAhead : Rule N Look
  /-- Moves the next token onto the stack; what follows it is read in the given mode. -/
  | take (mode : ScanMode) : Rule N Unit
  /-- Reads the next token again, in another mode, if it may be. -/
  | rescan (mode : ScanMode) : Rule N Unit
  /-- The height of the stack. -/
  | mark : Rule N Nat
  /-- Groups the trees above a height into a node. -/
  | wrap (kind : NodeKind) (height : Nat) : Rule N Unit
  /-- Forgets the trees above a height. -/
  | forget (height : Nat) : Rule N Unit
  /-- Asks about the newest tree. -/
  | ask (query : Query) : Rule N Bool
  | context : Rule N Context
  /-- Follows `p` in other circumstances of the same language. -/
  | within {α : Type} (change : Context → Context) (p : Rule N α) : Rule N α
  /-- Follows `p`, and if it fails follows `q` from the same place. Only a language with types needs
  a second try: without types `q` is followed at once. -/
  | attempt {α : Type} (p q : Rule N α) : Rule N α
  /-- Follows `p`, and if it fails follows `q` from where `p` stopped. -/
  | recover {α : Type} (p q : Rule N α) : Rule N α
  /-- Whether `p` answers true from here; what it reads is not taken. Without types the answer is
  no. -/
  | probe (p : Rule N Bool) : Rule N Bool
  /-- Follows the rule of a nonterminal. -/
  | call (n : N) : Rule N Unit
  /-- Follows `body` again and again, each time with what it answered before, until it answers
  nothing. Each time but the last it has to take a token. -/
  | iterate {σ : Type} (body : σ → Rule N (Option σ)) (s : σ) : Rule N σ

namespace Rule

instance (N : Type) : Monad (Rule N) where
  pure := done
  bind := andThen

/-- Moves the next token onto the stack; the text goes on in the ordinary way. -/
abbrev shift {N : Type} : Rule N Unit := take .plain

/-- Follows `body` as long as it answers true. -/
def loop {N : Type} (body : Rule N Bool) : Rule N Unit :=
  iterate (fun _ => do return if (← body) then some () else none) ()

end Rule

/-- Where reading stands: the text after the last token taken, its offset, the token read from
there, and the finished trees, newest first. No more than `left` tokens can still be taken. -/
structure Reader where
  input : List Char
  offset : Nat
  next : Lexeme
  stack : List Tree
  height : Nat
  left : Nat

/-- A rule answers, or fails where the reader stands. -/
inductive Outcome (α : Type) where
  | ok (a : α) (r : Reader)
  | failed (r : Reader)

namespace Reader

/-- A reader at the start of a text whose first byte has the given offset. -/
def start (offset : Nat) (input : List Char) : Reader :=
  { input, offset, next := Lexeme.read .plain offset input, stack := [], height := 0,
    left := input.length + 1 }

def look (r : Reader) : Look := ⟨r.next.token.kind, r.next.newline⟩

/-- The token after the next one, read in the ordinary way. -/
def ahead (r : Reader) : Lexeme := Lexeme.read .plain r.next.token.stop r.next.rest

def lookAhead (r : Reader) : Look :=
  if r.next.token.kind.leadsOn then ⟨r.ahead.token.kind, r.ahead.newline⟩ else ⟨.invalid, false⟩

/-- Takes the next token. -/
def take (r : Reader) (mode : ScanMode) : Reader :=
  { input := r.next.rest, offset := r.next.token.stop,
    next := Lexeme.read (mode.after r.next.token.kind) r.next.token.stop r.next.rest,
    stack := .leaf r.next.token :: r.stack, height := r.height + 1, left := r.left - 1 }

def rescan (r : Reader) (mode : ScanMode) : Reader :=
  if mode.rereads r.next.token.kind then { r with next := Lexeme.read mode r.offset r.input } else r

/-- Groups the trees above `height`; oldest first inside the node. -/
def wrap (r : Reader) (kind : NodeKind) (height : Nat) : Reader :=
  let count := r.height - height
  { r with
    stack := .node kind (r.stack.take count).reverse :: r.stack.drop count
    height := r.height - count + 1 }

def forget (r : Reader) (height : Nat) : Reader :=
  let count := r.height - height
  { r with stack := r.stack.drop count, height := r.height - count }

/-- The answer of the newest tree. -/
def ask (r : Reader) (query : Query) : Bool :=
  match r.stack with
  | t :: _ => query.holds t
  | [] => false

end Reader

/-- Repeats a step with what it answered before, until it answers nothing. A step that goes on takes
a token, so `n` need not be more than the number of tokens left. -/
def Outcome.iterate {σ : Type} (step : σ → Reader → Outcome (Option σ)) :
    Nat → σ → Reader → Outcome σ
  | 0, _, r => .failed r
  | n + 1, s, r =>
    match step s r with
    | .ok (some s) r' => if r'.left < r.left then Outcome.iterate step n s r' else .failed r'
    | .ok none r => .ok s r
    | .failed r => .failed r

namespace Rule

variable {N : Type}

/-- Follows a rule; `follow` says how to follow a nonterminal. -/
def run (follow : N → Context → Reader → Outcome Unit) :
    {α : Type} → Rule N α → Context → Reader → Outcome α
  | _, done a, _, r => .ok a r
  | _, andThen p k, c, r =>
    match run follow p c r with
    | .ok a r => run follow (k a) c r
    | .failed r => .failed r
  | _, fail, _, r => .failed r
  | _, look, _, r => .ok r.look r
  | _, lookAhead, _, r => .ok r.lookAhead r
  | _, take mode, _, r =>
    if r.next.token.kind.isPresent then .ok () (r.take mode) else .failed r
  | _, rescan mode, _, r => .ok () (r.rescan mode)
  | _, mark, _, r => .ok r.height r
  | _, wrap kind height, _, r => .ok () (r.wrap kind height)
  | _, forget height, _, r => .ok () (r.forget height)
  | _, ask query, _, r => .ok (r.ask query) r
  | _, context, c, r => .ok c r
  | _, within change p, c, r => run follow p (c.change change) r
  | _, attempt p q, c, r =>
    if c.typescript then
      match run follow p c r with
      | .ok a r => .ok a r
      | .failed _ => run follow q c r
    else run follow q c r
  | _, recover p q, c, r =>
    match run follow p c r with
    | .ok a r => .ok a r
    | .failed r => run follow q c r
  | _, probe p, c, r =>
    if c.typescript then
      match run follow p c r with
      | .ok b _ => .ok b r
      | .failed _ => .ok false r
    else .ok false r
  | _, call n, c, r => follow n c r
  | _, iterate body s, c, r => Outcome.iterate (fun s => run follow (body s) c) r.left s r

/-- Follows a nonterminal, and those that its rule calls: by `deeper` where a token was taken since,
and otherwise through at most `n` rules. -/
def enter (rules : N → Rule N Unit) (deeper : N → Context → Reader → Outcome Unit) :
    Nat → N → Context → Reader → Outcome Unit
  | 0, _, _, r => .failed r
  | n + 1, m, c, r =>
    (rules m).run (fun m c r' =>
      if r'.left < r.left then deeper m c r' else enter rules deeper n m c r') c r

/-- How many rules follow each other before a token is taken. There are fewer nonterminals, so a
rule that needs more comes back to itself. -/
def chainLimit : Nat := 100

/-- Follows a nonterminal where at most `n` tokens are left. -/
def follow (rules : N → Rule N Unit) : Nat → N → Context → Reader → Outcome Unit
  | 0, _, _, r => .failed r
  | n + 1, m, c, r => enter rules (follow rules n) chainLimit m c r

end Rule
end Rehome.Ecma
