/-!
# Patterns of paths

A star stands for any part of a name, a question mark for one byte of it, brackets for one byte of a
set, braces for one of several patterns, and two stars between slashes for any directories. Paths are
matched byte by byte.
-/
namespace Rehome.Glob

inductive Token where
  | byte (b : UInt8)
  /-- One byte of a name. -/
  | any
  /-- Any part of a name. -/
  | star
  /-- Any directories in front of the rest. -/
  | leading
  /-- A slash, or any directories between two slashes. -/
  | between
  /-- Everything below a directory. -/
  | inside
  /-- A character in one of the ranges, or in none of them. -/
  | set (negated : Bool) (ranges : List (Char × Char))
  /-- One of several patterns. -/
  | oneOf (patterns : List (List Token))

def slash : UInt8 := 47

/-- The text itself and what remains after each of its first bytes, as long as those satisfy `ok`. -/
def restsWhile (ok : UInt8 → Bool) : List UInt8 → List (List UInt8)
  | [] => [[]]
  | b :: bs => if ok b then (b :: bs) :: restsWhile ok bs else [b :: bs]

/-- What remains after each slash. -/
def afterSlashes : List UInt8 → List (List UInt8)
  | [] => []
  | b :: bs => if b = slash then bs :: afterSlashes bs else afterSlashes bs

def inRanges (b : UInt8) (ranges : List (Char × Char)) : Bool :=
  ranges.any fun (low, high) => low.toNat ≤ b.toNat && b.toNat ≤ high.toNat

mutual
/-- What may remain of a text after a token has taken a part of it. -/
def Token.rests : Token → List UInt8 → List (List UInt8)
  | .byte b, text =>
    match text with
    | c :: bs => if c = b then [bs] else []
    | [] => []
  | .any, text =>
    match text with
    | c :: bs => if c = slash then [] else [bs]
    | [] => []
  | .star, text => restsWhile (· ≠ slash) text
  | .leading, text => text :: afterSlashes text
  | .between, text =>
    match text with
    | c :: bs => if c = slash then bs :: afterSlashes bs else []
    | [] => []
  | .inside, text =>
    match text with
    | c :: bs => if c = slash then restsWhile (fun _ => true) bs else []
    | [] => []
  | .set negated ranges, text =>
    match text with
    | c :: bs => if inRanges c ranges = negated then [] else [bs]
    | [] => []
  | .oneOf patterns, text =>
    if patterns.all (·.isEmpty) then [text] else restsOfAny patterns text

/-- What may remain after one of several patterns. Empty patterns do not count. -/
def restsOfAny : List (List Token) → List UInt8 → List (List UInt8)
  | [], _ => []
  | p :: ps, text => (if p.isEmpty then [] else restsOfAll p text) ++ restsOfAny ps text

/-- What may remain after a whole pattern. -/
def restsOfAll : List Token → List UInt8 → List (List UInt8)
  | [], text => [text]
  | t :: ts, text => (t.rests text).flatMap fun rest => restsOfAll ts rest
end

/-- Whether a pattern takes a whole text. Two stars alone take any. -/
def isMatch (pattern : List Token) (text : List UInt8) : Bool :=
  match pattern with
  | [.leading] => true
  | _ => (restsOfAll pattern text).any (·.isEmpty)

/-- The bytes of a text in UTF-8. -/
def bytes (text : List Char) : List UInt8 := (String.ofList text).toUTF8.toList

/-- The tokens of a character that stands for itself. -/
def literal (c : Char) : List Token := (bytes [c]).map .byte

/-- Adds a character to the range that is open. -/
def closeRange? (high : Char) : List (Char × Char) → Option (List (Char × Char))
  | (low, _) :: ranges => if high < low then none else some ((low, high) :: ranges)
  | [] => none

/-- The ranges of a set up to its closing bracket, newest first, and the pattern after it. A bracket
or a dash in front stands for itself, and so does a dash at the end. -/
def ranges? (isFirst isOpen : Bool) (ranges : List (Char × Char)) :
    List Char → Option (List (Char × Char) × List Char)
  | [] => none
  | c :: cs =>
    if c = ']' && !isFirst then some (if isOpen then ('-', '-') :: ranges else ranges, cs)
    else if c = '-' && !isFirst && !isOpen then ranges? false true ranges cs
    else if isOpen then
      match closeRange? c ranges with
      | some ranges => ranges? false false ranges cs
      | none => none
    else ranges? false false ((c, c) :: ranges) cs

/-- What has been read of a pattern: for each open brace the patterns before, and the tokens of the
current pattern; all newest first. -/
structure Partial where
  outer : List (List (List Token) × List Token)
  tokens : List Token

namespace Partial

def push (p : Partial) (ts : List Token) : Partial := { p with tokens := ts.reverse ++ p.tokens }

/-- Opens a brace. -/
def openBrace (p : Partial) : Partial := ⟨([], p.tokens) :: p.outer, []⟩

/-- Starts another pattern inside a brace. -/
def nextPattern? (p : Partial) : Option Partial :=
  match p.outer with
  | (done, before) :: outer => some ⟨(p.tokens.reverse :: done, before) :: outer, []⟩
  | [] => none

/-- Closes a brace. -/
def closeBrace? (p : Partial) : Option Partial :=
  match p.outer with
  | (done, before) :: outer =>
    some ⟨outer, .oneOf (p.tokens.reverse :: done).reverse :: before⟩
  | [] => none

/-- Puts a token for any directories in the place of the slash before it. -/
def absorbSlash (p : Partial) (t : Token) : Partial :=
  match p.tokens with
  | .leading :: _ => p
  | .inside :: _ => p
  | _ :: rest => { p with tokens := t :: rest }
  | [] => { p with tokens := [t] }

end Partial

/-- Two stars, given the character before them. Answers what they come to, and the pattern after
them. -/
def twoStars (p : Partial) (previous : Option Char) (cs : List Char) : Partial × List Char :=
  let plain := (p.push [.star, .star], cs)
  if p.tokens.isEmpty then
    match cs with
    | [] => (p.push [.leading], [])
    | '/' :: rest => (p.push [.leading], rest)
    | _ => plain
  else if previous ≠ some '/' &&
      (p.outer.isEmpty || (previous ≠ some ',' && previous ≠ some '{')) then plain
  else
    match cs with
    | [] => (p.absorbSlash .inside, [])
    | '/' :: rest => (p.absorbSlash .between, rest)
    | ',' :: _ => if p.outer.isEmpty then plain else (p.absorbSlash .inside, cs)
    | '}' :: _ => if p.outer.isEmpty then plain else (p.absorbSlash .inside, cs)
    | _ => plain

/-- Reads a pattern; `fuel` bounds its length. -/
def tokensFrom? : (fuel : Nat) → Partial → (previous : Option Char) → List Char → Option Partial
  | 0, _, _, _ => none
  | _ + 1, p, _, [] => some p
  | fuel + 1, p, previous, c :: cs =>
    match c with
    | '?' => tokensFrom? fuel (p.push [.any]) (some c) cs
    | '*' =>
      match cs with
      | '*' :: cs =>
        let (p, rest) := twoStars p previous cs
        tokensFrom? fuel p (some (if rest.length < cs.length then '/' else '*')) rest
      | cs => tokensFrom? fuel (p.push [.star]) (some c) cs
    | '[' =>
      let (negated, inner) :=
        match cs with
        | '!' :: rest => (true, rest)
        | '^' :: rest => (true, rest)
        | _ => (false, cs)
      match ranges? true false [] inner with
      | some (ranges, rest) =>
        tokensFrom? fuel (p.push [.set negated ranges.reverse]) (some ']') rest
      | none => none
    | '{' => tokensFrom? fuel p.openBrace (some c) cs
    | '}' => p.closeBrace?.bind fun p => tokensFrom? fuel p (some c) cs
    | ',' =>
      match p.nextPattern? with
      | some p => tokensFrom? fuel p (some c) cs
      | none => tokensFrom? fuel (p.push (literal c)) (some c) cs
    | '\\' =>
      match cs with
      | d :: cs => tokensFrom? fuel (p.push (literal d)) (some d) cs
      | [] => none
    | c => tokensFrom? fuel (p.push (literal c)) (some c) cs

/-- Reads a pattern; none if a bracket or a brace has no partner, or a backslash stands at the end. -/
def read? (pattern : List Char) : Option (List Token) := do
  let p ← tokensFrom? (pattern.length + 1) ⟨[], []⟩ none pattern
  if p.outer.isEmpty then return p.tokens.reverse else none

end Rehome.Glob
