import Rehome.Text.Bytes
import Rehome.Ecma.Token.Markup
import Rehome.Ecma.Token.Number
import Rehome.Ecma.Token.Regex
import Rehome.Ecma.Token.Template
import Rehome.Ecma.Token.Trivia

/-!
# The next token

The characters at one place can be read in several ways: a slash divides or opens a regular
expression, `>>` is a shift or closes two lists of type arguments. The grammar knows which, and asks
for it by a mode. It does so when it takes the token before, so no token is read in a way that does
not count; only a slash and the operators that start with an angle bracket may be read again.
-/
namespace Rehome.Ecma

/-- The ways to read the next token. -/
inductive ScanMode where
  /-- The ordinary way. -/
  | plain
  /-- A slash opens a regular expression. -/
  | regex
  /-- The characters of a template; blanks belong to them. -/
  | template
  /-- A single angle bracket, whatever operator it could start. -/
  | angle
  /-- What stands between the tags of an element; blanks belong to it. -/
  | markupChild
  /-- The name of a tag or an attribute, if one comes. -/
  | markupName
  /-- A quoted attribute value, if one comes. -/
  | markupString
  /-- Nothing: what comes next has been refused. -/
  | nothing
  deriving DecidableEq, Repr

namespace ScanMode

/-- Whether a token that was read as `kind` may be read again in the mode. -/
def rereads : ScanMode → TokenKind → Bool
  | regex, .punct p => p ∈ [.slash, .slashAssign]
  | angle, .punct p => p ∈ [.ltEq, .shl, .gtEq, .shr, .ushr, .shrAssign, .assignWith]
  | nothing, _ => true
  | _, _ => false

/-- How the text after a token of the kind is read where a rule asks for the mode. -/
def after (mode : ScanMode) (kind : TokenKind) : ScanMode :=
  match mode with
  | template | markupChild | markupString => if kind.leadsOn then plain else mode
  | _ => mode

end ScanMode

namespace Scan

open Character

/-- The punctuators, longer ones before those they start with. -/
def punctuators : List (List Char × Punct) :=
  [(">>>=".toList, .shrAssign),
   ("...".toList, .ellipsis), ("===".toList, .eqEqEq), ("!==".toList, .notEqEq),
   (">>>".toList, .ushr), ("<<=".toList, .assignWith), (">>=".toList, .shrAssign),
   ("**=".toList, .assignWith), ("&&=".toList, .assignWith), ("||=".toList, .assignWith),
   ("??=".toList, .assignWith),
   ("=>".toList, .arrow), ("==".toList, .eqEq), ("!=".toList, .notEq), ("<=".toList, .ltEq),
   (">=".toList, .gtEq), ("&&".toList, .ampAmp), ("||".toList, .barBar),
   ("??".toList, .questionQuestion), ("++".toList, .plusPlus), ("--".toList, .minusMinus),
   ("<<".toList, .shl), (">>".toList, .shr), ("**".toList, .starStar),
   ("+=".toList, .assignWith), ("-=".toList, .assignWith), ("*=".toList, .assignWith),
   ("/=".toList, .slashAssign), ("%=".toList, .assignWith), ("&=".toList, .assignWith),
   ("|=".toList, .assignWith), ("^=".toList, .assignWith),
   (['{'], .lbrace), (['}'], .rbrace), (['('], .lparen), ([')'], .rparen), (['['], .lbracket),
   ([']'], .rbracket), (['.'], .dot), ([';'], .semicolon), ([','], .comma), ([':'], .colon),
   (['?'], .question), (['<'], .lt), (['>'], .gt), (['='], .assign), (['+'], .plus),
   (['-'], .minus), (['*'], .star), (['/'], .slash), (['%'], .percent), (['&'], .amp),
   (['|'], .bar), (['^'], .caret), (['!'], .bang), (['~'], .tilde), (['@'], .atSign),
   (['`'], .backquote)]

/-- The longest punctuator at the front. -/
def punct? (cs : List Char) : Option Cut :=
  punctuators.findSome? fun (text, p) =>
    (Text.dropFront? text cs).map fun rest => { kind := .punct p, taken := text, rest }

/-- Reads a token in the ordinary way. `?.` before a digit is a question mark and a number. -/
def plain? : List Char → Option Cut
  | [] => some { kind := .eof, taken := [], rest := [] }
  | '?' :: '.' :: cs =>
    if (cs.head?.map Digit.isDecimal).getD false then
      some { kind := .punct .question, taken := ['?'], rest := '.' :: cs }
    else some { kind := .punct .questionDot, taken := ['?', '.'], rest := cs }
  | '.' :: d :: cs => if Digit.isDecimal d then Number.read? ('.' :: d :: cs) else punct? ('.' :: d :: cs)
  | '"' :: cs => StringLiteral.read? '"' cs
  | '\'' :: cs => StringLiteral.read? '\'' cs
  | '#' :: cs => Word.readPrivate? cs
  | c :: cs =>
    if Digit.isDecimal c then Number.read? (c :: cs)
    else if isIdStart c || c = '\\' then Word.read? (c :: cs)
    else punct? (c :: cs)

/-- Reads the characters at the front in the given mode. -/
def cut? (mode : ScanMode) (cs : List Char) : Option Cut :=
  match mode, cs with
  | .regex, '/' :: rest => Regex.read? rest
  | .template, _ => Template.chunk? cs
  | .angle, '<' :: rest => some { kind := .punct .lt, taken := ['<'], rest }
  | .angle, '>' :: rest => some { kind := .punct .gt, taken := ['>'], rest }
  | .markupChild, _ => Markup.child? cs
  | .markupName, c :: rest => if isIdStart c then some (Markup.name c rest) else plain? cs
  | .markupString, '"' :: rest => Markup.quoted? '"' rest
  | .markupString, '\'' :: rest => Markup.quoted? '\'' rest
  | .nothing, _ => none
  | _, _ => plain? cs

/-- Whether a literal opens at the front, which may end anywhere or nowhere. -/
def opensLiteral (mode : ScanMode) : List Char → Bool
  | [] => mode = .template
  | c :: _ =>
    match mode with
    | .template => true
    | .nothing => false
    | .regex => c = '/' || c = '"' || c = '\''
    | _ => c = '"' || c = '\''

/-- Whether blanks and comments before the token are skipped. -/
def skipsTrivia : ScanMode → Bool
  | .template | .markupChild => false
  | _ => true

/-- What stands before the next token of the text `cs`, which starts at byte `offset`. -/
def gap (mode : ScanMode) (offset : Nat) (cs : List Char) : Trivia.Skipped :=
  if skipsTrivia mode then Trivia.skip .plain 0 (offset = 0) cs
  else { size := 0, newline := false, rest := cs }

end Scan

/-- The token that comes next, and the text after it. `newline` tells whether a line ended on the
way to it. -/
structure Lexeme where
  token : Token
  newline : Bool
  rest : List Char

namespace Lexeme

/-- A token that is cut from the text at byte `start`. -/
def ofCut (start : Nat) (newline : Bool) (cut : Cut) : Lexeme where
  token := { kind := cut.kind, start, stop := start + Text.width cut.taken, value := cut.value }
  newline := newline
  rest := cut.rest

/-- Reads the next token of the text `cs`, which starts at byte `offset`. Where no token can be
read, an invalid or broken one stands. -/
def read (mode : ScanMode) (offset : Nat) (cs : List Char) : Lexeme :=
  let gap := Scan.gap mode offset cs
  let start := offset + gap.size
  match Scan.cut? mode gap.rest with
  | some cut => ofCut start gap.newline cut
  | none =>
    let kind := if Scan.opensLiteral mode gap.rest then .broken else .invalid
    { token := { kind, start, stop := start, value := "" },
      newline := gap.newline, rest := gap.rest }

end Lexeme
end Rehome.Ecma
