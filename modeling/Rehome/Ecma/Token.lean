/-!
# Tokens

The kinds of tokens the grammar tells apart. Names and keywords are both words; a string literal is
known only as one, whatever it holds, so no rule of the grammar can depend on its contents.
-/
namespace Rehome.Ecma

/-- Punctuators. Operators that combine with an assignment share `assignWith`, except those that
start like a slash or a closing angle bracket. -/
inductive Punct where
  | lbrace | rbrace | lparen | rparen | lbracket | rbracket
  | dot | ellipsis | semicolon | comma | colon | question | questionDot
  | lt | gt | ltEq | gtEq | eqEq | notEq | eqEqEq | notEqEq
  | plus | minus | star | slash | percent | starStar | plusPlus | minusMinus
  | shl | shr | ushr | amp | bar | caret | bang | tilde
  | ampAmp | barBar | questionQuestion
  | assign | slashAssign | shrAssign | assignWith
  | arrow | atSign | backquote
  deriving DecidableEq, Repr

inductive TokenKind where
  /-- The end of the text. -/
  | eof
  /-- No token can be read here. -/
  | invalid
  /-- A literal starts here that is malformed or has no end. -/
  | broken
  /-- An identifier or a keyword, escapes decoded. -/
  | word (name : String)
  /-- A name that starts with `#`. -/
  | privateName
  | str
  | number
  | bigint
  | regex
  /-- Template characters up to the closing backquote or the next hole. -/
  | chunk (closing valid : Bool)
  | jsxText
  | jsxName (name : String)
  | jsxString
  | punct (p : Punct)
  deriving DecidableEq, Repr

/-- A token with its place. `value` is the decoded text of a string literal and empty otherwise. -/
structure Token where
  kind : TokenKind
  start : Nat
  stop : Nat
  value : String
  deriving DecidableEq, Repr

/-- How a token is cut from the text: the characters it takes and those that remain. -/
structure Cut where
  kind : TokenKind
  value : String := ""
  taken : List Char
  rest : List Char

/-- Whether there is a token; there is none at the end and where no token can be read. -/
def TokenKind.isPresent : TokenKind → Bool
  | eof | invalid | broken => false
  | _ => true

/-- Whether the text goes on in the ordinary way after the token, or with the name of a tag. Only
behind such a token a rule looks ahead. -/
def TokenKind.leadsOn : TokenKind → Bool
  | word _ => true
  | punct p => p ∈ [.lt, .question, .ellipsis, .star]
  | _ => false

namespace Punct

/-- How tightly a binary operator binds; higher binds tighter. -/
def precedence? : Punct → Option Nat
  | questionQuestion | barBar => some 1
  | ampAmp => some 2
  | bar => some 3
  | caret => some 4
  | amp => some 5
  | eqEq | notEq | eqEqEq | notEqEq => some 6
  | lt | gt | ltEq | gtEq => some 7
  | shl | shr | ushr => some 8
  | plus | minus => some 9
  | star | slash | percent => some 10
  | starStar => some 11
  | _ => none

/-- Whether the operator assigns. -/
def assigns : Punct → Bool
  | assign | slashAssign | shrAssign | assignWith => true
  | _ => false

end Punct
end Rehome.Ecma
