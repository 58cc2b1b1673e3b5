/-!
# Comments in JSON

A compiler configuration is JSON with comments: `//` up to the end of the line, and `/*` up to `*/`.
Inside a string neither opens a comment.
-/
namespace Rehome.Tsconfig

/-- Where the reader stands. -/
inductive Mode where
  /-- Between strings and comments. -/
  | code
  /-- Inside a string. -/
  | string
  /-- Inside a string, after a backslash. -/
  | escape
  /-- Inside a comment that ends with its line. -/
  | line
  /-- Inside a comment that ends at `*/`; `star` tells whether a star came just before. -/
  | block (star : Bool)
  deriving DecidableEq, Repr

/-- Drops comments; the line break that ends one stays. -/
def stripFrom : Mode → List Char → List Char
  | _, [] => []
  | .code, '/' :: '/' :: cs => stripFrom .line cs
  | .code, '/' :: '*' :: cs => stripFrom (.block false) cs
  | .code, c :: cs => c :: stripFrom (if c = '"' then .string else .code) cs
  | .string, c :: cs =>
    c :: stripFrom (if c = '\\' then .escape else if c = '"' then .code else .string) cs
  | .escape, c :: cs => c :: stripFrom .string cs
  | .line, c :: cs => if c = '\n' then c :: stripFrom .code cs else stripFrom .line cs
  | .block star, c :: cs =>
    if star && c = '/' then stripFrom .code cs else stripFrom (.block (c = '*')) cs

/-- A text without its comments. -/
def stripComments (text : List Char) : List Char := stripFrom .code text

end Rehome.Tsconfig
