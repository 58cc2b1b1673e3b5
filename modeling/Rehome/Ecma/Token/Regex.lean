import Rehome.Ecma.Token.Word

/-!
# Regular expressions

A literal reaches to the first slash that is neither escaped nor in brackets; it may not hold a line
break. What it says is not looked at.
-/
namespace Rehome.Ecma.Regex

open Character

/-- Reads up to the closing slash and takes it; `escaped` after a backslash, `inClass` inside
brackets. -/
def body? : (escaped inClass : Bool) → List Char → Option (List Char × List Char)
  | _, _, [] => none
  | escaped, inClass, c :: cs =>
    if isLineBreak c then none
    else if escaped then (body? false inClass cs).map fun (t, r) => (c :: t, r)
    else if c = '/' && !inClass then some ([c], cs)
    else
      let inClass := if c = '[' then true else if c = ']' then false else inClass
      (body? (c = '\\') inClass cs).map fun (t, r) => (c :: t, r)

/-- Reads a literal with its flags, after its opening slash. -/
def read? (cs : List Char) : Option Cut := do
  let (taken, rest) ← body? false false cs
  if (rest.head?.map isIdStart).getD false then
    let flags ← Word.letters? rest
    return { kind := .regex, taken := '/' :: taken ++ flags.taken, rest := flags.rest }
  else return { kind := .regex, taken := '/' :: taken, rest }

end Rehome.Ecma.Regex
