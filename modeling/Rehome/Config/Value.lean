/-!
# Values of settings

Settings are written down in layers, and a later layer takes precedence. Two groups are put together
name by name; anything else replaces what was there before.
-/
namespace Rehome

inductive ConfigValue where
  | str (text : String)
  | bool (b : Bool)
  | int (n : Int)
  /-- A number or a date that no setting can be. -/
  | other
  | list (items : List ConfigValue)
  | group (entries : List (String × ConfigValue))

namespace ConfigValue

/-- The value of a name. -/
def find? (name : String) : List (String × ConfigValue) → Option ConfigValue
  | [] => none
  | (n, v) :: rest => if n = name then some v else find? name rest

mutual
/-- Puts a later value over an earlier one. -/
def overlay (earlier : ConfigValue) : ConfigValue → ConfigValue
  | group entries =>
    match earlier with
    | group old => group (overlayEntries old entries)
    | _ => group entries
  | later => later

/-- Puts the entries of a later group over those of an earlier one, one after the other. -/
def overlayEntries (old : List (String × ConfigValue)) :
    List (String × ConfigValue) → List (String × ConfigValue)
  | [] => old
  | (name, value) :: rest =>
    let value :=
      match find? name old with
      | some earlier => overlay earlier value
      | none => value
    overlayEntries ((name, value) :: old.filter (·.1 ≠ name)) rest
end

def text? : ConfigValue → Option String
  | str text => some text
  | _ => none

def bool? : ConfigValue → Option Bool
  | bool b => some b
  | _ => none

/-- A count is a whole number that is not negative. -/
def count? : ConfigValue → Option Nat
  | int n => n.toNat?
  | _ => none

def texts? : ConfigValue → Option (List String)
  | list items => items.mapM text?
  | _ => none

/-- The fields of a record, which is a group, or a list of its fields in their order; what is too
much is passed over. -/
def fields? (names : List String) : ConfigValue → Option (List (String × ConfigValue))
  | group entries => some entries
  | list items => some (names.zip items)
  | _ => none

/-- A field, or what it is when it is left out. -/
def field {α : Type} (fields : List (String × ConfigValue)) (name : String) (missing : α)
    (read : ConfigValue → Option α) : Option α :=
  match find? name fields with
  | some value => read value
  | none => some missing

end ConfigValue
end Rehome
