/-!
# JSON values

Members of an object stand in the order of the text, repeated names included. A string literal whose
escapes do not make up a text is a value too, so that a reader may pass over it.
-/
namespace Rehome

inductive JsonValue where
  | null
  | bool (b : Bool)
  | number (literal : String)
  | str (text : Option String)
  | arr (items : List JsonValue)
  | obj (members : List (Option String × JsonValue))

namespace JsonValue

/-- The text of a string. -/
def text? : JsonValue → Option String
  | str text => text
  | _ => none

/-- The texts of an array of strings. -/
def texts? : JsonValue → Option (List String)
  | arr items => items.mapM text?
  | _ => none

/-- The members of an object whose names are texts. -/
def members? : JsonValue → Option (List (String × JsonValue))
  | obj members => members.mapM fun (name, value) => name.map (·, value)
  | _ => none

/-- The fields of a record. A record is written as an object, or as the array of its fields in their
order; `positional` tells which. -/
structure Record where
  fields : List (String × JsonValue)
  positional : Bool

/-- Reads a record with the given fields. Other members of an object are passed over; a field that
is repeated, and an array that is too long, are refused. -/
def record? (names : List String) : JsonValue → Option Record
  | arr items =>
    if items.length ≤ names.length then some ⟨names.zip items, true⟩ else none
  | j => do
    let fields := (← j.members?).filter (names.contains ·.1)
    if (fields.map (·.1)).Nodup then return ⟨fields, false⟩ else none

/-- The value of a field. -/
def Record.get? (r : Record) (name : String) : Option JsonValue :=
  (r.fields.find? (·.1 = name)).map (·.2)

/-- A field that must be there. -/
def Record.required {α : Type} (r : Record) (name : String) (read : JsonValue → Option α) : Option α :=
  (r.get? name).bind read

/-- A field that may be left out, with the value it has then. -/
def Record.optional {α : Type} (r : Record) (name : String) (missing : α)
    (read : JsonValue → Option α) : Option α :=
  match r.get? name with
  | some value => read value
  | none => some missing

/-- Reads a value that may be null. -/
def nullable? {α : Type} (read : JsonValue → Option α) : JsonValue → Option (Option α)
  | null => some none
  | j => (read j).map some

end JsonValue
end Rehome
