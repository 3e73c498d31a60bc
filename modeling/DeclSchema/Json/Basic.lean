import DeclSchema.Number.Layout

/-!
# JSON values

The values of JSON texts, as exact as the texts are: numbers keep their digits, and
objects the order and the repetition of their fields.
-/

namespace DeclSchema

/-- A JSON value. A string whose escapes name half of a surrogate pair is JSON, but it
has no text; the same holds for the name of a field. -/
inductive Json where
  | null
  | bool (value : Bool)
  | number (value : Numeral)
  | string (text : Option String)
  | array (items : List Json)
  | object (fields : List (Option String × Json))
deriving Inhabited

namespace Json

/-- How deep arrays and objects are nested. -/
def depth : Json → Nat
  | .array items => 1 + depthItems items
  | .object fields => 1 + depthFields fields
  | _ => 0
where
  /-- The greatest depth among the items of an array. -/
  depthItems : List Json → Nat
    | [] => 0
    | item :: rest => max (depth item) (depthItems rest)
  /-- The greatest depth among the fields of an object. -/
  depthFields : List (Option String × Json) → Nat
    | [] => 0
    | (_, value) :: rest => max (depth value) (depthFields rest)

/-- The value in which an object has each field once, at its first place and with its
last value. -/
def lastFields : Json → Json
  | .array items => .array (itemValues items)
  | .object fields => .object (merge (fieldValues fields))
  | value => value
where
  /-- The items of an array with the same done to them. -/
  itemValues : List Json → List Json
    | [] => []
    | item :: rest => lastFields item :: itemValues rest
  /-- The fields of an object with the same done to their values. -/
  fieldValues : List (Option String × Json) → List (Option String × Json)
    | [] => []
    | (name, value) :: rest => (name, lastFields value) :: fieldValues rest
  /-- Keeps the last of the fields with one name. -/
  merge (fields : List (Option String × Json)) : List (Option String × Json) :=
    fields.foldl put []
  /-- Sets a field. -/
  put (fields : List (Option String × Json)) (field : Option String × Json) :
      List (Option String × Json) :=
    if fields.any (·.1 == field.1) then
      fields.map fun old => if old.1 == field.1 then field else old
    else
      fields ++ [field]

end Json

end DeclSchema
