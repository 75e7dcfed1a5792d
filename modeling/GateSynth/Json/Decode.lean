import GateSynth.Json.Basic
import GateSynth.Table

/-!
# Decoding JSON

How records are read from JSON values. A record is an object of named fields, in any order and
with members of other names ignored, or the array of its fields in order, where fields at the end
may be left out. A field given twice is refused. A map is an object; of repeated keys the last
value counts, at the place of the first.
-/

namespace GateSynth.Json

/-- The text of a string. -/
def string? : Json → Option String
  | string text => text
  | _ => none

/-- A truth value. -/
def bool? : Json → Option Bool
  | bool value => some value
  | _ => none

/-- A natural number below a bound, written without point and exponent. -/
def natBelow? (bound : Nat) : Json → Option Nat
  | number value =>
    match value.natural? with
    | some n => if n < bound then some n else none
    | none => none
  | _ => none

/-- A 64-bit word. -/
def word? (json : Json) : Option UInt64 := (json.natBelow? UInt64.size).map UInt64.ofNat

/-- Any number, as a double. -/
def double? : Json → Option Float
  | number value => value.nearby?
  | _ => none

/-- The items of an array, each decoded. -/
def list? {α : Type} (item? : Json → Option α) : Json → Option (List α)
  | array items => items.mapM item?
  | _ => none

/-- `null`, or a decoded value. -/
def optional? {α : Type} (value? : Json → Option α) : Json → Option (Option α)
  | null => some none
  | json => (value? json).map some

/-- The members of an object whose keys all have a text. -/
def members? : Json → Option (List (String × Json))
  | object members => members.mapM fun m => m.1.map fun key => (key, m.2)
  | _ => none

/-- A map, keys and values decoded. -/
def map? {κ α : Type} [DecidableEq κ] (key? : String → Option κ) (value? : Json → Option α)
    (json : Json) : Option (Table κ α) := do
  let members ← json.members?
  let entries ← members.mapM fun m => do return (← key? m.1, ← value? m.2)
  return Table.ofList entries

/-- The values of the named fields of a record, each if it is given. -/
def fields? (names : List String) : Json → Option (List (Option Json))
  | object members => do
    let members ← (object members).members?
    names.mapM fun name =>
      match members.filter fun m => m.1 = name with
      | [] => some none
      | [m] => some (some m.2)
      | _ => none
  | array items =>
    if items.length ≤ names.length then
      some (items.map some ++ List.replicate (names.length - items.length) none)
    else none
  | _ => none

/-- A field that has to be given. -/
def required? {α : Type} (value? : Json → Option α) (field : Option Json) : Option α :=
  field.bind value?

/-- A field with a value to take when it is not given. -/
def defaulted? {α : Type} (value? : Json → Option α) (absent : α) : Option Json → Option α
  | some json => value? json
  | none => some absent

end GateSynth.Json
