import GateSynth.Decimal.Read

/-!
# JSON values

The value that a JSON text writes. Numbers are kept as they are written, objects keep the order
and the repetitions of their members. A string whose escapes leave half of a surrogate pair has
no text; such a string may stand where nobody reads it.
-/

namespace GateSynth

/-- A JSON value. -/
inductive Json where
  | null
  | bool (value : Bool)
  | number (value : Decimal)
  | string (text : Option String)
  | array (items : List Json)
  | object (members : List (Option String × Json))

namespace Json

instance : Inhabited Json := ⟨null⟩

/-- The string with a given text. -/
def ofString (text : String) : Json := string (some text)

/-- The number that writes a natural number. -/
def ofNat (value : Nat) : Json := number (.ofNat value)

/-- The object with given members. -/
def ofMembers (members : List (String × Json)) : Json :=
  object (members.map fun m => (some m.1, m.2))

end Json

end GateSynth
