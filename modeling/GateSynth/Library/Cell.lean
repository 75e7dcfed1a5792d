import GateSynth.Library.PatternReader
import GateSynth.Quantity

/-!
# Cells

A cell of a library has a function over its input pins, an output pin, an area, and a delay from
its inputs to its output. `Cell.ofRecord` checks the stored form of a cell: every input pin is
used by the function and none is missing, areas are positive, and delays are not negative and
given for each input.
-/

namespace GateSynth

/-- Why a library is refused. -/
inductive LibraryError where
  /-- The file cannot be read. -/
  | unreadable (path reason : String)
  /-- A text is not a library record. -/
  | undecodable
  /-- The function of a cell cannot be read. -/
  | pattern (cell text : String) (error : PatternError)
  /-- A cell breaks a rule. -/
  | invalidCell (cell reason : String)
  /-- Two cells have one name. -/
  | duplicateCell (name : String)
deriving DecidableEq

/-- The wording of an error. -/
def LibraryError.message : LibraryError → String
  | unreadable path reason => s!"Failed to read library {path}: {reason}"
  | undecodable => "Invalid library JSON: the text is not a library record"
  | pattern cell text error =>
    s!"Cell '{cell}': bad function pattern '{text}': " ++ error.message
  | invalidCell cell reason => s!"Cell '{cell}' is invalid: {reason}"
  | duplicateCell name => s!"Cell '{name}' is defined more than once"

/-- The direction of a pin. -/
inductive PinDirection where
  | input
  | output
deriving DecidableEq

/-- A pin as it is stored. -/
structure Pin where
  /-- The name. -/
  name : String
  /-- The direction. -/
  direction : PinDirection
deriving DecidableEq

/-- The delay from the inputs of a cell to its output. -/
inductive Delay (ν : Type) where
  /-- The same from every input. -/
  | uniform (delay : ν)
  /-- One for each input pin. -/
  | perPin (delays : Table String ν)
deriving DecidableEq

/-- A cell as it is stored. -/
structure CellRecord (ν : Type) where
  /-- The name. -/
  name : String
  /-- The written form of the function. -/
  function : String
  /-- The pins. -/
  pins : List Pin
  /-- The area. -/
  area : ν
  /-- The delay. -/
  delay : Delay ν

/-- A cell. -/
structure Cell (ν : Type) where
  /-- The name. -/
  name : String
  /-- The function. -/
  function : Pattern
  /-- The input pins; the fanins of an instance come in this order. -/
  inputs : List String
  /-- The output pin. -/
  output : String
  /-- The area. -/
  area : ν
  /-- The delay. -/
  delay : Delay ν
deriving DecidableEq

namespace Cell

variable {ν : Type}

/-- The delay from an input pin to the output. -/
def delay? (cell : Cell ν) (pin : String) : Option ν :=
  if cell.inputs.contains pin then
    match cell.delay with
    | .uniform d => some d
    | .perPin delays => delays.find? pin
  else none

/-- The stored form of a cell: the input pins first, then the output pin. -/
def toRecord (cell : Cell ν) : CellRecord ν where
  name := cell.name
  function := cell.function.text
  pins := cell.inputs.map (⟨·, .input⟩) ++ [⟨cell.output, .output⟩]
  area := cell.area
  delay := cell.delay

/-- The value of the output of a cell, for as many operands as it has inputs. -/
def eval (cell : Cell ν) (init : Option Word) (operands : List Word) (w : Width) : Option Word :=
  if operands.length = cell.inputs.length then
    cell.function.eval (Table.ofList (cell.inputs.zip operands)) init w
  else none

/-- The value of the output of a cell at a number of bits. -/
def evalAt (cell : Cell ν) (init : Option Word) (operands : List Word) (bits : Nat) :
    Except NoWidth (Option Word) :=
  if operands.length = cell.inputs.length then
    cell.function.evalAt (Table.ofList (cell.inputs.zip operands)) init bits
  else .ok none

/-! ## Checking stored cells -/

/-- The input pins and the output pins of a list, no pin twice. -/
def splitPins (name : String) :
    List Pin → (inputs outputs : List String) → Except LibraryError (List String × List String)
  | [], inputs, outputs => .ok (inputs, outputs)
  | pin :: rest, inputs, outputs =>
    if inputs.contains pin.name || outputs.contains pin.name then
      .error (.invalidCell name s!"pin '{pin.name}' declared twice")
    else
      match pin.direction with
      | .input => splitPins name rest (inputs ++ [pin.name]) outputs
      | .output => splitPins name rest inputs (outputs ++ [pin.name])

variable [Quantity ν]

/-- The delay of a pin is not negative. -/
def checkDelay (name pin : String) (delay : ν) : Except LibraryError Unit :=
  if Quantity.isNonNegative delay then .ok ()
  else
    let got := Quantity.text delay
    .error (.invalidCell name s!"delay of pin '{pin}' must be non-negative, got {got}")

/-- Every input pin has a delay, and it is not negative. -/
def checkPinDelays (name : String) (delays : Table String ν) :
    List String → Except LibraryError Unit
  | [] => .ok ()
  | pin :: rest =>
    match delays.find? pin with
    | none => .error (.invalidCell name s!"no delay for input pin '{pin}'")
    | some d => do
      checkDelay name pin d
      checkPinDelays name delays rest

/-- The delay of a cell is in order. -/
def checkDelays (name : String) (inputs : List String) : Delay ν → Except LibraryError Unit
  | .uniform d => checkDelay name "*" d
  | .perPin delays => do
    checkPinDelays name delays inputs
    match delays.keys.find? fun pin => !inputs.contains pin with
    | some extra => throw (.invalidCell name s!"delay given for unknown pin '{extra}'")
    | none => return ()

/-- The function uses the input pins, all of them and no others. -/
def checkPins (name : String) (used inputs : List String) : Except LibraryError Unit := do
  if let some pin := used.find? fun pin => !inputs.contains pin then
    throw (.invalidCell name s!"pattern pin '{pin}' is not an input pin")
  if let some pin := inputs.find? fun pin => !used.contains pin then
    throw (.invalidCell name s!"input pin '{pin}' is unused by the function")

/-- The area of a cell is in order. -/
def checkArea (name : String) (area : ν) : Except LibraryError Unit :=
  if Quantity.isPositive area then .ok ()
  else
    let got := Quantity.text area
    .error (.invalidCell name s!"area must be positive, got {got}")

/-- The cell of a stored form. -/
def ofRecord (r : CellRecord ν) : Except LibraryError (Cell ν) := do
  let function ← (Pattern.parse r.function).mapError (.pattern r.name r.function)
  if function.rootKey?.isNone then
    throw (.invalidCell r.name "function must contain an operator")
  let (inputs, outputs) ← splitPins r.name r.pins [] []
  match outputs with
  | [output] =>
    checkPins r.name function.pins inputs
    checkArea r.name r.area
    checkDelays r.name inputs r.delay
    return ⟨r.name, function, inputs, output, r.area, r.delay⟩
  | _ => throw (.invalidCell r.name s!"expected one output pin, found {outputs.length}")

end Cell

end GateSynth
