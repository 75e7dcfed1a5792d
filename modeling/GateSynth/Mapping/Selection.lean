import GateSynth.Mapping.Cost
import GateSynth.Mapping.Match

/-!
# Selections

A selection gives every node of a subject graph its best match. Nodes are taken drivers first, so
the costs of the leaves of a match are known when the match is; of equally good matches the first
one stays. A node none of whose matches can be used is blocked, and the selection remembers a node
without any match at all that is behind it.
-/

namespace GateSynth

/-- The match that is chosen for a node. -/
structure Choice (ν : Type) where
  /-- The place among the matches of the node. -/
  index : Nat
  /-- The match. -/
  candidate : Match ν
  /-- Its cost. -/
  cost : Cost ν

/-- The choices of the nodes that can be covered, and what blocks the others. -/
structure Selection (ν : Type) where
  /-- The choice for each node that can be covered. -/
  best : Table NodeId (Choice ν)
  /-- For each other node a node that is behind it. -/
  blocked : Table NodeId NodeId

namespace Selection

variable {ν : Type}

/-- Nothing is chosen. -/
def empty : Selection ν := ⟨Table.empty, Table.empty⟩

/-- The match chosen for a node. -/
def chosen? (sel : Selection ν) (id : NodeId) : Option (Match ν) :=
  (sel.best.find? id).map Choice.candidate

/-- The cost of the best match of a node. -/
def cost? (sel : Selection ν) (id : NodeId) : Option (Cost ν) :=
  (sel.best.find? id).map Choice.cost

/-- The nodes that cannot be covered, in order. -/
def uncoverable (sel : Selection ν) : List NodeId :=
  sel.blocked.keys.mergeSort fun a b => a.index ≤ b.index

/-- The node that is behind a node that cannot be covered. -/
def blocker (sel : Selection ν) (id : NodeId) : NodeId := (sel.blocked.find? id).getD id

variable [Quantity ν]

/-- The cost of a leaf, or its driver if that cannot be covered. -/
def leafCost (sel : Selection ν) (s : Subject) (leaf : String) : Except NodeId (Cost ν) :=
  match s.netlist.driver? leaf with
  | none => .ok .free
  | some driver =>
    match sel.cost? driver with
    | some cost => .ok cost
    | none => .error driver

/-- The costs of the leaves of a match, or the first driver that cannot be covered. -/
def leafCosts (sel : Selection ν) (s : Subject) :
    List (String × String) → Except NodeId (List (String × String × Cost ν))
  | [] => .ok []
  | (pin, leaf) :: rest =>
    match sel.leafCost s leaf with
    | .error driver => .error driver
    | .ok cost =>
      match leafCosts sel s rest with
      | .error driver => .error driver
      | .ok costs => .ok ((pin, leaf, cost) :: costs)

/-- Add up the areas of the leaves that nobody else reads, each signal once. -/
def addAreas (s : Subject) :
    List (String × String × Cost ν) → (counted : List String) → (area : ν) → ν
  | [], _, area => area
  | (_, leaf, cost) :: rest, counted, area =>
    if s.isAbsorbable leaf && !counted.contains leaf then
      addAreas s rest (leaf :: counted) (Quantity.add area cost.area)
    else addAreas s rest counted area

/-- The latest arrival through the pins of a cell. -/
def latest (cell : Cell ν) : List (String × String × Cost ν) → (time : ν) → ν
  | [], time => time
  | (pin, _, cost) :: rest, time =>
    let delay := (cell.delay? pin).getD Quantity.zero
    latest cell rest (Quantity.max time (Quantity.add cost.arrival delay))

/-- The cost of a match: the area of the cell and of the leaves that nobody else reads, and the
latest arrival through its pins. -/
def costOf (sel : Selection ν) (s : Subject) (m : Match ν) : Except NodeId (Cost ν) :=
  match sel.leafCosts s m.pins with
  | .ok leaves => .ok ⟨addAreas s leaves [] m.cell.area, latest m.cell leaves Quantity.zero⟩
  | .error driver => .error driver

/-- The better of a choice and a later one; the earlier one stays unless it is beaten. -/
def prefer (strategy : Strategy) : Option (Choice ν) → Choice ν → Option (Choice ν)
  | none, next => some next
  | some kept, next =>
    if Cost.isBetter strategy next.cost kept.cost then some next else some kept

/-- The matches of a list that can be used, each with its place in the list and its cost. -/
def usable (sel : Selection ν) (s : Subject) (candidates : List (Match ν)) : List (Choice ν) :=
  candidates.zipIdx.filterMap fun (m, index) =>
    match sel.costOf s m with
    | .ok cost => some ⟨index, m, cost⟩
    | .error _ => none

/-- What is behind the matches of a list that cannot be used. -/
def blockers (sel : Selection ν) (s : Subject) (candidates : List (Match ν)) : List NodeId :=
  candidates.filterMap fun m =>
    match sel.costOf s m with
    | .ok _ => none
    | .error driver => some (sel.blocker driver)

/-- Choose among the matches of a node. -/
def choose (sel : Selection ν) (s : Subject) (strategy : Strategy) (id : NodeId)
    (candidates : List (Match ν)) : Selection ν :=
  match (sel.usable s candidates).foldl (prefer strategy) none with
  | some choice => { sel with best := sel.best.insert id choice }
  | none =>
    { sel with blocked := sel.blocked.insert id (((sel.blockers s candidates).head?).getD id) }

/-- Choose for the nodes of an order. -/
def along (s : Subject) (lib : Library ν) (strategy : Strategy) :
    List NodeId → Selection ν → Selection ν
  | [], sel => sel
  | id :: rest, sel =>
    let candidates := match s.netlist.node? id with
      | some node => s.nodeMatches lib node
      | none => []
    along s lib strategy rest (sel.choose s strategy id candidates)

end Selection

/-- The best match of every node of a subject graph. -/
def Subject.select {ν : Type} [Quantity ν] (s : Subject) (lib : Library ν) (strategy : Strategy) :
    Except MapError (Selection ν) := do
  let order ← s.netlist.topoOrder.mapError .structural
  return Selection.along s lib strategy order .empty

end GateSynth
