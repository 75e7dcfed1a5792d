import GateSynth.Proofs.Netlist.Legality
import GateSynth.Proofs.Simulation.Operators
import GateSynth.Simulation.Evaluator

/-!
# Simulation as solving equations

A netlist is a system of equations, one for each node: the value of the output is the result of the
node on the values that its fanins see. `Solution` says that a valuation of the signals satisfies
them and gives the primary inputs their values. Simulation finds a solution
(`Legal.solution_of_simulate`), and on the defined signals it finds every solution, whatever the
order of the nodes (`Legal.simulate_along`), so there is only one. A transformation of netlists is
therefore understood by what it does to solutions, and no later proof runs through an order of the
nodes.
-/

namespace GateSynth

/-- A value for every signal. -/
abbrev Valuation := String → Word

namespace Valuation

/-- The value that a fanin sees. -/
def seen (v : Valuation) (n : Netlist) (f : Fanin) : Word :=
  if f.inverted then (n.width f.signal).complement (v f.signal) else v f.signal

/-- What a node makes of the values of the signals, if it has a function. -/
def result (v : Valuation) (n : Netlist) (cells : CellFunctions) (node : Node) : Option Word :=
  let w := n.width node.output
  let operands := node.fanins.map (v.seen n)
  match node.kind with
  | .op operator => some (operator.value operands w)
  | .const value => some (w.truncate value)
  | .module _ => none
  | .cell name init => (cells name init operands w).map w.truncate

/-- The values of a table, zero where there is none. -/
def ofValues (values : Values) : Valuation := fun signal => (values.find? signal).getD 0

end Valuation

/-- The valuation satisfies the equations of a netlist for given values of its inputs. -/
structure Netlist.Solution (n : Netlist) (cells : CellFunctions) (given : Values)
    (v : Valuation) : Prop where
  /-- A primary input has the given value at its width. -/
  input : ∀ i ∈ n.inputs, ∃ x, given.find? i = some x ∧ v i = (n.width i).truncate x
  /-- The output of a node has the result of the node. -/
  node : ∀ node ∈ n.nodes, v.result n cells node = some (v node.output)

/-! ## Results of nodes -/

namespace Evaluator

theorem faninValue_eq (n : Netlist) (values : Values) :
    faninValue n values = (Valuation.ofValues values).seen n := rfl

/-- The value that simulation gives a node is its result. -/
theorem nodeValue_eq_ok_iff {n : Netlist} {cells : CellFunctions} {values : Values} {node : Node}
    {x : Word} :
    nodeValue n cells values node = .ok x ↔
      (Valuation.ofValues values).result n cells node = some x := by
  obtain ⟨id, kind, fanins, output⟩ := node
  simp only [nodeValue, Valuation.result, faninValue_eq]
  cases kind with
  | op operator =>
    rcases operator.apply_eq (fanins.map ((Valuation.ofValues values).seen n)) (n.width output) with
      h | ⟨h, hzero⟩
    · simp [Kind.apply, h]
    · simp [Kind.apply, h, hzero]
  | const value => simp [Kind.apply]
  | module name => simp [Kind.apply]
  | cell name init =>
    simp only [Kind.apply]
    cases cells name init (fanins.map ((Valuation.ofValues values).seen n)) (n.width output) <;>
      simp

end Evaluator

namespace Valuation

variable {n n' : Netlist} {cells : CellFunctions} {v v' : Valuation} {node node' : Node}

theorem seen_congr {f : Fanin} (h : v f.signal = v' f.signal)
    (hw : n.width f.signal = n'.width f.signal) : v.seen n f = v'.seen n' f := by
  simp only [seen, h, hw]

theorem seen_plain {f : Fanin} (h : f.inverted = false) : v.seen n f = v f.signal := by
  simp [seen, h]

/-- Plain fanins see the values of their signals. -/
theorem map_seen_plain (h : ∀ f ∈ node.fanins, f.inverted = false) :
    node.fanins.map (v.seen n) = node.faninSignals.map v := by
  rw [Node.faninSignals, List.map_map]
  exact List.map_congr_left fun f hf => seen_plain (h f hf)

/-- A result depends only on the width of the output and on what the fanins see. -/
theorem result_congr (hkind : node.kind = node'.kind)
    (hw : n.width node.output = n'.width node'.output)
    (h : node.fanins.map (v.seen n) = node'.fanins.map (v'.seen n')) :
    v.result n cells node = v'.result n' cells node' := by
  simp only [result, hkind, hw, h]

theorem result_congr_values (h : ∀ f ∈ node.fanins, v f.signal = v' f.signal) :
    v.result n cells node = v'.result n cells node :=
  result_congr rfl rfl (List.map_congr_left fun f hf => seen_congr (h f hf) rfl)

/-- A result fits the width of the output. -/
theorem truncate_result {x : Word} (h : v.result n cells node = some x) :
    (n.width node.output).truncate x = x := by
  rw [result] at h
  cases hk : node.kind with
  | op operator =>
    rw [hk] at h
    cases h
    exact operator.truncate_value _ _
  | const value =>
    rw [hk] at h
    cases h
    exact Width.truncate_truncate _ _
  | module name =>
    rw [hk] at h
    cases h
  | cell name init =>
    rw [hk] at h
    obtain ⟨y, -, rfl⟩ := Option.map_eq_some_iff.1 h
    exact Width.truncate_truncate _ _

end Valuation

/-- The value of a defined signal fits its width. -/
theorem Netlist.Solution.truncate_eq {n : Netlist} {cells : CellFunctions} {given : Values}
    {v : Valuation} (h : n.Solution cells given v) {signal : String}
    (hs : n.isDefined signal = true) : (n.width signal).truncate (v signal) = v signal := by
  rcases isDefined_iff.1 hs with ⟨node, hnode, rfl⟩ | hin
  · exact Valuation.truncate_result (h.node node hnode)
  · obtain ⟨x, -, hx⟩ := h.input signal hin
    rw [hx, Width.truncate_truncate]

/-! ## The primary inputs -/

namespace Evaluator

variable {n : Netlist} {cells : CellFunctions} {given values final : Values}

/-- Every input of the list gets its value at its width, and nothing else changes. -/
theorem inputValues_spec {inputs : List String} (h : inputValues n given inputs values = .ok final)
    (signal : String) :
    (signal ∈ inputs → ∃ x, given.find? signal = some x ∧
        final.find? signal = some ((n.width signal).truncate x)) ∧
      (signal ∉ inputs → final.find? signal = values.find? signal) := by
  induction inputs generalizing values with
  | nil =>
    cases h
    simp
  | cons input rest ih =>
    rw [inputValues] at h
    split at h
    · next x hx =>
      obtain ⟨hin, hout⟩ := ih h
      refine ⟨fun hmem => ?_, fun hmem => ?_⟩
      · by_cases hrest : signal ∈ rest
        · exact hin hrest
        · have hsignal : signal = input := by simpa [hrest] using hmem
          subst hsignal
          exact ⟨x, hx, by rw [hout hrest, Table.find?_insert_self]⟩
      · rw [List.mem_cons, not_or] at hmem
        rw [hout hmem.2, Table.find?_insert, if_neg hmem.1]
    · cases h

/-- The inputs get their values if all are given. -/
theorem inputValues_isOk (n : Netlist) (values : Values) {inputs : List String}
    (h : ∀ i ∈ inputs, (given.find? i).isSome) :
    ∃ final, inputValues n given inputs values = .ok final := by
  induction inputs generalizing values with
  | nil => exact ⟨values, rfl⟩
  | cons input rest ih =>
    obtain ⟨hinput, hrest⟩ := List.forall_mem_cons.1 h
    obtain ⟨x, hx⟩ := Option.isSome_iff_exists.1 hinput
    rw [inputValues, hx]
    exact ih _ hrest

/-! ## Runs through the nodes -/

/-- A step of a run evaluates a node and goes on with its value. -/
theorem run_cons {id : NodeId} {rest : List NodeId} {node : Node} (hnode : n.node? id = some node) :
    run n cells (id :: rest) values = .ok final ↔
      ∃ x, (Valuation.ofValues values).result n cells node = some x ∧
        run n cells rest (values.push node.output x) = .ok final := by
  simp only [run, hnode, ← nodeValue_eq_ok_iff]
  cases nodeValue n cells values node <;> simp

/-- A run changes no signal but the outputs of its nodes. -/
theorem run_frame (hc : n.Coherent) {order : List NodeId} {signal : String}
    (hids : ∀ id ∈ order, id ∈ n.nodeIds)
    (hout : ∀ node ∈ n.nodes, node.id ∈ order → node.output ≠ signal)
    (h : run n cells order values = .ok final) : final.find? signal = values.find? signal := by
  induction order generalizing values with
  | nil =>
    cases h
    rfl
  | cons id rest ih =>
    rw [List.forall_mem_cons] at hids
    obtain ⟨node, hnode, rfl⟩ := List.mem_map.1 hids.1
    obtain ⟨x, -, hrest⟩ := (run_cons (hc.node?_of_mem hnode)).1 h
    rw [ih hids.2 (fun m hm hid => hout m hm (.tail _ hid)) hrest, Table.find?_push,
      if_neg (hout node hnode (.head _)).symm]

theorem run_isOk (hc : n.Coherent)
    (hnodes : ∀ node ∈ n.nodes, ∀ v : Valuation, (v.result n cells node).isSome = true)
    (values : Values) {order : List NodeId} (hids : ∀ id ∈ order, id ∈ n.nodeIds) :
    ∃ final, run n cells order values = .ok final := by
  induction order generalizing values with
  | nil => exact ⟨values, rfl⟩
  | cons id rest ih =>
    rw [List.forall_mem_cons] at hids
    obtain ⟨node, hnode, rfl⟩ := List.mem_map.1 hids.1
    obtain ⟨x, hx⟩ := Option.isSome_iff_exists.1 (hnodes node hnode (.ofValues values))
    obtain ⟨final, hrest⟩ := ih (values.push node.output x) hids.2
    exact ⟨final, (run_cons (hc.node?_of_mem hnode)).2 ⟨x, hx, hrest⟩⟩

/-- Once a run is over, every node of it has its result: what the node reads was settled before
it, and neither that nor its output changes afterwards. -/
theorem run_results (hc : n.Coherent) (hl : n.Legal) (before : List NodeId) {order : List NodeId}
    (hids : ∀ id ∈ order, id ∈ n.nodeIds) (hnodup : (before ++ order).Nodup)
    (hfirst : n.DriversFirst (before ++ order)) (h : run n cells order values = .ok final)
    {node : Node} (hnode : node ∈ n.nodes) (hid : node.id ∈ order) :
    (Valuation.ofValues final).result n cells node =
      some (Valuation.ofValues final node.output) := by
  induction order generalizing before values with
  | nil => cases hid
  | cons id rest ih =>
    rw [List.forall_mem_cons] at hids
    obtain ⟨m, hm, rfl⟩ := List.mem_map.1 hids.1
    obtain ⟨x, hx, hrest⟩ := (run_cons (hc.node?_of_mem hm)).1 h
    have hsplit : before ++ m.id :: rest = (before ++ [m.id]) ++ rest := by simp
    by_cases hlater : node.id ∈ rest
    · exact ih _ hids.2 (hsplit ▸ hnodup) (hsplit ▸ hfirst) hrest hlater
    have heq : node = m := by
      refine hc.eq_of_id hnode hm ?_
      simpa [hlater] using hid
    subst heq
    have hstable : ∀ signal, (∀ k ∈ n.nodes, k.id ∈ node.id :: rest → k.output ≠ signal) →
        Valuation.ofValues final signal = Valuation.ofValues values signal := by
      intro signal hsignal
      simp only [Valuation.ofValues]
      rw [run_frame hc (List.forall_mem_cons.2 hids) hsignal h]
    have hsame : (Valuation.ofValues final).result n cells node =
        (Valuation.ofValues values).result n cells node := by
      refine Valuation.result_congr_values fun f hf => hstable _ fun k hk hkid hko => ?_
      have hbefore := hfirst before node.id rest rfl node hnode rfl f hf k.id
        (by rw [← hko]; exact Netlist.driver?_of_mem hl.single hk)
      exact (List.nodup_append.1 hnodup).2.2 _ hbefore _ hkid rfl
    rw [hsame, hx, Valuation.ofValues, run_frame hc hids.2 ?_ hrest, Table.find?_push, if_pos rfl]
    · rfl
    · intro k hk hkid hko
      have := List.inj_on_of_nodup_map hl.single hk hnode hko
      exact hlater (this ▸ hkid)

/-- A run from values that agree with a solution on what was settled before succeeds, and agrees
with it on the outputs of its nodes too. -/
theorem run_of_solution (hc : n.Coherent) (hl : n.Legal) {v : Valuation}
    (hv : n.Solution cells given v) (before : List NodeId) {order : List NodeId}
    (hids : ∀ id ∈ order, id ∈ n.nodeIds) (hfirst : n.DriversFirst (before ++ order))
    (hin : ∀ i ∈ n.inputs, values.find? i = some (v i))
    (hbefore : ∀ node ∈ n.nodes, node.id ∈ before → values.find? node.output = some (v node.output)) :
    ∃ final, run n cells order values = .ok final ∧
      (∀ i ∈ n.inputs, final.find? i = some (v i)) ∧
      ∀ node ∈ n.nodes, node.id ∈ before ++ order →
        final.find? node.output = some (v node.output) := by
  induction order generalizing before values with
  | nil => exact ⟨values, rfl, hin, by simpa using hbefore⟩
  | cons id rest ih =>
    rw [List.forall_mem_cons] at hids
    obtain ⟨m, hm, rfl⟩ := List.mem_map.1 hids.1
    have hsplit : before ++ m.id :: rest = (before ++ [m.id]) ++ rest := by simp
    have hreads : ∀ f ∈ m.fanins, Valuation.ofValues values f.signal = v f.signal := by
      intro f hf
      rw [Valuation.ofValues]
      rcases hl.source (hl.reads m hm f hf) with ⟨d, hd, ho, hdriver⟩ | ⟨hinput, -⟩
      · rw [← ho, hbefore d hd (hfirst before m.id rest rfl m hm rfl f hf d.id hdriver)]
        rfl
      · rw [hin _ hinput]
        rfl
    have hx : (Valuation.ofValues values).result n cells m = some (v m.output) := by
      rw [Valuation.result_congr_values hreads]
      exact hv.node m hm
    obtain ⟨final, hfinal, hin', hall⟩ := ih (before ++ [m.id]) hids.2 (hsplit ▸ hfirst)
      (fun i hi => by
        rw [Table.find?_push]
        split
        · next he => rw [he]
        · exact hin i hi)
      (fun node hnode hid => by
        rw [Table.find?_push]
        split
        · next he => rw [he]
        · next hne =>
          refine hbefore node hnode ?_
          rcases List.mem_append.1 hid with hid | hid
          · exact hid
          · refine absurd ?_ hne
            rw [hc.eq_of_id hnode hm (List.mem_singleton.1 hid)])
    exact ⟨final, (run_cons (hc.node?_of_mem hm)).2 ⟨_, hx, hfinal⟩, hin', by
      rw [hsplit]; exact hall⟩

end Evaluator

/-! ## Simulation and evaluation -/

namespace Netlist

open Evaluator

variable {n : Netlist} {cells : CellFunctions} {given values : Values} {e : Evaluator}
  {v : Valuation}

theorem ofNetlist_eq_ok (h : Evaluator.ofNetlist n cells = .ok e) :
    ∃ order, n.topoOrder = .ok order ∧ e = ⟨n, order, cells⟩ := by
  rw [Evaluator.ofNetlist] at h
  split at h
  · next order horder =>
    cases h
    exact ⟨order, horder, rfl⟩
  · cases h

/-- The values that simulation finds solve the equations. -/
theorem Legal.solution_of_simulate (hl : n.Legal) (hc : n.Coherent)
    (he : Evaluator.ofNetlist n cells = .ok e) (h : e.simulate given = .ok values) :
    n.Solution cells given (.ofValues values) := by
  obtain ⟨order, horder, rfl⟩ := ofNetlist_eq_ok he
  obtain ⟨start, hstart, hrun⟩ := ok_of_bind h
  have hperm := hc.perm_of_topoOrder horder
  have hids : ∀ id ∈ order, id ∈ n.nodeIds := fun id hid => hperm.mem_iff.1 hid
  refine ⟨fun i hi => ?_, fun node hnode => ?_⟩
  · obtain ⟨x, hx, hfind⟩ := (inputValues_spec hstart i).1 hi
    refine ⟨x, hx, ?_⟩
    rw [Valuation.ofValues, run_frame hc hids ?_ hrun, hfind]
    · rfl
    · intro node hnode _ ho
      exact hl.undriven node hnode (ho ▸ hi)
  · exact run_results hc hl [] hids (hc.nodup_of_topoOrder horder)
      (hc.driversFirst_of_topoOrder horder) hrun hnode
      (hperm.mem_iff.2 (List.mem_map_of_mem hnode))

/-- A signal that nothing defines gets no value, whatever the order of the nodes. -/
theorem undefined_along (hc : n.Coherent) {order : List NodeId} (hperm : order.Perm n.nodeIds)
    (h : Evaluator.simulate ⟨n, order, cells⟩ given = .ok values) {signal : String}
    (hs : n.isDefined signal = false) : values.find? signal = none := by
  obtain ⟨start, hstart, hrun⟩ := ok_of_bind h
  rw [← Bool.not_eq_true, isDefined_iff, not_or] at hs
  rw [run_frame hc (fun id hid => hperm.mem_iff.1 hid) (fun node hnode _ ho => hs.1 ⟨node, hnode, ho⟩)
    hrun, (inputValues_spec hstart signal).2 hs.2]
  rfl

/-- A signal that nothing defines gets no value. -/
theorem undefined_of_simulate (hc : n.Coherent) (he : Evaluator.ofNetlist n cells = .ok e)
    (h : e.simulate given = .ok values) {signal : String} (hs : n.isDefined signal = false) :
    values.find? signal = none := by
  obtain ⟨order, horder, rfl⟩ := ofNetlist_eq_ok he
  exact undefined_along hc (hc.perm_of_topoOrder horder) h hs

/-- Where every node has a function, simulation succeeds once all inputs are given. -/
theorem Legal.simulate_isOk (hl : n.Legal) (hc : n.Coherent) (cells : CellFunctions)
    (hnodes : ∀ node ∈ n.nodes, ∀ v : Valuation, (v.result n cells node).isSome = true) :
    ∃ e, Evaluator.ofNetlist n cells = .ok e ∧ ∀ given : Values,
      (∀ i ∈ n.inputs, (given.find? i).isSome = true) → ∃ s, e.simulate given = .ok s := by
  obtain ⟨order, horder⟩ := hl.topoOrder hc
  have hperm := hc.perm_of_topoOrder horder
  refine ⟨⟨n, order, cells⟩, by rw [Evaluator.ofNetlist, horder], fun given hgiven => ?_⟩
  obtain ⟨start, hstart⟩ := inputValues_isOk n Table.empty hgiven
  obtain ⟨final, hrun⟩ := run_isOk hc hnodes start fun id hid => hperm.mem_iff.1 hid
  exact ⟨final, by rw [simulate, hstart]; exact hrun⟩

/-- Where the equations have a solution, simulation along any order that lists the drivers first
succeeds and finds it. -/
theorem Legal.simulate_along (hl : n.Legal) (hc : n.Coherent) (hv : n.Solution cells given v)
    {order : List NodeId} (hperm : order.Perm n.nodeIds) (hfirst : n.DriversFirst order) :
    ∃ values, Evaluator.simulate ⟨n, order, cells⟩ given = .ok values ∧
      ∀ signal, n.isDefined signal = true → values.find? signal = some (v signal) := by
  obtain ⟨start, hstart⟩ := inputValues_isOk n Table.empty
    (fun i (hi : i ∈ n.inputs) => show (given.find? i).isSome = true by
      obtain ⟨x, hx, -⟩ := hv.input i hi
      rw [hx]
      rfl)
  obtain ⟨final, hrun, hin, hall⟩ := run_of_solution hc hl hv []
    (fun id hid => hperm.mem_iff.1 hid) hfirst
    (fun i hi => by
      obtain ⟨x, hx, hfind⟩ := (inputValues_spec hstart i).1 hi
      obtain ⟨y, hy, hvy⟩ := hv.input i hi
      rw [hx] at hy
      cases hy
      rw [hfind, hvy])
    (by simp)
  refine ⟨final, ?_, fun signal hs => ?_⟩
  · rw [simulate, hstart]
    exact hrun
  · rcases isDefined_iff.1 hs with ⟨node, hnode, rfl⟩ | hinput
    · exact hall node hnode (hperm.mem_iff.2 (List.mem_map_of_mem hnode))
    · exact hin signal hinput

/-- Where the equations have a solution, simulation succeeds and finds it. -/
theorem Legal.simulate_of_solution (hl : n.Legal) (hc : n.Coherent)
    (hv : n.Solution cells given v) :
    ∃ e values, Evaluator.ofNetlist n cells = .ok e ∧ e.simulate given = .ok values ∧
      ∀ signal, n.isDefined signal = true → values.find? signal = some (v signal) := by
  obtain ⟨order, horder⟩ := hl.topoOrder hc
  obtain ⟨values, hvalues, hfind⟩ := hl.simulate_along hc hv (hc.perm_of_topoOrder horder)
    (hc.driversFirst_of_topoOrder horder)
  exact ⟨⟨n, order, cells⟩, values, by rw [Evaluator.ofNetlist, horder], hvalues, hfind⟩

/-- The outputs that evaluation finds are those of a solution. -/
theorem Legal.solution_of_evaluate (hl : n.Legal) (hc : n.Coherent)
    (he : Evaluator.ofNetlist n cells = .ok e) {outputs : List (String × Word)}
    (h : e.evaluate given = .ok outputs) :
    ∃ v, n.Solution cells given v ∧ outputs = n.outputs.map fun o => (o, v o) := by
  obtain ⟨values, hvalues, hret⟩ := ok_of_bind h
  cases hret
  refine ⟨_, hl.solution_of_simulate hc he hvalues, ?_⟩
  obtain ⟨order, -, rfl⟩ := ofNetlist_eq_ok he
  rfl

/-- The outputs of a solution are those that evaluation finds. -/
theorem Legal.evaluate_of_solution (hl : n.Legal) (hc : n.Coherent)
    (hv : n.Solution cells given v) :
    ∃ e, Evaluator.ofNetlist n cells = .ok e ∧
      e.evaluate given = .ok (n.outputs.map fun o => (o, v o)) := by
  obtain ⟨e, values, he, hvalues, hfind⟩ := hl.simulate_of_solution hc hv
  refine ⟨e, he, ?_⟩
  rw [evaluate, hvalues]
  obtain ⟨order, -, rfl⟩ := ofNetlist_eq_ok he
  refine congrArg Except.ok (List.map_congr_left fun o ho => ?_)
  rw [hfind o (hl.driven o ho)]
  rfl

end Netlist

end GateSynth
