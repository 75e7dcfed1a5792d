import GateSynth.Proofs.Netlist.Readers
import GateSynth.Total

/-!
# Cones

The cone of a netlist holds the nodes that its primary outputs depend on (`Cone`). As there is no
loop, what is shown of a node from its readers holds of all nodes (`Acyclic.readers_induction`).
-/

namespace GateSynth.Netlist

variable {n : Netlist} {node d : Node} {s : String}

/-- The nodes that a primary output depends on. -/
inductive Cone (n : Netlist) : NodeId → Prop
  /-- The driver of an output. -/
  | output {o : String} {d : NodeId} : o ∈ n.outputs → n.driver? o = some d → Cone n d
  /-- The driver of what a node of the cone reads. -/
  | fanin {node : Node} {f : Fanin} {d : NodeId} :
      node ∈ n.nodes → Cone n node.id → f ∈ node.fanins → n.driver? f.signal = some d → Cone n d

/-- A node reads a signal. -/
def Reads (node : Node) (s : String) : Prop := ∃ f ∈ node.fanins, f.signal = s

theorem reads_iff : Reads node s ↔ s ∈ node.faninSignals := by
  simp only [Reads, Node.faninSignals, List.mem_map]

/-- What holds of a node whenever it holds of its readers holds of all nodes. -/
theorem Acyclic.readers_induction (h : n.Acyclic) {P : Node → Prop}
    (step : ∀ d ∈ n.nodes, (∀ node ∈ n.nodes, Reads node d.output → P node) → P d) :
    ∀ d ∈ n.nodes, P d := by
  obtain ⟨rank, hrank⟩ := h.ranked
  -- The rank grows towards the readers, but no further than the sum of all ranks.
  let bound := total (n.nodes.map fun m => rank m.output)
  intro d
  induction d using (measure fun d : Node => bound - rank d.output).wf.induction with
  | _ d ih =>
    intro hd
    refine step d hd fun node hnode hreads => ih node ?_ hnode
    obtain ⟨f, hf, hs⟩ := hreads
    have hlt := hrank node hnode f hf
    have hle : rank node.output ≤ bound :=
      le_total_of_mem (List.mem_map_of_mem (f := fun m => rank m.output) hnode)
    rw [hs] at hlt
    show bound - rank node.output < bound - rank d.output
    omega

/-- A signal with a single consumer is read at most once by a node, and only by the consumer. -/
theorem count_faninSignals_le (hnode : node ∈ n.nodes) {reader : NodeId}
    (hreader : n.fanout.singleConsumer? s = some reader) :
    node.faninSignals.count s ≤ if node.id = reader then 1 else 0 := by
  obtain ⟨hcount, -, consumer, hconsumer, rfl, g, hg, hgs⟩ := singleConsumer?_eq_some hreader
  split
  · obtain ⟨before, after, hsplit⟩ := List.append_of_mem hnode
    rw [readCount, hsplit, readsOf_append, List.count_append] at hcount
    have hcons : readsOf (node :: after) = node.faninSignals ++ readsOf after := List.flatMap_cons
    rw [hcons, List.count_append] at hcount
    omega
  · next hne =>
    rw [Nat.le_zero, List.count_eq_zero]
    intro hmem
    obtain ⟨f, hf, hfs⟩ := reads_iff.2 hmem
    obtain ⟨i, hi⟩ := List.mem_iff_getElem?.1 hf
    obtain ⟨j, hj⟩ := List.mem_iff_getElem?.1 hg
    exact hne (reader_unique hcount hnode hi hfs hconsumer hj hgs).1

end GateSynth.Netlist
