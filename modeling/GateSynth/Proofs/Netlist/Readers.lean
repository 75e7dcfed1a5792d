import GateSynth.Proofs.Netlist.Rewriting

/-!
# Readers of signals

The fanout of a netlist lists who reads which signal. Where a signal is read once, its reader is
determined (`reader_unique`), and the single consumer of a signal that a node reads is this node
exactly if the signal is read once and is no primary output (`singleConsumer?_iff`).
-/

namespace GateSynth.Netlist

variable {n : Netlist} {node p q : Node} {s : String} {f g : Fanin} {i j : Nat}

/-- The signals that the nodes of a list read, each as often as it is read. -/
def readsOf (nodes : List Node) : List String := nodes.flatMap Node.faninSignals

/-- How often a signal is read. -/
def readCount (n : Netlist) (s : String) : Nat := (readsOf n.nodes).count s

theorem readsOf_append (xs ys : List Node) : readsOf (xs ++ ys) = readsOf xs ++ readsOf ys :=
  List.flatMap_append

theorem readsOf_perm {xs ys : List Node} (h : xs.Perm ys) : (readsOf xs).Perm (readsOf ys) :=
  h.flatMap_right _

theorem mem_readsOf {nodes : List Node} :
    s ∈ readsOf nodes ↔ ∃ m ∈ nodes, ∃ f ∈ m.fanins, f.signal = s := by
  simp only [readsOf, List.mem_flatMap, Node.faninSignals, List.mem_map]

theorem mem_nodeWires {w : Wire} :
    w ∈ nodeWires node ↔ w.node = node.id ∧ ∃ f, node.fanins[w.port]? = some f ∧
      f.signal = w.source := by
  rw [nodeWires, List.mem_mapIdx]
  constructor
  · rintro ⟨i, hi, rfl⟩
    exact ⟨rfl, node.fanins[i], List.getElem?_eq_getElem hi, rfl⟩
  · rintro ⟨hnode, f, hf, hs⟩
    obtain ⟨hi, rfl⟩ := List.getElem?_eq_some_iff.1 hf
    refine ⟨w.port, hi, ?_⟩
    rw [hs, ← hnode]

theorem map_source_derivedWires (n : Netlist) :
    n.derivedWires.map Wire.source = readsOf n.nodes := by
  rw [derivedWires, List.map_flatMap, readsOf]
  refine List.flatMap_congr fun node _ => ?_
  refine List.ext_getElem? fun i => ?_
  rw [nodeWires, Node.faninSignals, List.getElem?_map, List.getElem?_mapIdx, List.getElem?_map,
    Option.map_map]
  rfl

theorem length_consumers (n : Netlist) (s : String) :
    (n.fanout.consumers s).length = n.readCount s := by
  rw [Fanout.consumers, List.length_map, readCount, ← map_source_derivedWires, List.count_eq_countP,
    List.countP_map, List.countP_eq_length_filter]
  congr 1

theorem mem_consumers {id : NodeId} :
    (id, i) ∈ n.fanout.consumers s ↔
      ∃ m ∈ n.nodes, m.id = id ∧ ∃ f, m.fanins[i]? = some f ∧ f.signal = s := by
  simp only [Fanout.consumers, fanout, derivedWires, List.mem_map, List.mem_filter,
    List.mem_flatMap, decide_eq_true_eq]
  constructor
  · rintro ⟨w, ⟨⟨m, hm, hw⟩, rfl⟩, heq⟩
    cases heq
    obtain ⟨hnode, f, hf, hs⟩ := mem_nodeWires.1 hw
    exact ⟨m, hm, hnode.symm, f, hf, hs⟩
  · rintro ⟨m, hm, rfl, f, hf, rfl⟩
    exact ⟨⟨f.signal, m.id, i⟩, ⟨⟨m, hm, mem_nodeWires.2 ⟨rfl, f, hf, rfl⟩⟩, rfl⟩, rfl⟩

/-- A signal that is read once has one reader, which reads it at one port. -/
theorem reader_unique (h : n.readCount s = 1) (hp : p ∈ n.nodes) (hf : p.fanins[i]? = some f)
    (hfs : f.signal = s) (hq : q ∈ n.nodes) (hg : q.fanins[j]? = some g) (hgs : g.signal = s) :
    p.id = q.id ∧ i = j := by
  rw [← length_consumers] at h
  obtain ⟨only, honly⟩ := List.length_eq_one_iff.1 h
  have hpmem : (p.id, i) ∈ n.fanout.consumers s := mem_consumers.2 ⟨p, hp, rfl, f, hf, hfs⟩
  have hqmem : (q.id, j) ∈ n.fanout.consumers s := mem_consumers.2 ⟨q, hq, rfl, g, hg, hgs⟩
  rw [honly, List.mem_singleton] at hpmem hqmem
  have heq := hpmem.trans hqmem.symm
  exact ⟨congrArg Prod.fst heq, congrArg Prod.snd heq⟩

theorem singleConsumer?_eq_some {id : NodeId} (h : n.fanout.singleConsumer? s = some id) :
    n.readCount s = 1 ∧ s ∉ n.outputs ∧ ∃ m ∈ n.nodes, m.id = id ∧ ∃ f ∈ m.fanins, f.signal = s := by
  rw [Fanout.singleConsumer?] at h
  split at h
  · next node port hconsumers =>
    split at h
    · cases h
    · next hout =>
      cases h
      refine ⟨by rw [← length_consumers, hconsumers]; rfl, mt isOutput_iff.2 hout, ?_⟩
      obtain ⟨m, hm, hid, f, hf, hs⟩ := mem_consumers.1
        (hconsumers ▸ List.mem_singleton_self _ : (id, port) ∈ n.fanout.consumers s)
      exact ⟨m, hm, hid, f, List.mem_of_getElem? hf, hs⟩
  · cases h

/-- Of the signals that a node reads, those that nothing else reads have it as their single
consumer. -/
theorem singleConsumer?_iff (hp : p ∈ n.nodes) (hf : f ∈ p.fanins) :
    n.fanout.singleConsumer? f.signal = some p.id ↔
      n.readCount f.signal = 1 ∧ f.signal ∉ n.outputs := by
  refine ⟨fun h => ⟨(singleConsumer?_eq_some h).1, (singleConsumer?_eq_some h).2.1⟩, ?_⟩
  rintro ⟨hcount, hout⟩
  rw [← length_consumers] at hcount
  obtain ⟨⟨id, port⟩, honly⟩ := List.length_eq_one_iff.1 hcount
  obtain ⟨i, hi, hget⟩ := List.getElem_of_mem hf
  have hmem : (p.id, i) ∈ n.fanout.consumers f.signal :=
    mem_consumers.2 ⟨p, hp, rfl, f, List.getElem?_eq_some_iff.2 ⟨hi, hget⟩, rfl⟩
  rw [honly, List.mem_singleton] at hmem
  cases hmem
  rw [Fanout.singleConsumer?, honly]
  exact if_neg (mt isOutput_iff.1 hout)

end GateSynth.Netlist
