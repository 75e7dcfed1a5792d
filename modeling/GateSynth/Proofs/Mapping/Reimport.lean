import GateSynth.Proofs.Exchange.RoundTrip
import GateSynth.Proofs.Library.StoredForm
import GateSynth.Proofs.Mapping.Correctness
import GateSynth.Proofs.Mapping.Outcomes

/-!
# Reading mapped netlists again

A mapped netlist consists of instances of cells of the library (`Placed.kind_assembled`), and a
library keeps the tags of other kinds out of the names of its cells. So the record of a mapped
netlist is read back as it is, with one exception: libraries admit a cell whose name is empty, and
records have no node with an empty type (`toNetlist_of_mapOnto`).
-/

namespace GateSynth

open Netlist Exchange

variable {ν : Type} {lib : Library ν} {s : Subject}

namespace Selection

variable {pairs : List (Node × Match ν)}

/-- The nodes of a mapped netlist are instances of cells of the library. -/
theorem Placed.kind_assembled (hlib : lib.Checked) (hs : s.WellFormed) (h : Placed s lib pairs)
    {k : Node} (hk : k ∈ (assembled s.netlist pairs).nodes) :
    ∃ cell ∈ lib.cells, ∃ init, k.kind = .cell cell.name init := by
  obtain ⟨p, hp, place, rfl⟩ := mem_nodes_assembled hk
  exact ⟨p.2.cell, Subject.cell_mem_of_nodeMatches hlib hs (h.node p hp) (h.isMatch p hp), p.2.init,
    rfl⟩

/-- A mapped netlist could have been built by the operations of netlists. -/
theorem Placed.consistent_assembled (hlib : lib.Checked) (hs : s.WellFormed)
    (h : Placed s lib pairs) : (assembled s.netlist pairs).Consistent where
  toCoherent := coherent_assembled hs pairs
  arity := (h.legal_assembled hlib hs).arity
  single := (h.legal_assembled hlib hs).single
  undriven := (h.legal_assembled hlib hs).undriven
  inputs_declared _ hi :=
    mem_keys_widthTable.2 (List.mem_append_left _ (List.mem_append_left _ hi))
  outputs_declared _ ho :=
    mem_keys_widthTable.2 (List.mem_append_left _ (List.mem_append_right _ ho))

/-- The instances are numbered from zero, so none has to be renumbered. -/
theorem not_isSparse_assembled (source : Netlist) (pairs : List (Node × Match ν)) :
    ¬ (Record.ofNetlist (assembled source pairs)).IsSparse := by
  rw [Record.isSparse_ofNetlist_iff, nodeIds, nodeCount, nodes_assembled]
  rintro ⟨id, hid, hfar⟩
  obtain ⟨k, hk, rfl⟩ := List.mem_map.1 hid
  obtain ⟨i, hi, rfl⟩ := List.mem_mapIdx.1 hk
  rw [List.length_mapIdx] at hfar
  exact absurd (Nat.lt_of_lt_of_le hi (Nat.le_add_right _ _)) (Nat.not_lt.2 hfar)

end Selection

open Selection in
/-- A mapped netlist consists of instances of cells of the library. Its record is read back as it is
unless an instance is of a cell without a name; then the first such instance is to blame. -/
theorem toNetlist_of_mapOnto [Quantity ν] {n : Netlist} {record : LibraryRecord ν}
    {strategy : Strategy} {r : Mapping ν} (hc : n.Coherent)
    (hlib : Library.ofRecord record = .ok lib) (h : n.mapOnto lib strategy = .ok r) :
    (∀ node ∈ r.netlist.nodes, ∃ cell ∈ lib.cells, ∃ init, node.kind = .cell cell.name init) ∧
      ((∀ node ∈ r.netlist.nodes, ∀ init, node.kind ≠ .cell "" init) →
        ∃ m, (Record.ofNetlist r.netlist).toNetlist = .ok m ∧
          Record.ofNetlist m = Record.ofNetlist r.netlist) ∧
      ∀ before node after init, r.netlist.nodes = before ++ node :: after →
        (∀ earlier ∈ before, ∀ init, earlier.kind ≠ .cell "" init) → node.kind = .cell "" init →
        (Record.ofNetlist r.netlist).toNetlist =
          .error (.record s!"node {node.id} has an empty type") := by
  have hchecked := Library.checked_of_ofRecord hlib
  obtain ⟨s, sel, needed, order, -, hs, hselect, horder, hneeded, hchosen, hnetlist⟩ :=
    mapOnto_eq_ok hc hchecked h
  have hplaced := placed_placements hs (sound_of_select hselect) horder hneeded hchosen
  generalize sel.placements s.netlist needed order = pairs at hnetlist hplaced
  rw [hnetlist]
  have hkind := fun k hk => hplaced.kind_assembled hchecked hs (k := k) hk
  have hconsistent := hplaced.consistent_assembled hchecked hs
  -- A name that is not empty is read back, because no name of a cell is a tag.
  have hnamed : ∀ k ∈ (assembled s.netlist pairs).nodes, (∀ init, k.kind ≠ .cell "" init) →
      ∀ name init, k.kind = .cell name init →
        name ≠ "" ∧ Kind.isReservedTag name = false := by
    rintro k hk hnonempty name init hcell
    refine ⟨fun hempty => hnonempty init (hempty ▸ hcell), ?_⟩
    obtain ⟨cell, hmem, init', hcell'⟩ := hkind k hk
    obtain ⟨rfl, -⟩ := Kind.cell.inj (hcell.symm.trans hcell')
    exact Library.not_reserved_of_ofRecord hlib cell hmem
  refine ⟨hkind, fun hnonempty => ?_, fun before node after init hnodes hbefore hempty => ?_⟩
  · obtain ⟨m, hm, hname, hrenamed⟩ := Record.toNetlist_ofNetlist hconsistent
      fun k hk => hnamed k hk (hnonempty k hk)
    exact ⟨m, hm, (Record.ofNetlist_of_renumbered hconsistent.toCoherent hname hrenamed).1
      (not_isSparse_assembled s.netlist pairs)⟩
  · refine Record.toNetlist_of_nameless hconsistent hnodes (fun k hk => ?_) hempty
    exact hnamed k (hnodes ▸ List.mem_append_left _ hk) (hbefore k hk)

namespace Nameless

/-- A stored library whose only cell, an inverter, has no name. -/
def record : LibraryRecord Nat :=
  ⟨"nameless", [⟨"", "NOT(A)", [⟨"A", .input⟩, ⟨"Y", .output⟩], 1, .uniform 1⟩]⟩

/-- The library of the record. -/
def library : Library Nat :=
  ⟨"nameless", [⟨"", .op .not [.pin "A"], ["A"], "Y", 1, .uniform 1⟩]⟩

/-- An inverter. -/
def netlist : Netlist where
  name := "t"
  inputs := ["a"]
  outputs := ["y"]
  widths := ⟨[("a", .one), ("y", .one)]⟩
  arena := [some ⟨⟨0⟩, .op .not, [.plain "a"], "y"⟩]
  wires := [⟨"a", ⟨0⟩, 0⟩]
  nextFresh := 0

theorem coherent : netlist.Coherent := by
  refine ⟨fun {i node} h => ?_, by decide, by decide, by decide⟩
  match i, h with
  | 0, h =>
    cases h
    rfl

theorem ofRecord_record : Library.ofRecord record = .ok library :=
  show Library.ofRecord library.toRecord = .ok library from
    Library.ofRecord_of_checks (by decide) (by decide) (by decide) (by decide) (by decide)

end Nameless

/-- The record of a mapped netlist with a compound cell is read back; that of an instance without a
name is not. -/
theorem toNetlist_of_mapOnto_andNor :
    AndNor.netlist.Coherent ∧ Library.ofRecord AndNor.record = .ok AndNor.library ∧
      (∃ r, AndNor.netlist.mapOnto AndNor.library .areaOptimal = .ok r ∧
        ∃ m, (Record.ofNetlist r.netlist).toNetlist = .ok m ∧
          Record.ofNetlist m = Record.ofNetlist r.netlist) := by
  obtain ⟨r, hr⟩ := AndNor.exists_mapOnto
  obtain ⟨hkind, hread, -⟩ := toNetlist_of_mapOnto AndNor.coherent AndNor.ofRecord_record hr
  refine ⟨AndNor.coherent, AndNor.ofRecord_record, r, hr, hread fun node hnode init hempty => ?_⟩
  obtain ⟨cell, hcell, init', hname⟩ := hkind node hnode
  obtain ⟨hname, -⟩ := Kind.cell.inj (hempty.symm.trans hname)
  rcases List.mem_pair.1 hcell with rfl | rfl
  · exact absurd hname (by decide)
  · exact absurd hname (by decide)

/-- A library is accepted and a valid netlist is mapped to it, but the record of the mapped netlist
is refused. -/
theorem toNetlist_of_mapOnto_nameless :
    Nameless.netlist.Coherent ∧ Nameless.netlist.validate = .ok () ∧
      Library.ofRecord Nameless.record = .ok Nameless.library ∧
      ∃ r, Nameless.netlist.mapOnto Nameless.library .areaOptimal = .ok r ∧
        (Record.ofNetlist r.netlist).toNetlist = .error (.record "node n0 has an empty type") := by
  refine ⟨Nameless.coherent, by decide +kernel, Nameless.ofRecord_record, ?_⟩
  have hmap : ((Nameless.netlist.mapOnto Nameless.library .areaOptimal).map fun r =>
      (Record.ofNetlist r.netlist).toNetlist) =
        .ok (.error (.record "node n0 has an empty type")) := by decide +kernel
  cases hr : Nameless.netlist.mapOnto Nameless.library .areaOptimal with
  | ok r =>
    rw [hr] at hmap
    exact ⟨r, rfl, Except.ok.inj hmap⟩
  | error e =>
    rw [hr] at hmap
    cases hmap

end GateSynth
