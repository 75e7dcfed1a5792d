import GateSynth.Mapping.Basic
import GateSynth.Proofs.Library.StoredForm
import GateSynth.Proofs.Mapping.Covers
import GateSynth.Proofs.Mapping.Subjects

/-!
# Mapping preserves the function

`mapOnto_correct`: whatever a netlist puts out, its mapping puts out too, on every assignment of
the inputs and for both strategies. A solution of the netlist extends to its subject graph, and the
instances of the cover are chosen so that it solves the mapped netlist as well; as simulation finds
the solutions of a netlist, both put out the same. The mapping is valid, has the ports of the
netlist, and consists of cells of the library with a plain fanin for every input pin.
-/

namespace GateSynth

open Netlist

variable {ν : Type} [Quantity ν]

/-- Mapping preserves the function of a netlist. -/
theorem mapOnto_correct {n : Netlist} {record : LibraryRecord ν} {lib : Library ν}
    {strategy : Strategy} {r : Mapping ν} (hc : n.Coherent)
    (hlib : Library.ofRecord record = .ok lib) (h : n.mapOnto lib strategy = .ok r) :
    (∀ e given outputs, Evaluator.ofNetlist n lib.functions = .ok e →
      e.evaluate given = .ok outputs → ∃ e',
        Evaluator.ofNetlist r.netlist lib.functions = .ok e' ∧ e'.evaluate given = .ok outputs) ∧
    r.netlist.validate = .ok () ∧ r.netlist.name = n.name ∧ r.netlist.inputs = n.inputs ∧
    r.netlist.outputs = n.outputs ∧
    (∀ port, port ∈ n.inputs ∨ port ∈ n.outputs → r.netlist.width port = n.width port) ∧
    ∀ node ∈ r.netlist.nodes, ∃ cell ∈ lib.cells, ∃ init, node.kind = .cell cell.name init ∧
      node.fanins.length = cell.inputs.length ∧ ∀ f ∈ node.fanins, f.inverted = false := by
  obtain ⟨s, hs, h⟩ := ok_of_bind h
  obtain ⟨sel, hsel, h⟩ := ok_of_bind h
  obtain ⟨mapped, hmapped, h⟩ := ok_of_bind h
  obtain ⟨arrivals, -, h⟩ := ok_of_bind h
  obtain ⟨area, -, h⟩ := ok_of_bind h
  cases h
  obtain ⟨hvalid, inverters, hsub⟩ := Subject.straightened_of_ofNetlist hc hs
  have hlegal := hc.legal_of_validate hvalid
  have hplain : ∀ node ∈ s.netlist.nodes, ∀ f ∈ node.fanins, f.inverted = false :=
    fun node hnode => (hsub.plain node hnode).resolve_left List.not_mem_nil
  obtain ⟨hcover, hmappedValid⟩ := Selection.cover_of_extract (Library.checked_of_ofRecord hlib)
    hsub.coherent hplain (Selection.sound_of_select hsel) hmapped
  have htaken : ∀ port, port ∈ n.inputs ∨ port ∈ n.outputs → n.isTaken port = true := by
    rintro port (hin | hout)
    · exact isTaken_of_isDefined (isDefined_of_input hin)
    · exact isTaken_of_output hout
  refine ⟨fun e given outputs he houtputs => ?_, hmappedValid, hcover.name.trans hsub.name,
    hcover.inputs.trans hsub.inputs, hcover.outputs.trans hsub.outputs, fun port hport => ?_,
    fun k hk => ?_⟩
  · obtain ⟨v, hv, rfl⟩ := hlegal.solution_of_evaluate hc he houtputs
    obtain ⟨v', hv', hold, -⟩ := hsub.solves lib.functions given v hv
    obtain ⟨e', he', heval⟩ := (hcover.coherent.legal_of_validate hmappedValid).evaluate_of_solution
      hcover.coherent (hcover.solution hv')
    refine ⟨e', he', heval.trans ?_⟩
    rw [hcover.outputs, hsub.outputs]
    refine congrArg Except.ok (List.map_congr_left fun o ho => ?_)
    rw [hold o (htaken o (.inr ho))]
  · rw [hcover.width port (by rwa [hcover.inputs, hcover.outputs, hsub.inputs, hsub.outputs]),
      (hsub.width port (htaken port hport)).2]
  · obtain ⟨node, -, m, hm, hkind, hfanins, -⟩ := hcover.instances k hk
    refine ⟨m.cell, (Library.cell?_eq_some hm.cell).1, m.init, hkind, ?_, fun f hf => ?_⟩
    · rw [hfanins, List.length_map, hm.leaves]
    · rw [hfanins] at hf
      obtain ⟨leaf, -, rfl⟩ := List.mem_map.1 hf
      rfl

/-! ## A compound cell

Two nodes become one cell, whose operands come in the other order and one of which is read through
an inverter. -/

/-- Areas and delays in whole numbers, all of them told apart. -/
instance : Quantity Nat where
  zero := 0
  emptySum := 0
  add := (· + ·)
  max := max
  less a b := a < b
  apart a b := a ≠ b
  isPositive x := 0 < x
  isNonNegative _ := true
  text := toString

namespace AndNor

/-- A stored library with an inverter and a compound cell. -/
def record : LibraryRecord Nat :=
  ⟨"andnor",
    [⟨"INV", "NOT(A)", [⟨"A", .input⟩, ⟨"Y", .output⟩], 1, .uniform 1⟩,
      ⟨"AOI21", "NOR(AND(A,B),C)",
        [⟨"A", .input⟩, ⟨"B", .input⟩, ⟨"C", .input⟩, ⟨"Y", .output⟩], 3, .uniform 2⟩]⟩

/-- The library of the record. -/
def library : Library Nat :=
  ⟨"andnor",
    [⟨"INV", .op .not [.pin "A"], ["A"], "Y", 1, .uniform 1⟩,
      ⟨"AOI21", .op .nor [.op .and [.pin "A", .pin "B"], .pin "C"], ["A", "B", "C"], "Y", 3,
        .uniform 2⟩]⟩

/-- Two-bit `c NOR (a AND ~b)`. -/
def netlist : Netlist where
  name := "andnor"
  inputs := ["a", "b", "c"]
  outputs := ["y"]
  widths := ⟨["a", "b", "c", "t", "y"].map (·, ⟨2, by decide, by decide⟩)⟩
  arena := [some ⟨⟨0⟩, .op .and, [⟨"a", false⟩, ⟨"b", true⟩], "t"⟩,
    some ⟨⟨1⟩, .op .nor, [⟨"c", false⟩, ⟨"t", false⟩], "y"⟩]
  wires := [⟨"a", ⟨0⟩, 0⟩, ⟨"b", ⟨0⟩, 1⟩, ⟨"c", ⟨1⟩, 0⟩, ⟨"t", ⟨1⟩, 1⟩]
  nextFresh := 0

theorem coherent : netlist.Coherent := by
  refine ⟨fun {i node} h => ?_, by decide, by decide, by decide⟩
  match i, h with
  | 0, h | 1, h =>
    cases h
    rfl

theorem ofRecord_record : Library.ofRecord record = .ok library :=
  show Library.ofRecord library.toRecord = .ok library from
    Library.ofRecord_of_checks (by decide) (by decide) (by decide) (by decide) (by decide)

theorem wires_netlist : netlist.wires = netlist.derivedWires := by decide

theorem exists_mapOnto : ∃ r, netlist.mapOnto library .areaOptimal = .ok r := by
  refine exists_ok_of_isOk ?_
  simp only [Netlist.mapOnto, Subject.ofNetlist_of_derived wires_netlist, Selection.extract,
    Selection.assemble_eq]
  decide

end AndNor

/-- The compound cell puts out what the two nodes do. -/
theorem mapOnto_correct_andNor :
    AndNor.netlist.Coherent ∧ Library.ofRecord AndNor.record = .ok AndNor.library ∧
      ∃ r, AndNor.netlist.mapOnto AndNor.library .areaOptimal = .ok r ∧
        r.netlist.validate = .ok () ∧
        ∃ e, Evaluator.ofNetlist r.netlist AndNor.library.functions = .ok e ∧
          e.evaluate ⟨[("a", 3), ("b", 1), ("c", 0)]⟩ = .ok [("y", 1)] := by
  have hlib := AndNor.ofRecord_record
  obtain ⟨r, hr⟩ := AndNor.exists_mapOnto
  obtain ⟨hfunction, hvalid, -⟩ := mapOnto_correct AndNor.coherent hlib hr
  refine ⟨AndNor.coherent, hlib, r, hr, hvalid, ?_⟩
  exact hfunction ⟨AndNor.netlist, [⟨0⟩, ⟨1⟩], AndNor.library.functions⟩ _ _ rfl (by decide)

end GateSynth
