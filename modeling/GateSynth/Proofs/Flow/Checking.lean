import GateSynth.Flow.Basic
import GateSynth.Proofs.Exchange.RoundTrip
import GateSynth.Proofs.Flow.Stages
import GateSynth.Proofs.Library.Generic
import GateSynth.Proofs.Verilog.Integrity

/-!
# A flow never fails its own check

Whatever is loaded is in order: the design, from source text or from a stored netlist
(`coherent_of_loadDesign`), and the library (`checked_of_loadLibrary`). With that every stage
implements the design, so the comparison of the design with the result of a stage finds no
difference (`Compilation.checkStage_isOk`), and the check of a whole run succeeds
(`Config.compileFile_passes_check`). It is complete if the design has few enough input bits and
every node of it has a function. Whether a node has one does not depend on the values of its fanins
(`Library.result_isSome`).
-/

namespace GateSynth

open Netlist

/-! ## What is loaded -/

theorem coherent_of_loadDesign {read : FileReader} {path : String} {top : Option String}
    {n : Netlist} (h : loadDesign read path top = .ok n) : n.Coherent := by
  obtain ⟨format, -, h⟩ := ok_of_bind h
  obtain ⟨text, -, h⟩ := ok_of_bind h
  cases format with
  | verilog => exact (Verilog.coherent_of_compile (ok_of_mapError h)).1
  | json =>
    obtain ⟨record, -, hrecord⟩ := Exchange.Codec.read_eq_ok (ok_of_mapError h)
    exact (Exchange.Record.consistent_of_toNetlist hrecord).toCoherent

theorem loadDesign_json {read : FileReader} {path text : String} {top : Option String}
    (hformat : DesignFormat.ofPath path = .ok .json) (hread : read path = .ok text) :
    loadDesign read path top = (Netlist.ofJson text).mapError .netlist := by
  rw [loadDesign, hformat, hread]
  rfl

theorem checked_of_loadLibrary {read : FileReader} {path : Option String} {lib : Library Float}
    (h : loadLibrary read path = .ok lib) : lib.Checked := by
  cases path with
  | none =>
    cases h
    exact Library.checked_generic
  | some path =>
    obtain ⟨text, -, h⟩ := ok_of_bind h
    rw [Library.ofJson] at h
    split at h
    · exact Library.checked_of_ofRecord h
    · cases h

/-! ## Nodes with a function -/

section
variable {t t' : Table String Word} {init : Option Word} {w : Width}

mutual

/-- Whether a pattern has a value only depends on which pins have one. -/
theorem Pattern.eval_isSome (hpins : ∀ pin, (t.find? pin).isSome → (t'.find? pin).isSome) :
    ∀ p : Pattern, (p.eval t init w).isSome → (p.eval t' init w).isSome
  | .pin name, h => by
    rw [eval] at h ⊢
    exact hpins name h
  | .const, _ => by
    rw [eval]
    rfl
  | .op operator args, h => by
    have hargs := Pattern.evals_isSome hpins args
    cases hevals : evals t init w args with
    | none =>
      rw [eval, hevals] at h
      cases h
    | some operands =>
      rw [hevals] at hargs
      obtain ⟨operands', hevals'⟩ := Option.isSome_iff_exists.1 (hargs rfl)
      rw [Occurrence.eval_op hevals']
      rfl
  | .module _ _, h => by
    rw [eval] at h
    cases h

theorem Pattern.evals_isSome (hpins : ∀ pin, (t.find? pin).isSome → (t'.find? pin).isSome) :
    ∀ ps : List Pattern, (evals t init w ps).isSome → (evals t' init w ps).isSome
  | [], _ => by
    rw [evals]
    rfl
  | p :: rest, h => by
    have hp := Pattern.eval_isSome hpins p
    have hrest := Pattern.evals_isSome hpins rest
    cases heval : p.eval t init w with
    | none =>
      rw [evals, heval] at h
      cases h
    | some value =>
      cases hevals : evals t init w rest with
      | none =>
        rw [evals, heval, hevals] at h
        cases h
      | some values =>
        rw [heval] at hp
        rw [hevals] at hrest
        obtain ⟨value', hvalue'⟩ := Option.isSome_iff_exists.1 (hp rfl)
        obtain ⟨values', hvalues'⟩ := Option.isSome_iff_exists.1 (hrest rfl)
        rw [evals, hvalue', hvalues']
        rfl

end

theorem Cell.eval_isSome {ν : Type} {cell : Cell ν} {operands operands' : List Word}
    (hlength : operands'.length = operands.length) (h : (cell.eval init operands w).isSome) :
    (cell.eval init operands' w).isSome := by
  rw [eval] at h ⊢
  split at h
  · next hinputs =>
    rw [if_pos (hlength.trans hinputs)]
    refine Pattern.eval_isSome (fun pin hpin => ?_) _ h
    rw [Table.find?_isSome_iff, Table.mem_keys_ofList] at hpin ⊢
    rw [List.map_fst_zip (by omega)] at hpin ⊢
    exact hpin
  · cases h

end

/-- No node of the netlist is one that cannot be evaluated: each has a value for some values of its
fanins. -/
def Netlist.Evaluable (n : Netlist) (cells : CellFunctions) : Prop :=
  ∀ node ∈ n.nodes, ∃ values x, Evaluator.nodeValue n cells values node = .ok x

/-- A node that has a value for some values of its fanins has one for all. -/
theorem Library.result_isSome {ν : Type} {lib : Library ν} {n : Netlist} {node : Node}
    {values : Values} {x : Word} (h : Evaluator.nodeValue n lib.functions values node = .ok x)
    (v : Valuation) : (v.result n lib.functions node).isSome = true := by
  rw [Evaluator.nodeValue_eq_ok_iff] at h
  obtain ⟨id, kind, fanins, output⟩ := node
  cases kind with
  | op operator => rfl
  | const value => rfl
  | module name => cases h
  | cell name init =>
    obtain ⟨y, hy, -⟩ := Option.map_eq_some_iff.1 h
    obtain ⟨cell, hcell, hy⟩ := Option.bind_eq_some_iff.1 hy
    have hlength : (fanins.map (v.seen n)).length =
        (fanins.map ((Valuation.ofValues values).seen n)).length := by simp
    simp only [Valuation.result, functions, hcell, Option.isSome_map, Option.bind_some]
    exact Cell.eval_isSome hlength (Option.isSome_of_eq_some hy)

/-- A netlist without such nodes can be evaluated, whatever values the inputs have. -/
theorem Netlist.Evaluable.evaluate_isOk {ν : Type} {lib : Library ν} {n : Netlist} {e : Evaluator}
    {given : Values} (h : n.Evaluable lib.functions) (hl : n.Legal) (hc : n.Coherent)
    (he : Evaluator.ofNetlist n lib.functions = .ok e)
    (hgiven : ∀ i ∈ n.inputs, (given.find? i).isSome = true) :
    ∃ outputs, e.evaluate given = .ok outputs := by
  obtain ⟨e', he', hsimulates⟩ := hl.simulate_isOk hc lib.functions fun node hnode v => by
    obtain ⟨values, x, hx⟩ := h node hnode
    exact Library.result_isSome hx v
  rw [he] at he'
  cases he'
  obtain ⟨s, hs⟩ := hsimulates given hgiven
  rw [Evaluator.evaluate, hs]
  exact ⟨_, rfl⟩

/-! ## Checking -/

namespace Compilation

variable {c : Compilation} {result : Netlist}

/-- The comparison of a design with a netlist that implements it succeeds, and is made if there are
few enough input bits and every node has a function. -/
theorem checkStage_isOk (hc : c.source.Coherent) (hl : c.source.Legal)
    (h : Implements c.library.functions c.source result) (stage : String) :
    ∃ done, c.checkStage stage result = .ok done ∧
      (total (c.source.inputs.map fun i => (c.source.width i).bits) ≤ checkLimit →
        c.source.Evaluable c.library.functions → done = true) := by
  obtain ⟨order, horder⟩ := hl.topoOrder hc
  obtain ⟨order', horder'⟩ := h.legal.topoOrder h.coherent
  have hreference : Evaluator.ofNetlist c.source c.library.functions =
      .ok ⟨c.source, order, c.library.functions⟩ := by rw [Evaluator.ofNetlist, horder]
  have hcandidate : Evaluator.ofNetlist result c.library.functions =
      .ok ⟨result, order', c.library.functions⟩ := by rw [Evaluator.ofNetlist, horder']
  simp only [checkStage, hreference, hcandidate]
  rcases h.checkEquivalence_cases hc hl hreference hcandidate checkLimit with
    hnone | ⟨hwide, herror⟩ | ⟨index, id, kind, heval, herror⟩
  · refine ⟨true, ?_, fun _ _ => rfl⟩
    simp only [Except.mapError, bind, Except.bind, hnone]
    rfl
  · refine ⟨false, ?_, fun hbits _ => ?_⟩
    · simp only [Except.mapError, bind, Except.bind, herror]
      rfl
    · rw [Evaluator.inputBits] at hwide
      simp only [checkLimit] at hwide hbits
      omega
  · refine ⟨false, ?_, fun _ hnodes => ?_⟩
    · simp only [Except.mapError, bind, Except.bind, herror]
      rfl
    · have hgiven : ∀ i ∈ c.source.inputs, ((Evaluator.assignment
          ⟨c.source, order, c.library.functions⟩ index).find? i).isSome = true :=
        fun i hi => (Evaluator.assignment_isSome _ index i).2 hi
      obtain ⟨outputs, houtputs⟩ := hnodes.evaluate_isOk hl hc hreference hgiven
      rw [heval] at houtputs
      cases houtputs

end Compilation

/-- Optimization as a configuration says leaves the design as it is, or the design is valid and what
comes of it implements it. -/
theorem Config.optimizeSource_implements {c : Config} {source optimized : Netlist}
    {report : Option OptReport} {cells : CellFunctions} (hc : source.Coherent)
    (h : c.optimizeSource source = .ok (optimized, report)) :
    optimized = source ∨ source.validate = .ok () ∧ Implements cells source optimized := by
  rw [optimizeSource] at h
  split at h
  · split at h
    · next heq =>
      cases h
      exact hc.optimize_implements heq
    · cases h
  · cases h
    exact .inl rfl

section
variable {c : Config} {read : FileReader} {input : String} {comp : Compilation}

/-- A run succeeds if and only if every stage does. -/
theorem Config.compileFile_eq_ok_iff : c.compileFile read input = .ok comp ↔
    loadLibrary read c.library = .ok comp.library ∧ loadDesign read input c.top = .ok comp.source ∧
      c.optimizeSource comp.source = .ok (comp.optimized, comp.report) ∧
      comp.optimized.mapOnto comp.library c.strategy = .ok comp.mapping := by
  constructor
  · intro h
    obtain ⟨library, hlibrary, h⟩ := ok_of_bind h
    obtain ⟨source, hsource, h⟩ := ok_of_bind h
    obtain ⟨⟨optimized, report⟩, hoptimized, h⟩ := ok_of_bind h
    obtain ⟨mapping, hmapping, h⟩ := ok_of_bind h
    cases h
    exact ⟨ok_of_mapError hlibrary, hsource, ok_of_mapError hoptimized,
      ok_of_mapError hmapping⟩
  · rintro ⟨hlibrary, hsource, hoptimized, hmapping⟩
    simp only [compileFile, hlibrary, hsource, hoptimized, hmapping, Except.mapError, bind,
      Except.bind, pure, Except.pure]

/-- In a run that succeeds the design is in order, and both stages implement it. -/
theorem Config.compileFile_implements (h : c.compileFile read input = .ok comp) :
    comp.source.Coherent ∧ comp.source.Legal ∧
      Implements comp.library.functions comp.source comp.optimized ∧
      Implements comp.library.functions comp.source comp.mapping.netlist := by
  obtain ⟨hlibrary, hsource, hoptimized, hmapping⟩ := compileFile_eq_ok_iff.1 h
  have hc := coherent_of_loadDesign hsource
  have hlib := checked_of_loadLibrary hlibrary
  -- a design that no pass has validated is validated by the mapping
  rcases optimizeSource_implements hc hoptimized with hsame | ⟨hv, hstage⟩
  · rw [hsame] at hmapping ⊢
    obtain ⟨hv, hcover⟩ := hc.mapOnto_implements hlib hmapping
    have hl := hc.legal_of_validate hv
    exact ⟨hc, hl, .refl hc hl, hcover⟩
  · obtain ⟨-, hcover⟩ := hstage.coherent.mapOnto_implements hlib hmapping
    exact ⟨hc, hc.legal_of_validate hv, hstage, hstage.trans hcover⟩

/-- The check of a run that succeeds does so as well: there is no difference and no other error. It
makes both comparisons if the design has no more than sixteen input bits and no node that cannot be
evaluated with the library. The bits are counted without a bound, as a sum in 32 bits is below
2 ^ 32. -/
theorem Config.compileFile_passes_check (h : c.compileFile read input = .ok comp) :
    ∃ done, comp.check = .ok done ∧
      (total (comp.source.inputs.map fun i => (comp.source.width i).bits) ≤ 16 →
        comp.source.Evaluable comp.library.functions → done = true) := by
  obtain ⟨hc, hl, hstage, hcover⟩ := compileFile_implements h
  obtain ⟨done, hcheck, hdone⟩ := Compilation.checkStage_isOk hc hl hstage "optimization"
  obtain ⟨done', hcheck', hdone'⟩ := Compilation.checkStage_isOk hc hl hcover "mapping"
  refine ⟨done && done', ?_, fun hbits hnodes => ?_⟩
  · rw [Compilation.check, hcheck]
    dsimp only [bind, Except.bind]
    rw [hcheck']
    rfl
  · rw [hdone hbits hnodes, hdone' hbits hnodes]
    rfl

end

namespace Inverters

/-- Two inverters, one of which nothing reads. -/
def source : Netlist where
  name := "inv"
  inputs := ["a"]
  outputs := ["y"]
  widths := ⟨["a", "y", "t"].map (·, .one)⟩
  arena := [some ⟨⟨0⟩, .op .not, [.plain "a"], "t"⟩, some ⟨⟨1⟩, .op .not, [.plain "a"], "y"⟩]
  wires := [⟨"a", ⟨0⟩, 0⟩, ⟨"a", ⟨1⟩, 0⟩]
  nextFresh := 0

/-- One inverter is left. -/
def optimized : Netlist where
  name := "inv"
  inputs := ["a"]
  outputs := ["y"]
  widths := ⟨["a", "y"].map (·, .one)⟩
  arena := [none, some ⟨⟨1⟩, .op .not, [.plain "a"], "y"⟩]
  wires := [⟨"a", ⟨1⟩, 0⟩]
  nextFresh := 0

/-- There is one file, with the stored netlist. -/
def read : FileReader := fun path =>
  if path = "inv.json" then .ok source.toJson else .error "no such file"

theorem coherent : source.Coherent := by
  refine ⟨fun {i node} h => ?_, by decide, by decide, by decide⟩
  match i, h with
  | 0, h | 1, h =>
    cases h
    rfl

theorem loadDesign_read (top : Option String) : loadDesign read "inv.json" top = .ok source := by
  have hfits : source.Fits := by
    have hall : ∀ node ∈ source.nodes, node.id.index < 2 ∧ node.fanins.length < 2 := by decide
    intro node hnode
    obtain ⟨hid, hfanins⟩ := hall node hnode
    exact ⟨hid.trans (by decide), hfanins.le.trans (by decide)⟩
  have hrecord : (Exchange.Record.ofNetlist source).toNetlist = .ok source := by cbv
  have hformat : DesignFormat.ofPath "inv.json" = .ok .json := by decide
  have hread : read "inv.json" = .ok source.toJson := if_pos rfl
  have hload : Netlist.ofJson source.toJson = .ok source :=
    (Exchange.Codec.json_faithful.read_eq coherent hfits).trans hrecord
  rw [loadDesign_json hformat hread, hload]
  rfl

end Inverters

/-- The inverters are merged and mapped onto a cell, and the check is complete. -/
theorem compileFile_passes_check_inverters :
    ∃ comp, Config.default.compileFile Inverters.read "inv.json" = .ok comp ∧
      comp.source.nodeCount = 2 ∧ comp.optimized.nodeCount = 1 ∧ comp.check = .ok true := by
  have hoptimized : (Inverters.source.optimize OptSettings.default).1 = Inverters.optimized := by
    cbv
  obtain ⟨report, hreport⟩ := exists_ok_of_isOk
    (show (Inverters.source.optimize OptSettings.default).2.isOk = true by cbv)
  obtain ⟨mapping, hmapping⟩ := exists_ok_of_isOk
    (show (Inverters.optimized.mapOnto Library.generic .areaOptimal).isOk = true by decide +kernel)
  have hstage : Config.default.optimizeSource Inverters.source =
      .ok (Inverters.optimized, some report) := by
    have hrun : Inverters.source.optimize OptSettings.default = (Inverters.optimized, .ok report) :=
      Prod.ext hoptimized hreport
    simp only [Config.optimizeSource, Config.default, if_pos, hrun]
  have hcompile : Config.default.compileFile Inverters.read "inv.json" =
      .ok ⟨Inverters.source, Inverters.optimized, some report, Library.generic, mapping⟩ :=
    Config.compileFile_eq_ok_iff.2 ⟨rfl, Inverters.loadDesign_read _, hstage, hmapping⟩
  have hbits : total (Inverters.source.inputs.map fun i => (Inverters.source.width i).bits) ≤ 16 :=
    by decide
  have hnodes : ∀ node ∈ Inverters.source.nodes, (Evaluator.nodeValue Inverters.source
      Library.generic.functions .empty node).isOk = true := by decide
  obtain ⟨done, hcheck, hdone⟩ := Config.compileFile_passes_check hcompile
  rw [hdone hbits fun node hnode => ⟨.empty, exists_ok_of_isOk (hnodes node hnode)⟩] at hcheck
  exact ⟨_, hcompile, rfl, rfl, hcheck⟩

end GateSynth
