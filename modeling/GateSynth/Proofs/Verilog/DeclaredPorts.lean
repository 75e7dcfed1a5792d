import GateSynth.Proofs.Verilog.Connections
import GateSynth.Proofs.Verilog.LineIndex
import GateSynth.Proofs.Verilog.ModuleTexts

/-!
# What elaboration relies on

A port may be listed first and declared later, under its own declaration or over that of a wire, so
it is only at the end of a module that every port has a direction. Together with what every item
keeps (`Module.Parsed`) this makes the ports exactly the declarations with a direction, and with the
names of a file told apart, a look-up by name has one answer (`parse_regular`).
-/

namespace GateSynth.Verilog

/-- What elaboration relies on: besides what every item of a module keeps, the ports are the
declarations with a direction, and the declared widths are in range. The size of a literal is left
to elaboration. -/
structure Module.Regular (m : Module) : Prop extends m.Parsed where
  declared : ∀ port ∈ m.ports, ∃ d ∈ m.decls, d.name = port
  directed_iff : ∀ d ∈ m.decls, d.direction.isSome = true ↔ d.name ∈ m.ports
  width_range : ∀ d ∈ m.decls, 1 ≤ d.width.bits ∧ d.width.bits ≤ 64

variable {m : Module}

theorem Outline.Complete.directed (h : m.outline.Complete) {port : String}
    (hport : port ∈ m.ports) :
    ∃ d, m.decl? port = some d ∧ d.direction.isSome = true := by
  have hsome := h port hport
  rw [show m.outline.decl? port = (m.decl? port).map Decl.unplaced from rfl] at hsome
  cases hd : m.decl? port with
  | none => simp [hd] at hsome
  | some d => exact ⟨d, rfl, by simpa [hd, Decl.unplaced] using hsome⟩

theorem Module.Parsed.regular (hm : m.Parsed) (hcomplete : m.outline.Complete) : m.Regular where
  toParsed := hm
  declared port hport := by
    obtain ⟨d, hd, -⟩ := hcomplete.directed hport
    exact ⟨d, List.mem_of_find?_eq_some hd, by simpa using List.find?_some hd⟩
  directed_iff d hd := by
    refine ⟨hm.directed d hd, fun hport => ?_⟩
    obtain ⟨e, he, hdirection⟩ := hcomplete.directed hport
    cases he.symm.trans (Elaborate.decl?_of_mem hm.toWellFormed hd)
    exact hdirection
  width_range d _ := ⟨d.width.pos, d.width.le⟩

namespace Parser

variable {before ms : List Module} {c c' : Cursor}

/-- Every module that is read has a new name and gives its ports directions. -/
theorem modules_complete {count : Nat} (h : (modules count before).run c = .ok (ms, c'))
    (hnames : (before.map Module.name).Nodup) (hcomplete : ∀ m ∈ before, m.outline.Complete) :
    (ms.map Module.name).Nodup ∧ ∀ m ∈ ms, m.outline.Complete := by
  induction count generalizing before c with
  | zero =>
    cases run_pure_iff.1 h
    exact ⟨hnames, hcomplete⟩
  | succ count ih =>
    cases hpeek : c.peek? with
    | none =>
      rw [modules, run_peek_bind, hpeek] at h
      cases run_pure_iff.1 h
      exact ⟨hnames, hcomplete⟩
    | some t =>
      obtain ⟨m, d, hm, hfresh, hrest⟩ := (run_modules_succ_iff hpeek).1 h
      refine ih hrest ?_ fun other hother => ?_
      · rw [List.map_append, List.map_singleton]
        exact List.nodup_append.2 ⟨hnames, List.pairwise_singleton _ _, by
          rintro a ha b hb rfl
          exact hfresh (List.mem_singleton.1 hb ▸ ha)⟩
      · rcases List.mem_append.1 hother with hother | hother
        · exact hcomplete other hother
        · obtain ⟨-, _, _, -, hrun⟩ := run_module_iff.1 hm
          exact List.mem_singleton.1 hother ▸ (run_moduleRest_iff.1 hrun).2.2

end Parser

/-- Every parsed file is in order for elaboration: the names of its modules are distinct, and so are
the declarations and the ports of each module; just the ports have a direction, widths are in range,
and selections go from the higher bit to the lower one. -/
theorem parse_regular {source : String} {file : SourceFile} (h : parse source = .ok file) :
    (file.modules.map Module.name).Nodup ∧ ∀ m ∈ file.modules, m.Regular := by
  have hparsed := parse_parsed h
  obtain ⟨tokens, -, h⟩ := ok_of_bind h
  obtain ⟨⟨ms, c'⟩, hrun, ⟨⟩⟩ := ok_of_bind h
  obtain ⟨hnames, hcomplete⟩ := Parser.modules_complete hrun .nil (List.forall_mem_nil _)
  exact ⟨hnames, fun m hm => (hparsed m hm).regular (hcomplete m hm)⟩

namespace LatePorts

/-- Ports listed before they are declared, one of them over a wire, behind another module. -/
def text : String :=
  "module k; endmodule module m(x, y); wire y; output [1:0] y; input x; assign y = x[0]; endmodule"

end LatePorts

set_option synthInstance.maxSize 256 in
/-- What is listed first and declared later is in order in the end. -/
theorem parse_regular_latePorts :
    ∃ file, parse LatePorts.text = .ok file ∧
      (file.modules.map fun m =>
          (m.name, m.decls.map fun d => (d.name, d.direction, d.width.bits))) =
        [("k", []), ("m", [("y", some .output, 2), ("x", some .input, 1)])] ∧
      (file.modules.map Module.name).Nodup ∧ ∀ m ∈ file.modules, m.Regular := by
  have hparse : (parse LatePorts.text).toOption.map (fun file => file.modules.map fun m =>
        (m.name, m.decls.map fun d => (d.name, d.direction, d.width.bits))) =
      some [("k", []), ("m", [("y", some .output, 2), ("x", some .input, 1)])] := by
    unfold LatePorts.text
    rw [parse, tokenize_ofList]
    decide +kernel
  obtain ⟨file, hfile, hdecls⟩ := Option.map_eq_some_iff.1 hparse
  have hfile := ok_of_toOption hfile
  exact ⟨file, hfile, hdecls, parse_regular hfile⟩

end GateSynth.Verilog
