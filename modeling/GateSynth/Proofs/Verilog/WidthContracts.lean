import GateSynth.Proofs.Verilog.Elaboration
import GateSynth.Proofs.Verilog.LongConcatenations
import GateSynth.Proofs.Verilog.WidthRanges

/-!
# Width contracts

Whatever a source text says, elaborating it stays in the range of widths, with two exceptions: the
truth of a value of 64 bits takes 65, and the widths of a concatenation are added up in 32 bits before
their sum is checked. What `Hinges` says of expressions goes through statements, instances and modules
(`Hinges.moduleBody`), so a text that leaves the range has such a test or such a sum in a module that
is elaborated, and a text that has a netlist has neither (`compile_hinges`).
-/

namespace GateSynth.Verilog

namespace Elaborate

section
variable {scope : Scope} {site : Site} {P : Prop}

namespace Hinges

/-! ## Statements -/

theorem assign {a : Assign} (h : a.expr.Ordered) :
    Hinges (a.expr.Strains scope.bits) (assign scope a) :=
  lift_bind Scope.dest_ne_beyondWord fun _ _ => lift_bind Scope.width_ne_beyondWord fun _ _ =>
    selfWidth_bind h id fun _ _ =>
      (lower scope _ a.expr h _ _).after fun _ => drive _ _ _ _

theorem lowerList {exprs : List Expr} (h : ∀ e ∈ exprs, e.Ordered) (w : Width) :
    Hinges (∃ e ∈ exprs, e.Strains scope.bits) (Elaborate.lowerAll scope site w exprs) := by
  induction exprs with
  | nil => exact (pure _).congr (by simp)
  | cons e rest ih =>
    rw [List.forall_mem_cons] at h
    exact ((lower scope site e h.1 w none).bind fun _ => (ih h.2).after fun _ => pure _).congr
      (by simp)

theorem lowerEach {exprs : List Expr} (h : ∀ e ∈ exprs, e.Ordered) :
    Hinges (∃ e ∈ exprs, e.Strains scope.bits) (Elaborate.lowerEach scope site exprs) := by
  induction exprs with
  | nil => exact (pure _).congr (by simp)
  | cons e rest ih =>
    rw [List.forall_mem_cons] at h
    refine Hinges.congr (P := e.Strains scope.bits ∨ ∃ e ∈ rest, e.Strains scope.bits) ?_ (by simp)
    exact selfWidth_bind h.1 .inl fun w _ => (lower scope site e h.1 w none).bind fun _ =>
      (ih h.2).after fun _ => pure _

theorem joinInputs (site : Site) (gate : Gate) (w : Width) (d : String) (joined : Fanin)
    (values : List Fanin) : Hinges False (joinInputs site gate w d joined values) := by
  fun_induction Elaborate.joinInputs site gate w d joined values with
  | case1 joined => exact pure _
  | case2 joined last => exact (invert _ _ _ none).before fun _ => emit _ _ _ _ _
  | case3 joined last => exact (pure _).before fun _ => emit _ _ _ _ _
  | case4 joined value rest _ ih => exact (emit _ _ _ _ none).before fun joined => ih joined

theorem gateOutput (site : Site) (i : Instance) (gate : Gate) (w : Width) (d : String)
    (values : List Fanin) : Hinges False (gateOutput site i gate w d values) := by
  unfold Elaborate.gateOutput
  split
  · split
    · exact emit _ _ _ _ _
    · exact throw nofun
  · split
    · exact joinInputs _ _ _ _ _ _
    · exact throw nofun

end Hinges

variable {file : SourceFile} {i : Instance}

theorem positional_ne_beyondWord : positional i ≠ .error .beyondWord := by
  intro h
  rw [positional] at h
  split at h <;> cases h

theorem exprs_of_positional {exprs : List Expr} (h : positional i = .ok exprs) :
    i.connections.exprs = exprs := by
  rw [positional] at h
  split at h
  · next heq =>
    cases h
    rw [heq]
    rfl
  · cases h

/-- A terminal that is an identifier strains nothing. -/
theorem exists_strains_terminals {name : String} {pos : Position} {inputs : List Expr}
    (h : i.connections.exprs = .ident name pos :: inputs) {bits : String → Nat} :
    (∃ e ∈ inputs, e.Strains bits) ↔ ∃ e ∈ i.connections.exprs, e.Strains bits := by
  have hident : ¬ (Expr.ident name pos).Strains bits := Expr.not_strains_of_nil rfl rfl
  rw [h]
  simp [hident]

namespace Hinges

theorem gateInstance {gate : Gate} (h : ∀ e ∈ i.connections.exprs, e.Ordered) :
    Hinges (∃ e ∈ i.connections.exprs, e.Strains scope.bits)
      (gateInstance scope site i gate) := by
  refine lift_bind positional_ne_beyondWord fun terminals hterminals => ?_
  have hexprs := exprs_of_positional hterminals
  split
  · next name pos inputs =>
    rw [hexprs, List.forall_mem_cons] at h
    refine Hinges.congr ?_ (exists_strains_terminals hexprs)
    exact lift_bind Scope.dest_ne_beyondWord fun d _ => lift_bind Scope.width_ne_beyondWord
      fun w _ => (lowerList h.2 w).after fun values => (gateOutput _ _ _ _ _ _).before fun value =>
        drive _ _ _ _
  · exact throw nofun

theorem blackBox (h : ∀ e ∈ i.connections.exprs, e.Ordered) :
    Hinges (∃ e ∈ i.connections.exprs, e.Strains scope.bits) (blackBox scope site i) := by
  refine lift_bind positional_ne_beyondWord fun terminals hterminals => ?_
  have hexprs := exprs_of_positional hterminals
  split
  · next name pos inputs =>
    rw [hexprs, List.forall_mem_cons] at h
    refine Hinges.congr ?_ (exists_strains_terminals hexprs)
    exact lift_bind Scope.dest_ne_beyondWord fun d _ => lift_bind Scope.width_ne_beyondWord
      fun w _ => (lowerEach h.2).after fun values => (emit _ _ _ _ _).before fun value =>
        drive _ _ _ _
  · exact throw nofun

end Hinges

/-! ## Instances -/

section
variable {child : Module} {path : String} {connected : List (String × Option Expr)}

theorem namedPorts_ne_beyondWord {ports before : List (String × Option Expr)} :
    namedPorts i child ports before ≠ .error .beyondWord := by
  intro h
  induction ports generalizing before with
  | nil => cases h
  | cons p rest ih =>
    obtain ⟨port, expr⟩ := p
    rw [namedPorts] at h
    split at h
    · cases h
    · split at h
      · cases h
      · exact ih h

theorem connectionError_ne_beyondWord (detail : String) :
    connectionError i detail ≠ .beyondWord := by
  intro h
  cases h

theorem connectedPorts_ne_beyondWord : connectedPorts i child ≠ .error .beyondWord := by
  rw [connectedPorts]
  split
  · split
    · exact fun h => connectionError_ne_beyondWord _ (Except.error.inj h)
    · intro h
      cases h
  · exact namedPorts_ne_beyondWord

theorem eq_append_of_namedPorts {ports before : List (String × Option Expr)}
    (h : namedPorts i child ports before = .ok connected) : connected = before ++ ports := by
  induction ports generalizing before with
  | nil =>
    cases h
    rw [List.append_nil]
  | cons p rest ih =>
    obtain ⟨port, expr⟩ := p
    rw [namedPorts] at h
    split at h
    · cases h
    · split at h
      · cases h
      · rw [ih h, List.append_assoc]
        rfl

theorem mem_exprs_of_findEntry (h : connectedPorts i child = .ok connected) {port : String}
    {e : Expr} (he : (Table.findEntry port connected).join = some e) :
    e ∈ i.connections.exprs := by
  have hmem : (port, some e) ∈ connected :=
    Table.mem_entries_of_find? (t := ⟨connected⟩) (Option.join_eq_some_iff.1 he)
  rw [connectedPorts] at h
  split at h
  · next exprs heq =>
    split at h
    · cases h
    · cases h
      obtain ⟨e', he', heq'⟩ := List.mem_map.1 (List.of_mem_zip hmem).2
      cases heq'
      rw [heq]
      exact he'
  · next ports heq =>
    rw [eq_append_of_namedPorts h, List.nil_append] at hmem
    rw [heq]
    exact List.mem_filterMap.2 ⟨_, hmem, rfl⟩

/-- What is computed for an instance of a module of the file is connected to its inputs. -/
theorem exists_strains_operands (hgate : Gate.ofName? i.module = none)
    (hchild : file.module? i.module = some child) (h : connectedPorts i child = .ok connected)
    {bits : String → Nat} : (∃ e ∈ file.operands i, e.Strains bits) ↔
      ∃ port ∈ child.portDecls, port.direction = some .input ∧
        ∃ e, (Table.findEntry port.name connected).join = some e ∧ e.Strains bits := by
  simp only [SourceFile.operands, hgate, hchild, h, List.mem_filterMap, List.mem_filter,
    decide_eq_true_eq]
  constructor
  · rintro ⟨e, ⟨port, ⟨hport, hdirection⟩, he⟩, hstrains⟩
    exact ⟨port, hport, hdirection, e, he, hstrains⟩
  · rintro ⟨port, hport, hdirection, e, he, hstrains⟩
    exact ⟨e, ⟨port, ⟨hport, hdirection⟩, he⟩, hstrains⟩

namespace Hinges

theorem connectPort {port : Decl}
    (h : ∀ e, (Table.findEntry port.name connected).join = some e → e.Ordered) (wiring : Wiring) :
    Hinges (port.direction = some .input ∧
        ∃ e, (Table.findEntry port.name connected).join = some e ∧ e.Strains scope.bits)
      (connectPort scope site i path connected wiring port) := by
  unfold Elaborate.connectPort
  dsimp only
  split
  · next e hdirection he =>
    have hcondition : e.Strains scope.bits ↔ port.direction = some .input ∧
        ∃ e, (Table.findEntry port.name connected).join = some e ∧ e.Strains scope.bits := by
      simp [hdirection, he]
    refine (selfWidth_bind (h e he) id fun own _ => (lower scope site e (h e he) _ none).after
      fun value => get.before fun n => ?_).congr hcondition
    split
    · exact (pure _).before fun _ => pure _
    · exact (emit _ _ _ _ _).before fun _ => pure _
  · exact throw (connectionError_ne_beyondWord _)
  · next hexpr hdirection =>
    refine (lift_bind Scope.dest_ne_beyondWord fun outer _ => get.before fun n => ?_).congr
      (iff_of_false id fun hin => hdirection hin.1)
    split <;> exact pure _
  · exact throw (connectionError_ne_beyondWord _)
  · next hexpr hdirection =>
    exact (pure _).congr (iff_of_false id fun hin => hdirection hin.1)

theorem connectPorts {ports : List Decl}
    (h : ∀ port ∈ ports, ∀ e, (Table.findEntry port.name connected).join = some e → e.Ordered)
    (wiring : Wiring) :
    Hinges (∃ port ∈ ports, port.direction = some .input ∧
        ∃ e, (Table.findEntry port.name connected).join = some e ∧ e.Strains scope.bits)
      (connectPorts scope site i path connected ports wiring) := by
  induction ports generalizing wiring with
  | nil => exact (pure _).congr (by simp)
  | cons port rest ih =>
    rw [List.forall_mem_cons] at h
    exact ((connectPort h.1 wiring).bind fun wiring => ih h.2 wiring).congr (by simp)

theorem declareOwn (path : String) (bindings : Table String Binding) (decls : List Decl) :
    Hinges False (declareOwn path bindings decls) := by
  induction decls with
  | nil => exact pure _
  | cons d rest ih =>
    have hmodify : Hinges False (modify fun n => n.setWidth (path ++ d.name) d.width) := fun _ => id
    rw [Elaborate.declareOwn]
    dsimp only
    split
    · exact ih
    · exact hmodify.before fun _ => ih

theorem driveOuter (site : Site) (buffers : List (String × String)) :
    Hinges False (driveOuter site buffers) := by
  induction buffers with
  | nil => exact pure _
  | cons b rest ih => exact get.before fun n => (drive _ _ _ _).before fun _ => ih

/-- Inlining an instance hinges on what it is connected to and on the statements inside. -/
theorem inline {body : Scope → Build Unit} (hgate : Gate.ofName? i.module = none)
    (hchild : file.module? i.module = some child) (h : ∀ e ∈ i.connections.exprs, e.Ordered)
    (hbody : ∀ scope : Scope, scope.module = child → Hinges P (body scope)) :
    Hinges ((∃ e ∈ file.operands i, e.Strains scope.bits) ∨ P)
      (inline body scope site i child) := by
  unfold Elaborate.inline
  split
  · exact throw nofun
  · refine lift_bind connectedPorts_ne_beyondWord fun connected hconnected => ?_
    rw [exists_strains_operands hgate hchild hconnected]
    exact (connectPorts (fun port _ e he => h e (mem_exprs_of_findEntry hconnected he)) _).bind
      fun wiring => (declareOwn _ _ _).before fun _ => (hbody _ rfl).after fun _ => driveOuter _ _

/-- What an instance hinges on. -/
theorem instantiate {body : List String → Scope → Build Unit} {stack : List String}
    (h : ∀ e ∈ i.connections.exprs, e.Ordered)
    (hbody : ∀ stack, ∀ scope : Scope, scope.module ∈ file.modules →
      Hinges (file.Computes scope.module Expr.Strains) (body stack scope)) :
    Hinges ((∃ e ∈ file.operands i, e.Strains scope.bits) ∨
        ∃ child, Gate.ofName? i.module = none ∧ file.module? i.module = some child ∧
          file.Computes child Expr.Strains)
      (instantiate file body stack scope i) := by
  unfold Elaborate.instantiate
  dsimp only
  split
  · next gate hgate =>
    refine (gateInstance h).congr ?_
    simp [SourceFile.operands, hgate]
  · next hgate hchild =>
    refine (blackBox h).congr ?_
    simp [SourceFile.operands, hgate, hchild]
  · next child hgate hchild =>
    split
    · exact throw nofun
    · refine (inline (P := file.Computes child Expr.Strains) hgate hchild h fun scope hscope => ?_).congr ?_
      · have hmem : scope.module ∈ file.modules := hscope ▸ List.mem_of_find?_eq_some hchild
        exact hscope ▸ hbody _ scope hmem
      · simp [hgate, hchild]

/-- By induction on the depth: the statements of a scope hinge on the tests of its module and of the
modules of its instances. -/
theorem moduleBody (hfile : ∀ m ∈ file.modules, m.Parsed) (depth : Nat) (stack : List String)
    (scope : Scope) (hmem : scope.module ∈ file.modules) :
    Hinges (file.Computes scope.module Expr.Strains) (moduleBody file depth stack scope) := by
  induction depth generalizing stack scope with
  | zero => exact throw nofun
  | succ depth ih =>
    have hparsed := hfile _ hmem
    rw [SourceFile.computes_iff]
    exact (forM fun a ha => assign (hparsed.ordered_assign a ha)).bind fun _ =>
      forM fun i hi => instantiate (hparsed.ordered_instance i hi) ih

end Hinges

end

end

end Elaborate

/-! ## Source texts -/

open Elaborate

theorem SourceFile.top_ne_beyondWord {file : SourceFile} {top : Option String} :
    file.top top ≠ .error .beyondWord := by
  unfold SourceFile.top
  split
  · nofun
  · split <;> nofun
  · dsimp only
    split <;> nofun

theorem mapError_netlist_ne_beyondWord {α : Type} {x : Except NetlistError α} :
    x.mapError SourceError.netlist ≠ .error .beyondWord := by
  cases x <;> nofun

/-- Elaboration leaves the range of widths only over a truth test of a value that fills a word, or
over a concatenation whose widths do not add up in 32 bits, in a module that is elaborated, and no
file with one of them has a netlist. -/
theorem elaborate_hinges {file : SourceFile} {top : Option String}
    (hfile : ∀ m ∈ file.modules, m.Parsed) :
    (elaborate file top = .error .beyondWord → ∃ m, file.top top = .ok m ∧
      (file.TestsWord m ∨ file.SumsBeyond m)) ∧
    ∀ n, elaborate file top = .ok n → ∃ m, file.top top = .ok m ∧
      ¬ (file.TestsWord m ∨ file.SumsBeyond m) := by
  have hbody : ∀ m, file.top top = .ok m → Hinges (file.TestsWord m ∨ file.SumsBeyond m)
      (moduleBody file file.modules.length [m.name] (topScope m)) := fun m hm =>
    (Hinges.moduleBody hfile _ [m.name] (topScope m) (mem_of_top hm)).congr
      SourceFile.computes_strains
  constructor
  · intro h
    obtain h | ⟨m, hm, h⟩ := error_of_bind h
    · exact absurd h SourceFile.top_ne_beyondWord
    obtain h | ⟨n₀, -, h⟩ := error_of_bind h
    · exact absurd h mapError_netlist_ne_beyondWord
    obtain h | ⟨⟨_, n₁⟩, -, h⟩ := error_of_bind h
    · have hstrains := hbody m hm n₀
      rw [show (moduleBody file file.modules.length [m.name] (topScope m)).run n₀ =
        .error .beyondWord from h] at hstrains
      exact ⟨m, hm, hstrains rfl⟩
    obtain h | ⟨_, -, h⟩ := error_of_bind h
    · exact absurd h mapError_netlist_ne_beyondWord
    · cases h
  · intro n h
    obtain ⟨m, n₀, n₁, hm, -, hrun, -, -⟩ := elaborate_eq_ok h
    have hstrains := hbody m hm n₀
    rw [hrun] at hstrains
    exact ⟨m, hm, hstrains⟩

/-- Compiling a source text leaves the range of widths only if a module that is elaborated asks for
the truth of a value that fills a word, or has a concatenation whose widths do not add up in 32 bits,
and no text with such a module has a netlist. -/
theorem compile_hinges (source : String) (top : Option String) :
    (compile source top = .error .beyondWord → ∃ file m, parse source = .ok file ∧
      file.top top = .ok m ∧ (file.TestsWord m ∨ file.SumsBeyond m)) ∧
    ∀ n, compile source top = .ok n → ∃ file m, parse source = .ok file ∧
      file.top top = .ok m ∧ ¬ (file.TestsWord m ∨ file.SumsBeyond m) := by
  constructor
  · intro h
    obtain h | ⟨file, hfile, h⟩ := error_of_bind h
    · exact absurd h (parse_ne_beyondWord source)
    · obtain ⟨m, hm, hstrains⟩ := (elaborate_hinges (parse_parsed hfile)).1 h
      exact ⟨file, m, hfile, hm, hstrains⟩
  · intro n h
    obtain ⟨file, hfile, h⟩ := ok_of_bind h
    obtain ⟨m, hm, hstrains⟩ := (elaborate_hinges (parse_parsed hfile)).2 n h
    exact ⟨file, m, hfile, hm, hstrains⟩

/-- A sum of widths alone: a concatenation of 2 ^ 26 + 1 literals of 64 bits and no truth test. -/
theorem compile_longConcatenation : ∃ file m,
    parse (LongConcatenation.source (2 ^ 26)) = .ok file ∧ file.top none = .ok m ∧
      ¬ file.TestsWord m ∧
      compile (LongConcatenation.source (2 ^ 26)) none = .error .beyondWord :=
  ⟨_, _, LongConcatenation.parse_source _, LongConcatenation.top_module _,
    LongConcatenation.not_testsWord _, LongConcatenation.compile_source (by decide)⟩

/-- The truth of 64 bits takes 65. -/
example : compile "module t(input [63:0] a, output y); assign y = !a; endmodule" none =
    .error .beyondWord := by decide +kernel

end GateSynth.Verilog
