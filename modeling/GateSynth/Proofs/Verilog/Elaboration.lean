import GateSynth.Proofs.Netlist.Legality
import GateSynth.Proofs.Verilog.Flattening
import GateSynth.Proofs.Verilog.LineIndex

/-!
# Elaboration is correct

The netlist of a file satisfies what the file says. For a top module without instances this is that
every assignment holds in what simulation computes (`elaborate_assigns`), and for a hierarchy that
every instance that is inlined has its ports connected and its assignments obeyed
(`elaborate_inlines`). Simulation of such a netlist never fails once all inputs are given. The file
of a hierarchy is one that has been parsed: a slash in a name would let two instances share a signal
(`elaborate_inlines_needs_guards`).
-/

namespace GateSynth.Verilog

namespace Elaborate

open Netlist

/-! ## The netlist before its statements -/

/-- A netlist without nodes whose names are of the module; some have their widths. -/
structure Declared (m : Module) (n : Netlist) (done : Decl → Prop) : Prop where
  coherent : n.Coherent
  nodes : n.nodes = []
  names : ∀ s, n.isTaken s = true → ∃ d ∈ m.decls, d.name = s
  declared : ∀ d ∈ m.decls, done d → n.isTaken d.name = true ∧ n.width d.name = d.width

namespace Declared

variable {m : Module} {n n' : Netlist} {done : Decl → Prop} {d : Decl}

theorem mono {done' : Decl → Prop} (h : Declared m n done)
    (hdone : ∀ d ∈ m.decls, done' d → done d) : Declared m n done' :=
  { h with declared := fun d hd hd' => h.declared d hd (hdone d hd hd') }

theorem step (h : Declared m n done) (hm : m.WellFormed) (hd : d ∈ m.decls)
    (hcoherent : n'.Coherent) (hnodes : n'.nodes = n.nodes)
    (htaken : ∀ s, n'.isTaken s = true ↔ s = d.name ∨ n.isTaken s = true)
    (hwidth : ∀ s, n'.width s = if s = d.name then d.width else n.width s) :
    Declared m n' fun e => done e ∨ e = d := by
  refine ⟨hcoherent, hnodes.trans h.nodes, fun s hs => ?_, fun e he hdone => ?_⟩
  · rcases (htaken s).1 hs with rfl | hs
    · exact ⟨d, hd, rfl⟩
    · exact h.names s hs
  · by_cases heq : e.name = d.name
    · obtain rfl := List.inj_on_of_nodup_map hm.decls_nodup he hd heq
      exact ⟨(htaken _).2 (.inl rfl), by rw [hwidth, if_pos rfl]⟩
    · obtain ⟨he', hw⟩ := h.declared e he (hdone.resolve_right fun h => heq (congrArg Decl.name h))
      exact ⟨(htaken _).2 (.inr he'), by rw [hwidth, if_neg heq, hw]⟩

theorem wires {wires : List Decl} (h : Declared m n done) (hm : m.WellFormed)
    (hwires : ∀ d ∈ wires, d ∈ m.decls) :
    Declared m (wires.foldl (fun n d => n.setWidth d.name d.width) n)
      fun d => done d ∨ d ∈ wires := by
  induction wires generalizing n done with
  | nil => exact h.mono fun d _ hd => hd.resolve_right (List.not_mem_nil)
  | cons d rest ih =>
    obtain ⟨hd, hrest⟩ := List.forall_mem_cons.1 hwires
    have hstep := h.step hm hd (h.coherent.setWidth d.name d.width) rfl
      (fun s => isTaken_setWidth n d.width) fun s => width_setWidth n d.name s d.width
    exact (ih hstep hrest).mono fun e _ he => by rwa [List.mem_cons, ← or_assoc] at he

theorem ports {ports : List Decl} (h : Declared m n done) (hm : m.WellFormed)
    (hports : ∀ d ∈ ports, d ∈ m.decls) (hrun : declarePorts ports n = .ok n') :
    Declared m n' fun d => done d ∨ d ∈ ports ∧ d.direction.isSome = true := by
  induction ports generalizing n done with
  | nil =>
    cases hrun
    exact h.mono fun d _ hd => hd.resolve_right fun hd => List.not_mem_nil hd.1
  | cons d rest ih =>
    obtain ⟨hd, hrest⟩ := List.forall_mem_cons.1 hports
    rw [declarePorts] at hrun
    have hport : ∀ {k : Netlist}, declarePorts rest k = .ok n' →
        Declared m k (fun e => done e ∨ e = d) →
        Declared m n' fun e => done e ∨ e ∈ d :: rest ∧ e.direction.isSome = true := by
      intro k hk hstep
      refine (ih hstep hrest hk).mono fun e _ he => ?_
      rw [List.mem_cons] at he
      tauto
    dsimp only at hrun
    split at hrun
    · obtain ⟨k, hk, hrun⟩ := ok_of_bind hrun
      refine hport hrun (h.step hm hd (h.coherent.addInput hk) ?_ (isTaken_addInput hk) ?_)
      · obtain ⟨-, w, -, rfl⟩ := addInput_eq_ok hk
        rfl
      · obtain ⟨-, w, hw, rfl⟩ := addInput_eq_ok hk
        rw [← Width.ext hw]
        exact fun s => width_setWidth n d.name s w
    · obtain ⟨k, hk, hrun⟩ := ok_of_bind hrun
      refine hport hrun (h.step hm hd (h.coherent.addOutput hk) ?_ (isTaken_addOutput hk) ?_)
      · obtain ⟨-, w, -, rfl⟩ := addOutput_eq_ok hk
        rfl
      · obtain ⟨-, w, hw, rfl⟩ := addOutput_eq_ok hk
        rw [← Width.ext hw]
        exact fun s => width_setWidth n d.name s w
    · next hdirection =>
      refine (ih h hrest hrun).mono fun e _ he => he.imp_right fun ⟨he, hdir⟩ => ⟨?_, hdir⟩
      rcases List.mem_cons.1 he with rfl | he
      · rw [hdirection] at hdir
        cases hdir
      · exact he

end Declared

/-- Before its statements, every name of the top module has its width, and there are no others. -/
theorem declared_of_start {m : Module} {n : Netlist} (hm : m.WellFormed) (h : start m = .ok n) :
    Declared m n fun _ => True := by
  have hempty : Declared m (Netlist.empty m.name) fun _ => False :=
    ⟨.empty _, rfl, fun s hs => (by cases hs), fun _ _ hd => hd.elim⟩
  have hwires := hempty.wires hm fun d (hd : d ∈ m.decls.filter fun d => d.direction.isNone) =>
    (List.mem_filter.1 hd).1
  have hports := hwires.ports hm (fun d hd => List.mem_of_find?_eq_some (decl?_of_mem_portDecls hd)) h
  refine hports.mono fun d hd _ => ?_
  cases hdirection : d.direction with
  | none => exact .inl (.inr (List.mem_filter.2 ⟨hd, by rw [hdirection]; rfl⟩))
  | some direction =>
    have hport := hm.directed d hd (by rw [hdirection]; rfl)
    exact .inr ⟨List.mem_filterMap.2 ⟨d.name, hport, decl?_of_mem hm hd⟩, rfl⟩

/-- The scope of the top module. -/
def topScope (m : Module) : Scope := ⟨m, "", .empty⟩

theorem topScope_read {m : Module} {name : String} {line : Nat} {f : Fanin}
    (h : (topScope m).read name line = .ok f) :
    f = .plain name ∧ ∃ d, m.decl? name = some d := by
  have hfree : (topScope m).bindings.find? name = none := rfl
  cases hd : m.decl? name with
  | none =>
    rw [Scope.read, hfree, show (topScope m).module.decl? name = none from hd] at h
    cases h
  | some d =>
    rw [read_of_free hfree hd] at h
    cases h
    exact ⟨congrArg Fanin.plain String.empty_append, d, rfl⟩

section
variable {m : Module} {n : Netlist}

theorem Declared.fits (h : Declared m n fun _ => True) : (topScope m).Fits n := by
  intro name line f hread
  obtain ⟨rfl, d, hd⟩ := topScope_read hread
  obtain rfl : d.name = name := by simpa using List.find?_some hd
  obtain ⟨htaken, hwidth⟩ := h.declared d (List.mem_of_find?_eq_some hd) trivial
  exact ⟨htaken, d, hd, hwidth⟩

theorem Declared.free {done : Decl → Prop} (h : Declared m n done) (hm : m.WellFormed) :
    Free (topScope m) m.instances n := by
  intro i hi name hname s hs
  by_contra htaken
  rw [Bool.not_eq_false] at htaken
  obtain ⟨d, hd, rfl⟩ := h.names s htaken
  exact not_flat_of_beneath hs (hm.flat_decl d hd)

end

/-! ## Simulation -/

section
variable {n : Netlist} {cells : CellFunctions} {given values : Values} {e : Evaluator}

/-- What simulation computes obeys the nodes, and a signal that nothing drives has no bits set. -/
theorem satisfies_of_simulate (hl : n.Legal) (hc : n.Coherent)
    (he : Evaluator.ofNetlist n cells = .ok e) (h : e.simulate given = .ok values) :
    Satisfies n cells (.ofValues values) := by
  have hsolution := hl.solution_of_simulate hc he h
  refine ⟨hsolution.node, fun s => ?_⟩
  cases hs : n.isDefined s with
  | true => exact hsolution.truncate_eq hs
  | false =>
    rw [Valuation.ofValues, Netlist.undefined_of_simulate hc he h hs]
    exact Width.truncate_zero _

theorem simulates (hl : n.Legal) (hc : n.Coherent) (hkinds : ∀ node ∈ n.nodes, Computed node.kind)
    (cells : CellFunctions) :
    ∃ e, Evaluator.ofNetlist n cells = .ok e ∧ ∀ given : Values,
      ((∀ i ∈ n.inputs, (given.find? i).isSome = true) → ∃ s, e.simulate given = .ok s) ∧
        ∀ s, e.simulate given = .ok s → Satisfies n cells (.ofValues s) := by
  obtain ⟨e, he, hsim⟩ := hl.simulate_isOk hc cells fun node hnode v => by
    have := hkinds node hnode
    rw [Valuation.result]
    cases hk : node.kind with
    | op | const => rfl
    | module | cell =>
      rw [hk] at this
      cases this
  exact ⟨e, he, fun given => ⟨hsim given, fun s hs => satisfies_of_simulate hl hc he hs⟩⟩

end

/-! ## Whole files -/

theorem mem_of_top {file : SourceFile} {top : Option String} {m : Module}
    (h : file.top top = .ok m) : m ∈ file.modules := by
  unfold SourceFile.top at h
  split at h
  · cases h
  · split at h
    · next hm =>
      cases h
      exact List.mem_of_find?_eq_some hm
    · cases h
  · dsimp only at h
    split at h
    · next hfilter =>
      cases h
      exact (List.mem_filter.1 (hfilter ▸ List.mem_singleton_self m)).1
    · cases h
    · cases h

/-- Elaboration has no wires to check, because it makes them from the fanins. -/
theorem elaborate_eq (file : SourceFile) (top : Option String) :
    elaborate file top = (do
      let m ← file.top top
      let n ← (start m).mapError .netlist
      let ((), n) ← (moduleBody file file.modules.length [m.name] (topScope m)).run n
      n.rebuildWires.validateDerived.mapError .netlist
      return n.rebuildWires) := by
  simp only [← Netlist.validate_rebuilt]
  rfl

/-- Elaboration runs through the statements of the top module and checks the result. -/
theorem elaborate_eq_ok {file : SourceFile} {top : Option String} {n : Netlist}
    (h : elaborate file top = .ok n) :
    ∃ m n₀ n₁, file.top top = .ok m ∧ start m = .ok n₀ ∧
      (moduleBody file file.modules.length [m.name] (topScope m)).run n₀ = .ok ((), n₁) ∧
      n = n₁.rebuildWires ∧ n.validate = .ok () := by
  rw [elaborate] at h
  obtain ⟨m, hm, h⟩ := ok_of_bind h
  obtain ⟨n₀, hstart, h⟩ := ok_of_bind h
  obtain ⟨⟨⟨⟩, n₁⟩, hbody, h⟩ := ok_of_bind h
  obtain ⟨hvalidate, h⟩ := bind_eq_ok_iff.1 h
  cases h
  exact ⟨m, n₀, n₁, hm, ok_of_mapError hstart, hbody, rfl, ok_of_mapError hvalidate⟩

end Elaborate

open Elaborate Netlist

/-- The values of the declared signals of a module. -/
def Module.reading (m : Module) (v : Valuation) (name : String) : Nat :=
  if (m.decl? name).isSome then (v name).toNat else 0

theorem Elaborate.topScope_value (m : Module) (N : Netlist) (v : Valuation) :
    (topScope m).value N v = m.reading v := by
  funext name
  rw [Module.reading]
  cases hread : (topScope m).read name 0 with
  | ok f =>
    obtain ⟨rfl, d, hd⟩ := topScope_read hread
    rw [Scope.value_of_read hread, hd]
    rfl
  | error e =>
    rw [Scope.value, hread]
    cases hd : m.decl? name with
    | none => rfl
    | some d =>
      have hfree : (topScope m).bindings.find? name = none := rfl
      rw [read_of_free hfree hd] at hread
      cases hread

/-- Where the top module of a parsed file has nothing but assignments, simulating its netlist gives
every target the value of its expression, taken at the wider of the two and cut to the width of the
target. -/
theorem elaborate_assigns {source : String} {file : SourceFile} {top : Option String} {m : Module}
    {n : Netlist} (hparse : parse source = .ok file) (htop : file.top top = .ok m)
    (hinstances : m.instances = []) (h : elaborate file top = .ok n) (cells : CellFunctions) :
    ∃ e, Evaluator.ofNetlist n cells = .ok e ∧ ∀ given : Values,
      ((∀ i ∈ n.inputs, (given.find? i).isSome = true) → ∃ s, e.simulate given = .ok s) ∧
        ∀ s, e.simulate given = .ok s → ∀ a ∈ m.assigns, ∃ d, m.decl? a.target = some d ∧
          (Valuation.ofValues s a.target).toNat =
            a.expr.value m.bits (m.reading (.ofValues s))
                (max d.width.bits (a.expr.ownBits m.bits)) % span d.width.bits := by
  obtain ⟨m', n₀, n₁, hm, hstart, hbody, rfl, hvalidate⟩ := elaborate_eq_ok h
  cases htop.symm.trans hm
  have hmem := mem_of_top htop
  have hdeclared := declared_of_start (parse_wellFormed hparse m hmem) hstart
  obtain ⟨depth, hdepth⟩ := Nat.exists_eq_add_one_of_ne_zero (List.length_pos_of_mem hmem).ne'
  rw [hdepth, moduleBody] at hbody
  obtain ⟨_, k, hassigns, hbody⟩ := run_of_bind hbody
  rw [show (topScope m).module.instances = [] from hinstances] at hbody
  cases hbody
  obtain ⟨hgrows, hholds⟩ := assigns_spec hdeclared.fits hassigns
  have hcoherent := (hgrows.coherent hdeclared.coherent).rebuildWires
  have hlegal := hcoherent.legal_of_validate hvalidate
  have hkinds : ∀ node ∈ n₁.nodes, Computed node.kind := fun node hnode =>
    (hgrows.newNodes node hnode).resolve_left (by rw [hdeclared.nodes]; exact List.not_mem_nil)
  obtain ⟨e, he, hsimulates⟩ := simulates hlegal hcoherent hkinds cells
  refine ⟨e, he, fun given => ⟨(hsimulates given).1, fun s hs a ha => ?_⟩⟩
  obtain ⟨d, hd, hvalue⟩ := hholds (Extends.rebuildWires n₁) ((hsimulates given).2 s hs) a ha
  refine ⟨d, hd, ?_⟩
  rw [topScope_value] at hvalue
  rw [← show m.reading (.ofValues s) a.target = (Valuation.ofValues s a.target).toNat by
    rw [Module.reading, show m.decl? a.target = some d from hd]; rfl]
  exact hvalue

/-- A module that compares its input with a number. -/
def comparison : Module where
  name := "t"
  ports := ["a", "y"]
  decls := [⟨"a", some .input, (Width.ofNat? 2).getD .one, ⟨1, 22⟩⟩,
    ⟨"y", some .output, .one, ⟨1, 32⟩⟩]
  assigns := [⟨"y", .binary .lt (.ident "a" ⟨1, 47⟩) (.number none 3), ⟨1, 43⟩⟩]
  instances := []
  pos := ⟨1, 1⟩

theorem elaborate_assigns_comparison : ∃ n,
    parse "module t(input [1:0] a, output y); assign y = a < 3; endmodule" =
        .ok ⟨[comparison]⟩ ∧
      elaborate ⟨[comparison]⟩ none = .ok n ∧
      ∀ cells, ∃ e, Evaluator.ofNetlist n cells = .ok e ∧
        ∀ given s, e.simulate given = .ok s → (Valuation.ofValues s "y").toNat =
          (decide ((Valuation.ofValues s "a").toNat < 3)).toNat := by
  have hparse : parse "module t(input [1:0] a, output y); assign y = a < 3; endmodule" =
      .ok ⟨[comparison]⟩ := by
    rw [parse, tokenize_ofList]
    decide
  have hok : (elaborate ⟨[comparison]⟩ none).isOk = true := by
    rw [elaborate_eq]
    decide +kernel
  obtain ⟨n, hn⟩ := exists_ok_of_isOk hok
  refine ⟨n, hparse, hn, fun cells => ?_⟩
  obtain ⟨e, he, hsimulate⟩ := elaborate_assigns (m := comparison) hparse rfl rfl hn cells
  refine ⟨e, he, fun given s hs => ?_⟩
  obtain ⟨d, hd, hvalue⟩ := (hsimulate given).2 s hs _ (List.mem_singleton_self _)
  cases hd
  have hbit : ∀ b : Bool, b.toNat % span 1 = b.toNat := by decide
  exact hvalue.trans (hbit (decide ((Valuation.ofValues s "a").toNat < 3)))

/-- The instances that elaborating a file inlines. -/
def SourceFile.Inlines (file : SourceFile) (top : Option String) (x : Inlining) : Prop :=
  ∃ m n₀, file.top top = .ok m ∧ start m = .ok n₀ ∧
    Elaborate.Inlines file file.modules.length [m.name] (topScope m) n₀ x

/-- Where the instances of every module of a parsed file have different names and every module is
defined, simulating the netlist gives the ports of every instance that is inlined what they are
connected to, and every target inside the value of its expression. -/
theorem elaborate_inlines {source : String} {file : SourceFile} {top : Option String} {n : Netlist}
    (hparse : parse source = .ok file)
    (hnames : ∀ m ∈ file.modules, (m.instances.filterMap Instance.name).Nodup)
    (h : elaborate file top = .ok n)
    (hmodules : ∀ node ∈ n.nodes, ∀ name, node.kind ≠ .module name) (cells : CellFunctions) :
    ∃ e, Evaluator.ofNetlist n cells = .ok e ∧ ∀ given : Values,
      ((∀ i ∈ n.inputs, (given.find? i).isSome = true) → ∃ s, e.simulate given = .ok s) ∧
        ∀ s, e.simulate given = .ok s → ∀ x, file.Inlines top x → x.Sound n (.ofValues s) := by
  have hfile := parse_wellFormed hparse
  obtain ⟨m, n₀, n₁, hm, hstart, hbody, rfl, hvalidate⟩ := elaborate_eq_ok h
  have hmem := mem_of_top hm
  have hdeclared := declared_of_start (hfile m hmem) hstart
  obtain ⟨hgrows, hspec⟩ := moduleBody_spec hfile hnames _ hmem hdeclared.fits
    (hdeclared.free (hfile m hmem)) hbody
  have hcoherent := (hgrows.coherent hdeclared.coherent).rebuildWires
  have hlegal := hcoherent.legal_of_validate hvalidate
  have hkinds : ∀ node ∈ n₁.nodes, Computed node.kind := fun node hnode => by
    have hkind := (hgrows.newNodes node hnode).resolve_left
      (by rw [hdeclared.nodes]; exact List.not_mem_nil)
    cases hk : node.kind with
    | op | const => trivial
    | module name => exact absurd hk (hmodules node hnode name)
    | cell =>
      rw [hk] at hkind
      cases hkind
  obtain ⟨e, he, hsimulates⟩ := simulates hlegal hcoherent hkinds cells
  refine ⟨e, he, fun given => ⟨(hsimulates given).1, fun s hs x hx => ?_⟩⟩
  obtain ⟨m', n₀', hm', hstart', hx⟩ := hx
  cases hm.symm.trans hm'
  cases hstart.symm.trans hstart'
  exact (hspec (Extends.rebuildWires n₁) ((hsimulates given).2 s hs)).2 x hx

/-- A file with an instance whose ports do not have the widths of what they are connected to. -/
def narrowed : SourceFile where
  modules := [
    { name := "inv"
      ports := ["a", "y"]
      decls := [⟨"a", some .input, .one, ⟨1, 18⟩⟩, ⟨"y", some .output, .one, ⟨1, 28⟩⟩]
      assigns := [⟨"y", .unary .not (.ident "a" ⟨1, 44⟩), ⟨1, 39⟩⟩]
      instances := []
      pos := ⟨1, 1⟩ },
    { name := "t"
      ports := ["b", "z"]
      decls := [⟨"b", some .input, (Width.ofNat? 2).getD .one, ⟨1, 78⟩⟩,
        ⟨"z", some .output, (Width.ofNat? 2).getD .one, ⟨1, 94⟩⟩]
      assigns := []
      instances := [⟨"inv", some "u",
        .positional [.ident "b" ⟨1, 104⟩, .ident "z" ⟨1, 107⟩], ⟨1, 98⟩⟩]
      pos := ⟨1, 57⟩ }]

/-- Nodes of known arity are not modules. -/
theorem ne_module_of_arity {n : Netlist}
    (h : (n.nodes.all fun node => node.kind.arity?.isSome) = true) :
    ∀ node ∈ n.nodes, ∀ name, node.kind ≠ .module name := by
  intro node hnode name hkind
  have harity := List.all_eq_true.1 h node hnode
  rw [hkind] at harity
  cases harity

theorem elaborate_inlines_narrowed : ∃ n x, elaborate narrowed none = .ok n ∧
    narrowed.Inlines none x ∧ ∀ cells, ∃ e, Evaluator.ofNetlist n cells = .ok e ∧
      ∀ given s, e.simulate given = .ok s → x.Sound n (.ofValues s) := by
  have hparse : parse ("module inv(input a, output y); assign y = ~a; endmodule " ++
      "module t(input [1:0] b, output [1:0] z); inv u(b, z); endmodule") = .ok narrowed := by
    rw [parse, ← String.ofList_append, tokenize_ofList]
    decide +kernel
  have hok : ((elaborate narrowed none).toOption.any fun n =>
      n.nodes.all fun node => node.kind.arity?.isSome) = true := by
    rw [elaborate_eq]
    decide +kernel
  have hnames : ∀ m ∈ narrowed.modules, (m.instances.filterMap Instance.name).Nodup := by decide
  obtain ⟨n, hn, harity⟩ := (Option.any_eq_true _ _).1 hok
  have hn := ok_of_toOption hn
  have hmodules := ne_module_of_arity harity
  obtain ⟨m, n₀, n₁, hm, hstart, hbody, -, -⟩ := elaborate_eq_ok hn
  cases hm
  obtain ⟨x, n₄, n₅, -, -, henters, -⟩ := exists_enters (.head _) rfl rfl hbody
  refine ⟨n, x, hn, ⟨_, n₀, rfl, hstart, .here henters⟩, fun cells => ?_⟩
  obtain ⟨e, he, hsimulate⟩ :=
    elaborate_inlines hparse hnames hn hmodules cells
  exact ⟨e, he, fun given s hs => (hsimulate given).2 s hs x ⟨_, n₀, rfl, hstart, .here henters⟩⟩

/-- A module that passes its input on through a signal `x`. -/
def nestedLeaf : Module where
  name := "leaf"
  ports := ["a", "y"]
  decls := [⟨"a", some .input, (Width.ofNat? 4).getD .one, ⟨1, 25⟩⟩,
    ⟨"y", some .output, (Width.ofNat? 4).getD .one, ⟨1, 41⟩⟩,
    ⟨"x", none, (Width.ofNat? 4).getD .one, ⟨1, 56⟩⟩]
  assigns := [⟨"x", .ident "a" ⟨1, 70⟩, ⟨1, 66⟩⟩, ⟨"y", .ident "x" ⟨1, 84⟩, ⟨1, 80⟩⟩]
  instances := []
  pos := ⟨1, 1⟩

/-- A module around an instance `v` of it. -/
def nestedMid : Module where
  name := "mid"
  ports := ["a", "y"]
  decls := [⟨"a", some .input, (Width.ofNat? 4).getD .one, ⟨1, 120⟩⟩,
    ⟨"y", some .output, (Width.ofNat? 4).getD .one, ⟨1, 136⟩⟩]
  assigns := []
  instances := [⟨"leaf", some "v",
    .positional [.ident "a" ⟨1, 147⟩, .ident "y" ⟨1, 150⟩], ⟨1, 140⟩⟩]
  pos := ⟨1, 97⟩

/-- A module with a signal `x` of its own, one bit wide. -/
def nestedStub : Module where
  name := "stub"
  ports := ["b"]
  decls := [⟨"b", some .input, .one, ⟨1, 182⟩⟩, ⟨"x", none, .one, ⟨1, 191⟩⟩]
  assigns := []
  instances := []
  pos := ⟨1, 164⟩

/-- A module with an instance `u` of the second one, and one of the third of any name. -/
def nestedTop (beside : String) : Module where
  name := "t"
  ports := ["a", "b", "y"]
  decls := [⟨"a", some .input, (Width.ofNat? 4).getD .one, ⟨1, 225⟩⟩,
    ⟨"b", some .input, .one, ⟨1, 234⟩⟩,
    ⟨"y", some .output, (Width.ofNat? 4).getD .one, ⟨1, 250⟩⟩]
  assigns := []
  instances := [
    ⟨"mid", some "u", .positional [.ident "a" ⟨1, 260⟩, .ident "y" ⟨1, 263⟩], ⟨1, 254⟩⟩,
    ⟨"stub", some beside, .positional [.ident "b" ⟨1, 274⟩], ⟨1, 267⟩⟩]
  pos := ⟨1, 204⟩

/-- The file of these modules. -/
def nested (beside : String) : SourceFile := ⟨[nestedLeaf, nestedMid, nestedStub, nestedTop beside]⟩

theorem Elaborate.Enters.connections {file : SourceFile} {depth : Nat} {stack : List String}
    {scope : Scope} {n n' : Netlist} {x : Inlining} (h : Enters file depth stack scope n x n') :
    x.outer = scope ∧ connectedPorts x.statement x.inner.module = .ok x.connected := by
  cases h with
  | intro _ _ _ _ connections => exact ⟨rfl, connections⟩

/-- The connections of an instance whose two ports have names and widths of their own outside. -/
theorem Elaborate.Inlining.Sound.forwards {x : Inlining} {n : Netlist} {v : Valuation}
    (h : x.Sound n v) {a y : Decl} {pos pos' : Position} (hports : x.inner.module.portDecls = [a, y])
    (ha : a.direction = some .input) (hy : y.direction = some .output)
    (hconnected : x.connected =
      [(a.name, some (.ident a.name pos)), (y.name, some (.ident y.name pos'))])
    (hname : y.name ≠ a.name) :
    x.inner.value n v a.name = x.outer.value n v a.name % span a.width.bits ∧
      x.outer.value n v y.name = x.inner.value n v y.name % span (x.outer.bits y.name) := by
  have hfirst : Table.findEntry a.name x.connected = some (some (.ident a.name pos)) := by
    rw [hconnected]
    simp [Table.findEntry]
  have hsecond : Table.findEntry y.name x.connected = some (some (.ident y.name pos')) := by
    rw [hconnected]
    simp [Table.findEntry, hname]
  refine ⟨h.input a ?_ ha _ hfirst, h.output y ?_ hy _ _ hsecond⟩
  · rw [hports]
    exact .head _
  · rw [hports]
    exact .tail _ (.head _)

/-- An assignment of a name. -/
theorem Elaborate.Scope.Holds.copies {scope : Scope} {n : Netlist} {v : Valuation}
    {target name : String} {pos pos' : Position}
    (h : scope.Holds n v ⟨target, .ident name pos, pos'⟩) :
    scope.value n v target = scope.value n v name % span (scope.bits target) := by
  obtain ⟨d, hd, h⟩ := h
  rw [Scope.bits, Module.bits_of_decl? hd]
  simpa only [Expr.value] using h

/-- If every instance of the file is sound, the output of the top module is its first input. -/
theorem nested_forwards {beside : String} {n : Netlist} {v : Valuation}
    (h : elaborate (nested beside) none = .ok n)
    (hsound : ∀ x, (nested beside).Inlines none x → x.Sound n v) :
    (v "y").toNat = (v "a").toNat % span 4 := by
  obtain ⟨m, n₀, n₁, hm, hstart, hbody, -, -⟩ := elaborate_eq_ok h
  obtain rfl : nestedTop beside = m := Except.ok.inj hm
  obtain ⟨x, n₂, n₃, hx, hmid, henters, hbody⟩ := exists_enters (.head _) rfl rfl hbody
  have hinstances := fun i (hi : i ∈ nestedMid.instances) =>
    show i ∈ x.inner.module.instances from hmid ▸ hi
  obtain ⟨y, n₄, n₅, hy, hleaf, henters', -⟩ := exists_enters (hinstances _ (.head _)) rfl rfl hbody
  obtain ⟨houter, hconnected⟩ := henters.connections
  obtain ⟨houter', hconnected'⟩ := henters'.connections
  rw [hx, hmid] at hconnected
  rw [hy, hleaf] at hconnected'
  have hsound₁ := hsound x ⟨_, n₀, hm, hstart, .here henters⟩
  have hsound₂ := hsound y ⟨_, n₀, hm, hstart, .deeper henters (.here (hmid ▸ henters'))⟩
  have houtside := hsound₁.forwards (congrArg Module.portDecls hmid) rfl rfl
    (Except.ok.inj hconnected).symm (by decide)
  have hbetween := hsound₂.forwards (congrArg Module.portDecls hleaf) rfl rfl
    (Except.ok.inj hconnected').symm (by decide)
  have hassigns : ∀ a ∈ nestedLeaf.assigns, y.inner.Holds n v a := fun a ha =>
    hsound₂.assigns a (hleaf ▸ ha)
  have hwire := (hassigns _ (.head _)).copies
  have hlast := (hassigns _ (.tail _ (.head _))).copies
  rw [houter, topScope_value] at houtside
  rw [houter', Scope.bits, hmid] at hbetween
  rw [Scope.bits, hleaf] at hwire hlast
  have hcut : ∀ k, k % span 4 % span 4 = k % span 4 := fun k => Nat.mod_mod k _
  calc (v "y").toNat = x.inner.value n v "y" % span 4 := houtside.2
    _ = y.inner.value n v "y" % span 4 := (congrArg (· % span 4) hbetween.2).trans (hcut _)
    _ = y.inner.value n v "x" % span 4 := (congrArg (· % span 4) hlast).trans (hcut _)
    _ = y.inner.value n v "a" % span 4 := (congrArg (· % span 4) hwire).trans (hcut _)
    _ = x.inner.value n v "a" % span 4 := (congrArg (· % span 4) hbetween.1).trans (hcut _)
    _ = (v "a").toNat % span 4 := (congrArg (· % span 4) houtside.1).trans (hcut _)

/-- Both guards are needed. With a name that no source text has, `u/v` beside the instance `v` of
`u`, two instances have one signal, and the second declaration cuts what the first one carries; and
where an input is not given nothing is simulated. -/
theorem elaborate_inlines_needs_guards :
    (∃ n e s x, (∀ m ∈ (nested "u/v").modules, (m.instances.filterMap Instance.name).Nodup) ∧
      elaborate (nested "u/v") none = .ok n ∧
      (∀ node ∈ n.nodes, ∀ name, node.kind ≠ .module name) ∧
      Evaluator.ofNetlist n .none = .ok e ∧
      e.simulate (.ofList [("a", 15), ("b", 0)]) = .ok s ∧
      (nested "u/v").Inlines none x ∧ ¬ x.Sound n (.ofValues s)) ∧
    ∃ n e, parse ("module leaf(input [3:0] a, output [3:0] y); wire [3:0] x; " ++
        "assign x = a; assign y = x; endmodule " ++
        "module mid(input [3:0] a, output [3:0] y); leaf v(a, y); endmodule " ++
        "module stub(input b); wire x; endmodule " ++
        "module t(input [3:0] a, input b, output [3:0] y); mid u(a, y); stub w(b); endmodule") =
          .ok (nested "w") ∧
      elaborate (nested "w") none = .ok n ∧
      (∀ node ∈ n.nodes, ∀ name, node.kind ≠ .module name) ∧
      Evaluator.ofNetlist n .none = .ok e ∧
      e.simulate (.ofList [("a", 15)]) = .error (.missingInput "b") := by
  constructor
  · have hrun : (do
        let n ← (elaborate (nested "u/v") none).toOption
        let e ← (Evaluator.ofNetlist n .none).toOption
        let s ← (e.simulate (.ofList [("a", 15), ("b", 0)])).toOption
        return (Valuation.ofValues s "a", Valuation.ofValues s "y",
          n.nodes.all fun node => node.kind.arity?.isSome)) = some (15, 1, true) := by
      rw [elaborate_eq]
      decide +kernel
    obtain ⟨n, hn, hrun⟩ := Option.bind_eq_some_iff.1 hrun
    obtain ⟨e, he, hrun⟩ := Option.bind_eq_some_iff.1 hrun
    obtain ⟨s, hs, hrun⟩ := Option.bind_eq_some_iff.1 hrun
    obtain ⟨ha, hrun⟩ := Prod.mk.inj (Option.some.inj hrun)
    obtain ⟨hy, harity⟩ := Prod.mk.inj hrun
    have hunsound : ¬ ∀ x, (nested "u/v").Inlines none x → x.Sound n (.ofValues s) := fun h => by
      have hforwards := nested_forwards (ok_of_toOption hn) h
      rw [ha, hy] at hforwards
      exact absurd hforwards (by decide)
    obtain ⟨x, hx⟩ := Classical.not_forall.1 hunsound
    obtain ⟨hx, hunsound⟩ := Classical.not_imp.1 hx
    exact ⟨n, e, s, x, by decide, ok_of_toOption hn, ne_module_of_arity harity, ok_of_toOption he,
      ok_of_toOption hs, hx, hunsound⟩
  · have hparse : parse ("module leaf(input [3:0] a, output [3:0] y); wire [3:0] x; " ++
        "assign x = a; assign y = x; endmodule " ++
        "module mid(input [3:0] a, output [3:0] y); leaf v(a, y); endmodule " ++
        "module stub(input b); wire x; endmodule " ++
        "module t(input [3:0] a, input b, output [3:0] y); mid u(a, y); stub w(b); endmodule") =
          .ok (nested "w") := by
      rw [parse, ← String.ofList_append, ← String.ofList_append, ← String.ofList_append,
        ← String.ofList_append, tokenize_ofList]
      decide +kernel
    have hrun : (do
        let n ← (elaborate (nested "w") none).toOption
        let e ← (Evaluator.ofNetlist n .none).toOption
        return (e.simulate (.ofList [("a", 15)]),
          n.nodes.all fun node => node.kind.arity?.isSome)) =
        some (.error (.missingInput "b"), true) := by
      rw [elaborate_eq]
      decide +kernel
    obtain ⟨n, hn, hrun⟩ := Option.bind_eq_some_iff.1 hrun
    obtain ⟨e, he, hrun⟩ := Option.bind_eq_some_iff.1 hrun
    obtain ⟨hmissing, harity⟩ := Prod.mk.inj (Option.some.inj hrun)
    exact ⟨n, e, hparse, ok_of_toOption hn, ne_module_of_arity harity, ok_of_toOption he, hmissing⟩

end GateSynth.Verilog
