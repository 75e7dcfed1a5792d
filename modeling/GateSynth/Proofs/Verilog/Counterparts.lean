import GateSynth.Proofs.Simulation.Implementation
import GateSynth.Proofs.Verilog.Behaviours
import GateSynth.Proofs.Verilog.Contexts
import GateSynth.Proofs.Verilog.Interchange
import GateSynth.Proofs.Verilog.Positions
import GateSynth.Proofs.Verilog.WidthContracts

/-!
# Files that differ in one module

A module of a file is replaced by another with the same ports and instances. Where every behaviour
of the one gives a behaviour of the other with the same values for the names of both, this is so for
all modules of the two files, at any depth (`behaves_counterpart`), and the netlist of the second
file puts out what that of the first does (`implements_of_replaces`).
-/

namespace GateSynth.Verilog

open Elaborate Netlist

/-! ## Top modules -/

namespace SourceFile

/-- The names of the modules and gates that are instantiated. -/
def instantiated (file : SourceFile) : List String :=
  file.modules.flatMap fun m => m.instances.map Instance.module

variable {file : SourceFile} {m : Module}

theorem top_some_eq_ok_iff {name : String} :
    file.top (some name) = .ok m ↔ file.module? name = some m := by
  obtain ⟨_ | ⟨first, rest⟩⟩ := file
  · exact ⟨fun h => (by cases h), fun h => (by cases h)⟩
  · rw [top_some (List.cons_ne_nil _ _)]
    cases module? ⟨first :: rest⟩ name with
    | none => exact ⟨fun h => (by cases h), fun h => (by cases h)⟩
    | some x => exact ⟨fun h => congrArg some (Except.ok.inj h), fun h => by rw [h]; rfl⟩

theorem top_none_eq_ok_iff :
    file.top none = .ok m ↔
      (file.modules.filter fun m => !file.instantiated.contains m.name) = [m] := by
  obtain ⟨_ | ⟨first, rest⟩⟩ := file
  · exact ⟨fun h => (by cases h), fun h => (by cases h)⟩
  · unfold top
    dsimp only
    rw [← show instantiated ⟨first :: rest⟩ = (first :: rest).flatMap _ from rfl]
    rcases (first :: rest).filter _ with _ | ⟨only, _ | ⟨second, others⟩⟩
    · exact ⟨fun h => (by cases h), fun h => (by cases h)⟩
    · exact ⟨fun h => by rw [Except.ok.inj h], fun h => by rw [(List.cons.inj h).1]⟩
    · exact ⟨fun h => (by cases h), fun h => (by cases h)⟩

end SourceFile

/-! ## Names of instances -/

/-- Instances of every module have different names. -/
def SourceFile.DistinctInstances (file : SourceFile) : Prop :=
  ∀ m ∈ file.modules, (m.instances.filterMap Instance.name).Nodup

instance (file : SourceFile) : Decidable file.DistinctInstances :=
  inferInstanceAs (Decidable (∀ m ∈ file.modules, (m.instances.filterMap Instance.name).Nodup))

theorem SourceFile.distinctInstances_unplaced {file : SourceFile} :
    file.unplaced.DistinctInstances ↔ file.DistinctInstances := by
  rw [DistinctInstances, unplaced, List.forall_mem_map]
  simp only [Module.unplaced, List.filterMap_map]
  rfl

/-! ## Counterparts -/

/-- Two modules with the same ports and instances. -/
structure Module.SameShape (m m' : Module) : Prop where
  name : m'.name = m.name
  ports : m'.ports = m.ports
  portDecls : m'.portDecls = m.portDecls
  instances : m'.instances = m.instances

theorem Module.SameShape.symm {m m' : Module} (h : m.SameShape m') : m'.SameShape m :=
  ⟨h.name.symm, h.ports.symm, h.portDecls.symm, h.instances.symm⟩

/-- A module, and what is in its place after one module is replaced by another. -/
inductive Counterpart (m m' : Module) : Module → Module → Prop
  | same (x : Module) : Counterpart m m' x x
  | replaced : Counterpart m m' m m'

/-- The second file is the first with a module replaced. -/
def SourceFile.Replaces (m m' : Module) (file file' : SourceFile) : Prop :=
  List.Forall₂ (Counterpart m m') file.modules file'.modules

/-- The names that both modules declare have the same values. -/
def Module.Agree (x x' : Module) (env env' : String → Nat) : Prop :=
  ∀ name, (x.decl? name).isSome = true → (x'.decl? name).isSome = true → env' name = env name

section
variable {m m' x x' : Module} {file file' : SourceFile}

theorem Counterpart.sameShape (h : Counterpart m m' x x') (hshape : m.SameShape m') :
    x.SameShape x' := by
  cases h with
  | same => exact ⟨rfl, rfl, rfl, rfl⟩
  | replaced => exact hshape

theorem replaces_of_split (m m' : Module) (before after : List Module) :
    SourceFile.Replaces m m' ⟨before ++ m :: after⟩ ⟨before ++ m' :: after⟩ := by
  have hsame : ∀ modules, List.Forall₂ (Counterpart m m') modules modules := fun modules =>
    List.forall₂_same.2 fun x _ => .same x
  exact List.rel_append (hsame before) (.cons .replaced (hsame after))

namespace SourceFile.Replaces

theorem length (h : SourceFile.Replaces m m' file file') :
    file.modules.length = file'.modules.length :=
  List.Forall₂.length_eq h

theorem flip (h : SourceFile.Replaces m m' file file') :
    SourceFile.Replaces m' m file' file := by
  refine (List.Forall₂.flip h).imp fun x' x hx => ?_
  cases hx with
  | same => exact .same x'
  | replaced => exact .replaced

/-- Modules of the same name are counterparts. -/
theorem module? (h : SourceFile.Replaces m m' file file') (hshape : m.SameShape m')
    (name : String) : Option.Rel (Counterpart m m') (file.module? name) (file'.module? name) := by
  obtain ⟨modules⟩ := file
  obtain ⟨modules'⟩ := file'
  change List.Forall₂ (Counterpart m m') modules modules' at h
  rw [SourceFile.module?, SourceFile.module?]
  dsimp only
  induction h with
  | nil => exact .none
  | @cons x x' _ _ hx _ ih =>
    have hsame := (hx.sameShape hshape).name
    by_cases hname : x.name = name
    · rw [List.find?_cons_of_pos (by simpa using hname),
        List.find?_cons_of_pos (by simpa [hsame] using hname)]
      exact .some hx
    · rw [List.find?_cons_of_neg (by simpa using hname),
        List.find?_cons_of_neg (by simpa [hsame] using hname)]
      exact ih

theorem instances (h : SourceFile.Replaces m m' file file') (hshape : m.SameShape m') :
    file'.modules.map Module.instances = file.modules.map Module.instances := by
  rw [← List.forall₂_eq_eq_eq, List.forall₂_map_left_iff, List.forall₂_map_right_iff]
  exact (List.Forall₂.flip h).imp fun x' x hx => (hx.sameShape hshape).instances

/-- The same modules are instantiated. -/
theorem instantiated (h : SourceFile.Replaces m m' file file') (hshape : m.SameShape m') :
    file'.instantiated = file.instantiated := by
  have hinstances := congrArg (List.flatMap (List.map Instance.module)) (h.instances hshape)
  rwa [List.flatMap_map, List.flatMap_map] at hinstances

/-- The top modules are counterparts. -/
theorem top (h : SourceFile.Replaces m m' file file') (hshape : m.SameShape m')
    {top : Option String} (hx : file.top top = .ok x) :
    ∃ x', file'.top top = .ok x' ∧ Counterpart m m' x x' := by
  cases top with
  | some name =>
    rw [top_some_eq_ok_iff] at hx
    have hmodule := h.module? hshape name
    rw [hx] at hmodule
    generalize hx' : file'.module? name = found at hmodule
    cases hmodule with
    | some hcounterpart => exact ⟨_, top_some_eq_ok_iff.2 hx', hcounterpart⟩
  | none =>
    rw [top_none_eq_ok_iff] at hx
    have hfilter := List.rel_filter (R := Counterpart m m')
      (p := fun x => !file.instantiated.contains x.name)
      (q := fun x => !file.instantiated.contains x.name)
      (fun x y hxy => by dsimp only; rw [(hxy.sameShape hshape).name]) h
    rw [hx] at hfilter
    generalize hx' : file'.modules.filter _ = candidates at hfilter
    cases hfilter with
    | cons hcounterpart hrest =>
      cases hrest
      refine ⟨_, top_none_eq_ok_iff.2 ?_, hcounterpart⟩
      rw [h.instantiated hshape, hx']

end SourceFile.Replaces

end

/-! ## Instances -/

/-- The names in the connections of an instance. -/
def Instance.names (i : Instance) : List String := i.connections.exprs.flatMap Expr.names

theorem namedPorts_of_sameShape {i : Instance} {child child' : Module}
    (h : child.SameShape child') (ports before : List (String × Option Expr)) :
    namedPorts i child' ports before = namedPorts i child ports before := by
  induction ports generalizing before with
  | nil => rfl
  | cons port rest ih =>
    rw [namedPorts, namedPorts, h.name, h.ports, ih]

/-- Modules with the same ports are connected alike. -/
theorem connectedPorts_of_sameShape {i : Instance} {child child' : Module}
    (h : child.SameShape child') : connectedPorts i child' = connectedPorts i child := by
  rw [connectedPorts, connectedPorts, h.ports]
  split
  · rfl
  · exact namedPorts_of_sameShape h _ _

section
variable {m m' a a' : Module} {file file' : SourceFile} {env env' : String → Nat}
  {inside inside' : Module → (String → Nat) → Prop} {i : Instance}

/-- Declarations and values are the same for some names of two modules. -/
def Module.Shared (names : List String) (a a' : Module) (env env' : String → Nat) : Prop :=
  ∀ s ∈ names, a.decl? s = a'.decl? s ∧ env s = env' s

theorem Module.Shared.sameOn {names : List String} (h : Module.Shared names a a' env env') :
    SameOn names a.bits env a'.bits env' := by
  intro s hs
  obtain ⟨hdecl, hvalue⟩ := h s hs
  exact ⟨by rw [Module.bits, Module.bits, hdecl], hvalue⟩

theorem Module.Agree.port {x x' : Module} {inner inner' : String → Nat}
    (h : x.Agree x' inner inner') (hshape : x.SameShape x') {port : Decl}
    (hport : port ∈ x.portDecls) : inner' port.name = inner port.name := by
  have hport' := hport
  rw [← hshape.portDecls] at hport'
  refine h port.name ?_ ?_
  · rw [decl?_of_mem_portDecls hport]
    rfl
  · rw [decl?_of_mem_portDecls hport']
    rfl

/-- An instance that holds for the values of one module holds for those of another that are the
same for the names in its connections, where instances of a module have the same behaviours at
their ports. -/
theorem Instance.Holds.transfer
    (hmodules : ∀ name, Option.Rel (Counterpart m m') (file.module? name) (file'.module? name))
    (hshape : m.SameShape m')
    (hinside : ∀ {x x' inner}, Counterpart m m' x x' → inside x inner →
      ∃ inner', inside' x' inner' ∧ x.Agree x' inner inner')
    (hshared : Module.Shared i.names a a' env env') (h : i.Holds file inside a env) :
    i.Holds file' inside' a' env' := by
  have hexpr : ∀ {e}, e ∈ i.connections.exprs → Module.Shared e.names a a' env env' :=
    fun he s hs => hshared s (List.mem_flatMap.2 ⟨_, he, hs⟩)
  cases h with
  | @gate gate y pos inputs d hgate hconnections hdecl hvalue =>
    rw [hconnections, Connections.exprs] at hexpr
    obtain ⟨hdecl', hy⟩ := hexpr (.head _) y (.head _)
    refine .gate hgate hconnections (hdecl'.symm.trans hdecl) ?_
    have hinputs : (inputs.map fun e => e.cut a.bits env d.width.bits) =
        inputs.map fun e => e.cut a'.bits env' d.width.bits :=
      List.map_congr_left fun e he => e.cut_congr _ (hexpr (.tail _ he)).sameOn
    rw [← hy, hvalue, hinputs]
  | @inlined child connected inner hgate hchild hconnections hmeets hbehaves =>
    have hmodule := hmodules i.module
    rw [hchild] at hmodule
    generalize hchild' : file'.module? i.module = found at hmodule
    cases hmodule with
    | @some _ child' hcounterpart =>
      have hsame := hcounterpart.sameShape hshape
      obtain ⟨inner', hbehaves', hagree⟩ := hinside hcounterpart hbehaves
      refine .inlined hgate hchild' ((connectedPorts_of_sameShape hsame).trans hconnections)
        ⟨fun port hport hdirection e he => ?_, fun port hport hdirection y pos hy => ?_⟩ hbehaves'
      · rw [hsame.portDecls] at hport
        have hmem := hexpr (mem_exprs_of_findEntry hconnections (Option.join_eq_some_iff.2 he))
        rw [hagree.port hsame hport, hmeets.input port hport hdirection e he,
          e.ownBits_congr hmem.sameOn, e.value_congr _ hmem.sameOn]
      · rw [hsame.portDecls] at hport
        obtain ⟨hdecl, hvalue⟩ :=
          hexpr (mem_exprs_of_findEntry hconnections (Option.join_eq_some_iff.2 hy)) y (.head _)
        rw [← hvalue, hmeets.output port hport hdirection y pos hy, hagree.port hsame hport,
          Module.bits, Module.bits, hdecl]

/-! ## Behaviours -/

/-- By induction on the depth: where a behaviour of the replaced module gives one of its
replacement, a behaviour of any module gives one of its counterpart. -/
theorem behaves_counterpart
    (hmodules : ∀ name, Option.Rel (Counterpart m m') (file.module? name) (file'.module? name))
    (hshape : m.SameShape m')
    (hreplaced : ∀ {inside inside' env},
      (∀ {i : Instance} {env env'}, Module.Shared i.names m m' env env' →
        i.Holds file inside m env → i.Holds file' inside' m' env') →
      m.Holds file inside env → ∃ env', m'.Holds file' inside' env' ∧ m.Agree m' env env')
    (depth : Nat) {x x' : Module} (hx : Counterpart m m' x x') (h : file.Behaves depth x env) :
    ∃ env', file'.Behaves depth x' env' ∧ x.Agree x' env env' := by
  induction depth generalizing x x' env with
  | zero => exact h.elim
  | succ depth ih =>
    cases hx with
    | same =>
      refine ⟨env, ⟨h.fits, h.assigns, fun i hi => ?_⟩, fun _ _ _ => rfl⟩
      exact (h.instances i hi).transfer hmodules hshape (fun hx hbehaves => ih hx hbehaves)
        fun _ _ => ⟨rfl, rfl⟩
    | replaced =>
      exact hreplaced (fun hshared hholds =>
        hholds.transfer hmodules hshape (fun hx hbehaves => ih hx hbehaves) hshared) h

end

/-! ## Ports of netlists -/

/-- The names of the ports with a direction. -/
def portNames (direction : Direction) (ports : List Decl) : List String :=
  (ports.filter fun port => port.direction = some direction).map Decl.name

section
variable {n n' : Netlist} {m : Module}

theorem declarePorts_ports {ports : List Decl} (h : declarePorts ports n = .ok n') :
    n'.inputs = n.inputs ++ portNames .input ports ∧
      n'.outputs = n.outputs ++ portNames .output ports := by
  induction ports generalizing n with
  | nil =>
    cases h
    exact ⟨(List.append_nil _).symm, (List.append_nil _).symm⟩
  | cons port rest ih =>
    obtain ⟨name, direction, w, pos⟩ := port
    rw [declarePorts] at h
    dsimp only at h
    split at h
    · obtain ⟨k, hk, h⟩ := ok_of_bind h
      obtain ⟨-, w', -, rfl⟩ := addInput_eq_ok hk
      obtain ⟨hinputs, houtputs⟩ := ih h
      exact ⟨hinputs.trans (List.append_assoc _ _ _), houtputs⟩
    · obtain ⟨k, hk, h⟩ := ok_of_bind h
      obtain ⟨-, w', -, rfl⟩ := addOutput_eq_ok hk
      obtain ⟨hinputs, houtputs⟩ := ih h
      exact ⟨hinputs, houtputs.trans (List.append_assoc _ _ _)⟩
    · exact ih h

/-- The netlist starts with the ports of the module and no others. -/
theorem start_ports (h : start m = .ok n) :
    n.inputs = portNames .input m.portDecls ∧ n.outputs = portNames .output m.portDecls := by
  have hwires : ∀ (wires : List Decl) (n : Netlist),
      (wires.foldl (fun n d => n.setWidth d.name d.width) n).inputs = n.inputs ∧
        (wires.foldl (fun n d => n.setWidth d.name d.width) n).outputs = n.outputs := by
    intro wires
    induction wires with
    | nil => exact fun n => ⟨rfl, rfl⟩
    | cons d rest ih => exact fun n => ih (n.setWidth d.name d.width)
  rw [start] at h
  obtain ⟨hinputs, houtputs⟩ := declarePorts_ports h
  rw [(hwires _ _).1] at hinputs
  rw [(hwires _ _).2] at houtputs
  exact ⟨hinputs, houtputs⟩

theorem mem_portDecls_of_portNames {direction : Direction} {s : String}
    (h : s ∈ portNames direction m.portDecls) : ∃ port ∈ m.portDecls, port.name = s := by
  obtain ⟨port, hport, hname⟩ := List.mem_map.1 h
  exact ⟨port, List.mem_of_mem_filter hport, hname⟩

end

/-- The netlist of a file: its ports are those of the top module with their widths. -/
structure Elaborates (m : Module) (n : Netlist) : Prop where
  coherent : n.Coherent
  legal : n.Legal
  inputs : n.inputs = portNames .input m.portDecls
  outputs : n.outputs = portNames .output m.portDecls
  width : ∀ port ∈ m.portDecls, n.width port.name = port.width

section
variable {file file' : SourceFile} {top : Option String} {m m' : Module} {n n' : Netlist}
  {cells : CellFunctions}

theorem elaborates_of_elaborate (hfile : file.WellFormed)
    (hdistinct : file.DistinctInstances) (htop : file.top top = .ok m)
    (h : elaborate file top = .ok n) : Elaborates m n := by
  obtain ⟨m', n₀, n₁, hm, hstart, hbody, rfl, hvalidate⟩ := elaborate_eq_ok h
  cases htop.symm.trans hm
  have hmem := mem_of_top htop
  have hdeclared := declared_of_start (hfile m hmem) hstart
  have hlater := (moduleBody_realizes hfile hdistinct file.modules.length hmem hdeclared.fits
    (hdeclared.free (hfile m hmem)) hbody).later
  have hcoherent := (hlater.coherent hdeclared.coherent).rebuildWires
  obtain ⟨hinputs, houtputs⟩ := start_ports hstart
  refine ⟨hcoherent, hcoherent.legal_of_validate hvalidate, hlater.inputs.trans hinputs,
    hlater.outputs.trans houtputs, fun port hport => ?_⟩
  have hdecl := List.mem_of_find?_eq_some (decl?_of_mem_portDecls hport)
  obtain ⟨htaken, hwidth⟩ := hdeclared.declared port hdecl trivial
  exact (hlater.width _ htaken).trans hwidth

/-- A netlist whose top module has the same ports as another and, for each behaviour of this, one
with the same values at the ports puts out what the other does. -/
theorem implements_of_behaves (hn : Elaborates m n) (hn' : Elaborates m' n')
    (hshape : m.SameShape m')
    (hsound : ∀ {v}, Satisfies n cells v → ∃ v', Satisfies n' cells v' ∧
      m.Agree m' (m.reading v) (m'.reading v')) : Implements cells n n' := by
  have hport : ∀ s, s ∈ n.inputs ∨ s ∈ n.outputs → ∃ port ∈ m.portDecls, port.name = s := by
    rw [hn.inputs, hn.outputs]
    exact fun s hs => hs.elim mem_portDecls_of_portNames mem_portDecls_of_portNames
  have hwidth : ∀ s, s ∈ n.inputs ∨ s ∈ n.outputs → n'.width s = n.width s := by
    intro s hs
    obtain ⟨port, hmem, rfl⟩ := hport s hs
    rw [hn.width port hmem, hn'.width port (by rwa [hshape.portDecls])]
  refine ⟨hn'.coherent, hn'.legal, ?_, ?_, hwidth, fun given v hv => ?_⟩
  · rw [hn'.inputs, hn.inputs, hshape.portDecls]
  · rw [hn'.outputs, hn.outputs, hshape.portDecls]
  · -- simulation finds values that also fit where nothing is defined
    obtain ⟨e, values, he, hvalues, hfind⟩ := hn.legal.simulate_of_solution hn.coherent hv
    have hdefined : ∀ s, n.isDefined s = true → Valuation.ofValues values s = v s := by
      intro s hs
      rw [Valuation.ofValues, hfind s hs]
      rfl
    obtain ⟨v', hv', hagree⟩ := hsound (satisfies_of_simulate hn.legal hn.coherent he hvalues)
    have hsame : ∀ s, s ∈ n.inputs ∨ s ∈ n.outputs → v' s = v s := by
      intro s hs
      obtain ⟨port, hmem, rfl⟩ := hport s hs
      have hvalue := hagree.port hshape hmem
      rw [reading_of_decl? (decl?_of_mem_portDecls hmem),
        reading_of_decl? (decl?_of_mem_portDecls (hshape.portDecls.symm ▸ hmem)),
        hdefined _ (hs.elim isDefined_of_input (hn.legal.driven _))] at hvalue
      exact UInt64.toNat_inj.1 hvalue
    refine ⟨v', ⟨fun i hi => ?_, hv'.node⟩, fun o ho => hsame o (.inr ho)⟩
    have hi : i ∈ n.inputs := by
      rwa [hn.inputs, ← hshape.portDecls, ← hn'.inputs]
    obtain ⟨x, hx, hvalue⟩ := hv.input i hi
    exact ⟨x, hx, by rw [hsame i (.inl hi), hwidth i (.inl hi), hvalue]⟩

end

/-! ## Netlists of counterparts -/

theorem SourceFile.Replaces.distinctInstances {m m' : Module} {file file' : SourceFile}
    (h : SourceFile.Replaces m m' file file') (hshape : m.SameShape m')
    (hdistinct : file.DistinctInstances) : file'.DistinctInstances := by
  rw [SourceFile.DistinctInstances] at hdistinct ⊢
  have hall := List.forall_mem_map (f := Module.instances) (l := file.modules)
    (P := fun is => (is.filterMap Instance.name).Nodup)
  rw [← h.instances hshape, List.forall_mem_map] at hall
  exact hall.2 hdistinct

/-- Where every behaviour of a replaced module gives one of its replacement, the netlist of the
second file puts out what that of the first does. -/
theorem implements_of_replaces {m m' : Module} {file file' : SourceFile} {top : Option String}
    {n n' : Netlist} {cells : CellFunctions} (hfiles : SourceFile.Replaces m m' file file')
    (hshape : m.SameShape m') (hfile : file.WellFormed) (hfile' : file'.WellFormed)
    (hdistinct : file.DistinctInstances) (h : elaborate file top = .ok n)
    (h' : elaborate file' top = .ok n')
    (hreplaced : ∀ {inside inside' env},
      (∀ {i : Instance} {env env'}, Module.Shared i.names m m' env env' →
        i.Holds file inside m env → i.Holds file' inside' m' env') →
      m.Holds file inside env → ∃ env', m'.Holds file' inside' env' ∧ m.Agree m' env env') :
    Implements cells n n' := by
  obtain ⟨x, -, -, htop, -⟩ := elaborate_eq_ok h
  obtain ⟨x', htop', hx⟩ := hfiles.top hshape htop
  have hdistinct' := hfiles.distinctInstances hshape hdistinct
  refine implements_of_behaves (elaborates_of_elaborate hfile hdistinct htop h)
    (elaborates_of_elaborate hfile' hdistinct' htop' h') (hx.sameShape hshape) fun {v} hv => ?_
  have hbehaves := (elaborate_behaves hfile hdistinct htop h cells (x.reading v)).2 ⟨v, hv, rfl⟩
  obtain ⟨env', hbehaves', hagree⟩ :=
    behaves_counterpart (hfiles.module? hshape) hshape hreplaced _ hx hbehaves
  rw [hfiles.length] at hbehaves'
  obtain ⟨v', hv', rfl⟩ :=
    (elaborate_behaves hfile' hdistinct' htop' h' cells env').1 hbehaves'
  exact ⟨v', hv', hagree⟩

end GateSynth.Verilog
