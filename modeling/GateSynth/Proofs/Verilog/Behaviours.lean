import GateSynth.Proofs.Verilog.Determination

/-!
# Behaviours of a source file

The reference for whole designs. A behaviour of a module gives every name of it a number that fits
its width, so that every assignment and gate holds and every instance has a behaviour of its own
that meets this one at the ports (`SourceFile.Behaves`). It says nothing about nodes, temporary
signals or flattened names.

The netlist of a file has exactly these behaviours (`elaborate_behaves`): the values that satisfy it
are one for the top module, and every behaviour of the top module extends to values that satisfy the
netlist. The proof goes step by step through elaboration, by induction on the depth; what a step
asks of the values in its scope is `Realizes`.
-/

namespace GateSynth.Verilog

open Elaborate Netlist

/-! ## Behaviours -/

/-- The target of an assignment has the value of the expression, cut to its width. -/
def Module.Assigned (m : Module) (env : String → Nat) (a : Assign) : Prop :=
  ∃ d, m.decl? a.target = some d ∧ env a.target =
    a.expr.value m.bits env (max d.width.bits (a.expr.ownBits m.bits)) % span d.width.bits

/-- The values inside an instance meet those around it at the ports that are connected. -/
structure Module.Meets (m child : Module) (connected : List (String × Option Expr))
    (env inner : String → Nat) : Prop where
  input : ∀ port ∈ child.portDecls, port.direction = some .input →
    ∀ e, Table.findEntry port.name connected = some (some e) → inner port.name =
      e.value m.bits env (max port.width.bits (e.ownBits m.bits)) % span port.width.bits
  output : ∀ port ∈ child.portDecls, port.direction ≠ some .input →
    ∀ name pos, Table.findEntry port.name connected = some (some (.ident name pos)) →
      env name = inner port.name % span (m.bits name)

/-- An instance holds: a gate gives its output the number of its inputs, and a module of the file
has values inside that meet those around it. There are no values for other instances. -/
inductive Instance.Holds (file : SourceFile) (inside : Module → (String → Nat) → Prop) (m : Module)
    (env : String → Nat) (i : Instance) : Prop
  | gate {gate : Gate} {y : String} {pos : Position} {inputs : List Expr} {d : Decl}
    (isGate : Gate.ofName? i.module = some gate)
    (connections : i.connections = .positional (.ident y pos :: inputs))
    (decl : m.decl? y = some d)
    (value : env y = gate.number (span d.width.bits)
      (inputs.map fun e => e.cut m.bits env d.width.bits))
  | inlined {child : Module} {connected : List (String × Option Expr)} {inner : String → Nat}
    (noGate : Gate.ofName? i.module = none) (module : file.module? i.module = some child)
    (connections : connectedPorts i child = .ok connected)
    (meets : m.Meets child connected env inner) (behaves : inside child inner)

/-- The values fit their widths and all statements hold. -/
structure Module.Holds (file : SourceFile) (inside : Module → (String → Nat) → Prop) (m : Module)
    (env : String → Nat) : Prop where
  fits : ∀ name, env name < span (m.bits name)
  assigns : ∀ a ∈ m.assigns, m.Assigned env a
  instances : ∀ i ∈ m.instances, i.Holds file inside m env

/-- The values are a behaviour of a module whose instances nest no deeper than `depth`. -/
def SourceFile.Behaves (file : SourceFile) : (depth : Nat) → Module → (String → Nat) → Prop
  | 0, _, _ => False
  | depth + 1, m, env => m.Holds file (file.Behaves depth) env

namespace Elaborate

variable {file : SourceFile} {depth : Nat} {stack : List String} {scope : Scope} {site : Site}
  {i : Instance} {n n' k : Netlist} {cells : CellFunctions} {u u' : Valuation}
  {P Q : (String → Nat) → Prop}

/-! ## What a step asks for -/

/-- The step from `n` to `n'` asks for exactly this of the values in the scope. -/
structure Realizes (scope : Scope) (n n' : Netlist) (P : (String → Nat) → Prop) : Prop where
  later : Later n n'
  sound : ∀ {N cells v}, Later n' N → Satisfies N cells v → P (scope.value N v)
  complete : ∀ {cells u}, Closed n → Satisfies n cells u → P (scope.value n u) →
    Closed n' ∧ ∃ u', Satisfies n' cells u' ∧ Retains n u u'

namespace Realizes

theorem refl (n : Netlist) (hP : ∀ env, P env) : Realizes scope n n P :=
  ⟨.refl n, fun _ _ => hP _, fun {_ u} hclosed hu _ => ⟨hclosed, u, hu, fun _ _ => rfl⟩⟩

theorem congr (h : Realizes scope n n' P) (hPQ : ∀ env, P env ↔ Q env) : Realizes scope n n' Q :=
  ⟨h.later, fun hN hv => (hPQ _).1 (h.sound hN hv),
    fun hclosed hu hQ => h.complete hclosed hu ((hPQ _).2 hQ)⟩

theorem trans (hfits : scope.Fits n) (h : Realizes scope n k P) (h' : Realizes scope k n' Q) :
    Realizes scope n n' fun env => P env ∧ Q env := by
  refine ⟨h.later.trans h'.later, fun hN hv => ⟨h.sound (h'.later.trans hN) hv, h'.sound hN hv⟩,
    fun {cells u} hclosed hu hPQ => ?_⟩
  obtain ⟨hk, u₁, hu₁, hretains⟩ := h.complete hclosed hu hPQ.1
  have hQ : Q (scope.value k u₁) := by
    rw [hfits.value_of_retains h.later hretains]
    exact hPQ.2
  obtain ⟨hn', u₂, hu₂, hretains'⟩ := h'.complete hk hu₁ hQ
  exact ⟨hn', u₂, hu₂, hretains.trans h.later hretains'⟩

end Realizes

/-- A statement that determines a name of the scope. -/
theorem Determines.realizes {d y : String} {line : Nat} {x : (String → Nat) → Nat}
    (hfits : scope.Fits n) (hdest : scope.dest y line = .ok d)
    (h : Determines n n' d fun N v => x (scope.value N v)) :
    Realizes scope n n' fun env => env y = x env := by
  have hread := Scope.read_of_dest hdest
  refine ⟨h.later, fun {N cells v} hN hv => ?_, fun {cells u} hclosed hu hy => ?_⟩
  · rw [Scope.value_of_read hread]
    exact h.sound hN hv
  · rw [Scope.value_of_read hread] at hy
    refine ⟨h.closed hclosed, h.exists_values hclosed hu (fun hk hretains => ?_) hy⟩
    rw [hfits.value_of_retains hk hretains]

theorem assign_realizes {a : Assign} (hfits : scope.Fits n)
    (h : (assign scope a).run n = .ok ((), n')) :
    Realizes scope n n' (scope.module.Assigned · a) := by
  obtain ⟨d, decl, hdest, hdecl, hdetermines⟩ := assign_determines hfits h
  have hvalue : Realizes scope n n' fun env => env a.target = a.expr.value scope.module.bits env
      (max decl.width.bits (a.expr.ownBits scope.module.bits)) % span decl.width.bits :=
    Determines.realizes hfits hdest hdetermines
  refine hvalue.congr fun env => ⟨fun hvalue => ⟨decl, hdecl, hvalue⟩, fun hassigned => ?_⟩
  obtain ⟨decl', hdecl', hvalue⟩ := hassigned
  obtain rfl : decl = decl' := Option.some.inj (hdecl.symm.trans hdecl')
  exact hvalue

theorem assigns_realize {assigns : List Assign} (hfits : scope.Fits n)
    (h : (assigns.forM (assign scope)).run n = .ok ((), n')) :
    Realizes scope n n' fun env => ∀ a ∈ assigns, scope.module.Assigned env a := by
  induction assigns generalizing n with
  | nil =>
    cases h
    exact .refl _ fun _ => List.forall_mem_nil _
  | cons a rest ih =>
    obtain ⟨_, m, ha, h⟩ := run_of_bind h
    have hfirst := assign_realizes hfits ha
    exact (hfirst.trans hfits (ih (hfits.mono hfirst.later) h)).congr fun env =>
      List.forall_mem_cons.symm

theorem gateInstance_realizes {gate : Gate} {inside : Module → (String → Nat) → Prop}
    (hfits : scope.Fits n) (hgate : Gate.ofName? i.module = some gate)
    (h : (gateInstance scope site i gate).run n = .ok ((), n')) :
    Realizes scope n n' (i.Holds file inside scope.module) := by
  obtain ⟨y, pos, inputs, d, decl, hconnections, hdest, hdecl, hdetermines⟩ :=
    gateInstance_determines hfits h
  have hvalue : Realizes scope n n' fun env => env y = gate.number (span decl.width.bits)
      (inputs.map fun e => e.cut scope.module.bits env decl.width.bits) :=
    Determines.realizes hfits hdest hdetermines
  refine hvalue.congr fun env => ⟨.gate hgate hconnections hdecl, fun hholds => ?_⟩
  cases hholds with
  | gate hgate' hconnections' hdecl' hvalue =>
    cases hgate.symm.trans hgate'
    cases hconnections.symm.trans hconnections'
    cases hdecl.symm.trans hdecl'
    exact hvalue
  | inlined hgate' => cases hgate.symm.trans hgate'

theorem node_of_emit {kind : Kind} {fanins : List Fanin} {w : Width} {dest : Option String}
    {f : Fanin} (h : (emit site kind fanins w dest).run n = .ok (f, n')) :
    ∃ node ∈ n'.nodes, node.kind = kind := by
  rcases emit_run h with ⟨-, id, output, -, -, hnew⟩ | ⟨id, d, -, -, -, hadd⟩
  · exact ⟨_, hnew.mem_nodes.2 (.inr rfl), rfl⟩
  · refine ⟨⟨id, kind, fanins, d⟩, ?_, rfl⟩
    rw [nodes_of_addNode hadd]
    exact List.mem_append_right _ (.head _)

theorem node_of_blackBox (hfits : scope.Fits n) (h : (blackBox scope site i).run n = .ok ((), n')) :
    ∃ node ∈ n'.nodes, node.kind = .module i.module := by
  rw [blackBox] at h
  obtain ⟨terminals, -, h⟩ := run_of_lift_bind h
  split at h
  · obtain ⟨d, hd, h⟩ := run_of_lift_bind h
    obtain ⟨w, -, h⟩ := run_of_lift_bind h
    obtain ⟨fanins, m, hfanins, h⟩ := run_of_bind h
    obtain ⟨f, m', hf, hdrive⟩ := run_of_bind h
    obtain ⟨node, hnode, hkind⟩ := node_of_emit hf
    have hm := (Grows.lowerEach scope site _).weaken (hfits.drives.ready hd) hfanins
    have hmodule : Elaborated (.module i.module) := trivial
    have hm' := Grows.emit hmodule _ _ _ _
      (fun _ hd' => hm.taken _ (hfits.drives.ready hd _ hd')) hf
    have hlast := Grows.drive _ _ _ _
      (fun _ hd' => hm'.taken _ (hm.taken _ (hfits.drives.ready hd _ hd'))) hdrive
    exact ⟨node, hlast.nodes node hnode, hkind⟩
  · cases h

/-- Nothing satisfies a netlist with a module that has no definition. -/
theorem blackBox_realizes {inside : Module → (String → Nat) → Prop} (hfits : scope.Fits n)
    (hgate : Gate.ofName? i.module = none) (hmodule : file.module? i.module = none)
    (h : (blackBox scope site i).run n = .ok ((), n')) :
    Realizes scope n n' (i.Holds file inside scope.module) := by
  obtain ⟨_, _, hgrown⟩ := blackBox_grown hfits.drives h
  obtain ⟨node, hmem, hkind⟩ := node_of_blackBox hfits h
  refine ⟨hgrown.later, fun {N cells v} hN hv => ?_, fun _ _ hholds => ?_⟩
  · have hresult := hv.node node (hN.nodes node hmem)
    rw [Valuation.result, hkind] at hresult
    cases hresult
  · cases hholds with
    | gate hgate' => cases hgate.symm.trans hgate'
    | inlined _ hmodule' => cases hmodule.symm.trans hmodule'

/-! ## Inside an instance -/

section
variable {path : String} {connected : List (String × Option Expr)} {wiring wiring' : Wiring}
  {child : Module} {port : Decl}

theorem Fills.connectPort :
    Fills scope.Sees unread (connectPort scope site i path connected wiring port) := by
  rw [Elaborate.connectPort]
  split
  · refine (Fills.lift _).bind fun own => ((Fills.lower scope site _ _).mono fun _ => .inl).bind
      fun value => Fills.get.bind fun m => ?_
    dsimp only
    split
    · exact .idle _
    · exact (Fills.operator .buf (by simp [Reads]) _ _).bind fun _ => .idle _
  · exact .throw _
  · refine (Fills.lift _).bind fun outer => Fills.get.bind fun m => ?_
    split
    · exact .idle _
    · exact .idle _
  · exact .throw _
  · exact .idle _

theorem Fills.connectPorts {ports : List Decl} :
    Fills scope.Sees unread (connectPorts scope site i path connected ports wiring) := by
  induction ports generalizing wiring with
  | nil => exact .idle _
  | cons port rest ih => exact Fills.connectPort.bind fun _ => ih.mono fun _ => .inl

/-- A new name can have any value of its width. -/
theorem satisfies_setWidth {s : String} {w : Width} {x : Word} (hfree : n.isTaken s = false)
    (hx : w.truncate x = x) (hclosed : Closed n) (hu : Satisfies n cells u) :
    Satisfies (n.setWidth s w) cells (Function.update u s x) ∧
      Retains n u (Function.update u s x) := by
  have hlater : Later n (n.setWidth s w) := .of_setWidth hfree trivial
  have hretains : Retains n u (Function.update u s x) := by
    intro t ht
    refine Function.update_of_ne ?_ _ _
    rintro rfl
    rw [hfree] at ht
    cases ht
  refine ⟨⟨fun node hnode => hretains.obeys hlater hclosed hu hnode, fun t => ?_⟩, hretains⟩
  rw [width_setWidth]
  split
  · next heq => rw [heq, Function.update_self, hx]
  · next hne => rw [Function.update_of_ne hne, hu.fits]

/-- The signals of an instance that are its own can have any values of their widths. -/
theorem declareOwn_exists {bindings : Table String Binding} {decls : List Decl}
    {inner : String → Nat} (hdecls : (decls.map Decl.name).Nodup)
    (hfree : ∀ d ∈ decls, n.isTaken (path ++ d.name) = false)
    (hinner : ∀ d ∈ decls, inner d.name < span d.width.bits) (hclosed : Closed n)
    (hu : Satisfies n cells u) (h : (declareOwn path bindings decls).run n = .ok ((), n')) :
    Closed n' ∧ ∃ u', Satisfies n' cells u' ∧ Retains n u u' ∧
      ∀ d ∈ decls, bindings.find? d.name = none → (u' (path ++ d.name)).toNat = inner d.name := by
  induction decls generalizing n u with
  | nil =>
    cases h
    exact ⟨hclosed, u, hu, fun _ _ => rfl, List.forall_mem_nil _⟩
  | cons d rest ih =>
    obtain ⟨hnew, hrest⟩ := List.nodup_cons.1 hdecls
    obtain ⟨hfreeFirst, hfreeRest⟩ := List.forall_mem_cons.1 hfree
    obtain ⟨hfirst, hinner⟩ := List.forall_mem_cons.1 hinner
    have hothers : ∀ other ∈ rest, path ++ other.name ≠ path ++ d.name := by
      intro other hmem heq
      exact hnew (String.append_right_inj path |>.1 heq ▸ List.mem_map_of_mem hmem)
    rw [declareOwn] at h
    dsimp only at h
    split at h
    · next hbound =>
      obtain ⟨hclosed', u', hu', hretains, hvalues⟩ := ih hrest hfreeRest hinner hclosed hu h
      refine ⟨hclosed', u', hu', hretains, List.forall_mem_cons.2 ⟨fun hnone => ?_, hvalues⟩⟩
      rw [Table.contains, hnone] at hbound
      cases hbound
    · obtain ⟨_, _, hset, h⟩ := run_of_bind h
      cases hset
      have hlater : Later n (n.setWidth (path ++ d.name) d.width) := .of_setWidth hfreeFirst trivial
      have htoNat : (UInt64.ofNat (inner d.name)).toNat = inner d.name :=
        UInt64.toNat_ofNat_of_lt' (Nat.lt_of_lt_of_le hfirst d.width.values_le)
      obtain ⟨hu₁, hretains⟩ := satisfies_setWidth (w := d.width) (x := UInt64.ofNat (inner d.name))
        hfreeFirst (UInt64.toNat_inj.1 (by
          rw [Width.toNat_truncate, htoNat]
          exact Nat.mod_eq_of_lt hfirst)) hclosed hu
      have hclosed₁ : Closed (n.setWidth (path ++ d.name) d.width) :=
        fun node hnode f hf => hlater.taken _ (hclosed node hnode f hf)
      obtain ⟨hclosed', u', hu', hretains', hvalues⟩ := ih hrest (fun other hmem => by
        rw [Bool.eq_false_iff, ne_eq, isTaken_setWidth, not_or]
        exact ⟨hothers other hmem, by rw [hfreeRest other hmem]; decide⟩) hinner hclosed₁ hu₁ h
      refine ⟨hclosed', u', hu', hretains.trans hlater hretains',
        List.forall_mem_cons.2 ⟨fun _ => ?_, hvalues⟩⟩
      rw [hretains' _ ((isTaken_setWidth n d.width).2 (.inl rfl)), Function.update_self, htoNat]

/-- An output of an instance drives a signal of another width through a buffer. -/
structure Buffered (scope : Scope) (path : String) (connected : List (String × Option Expr))
    (n : Netlist) (port : Decl) (b : String × String) : Prop where
  direction : port.direction ≠ some .input
  dest : ∃ y pos line, Table.findEntry port.name connected = some (some (.ident y pos)) ∧
    scope.dest y line = .ok b.1
  own : b.2 = path ++ port.name
  width : n.width b.1 ≠ port.width

theorem connectPort_buffers
    (h : (connectPort scope site i path connected wiring port).run n = .ok (wiring', n')) :
    ∀ b ∈ wiring'.buffers, b ∈ wiring.buffers ∨ Buffered scope path connected n port b := by
  rw [connectPort] at h
  split at h
  · obtain ⟨own, -, h⟩ := run_of_lift_bind h
    obtain ⟨f, k, -, h⟩ := run_of_bind h
    obtain ⟨_, _, hget, h⟩ := run_of_bind h
    cases hget
    dsimp only at h
    split at h
    · cases h
      exact fun b hb => .inl hb
    · obtain ⟨g, _, -, h⟩ := run_of_bind h
      cases h
      exact fun b hb => .inl hb
  · cases h
  · next y pos hexpr hdirection =>
    obtain ⟨outer, houter, h⟩ := run_of_lift_bind h
    obtain ⟨_, _, hget, h⟩ := run_of_bind h
    cases hget
    split at h
    · cases h
      exact fun b hb => .inl hb
    · next hwidth =>
      cases h
      refine fun b hb => (List.mem_append.1 hb).imp_right fun hb => ?_
      obtain rfl := List.mem_singleton.1 hb
      exact ⟨hdirection, ⟨y, pos, _, Option.join_eq_some_iff.1 hexpr, houter⟩, rfl, hwidth⟩
  · cases h
  · cases h
    exact fun b hb => .inl hb

theorem connectPorts_buffers {ports : List Decl} (hfits : scope.Fits n)
    (h : (connectPorts scope site i path connected ports wiring).run n = .ok (wiring', n')) :
    ∀ b ∈ wiring'.buffers, b ∈ wiring.buffers ∨
      ∃ port ∈ ports, Buffered scope path connected n port b := by
  induction ports generalizing n wiring with
  | nil =>
    cases h
    exact fun b hb => .inl hb
  | cons port rest ih =>
    obtain ⟨wired, m, hport, h⟩ := run_of_bind h
    have hlater := (Fills.connectPort hfits.sees hport).1.later
    intro b hb
    rcases ih (hfits.mono hlater) h b hb with hb | ⟨other, hother, hbuffered⟩
    · exact (connectPort_buffers hport b hb).imp_right fun hb => ⟨port, .head _, hb⟩
    · obtain ⟨y, pos, line, hexpr, hdest⟩ := hbuffered.dest
      have htaken : n.isTaken b.1 = true := (hfits (Scope.read_of_dest hdest)).1
      refine .inr ⟨other, .tail _ hother, hbuffered.direction, hbuffered.dest, hbuffered.own, ?_⟩
      rw [← hlater.width _ htaken]
      exact hbuffered.width

/-- Such an output is a signal of the instance itself. -/
theorem Buffered.free {m : Netlist} {b : String × String} (hfits : scope.Fits n)
    (hconnects : Connects scope path connected child.portDecls n m ⟨.empty, []⟩ wiring)
    (hport : port ∈ child.portDecls) (h : Buffered scope path connected n port b) :
    wiring.bindings.find? port.name = none := by
  obtain ⟨y, pos, line, hexpr, hdest⟩ := h.dest
  cases hconnects.wired port hport with
  | input direction => exact absurd direction h.direction
  | direct _ expr dest _ width =>
    cases hexpr.symm.trans expr
    have hread := Scope.read_of_dest hdest
    have htaken : n.isTaken b.1 = true := (hfits hread).1
    cases (Scope.read_line hread 0).symm.trans (Scope.read_line (Scope.read_of_dest dest) 0)
    rw [hconnects.grows.width _ htaken] at width
    exact absurd width h.width
  | buffered _ _ _ free _ => exact free
  | unconnected _ _ free => exact free

/-- The signal around the instance has the value that the buffer gives it, once the output has the
value that it has inside. -/
theorem Buffered.value_of_meets {m : Netlist} {u : Valuation} {b : String × String}
    {inner : String → Nat} (h : Buffered scope path connected n port b) (hfits : scope.Fits n)
    (hport : port ∈ child.portDecls) (hm : Later n m)
    (hmeets : scope.module.Meets child connected (scope.value m u) inner)
    (hown : (u b.2).toNat = inner port.name) :
    (u b.1).toNat = (u b.2).toNat % (m.width b.1).values := by
  obtain ⟨y, pos, line, hexpr, hdest⟩ := h.dest
  have hread := Scope.read_of_dest hdest
  obtain ⟨houter, decl, hdecl, hwidth⟩ := hfits hread
  have hy := hmeets.output port hport h.direction y pos hexpr
  rw [Scope.value_of_read hread, Module.bits_of_decl? hdecl] at hy
  have hout : m.width b.1 = decl.width := (hm.width _ houter).trans hwidth
  rw [hout, hown]
  exact hy

/-- The names inside an instance have the values of a behaviour that meets the values around it,
once its own signals have them. -/
theorem value_of_meets {m : Netlist} {env inner : String → Nat} (hfits : scope.Fits n)
    (hconnects : Connects scope path connected child.portDecls n m ⟨.empty, []⟩ wiring)
    (hn' : Later m n') (hfits' : Scope.Fits ⟨child, path, wiring.bindings⟩ n')
    (hu : Satisfies n' cells u) (henv : scope.value n' u = env)
    (hmeets : scope.module.Meets child connected env inner)
    (hinner : ∀ name, inner name < span (child.bits name))
    (hown : ∀ d ∈ child.decls, wiring.bindings.find? d.name = none →
      (u (path ++ d.name)).toNat = inner d.name) :
    Scope.value ⟨child, path, wiring.bindings⟩ n' u = inner := by
  funext name
  cases hd : child.decl? name with
  | none =>
    -- no bits, so both are zero
    have hbits : child.bits name = 0 := by rw [Module.bits, hd]; rfl
    have hvalue := Scope.value_lt hfits' (.refl n') hu name
    have hname := hinner name
    rw [Scope.bits, hbits] at hvalue
    rw [hbits] at hname
    have hspan : span 0 = 1 := rfl
    omega
  | some d =>
    obtain rfl : d.name = name := by simpa using List.find?_some hd
    cases hbinding : wiring.bindings.find? d.name with
    | none =>
      rw [Scope.value_of_read (read_of_free hbinding hd 0)]
      exact hown d (List.mem_of_find?_eq_some hd) hbinding
    | some binding =>
      have hport : d.name ∈ child.portDecls.map Decl.name := by
        by_contra hother
        rw [hconnects.other _ hother] at hbinding
        cases hbinding
      obtain ⟨port, hport, hname⟩ := List.mem_map.1 hport
      have hdecl := decl?_of_mem_portDecls hport
      rw [hname] at hdecl
      obtain rfl : d = port := Option.some.inj (hd.symm.trans hdecl)
      cases hconnects.wired d hport with
      | input direction expr =>
        rw [input_of_connects hconnects hn' hu hport direction expr, henv]
        exact (hmeets.input d hport direction _ expr).symm
      | @direct y outer _ _ direction expr dest bound width =>
        have hread := Scope.read_of_dest dest
        obtain ⟨htaken, decl, hdecl, hwidth⟩ := hfits hread
        have houter : decl.width = d.width := by
          rw [← width, ← hwidth]
          exact (hconnects.grows.width _ htaken).symm
        have hy := hmeets.output d hport direction _ _ expr
        have hlt := hinner d.name
        rw [Module.bits_of_decl? hdecl, houter, ← henv, Scope.value_of_read hread,
          Nat.mod_eq_of_lt (Module.bits_of_decl? hd ▸ hlt)] at hy
        rw [value_of_bound bound]
        exact hy
      | buffered _ _ _ free _ => cases hbinding.symm.trans free
      | unconnected _ _ free => cases hbinding.symm.trans free

end

/-! ## Instances -/

/-- Elaborating the statements of a scope asks for a behaviour of its module. -/
def BodyRealizes (file : SourceFile) (depth : Nat) : Prop :=
  ∀ ⦃stack scope n n'⦄, scope.module ∈ file.modules → scope.Fits n →
    Free scope scope.module.instances n →
    (moduleBody file depth stack scope).run n = .ok ((), n') →
    Realizes scope n n' (file.Behaves depth scope.module)

section
variable {child : Module}

/-- A behaviour of a module fits its widths. -/
theorem fits_of_behaves {m : Module} {env : String → Nat} (h : file.Behaves depth m env)
    (name : String) : env name < span (m.bits name) := by
  cases depth with
  | zero => exact h.elim
  | succ depth => exact h.fits name

theorem inline_realizes (ih : BodyRealizes file depth) (hfile : file.WellFormed)
    (hgate : Gate.ofName? i.module = none) (hchild : file.module? i.module = some child)
    (hfits : scope.Fits n) (hfree : Free scope [i] n)
    (h : (inline (moduleBody file depth (stack ++ [child.name])) scope site i child).run n =
      .ok ((), n')) :
    Realizes scope n n' (i.Holds file (file.Behaves depth) scope.module) := by
  obtain ⟨name, connected, wiring, n₃, n₄, n₅, hrun⟩ := inlined_of_inline h
  have hmem := List.mem_of_find?_eq_some hchild
  have hentered := hrun.entered (hfile child hmem) hfits hfree
  have hconnects := hentered.connects
  have hbody := ih hmem hentered.fits hentered.free hrun.body
  have hlater₃₅ : Later n₃ n₅ := hentered.later.trans hbody.later
  have hlater₅ : Later n n₅ := hconnects.grows.later.trans hlater₃₅
  -- every buffer drives a signal of the scope from one of the instance
  have hbuffered : ∀ b ∈ wiring.buffers, ∃ port ∈ child.portDecls,
      Buffered scope (scope.path ++ name ++ "/") connected n port b := fun b hb =>
    (connectPorts_buffers hfits hrun.ports b hb).resolve_left (List.not_mem_nil)
  have htaken : ∀ b ∈ wiring.buffers, n₅.isTaken b.1 = true ∧ n₅.isTaken b.2 = true := by
    intro b hb
    obtain ⟨port, hport, hbuffered⟩ := hbuffered b hb
    obtain ⟨y, pos, line, -, hdest⟩ := hbuffered.dest
    have hdecl := decl?_of_mem_portDecls hport
    obtain ⟨hown, -⟩ := hentered.widths port (List.mem_of_find?_eq_some hdecl)
      (hbuffered.free hfits hconnects hport)
    refine ⟨hlater₅.taken _ (hfits (Scope.read_of_dest hdest)).1, ?_⟩
    rw [hbuffered.own]
    exact hbody.later.taken _ hown
  obtain ⟨hgrowsOuter, hbuffers⟩ := driveOuter_spec (fun b hb => (htaken b hb).1) hrun.outer
  refine ⟨hlater₅.trans hgrowsOuter.later, fun {N cells v} hN hv => ?_,
    fun {cells u} hclosed hu hholds => ?_⟩
  · have hN₅ := hgrowsOuter.later.trans hN
    have hN₃ := hlater₃₅.trans hN₅
    exact .inlined hgate hchild hrun.connections
      ⟨fun port hport hdirection e he => input_of_connects hconnects hN₃ hv hport hdirection he,
        fun port hport hdirection y pos hy =>
          output_of_connects hfits hconnects hN₃ hv (hbuffers hN hv) hport hdirection hy⟩
      (hbody.sound hN₅ hv)
  · cases hholds with
    | gate hgate' => cases hgate.symm.trans hgate'
    | @inlined child' connected' inner _ hchild' hconnected' hmeets hbehaves =>
      cases hchild.symm.trans hchild'
      cases hrun.connections.symm.trans hconnected'
      have hwf := hfile child hmem
      have hinnerFits := fits_of_behaves hbehaves
      have hdeclsFit : ∀ d ∈ child.decls, inner d.name < span d.width.bits := fun d hd =>
        Module.bits_of_decl? (decl?_of_mem hwf hd) ▸ hinnerFits d.name
      -- first what the inputs are connected to, which is determined by the values in the scope
      have hports := (Fills.connectPorts hfits.sees hrun.ports).1
      obtain ⟨u₁, hu₁, hretains₁⟩ := hports.exists_values hclosed hu
      -- then the signals of the instance, which get the values of its behaviour
      obtain ⟨hclosed₂, u₂, hu₂, hretains₂, hown⟩ := declareOwn_exists hwf.decls_nodup
        (fun d _ => hfree.flat hconnects.grows i (.head _) name hrun.named _ (beneath_append _ _))
        hdeclsFit (hports.closed hclosed) hu₁ hrun.own
      have hretains₁₂ := hretains₁.trans hports.later hretains₂
      have hlater₄ := hports.later.trans hentered.later
      have hinner := value_of_meets hfits hconnects hentered.later hentered.fits hu₂
        (hfits.value_of_retains hlater₄ hretains₁₂) hmeets hinnerFits hown
      -- then what its statements add, and last the buffers
      obtain ⟨hclosed₃, u₃, hu₃, hretains₃⟩ :=
        hbody.complete hclosed₂ hu₂ (hinner.symm ▸ hbehaves)
      have hretains₁₃ := hretains₁₂.trans hlater₄ hretains₃
      obtain ⟨hclosed₄, hvalues⟩ := driveOuter_closed htaken hrun.outer
      have hmeets₃ := (hfits.value_of_retains hlater₅ hretains₁₃).symm ▸ hmeets
      obtain ⟨u₄, hu₄, hretains₄⟩ := hvalues hclosed₃ hu₃ fun b hb => by
        obtain ⟨port, hport, hbuffered⟩ := hbuffered b hb
        refine hbuffered.value_of_meets hfits hport hlater₅ hmeets₃ ?_
        have hdecl := List.mem_of_find?_eq_some (decl?_of_mem_portDecls hport)
        have hunbound := hbuffered.free hfits hconnects hport
        rw [hbuffered.own, hretains₃ _ (hentered.widths port hdecl hunbound).1,
          hown port hdecl hunbound]
      exact ⟨hclosed₄ hclosed₃, u₄, hu₄, hretains₁₃.trans hlater₅ hretains₄⟩

theorem instantiate_realizes (ih : BodyRealizes file depth) (hfile : file.WellFormed)
    (hfits : scope.Fits n) (hfree : Free scope [i] n)
    (h : (instantiate file (moduleBody file depth) stack scope i).run n = .ok ((), n')) :
    Realizes scope n n' (i.Holds file (file.Behaves depth) scope.module) := by
  cases hgate : Gate.ofName? i.module with
  | some gate =>
    rw [instantiate, hgate] at h
    exact gateInstance_realizes hfits hgate h
  | none =>
    cases hchild : file.module? i.module with
    | none =>
      rw [instantiate, hgate, hchild] at h
      exact blackBox_realizes hfits hgate hchild h
    | some child =>
      exact inline_realizes ih hfile hgate hchild hfits hfree (inline_of_instantiate hgate hchild h)

end

/-! ## Modules -/

section
variable (hfile : file.WellFormed)
  (hnames : ∀ m ∈ file.modules, (m.instances.filterMap Instance.name).Nodup)

include hfile hnames

theorem instances_realize (ih : BodyRealizes file depth) {is : List Instance} (hfits : scope.Fits n)
    (hfree : Free scope is n) (hflat : ∀ i ∈ is, ∀ name, i.name = some name → Flat name)
    (hdistinct : (is.filterMap Instance.name).Nodup)
    (h : (is.forM (instantiate file (moduleBody file depth) stack scope)).run n = .ok ((), n')) :
    Realizes scope n n' fun env =>
      ∀ i ∈ is, i.Holds file (file.Behaves depth) scope.module env := by
  induction is generalizing n with
  | nil =>
    cases h
    exact .refl _ fun _ => List.forall_mem_nil _
  | cons i rest ihRest =>
    obtain ⟨_, m, hi, h⟩ := run_of_bind h
    have hfreeFirst : Free scope [i] n := fun j hj => hfree j (by
      cases List.mem_singleton.1 hj
      exact .head _)
    have hfirst := instantiate_realizes ih hfile hfits hfreeFirst hi
    have hgrows := instantiate_grows (moduleBody_spec hfile hnames depth) hfile hfits hfreeFirst hi
    have hrest := ihRest (hfits.mono hfirst.later) (hfree.step hgrows hflat hdistinct)
      (fun j hj => hflat j (.tail _ hj))
      (hdistinct.sublist (List.Sublist.filterMap _ (List.sublist_cons_self _ _))) h
    exact (hfirst.trans hfits hrest).congr fun env => List.forall_mem_cons.symm

/-- By induction on the depth: the statements of a scope ask for a behaviour of its module. -/
theorem moduleBody_realizes (depth : Nat) : BodyRealizes file depth := by
  induction depth with
  | zero =>
    intro stack scope n n' _ _ _ h
    cases h
  | succ depth ih =>
    intro stack scope n n' hmem hfits hfree h
    rw [moduleBody] at h
    obtain ⟨_, m, hassigns, h⟩ := run_of_bind h
    obtain ⟨hgrows, -⟩ := assigns_spec hfits hassigns
    have hstatements := (assigns_realize hfits hassigns).trans hfits
      (instances_realize hfile hnames ih (hfits.mono hgrows.later) (hfree.flat hgrows)
        (hfile _ hmem).flat_instance (hnames _ hmem) h)
    refine ⟨hstatements.later, fun {N cells v} hN hv => ?_,
      fun hclosed hu hholds => hstatements.complete hclosed hu ⟨hholds.assigns, hholds.instances⟩⟩
    obtain ⟨hassigned, hinstances⟩ := hstatements.sound hN hv
    exact ⟨Scope.value_lt hfits (hstatements.later.trans hN) hv, hassigned, hinstances⟩

end

/-! ## The top module -/

theorem Declared.closed {m : Module} {done : Decl → Prop} (h : Declared m n done) : Closed n := by
  intro node hnode
  rw [h.nodes] at hnode
  cases hnode

/-- Before the statements, the names of the module can have any values of their widths. -/
theorem Declared.exists_values {m : Module} {env : String → Nat} (h : Declared m n fun _ => True)
    (cells : CellFunctions) (henv : ∀ name, env name < span (m.bits name)) :
    ∃ u, Satisfies n cells u ∧ m.reading u = env := by
  have hword : ∀ s, (UInt64.ofNat (env s)).toNat = env s ∧
      (n.width s).truncate (UInt64.ofNat (env s)) = UInt64.ofNat (env s) ∧
      (m.decl? s = none → env s = 0) := by
    intro s
    have hs := henv s
    cases hd : m.decl? s with
    | none =>
      rw [Module.bits, hd] at hs
      have hzero : env s = 0 := Nat.lt_one_iff.1 hs
      rw [hzero]
      exact ⟨rfl, Width.truncate_zero _, fun _ => rfl⟩
    | some d =>
      obtain rfl : d.name = s := by simpa using List.find?_some hd
      obtain ⟨-, hwidth⟩ := h.declared d (List.mem_of_find?_eq_some hd) trivial
      rw [Module.bits_of_decl? hd] at hs
      have htoNat := UInt64.toNat_ofNat_of_lt' (Nat.lt_of_lt_of_le hs d.width.values_le)
      refine ⟨htoNat, UInt64.toNat_inj.1 ?_, fun hnone => by cases hnone⟩
      rw [hwidth, Width.toNat_truncate, htoNat]
      exact Nat.mod_eq_of_lt hs
  refine ⟨fun s => UInt64.ofNat (env s), ⟨fun node hnode => ?_, fun s => (hword s).2.1⟩, ?_⟩
  · rw [h.nodes] at hnode
    cases hnode
  · funext name
    rw [Module.reading]
    split
    · exact (hword name).1
    · next hd =>
      rw [Bool.not_eq_true, Option.isSome_eq_false_iff, Option.isNone_iff_eq_none] at hd
      exact ((hword name).2.2 hd).symm

end Elaborate

/-- The behaviours of the top module are exactly what the netlist of a file allows for its signals,
where instances have different names. -/
theorem elaborate_behaves {file : SourceFile} {top : Option String} {m : Module} {n : Netlist}
    (hfile : file.WellFormed)
    (hnames : ∀ m ∈ file.modules, (m.instances.filterMap Instance.name).Nodup)
    (htop : file.top top = .ok m) (h : elaborate file top = .ok n) (cells : CellFunctions)
    (env : String → Nat) :
    file.Behaves file.modules.length m env ↔ ∃ v, Satisfies n cells v ∧ m.reading v = env := by
  obtain ⟨m', n₀, n₁, hm, hstart, hbody, rfl, hvalidate⟩ := elaborate_eq_ok h
  cases htop.symm.trans hm
  have hmem := mem_of_top htop
  have hdeclared := declared_of_start (hfile m hmem) hstart
  have hfits := hdeclared.fits
  have hrealizes := moduleBody_realizes hfile hnames file.modules.length hmem hfits
    (hdeclared.free (hfile m hmem)) hbody
  refine ⟨fun hbehaves => ?_, ?_⟩
  · obtain ⟨u, hu, henv⟩ := hdeclared.exists_values cells (fits_of_behaves hbehaves)
    rw [← topScope_value m n₀] at henv
    obtain ⟨-, u', hu', hretains⟩ := hrealizes.complete hdeclared.closed hu (henv.symm ▸ hbehaves)
    refine ⟨u', ⟨hu'.node, hu'.fits⟩, ?_⟩
    rw [← topScope_value m n₁, hfits.value_of_retains hrealizes.later hretains, henv]
  · rintro ⟨v, hv, rfl⟩
    rw [← topScope_value m n₁.rebuildWires]
    exact hrealizes.sound (Extends.rebuildWires n₁) hv

end GateSynth.Verilog
