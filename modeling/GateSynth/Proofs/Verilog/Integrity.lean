import GateSynth.Proofs.Verilog.Elaboration

/-!
# What elaboration leaves alone

Whatever a source text says, its netlist has every node at its identifier, no width twice and no
port twice, and it is valid (`coherent_of_compile`). That the values are right takes names of
instances that are all different; here, two instances may share a name and declare their signals
twice. So the steps are followed with less: a netlist in order stays in order, no name is given up,
and what is touched is either new, or below the instances of a scope, or one of the signals outside
that the scope may drive (`Confined`).
-/

namespace GateSynth.Verilog

namespace Elaborate

open Netlist

variable {n n' n'' : Netlist} {path : String} {below below' outside outside' : String → Prop}

/-- A netlist in order stays in order, and nothing is touched but new temporary signals, some names
below, and the drivers of some signals outside. -/
structure Confined (below outside : String → Prop) (n n' : Netlist) : Prop where
  coherent : n.Coherent → n'.Coherent
  inputs : n'.inputs = n.inputs
  nodes : ∀ node ∈ n.nodes, node ∈ n'.nodes
  kinds : ∀ node ∈ n'.nodes, node ∈ n.nodes ∨ Elaborated node.kind
  taken : ∀ s, n.isTaken s = true → n'.isTaken s = true
  newNames : ∀ s, n'.isTaken s = true → n.isTaken s = true ∨ Flat s ∨ below s
  width : ∀ s, n.isTaken s = true → ¬ below s → n'.width s = n.width s
  drivers : ∀ node ∈ n'.nodes, node ∈ n.nodes ∨ n.isTaken node.output = false ∨
    below node.output ∨ outside node.output

namespace Confined

theorem refl (n : Netlist) : Confined below outside n n where
  coherent h := h
  inputs := rfl
  nodes _ h := h
  kinds _ h := .inl h
  taken _ h := h
  newNames _ h := .inl h
  width _ _ _ := rfl
  drivers _ h := .inl h

theorem trans (h : Confined below outside n n') (h' : Confined below outside n' n'') :
    Confined below outside n n'' where
  coherent := h'.coherent ∘ h.coherent
  inputs := h'.inputs.trans h.inputs
  nodes node hnode := h'.nodes node (h.nodes node hnode)
  kinds node hnode := (h'.kinds node hnode).elim (h.kinds node) .inr
  taken s hs := h'.taken s (h.taken s hs)
  newNames s hs := (h'.newNames s hs).elim (h.newNames s) .inr
  width s hs hs' := by rw [h'.width s (h.taken s hs) hs', h.width s hs hs']
  drivers node hnode := by
    rcases h'.drivers node hnode with hold | hnew | houtside
    · exact h.drivers node hold
    · refine .inr (.inl (Bool.eq_false_iff.2 fun htaken => ?_))
      rw [h.taken _ htaken] at hnew
      cases hnew
    · exact .inr (.inr houtside)

theorem mono (h : Confined below outside n n') (hbelow : ∀ s, below s → below' s)
    (houtside : ∀ s, outside s → below' s ∨ outside' s) : Confined below' outside' n n' where
  coherent := h.coherent
  inputs := h.inputs
  nodes := h.nodes
  kinds := h.kinds
  taken := h.taken
  newNames s hs := (h.newNames s hs).imp_right fun hnew => hnew.imp_right (hbelow s)
  width s hs hs' := h.width s hs fun hbelow' => hs' (hbelow s hbelow')
  drivers node hnode := (h.drivers node hnode).imp_right fun hnew =>
    hnew.imp_right fun hdriven => hdriven.elim (.inl ∘ hbelow _) (houtside _)

/-- Declaring a name below. -/
theorem setWidth (n : Netlist) {s : String} (w : Width) (hs : below s) :
    Confined below outside n (n.setWidth s w) where
  coherent hc := hc.setWidth s w
  inputs := rfl
  nodes _ h := h
  kinds _ h := .inl h
  taken t ht := (isTaken_setWidth n w).2 (.inr ht)
  newNames t ht := ((isTaken_setWidth n w).1 ht).elim (fun heq => .inr (.inr (heq ▸ hs))) .inl
  width t _ ht := by
    rw [width_setWidth, if_neg]
    rintro rfl
    exact ht hs
  drivers _ h := .inl h

end Confined

theorem Grown.confined {kinds : Kind → Prop} {dest : Option String} (h : Grown kinds dest n n')
    (hkinds : ∀ kind, kinds kind → Elaborated kind) (hdest : ∀ d, dest = some d → below d ∨ outside d) :
    Confined below outside n n' where
  coherent := h.coherent
  inputs := h.inputs
  nodes := h.nodes
  kinds node hnode := (h.newNodes node hnode).imp_right (hkinds _)
  taken := h.taken
  newNames s hs := (h.newNames s hs).imp_right .inl
  width s hs _ := h.width s hs
  drivers node hnode := (h.drivers node hnode).imp_right fun hnew => hnew.imp_right (hdest _)

theorem width_of_not_taken {s : String} (h : n.isTaken s = false) : n.width s = .one := by
  have hfind : n.widths.find? s = none := by
    rw [isTaken, Bool.or_eq_false_iff, Bool.or_eq_false_iff, Table.contains,
      Option.isSome_eq_false_iff, Option.isNone_iff_eq_none] at h
    exact h.1.1
  rw [width, hfind]
  rfl

theorem Scope.Drives.mono {scope : Scope} (h : scope.Drives n) (hn : Confined below outside n n') :
    scope.Drives n' :=
  fun _ _ d hd => hn.taken d (h hd)

/-! ## Statements -/

section
variable {file : SourceFile} {scope : Scope} {site : Site} {i : Instance}
  {connected : List (String × Option Expr)} {wiring wiring' : Wiring} {port : Decl}
  {ports : List Decl}

theorem assign_confined {a : Assign} (hdrives : scope.Drives n)
    (h : (assign scope a).run n = .ok ((), n')) : Confined below scope.Target n n' := by
  obtain ⟨d, hd, hgrown⟩ := assign_grown hdrives h
  refine hgrown.confined Computed.elaborated fun d' hd' => .inr ?_
  cases hd'
  exact ⟨_, _, hd⟩

/-- Statements that are confined are so one after the other. -/
theorem forM_confined {α : Type} {step : α → Build Unit} {statements : List α}
    (hstep : ∀ a ∈ statements, ∀ ⦃n n'⦄, scope.Drives n → (step a).run n = .ok ((), n') →
      Confined below outside n n')
    (hdrives : scope.Drives n) (h : (statements.forM step).run n = .ok ((), n')) :
    Confined below outside n n' := by
  induction statements generalizing n with
  | nil =>
    cases h
    exact .refl _
  | cons a rest ih =>
    obtain ⟨hfirst, hrest⟩ := List.forall_mem_cons.1 hstep
    obtain ⟨_, m, ha, h⟩ := run_of_bind h
    have hm := hfirst hdrives ha
    exact hm.trans (ih hrest (hdrives.mono hm) h)

/-! ## Instances -/

/-- A signal outside an instance to which one of its outputs is connected. -/
def Outward (scope : Scope) (i : Instance) (connected : List (String × Option Expr))
    (ports : List Decl) (s : String) : Prop :=
  ∃ port ∈ ports, port.direction ≠ some .input ∧ ∃ name pos,
    Table.findEntry port.name connected = some (some (.ident name pos)) ∧
      scope.dest name i.pos.line = .ok s

theorem Outward.target {s : String} (h : Outward scope i connected ports s) : scope.Target s :=
  let ⟨_, _, _, name, _, _, hdest⟩ := h
  ⟨name, _, hdest⟩

/-- Only ports are bound, and what outputs stand for and what buffers drive are among some signals
outside. -/
structure Wiring.Within (wiring : Wiring) (ports : List Decl) (outside : String → Prop) : Prop where
  bound : ∀ name binding, wiring.bindings.find? name = some binding →
    ∃ port ∈ ports, port.name = name
  direct : ∀ name signal, wiring.bindings.find? name = some (.alias signal) → outside signal
  buffer : ∀ b ∈ wiring.buffers, outside b.1

theorem Wiring.Within.bind {binding : Binding} (h : wiring.Within ports outside)
    (hport : port ∈ ports) (hbinding : ∀ signal, binding = .alias signal → outside signal) :
    Wiring.Within { wiring with bindings := wiring.bindings.insert port.name binding } ports
      outside := by
  refine ⟨fun other found hother => ?_, fun other signal hother => ?_, h.buffer⟩
  · rw [Table.find?_insert] at hother
    split at hother
    · next hname => exact ⟨port, hport, hname.symm⟩
    · exact h.bound other found hother
  · rw [Table.find?_insert] at hother
    split at hother
    · exact hbinding signal (Option.some.inj hother)
    · exact h.direct other signal hother

theorem connectPort_confined (hport : port ∈ ports)
    (hwiring : wiring.Within ports (Outward scope i connected ports))
    (h : (connectPort scope site i path connected wiring port).run n = .ok (wiring', n')) :
    Confined below (fun _ => False) n n' ∧
      wiring'.Within ports (Outward scope i connected ports) := by
  rw [connectPort] at h
  split at h
  · next e _ _ =>
    obtain ⟨own, -, h⟩ := run_of_lift_bind h
    obtain ⟨value, m, hvalue, h⟩ := run_of_bind h
    obtain ⟨_, _, hget, h⟩ := run_of_bind h
    cases hget
    have hlower := Grows.lower scope site e (port.width.max own) none (.none n) hvalue
    have hnone : ∀ d, (none : Option String) = some d → below d ∨ False := fun _ h => by cases h
    have hbound : ∀ f : Fanin, Wiring.Within
        { wiring with bindings := wiring.bindings.insert port.name (.read f) } ports
        (Outward scope i connected ports) := fun f => hwiring.bind hport fun _ heq => by cases heq
    dsimp only at h
    split at h
    · cases h
      exact ⟨hlower.confined Computed.elaborated hnone, hbound _⟩
    · obtain ⟨f, k, hf, h⟩ := run_of_bind h
      cases h
      have hkind : Computed (.op .buf) := trivial
      have hbuffer := Grows.emit hkind site [value] port.width none (.none m) hf
      exact ⟨(hlower.trans hbuffer).confined Computed.elaborated hnone, hbound f⟩
  · cases h
  · next name pos hexpr hdirection =>
    obtain ⟨outer, houter, h⟩ := run_of_lift_bind h
    obtain ⟨_, _, hget, h⟩ := run_of_bind h
    cases hget
    have hout : Outward scope i connected ports outer :=
      ⟨port, hport, hdirection, name, pos, Option.join_eq_some_iff.1 hexpr, houter⟩
    split at h
    · cases h
      refine ⟨.refl n, hwiring.bind hport fun signal heq => ?_⟩
      cases heq
      exact hout
    · cases h
      refine ⟨.refl n, hwiring.bound, hwiring.direct, fun b hb => ?_⟩
      rcases List.mem_append.1 hb with hb | hb
      · exact hwiring.buffer b hb
      · rw [List.mem_singleton.1 hb]
        exact hout
  · cases h
  · cases h
    exact ⟨.refl n, hwiring⟩

theorem connectPorts_confined {rest : List Decl} (hrest : rest ⊆ ports)
    (hwiring : wiring.Within ports (Outward scope i connected ports))
    (h : (connectPorts scope site i path connected rest wiring).run n = .ok (wiring', n')) :
    Confined below (fun _ => False) n n' ∧
      wiring'.Within ports (Outward scope i connected ports) := by
  induction rest generalizing n wiring with
  | nil =>
    cases h
    exact ⟨.refl _, hwiring⟩
  | cons port rest ih =>
    obtain ⟨hport, hrest⟩ := List.cons_subset.1 hrest
    obtain ⟨wiring₁, m, hfirst, h⟩ := run_of_bind h
    obtain ⟨hm, hwiring₁⟩ := connectPort_confined hport hwiring hfirst
    obtain ⟨hn, hwiring'⟩ := ih hrest hwiring₁ h
    exact ⟨hm.trans hn, hwiring'⟩

theorem declareOwn_confined {bindings : Table String Binding} {decls : List Decl}
    (h : (declareOwn path bindings decls).run n = .ok ((), n')) :
    Confined (fun s => ∃ d ∈ decls, path ++ d.name = s) outside n n' ∧
      ∀ d ∈ decls, bindings.find? d.name = none → n'.isTaken (path ++ d.name) = true := by
  induction decls generalizing n with
  | nil =>
    cases h
    exact ⟨.refl _, List.forall_mem_nil _⟩
  | cons d rest ih =>
    have hlater : ∀ {m : Netlist}, Confined (fun s => ∃ d ∈ rest, path ++ d.name = s) outside m n' →
        Confined (fun s => ∃ d' ∈ d :: rest, path ++ d'.name = s) outside m n' := fun hm =>
      hm.mono (fun _ ⟨d', hd', hs⟩ => ⟨d', .tail _ hd', hs⟩) fun _ hs => .inr hs
    rw [declareOwn] at h
    dsimp only at h
    split at h
    · next hbound =>
      obtain ⟨hn, hrest⟩ := ih h
      refine ⟨hlater hn, List.forall_mem_cons.2 ⟨fun hnone => ?_, hrest⟩⟩
      rw [Table.contains, hnone] at hbound
      cases hbound
    · obtain ⟨_, _, hset, h⟩ := run_of_bind h
      cases hset
      obtain ⟨hn, hrest⟩ := ih h
      refine ⟨(Confined.setWidth _ _ ⟨d, .head _, rfl⟩).trans (hlater hn),
        List.forall_mem_cons.2 ⟨fun _ => ?_, hrest⟩⟩
      exact hn.taken _ ((isTaken_setWidth n d.width).2 (.inl rfl))

theorem driveOuter_confined {buffers : List (String × String)}
    (htaken : ∀ b ∈ buffers, n.isTaken b.1 = true) (houtside : ∀ b ∈ buffers, outside b.1)
    (h : (driveOuter site buffers).run n = .ok ((), n')) : Confined below outside n n' := by
  induction buffers generalizing n with
  | nil =>
    cases h
    exact .refl _
  | cons b rest ih =>
    obtain ⟨houter, hrest⟩ := List.forall_mem_cons.1 htaken
    obtain ⟨hout, houtRest⟩ := List.forall_mem_cons.1 houtside
    obtain ⟨_, _, hget, h⟩ := run_of_bind h
    cases hget
    obtain ⟨_, m, hdrive, h⟩ := run_of_bind h
    have hm : Confined below outside n m :=
      (Grows.drive _ _ _ _ (fun _ hd => by cases hd; exact houter) hdrive).confined
        Computed.elaborated fun d hd => .inr (by cases hd; exact hout)
    exact hm.trans (ih (fun b hb => hm.taken _ (hrest b hb)) houtRest h)

/-- What can be driven inside an instance is its own or outside. -/
theorem inner_target {child : Module} (hwiring : wiring.Within ports outside) {s : String}
    (h : Scope.Target ⟨child, path, wiring.bindings⟩ s) :
    (∃ d ∈ child.decls, wiring.bindings.find? d.name = none ∧ path ++ d.name = s) ∨ outside s := by
  obtain ⟨name, line, hd⟩ := h
  rw [Scope.dest] at hd
  split at hd
  · cases hd
  · next signal hbound =>
    cases hd
    exact .inr (hwiring.direct name _ hbound)
  · next hfree =>
    split at hd
    · next decl hdecl =>
      split at hd
      · cases hd
      · cases hd
        obtain rfl : decl.name = name := by simpa using List.find?_some hdecl
        exact .inl ⟨decl, List.mem_of_find?_eq_some hdecl, hfree, rfl⟩
    · cases hd

/-- Inlining stays below the path of the instance and the outputs that are connected, if the
statements of the instance do. -/
theorem inlined_confined {child : Module} {n₁ n₂ n₃ : Netlist} (hdrives : scope.Drives n)
    (hports : (connectPorts scope site i path connected child.portDecls ⟨.empty, []⟩).run n =
      .ok (wiring, n₁))
    (hown : (declareOwn path wiring.bindings child.decls).run n₁ = .ok ((), n₂))
    (hbody : Scope.Drives ⟨child, path, wiring.bindings⟩ n₂ →
      Confined (Beneath path) (Scope.Target ⟨child, path, wiring.bindings⟩) n₂ n₃)
    (houter : (driveOuter site wiring.buffers).run n₃ = .ok ((), n')) :
    Scope.Drives ⟨child, path, wiring.bindings⟩ n₂ ∧
      wiring.Within child.portDecls (Outward scope i connected child.portDecls) ∧
      Confined (fun s => ∃ d ∈ child.decls, path ++ d.name = s) (fun _ => False) n n₂ ∧
      Confined (fun _ => False) (Outward scope i connected child.portDecls) n₃ n' ∧
      Confined (Beneath path) (Outward scope i connected child.portDecls) n n' := by
  have hempty : Wiring.Within ⟨.empty, []⟩ child.portDecls
      (Outward scope i connected child.portDecls) :=
    ⟨fun _ _ h => (by cases h), fun _ _ h => (by cases h), List.forall_mem_nil _⟩
  obtain ⟨hn₁, hwiring⟩ := connectPorts_confined (List.Subset.refl _) hempty hports
  obtain ⟨hn₂, htaken⟩ := declareOwn_confined hown
  have hn₁₂ := hn₁.trans hn₂
  have houtward : ∀ s, Outward scope i connected child.portDecls s → n₂.isTaken s = true := by
    intro s hs
    obtain ⟨name, line, hd⟩ := hs.target
    exact hn₁₂.taken s (hdrives hd)
  have hinner : Scope.Drives ⟨child, path, wiring.bindings⟩ n₂ := by
    intro name line d hd
    rcases inner_target hwiring ⟨name, line, hd⟩ with ⟨decl, hdecl, hfree, rfl⟩ | hout
    · exact htaken decl hdecl hfree
    · exact houtward d hout
  have hn₃ : Confined (Beneath path) (Outward scope i connected child.portDecls) n₂ n₃ :=
    (hbody hinner).mono (fun _ hs => hs) fun s hs => by
      rcases inner_target hwiring hs with ⟨decl, -, -, rfl⟩ | hout
      · exact .inl (beneath_append _ _)
      · exact .inr hout
  have hlast : Confined (fun _ => False) (Outward scope i connected child.portDecls) n₃ n' :=
    driveOuter_confined (fun b hb => hn₃.taken _ (houtward _ (hwiring.buffer b hb)))
      hwiring.buffer houter
  refine ⟨hinner, hwiring, hn₁₂, hlast, Confined.trans ?_ (hn₃.trans ?_)⟩
  · refine hn₁₂.mono ?_ nofun
    rintro s ⟨d, -, rfl⟩
    exact beneath_append _ _
  · exact hlast.mono nofun fun _ hs => .inr hs

/-- The name stands below one of the instances. -/
def Below (scope : Scope) (is : List Instance) (s : String) : Prop :=
  ∃ i ∈ is, ∃ name, i.name = some name ∧ Beneath (scope.path ++ name ++ "/") s

theorem Below.mono {is is' : List Instance} {s : String} (h : Below scope is s) (his : is ⊆ is') :
    Below scope is' s :=
  let ⟨i, hi, hname⟩ := h
  ⟨i, his hi, hname⟩

theorem Below.beneath {is : List Instance} {s : String} (h : Below scope is s) :
    Beneath scope.path s := by
  obtain ⟨i, -, name, -, hs⟩ := h
  rw [String.append_assoc] at hs
  exact hs.of_append

/-- Inlining stays below the instance and what the scope around it can drive. -/
theorem inline_confined {body : Scope → Build Unit} {child : Module}
    (hbody : ∀ ⦃scope n n'⦄, scope.Drives n → (body scope).run n = .ok ((), n') →
      Confined (Beneath scope.path) scope.Target n n')
    (hdrives : scope.Drives n) (h : (inline body scope site i child).run n = .ok ((), n')) :
    Confined (Below scope [i]) scope.Target n n' := by
  rw [inline] at h
  split at h
  · cases h
  next name hname =>
  obtain ⟨connected, -, h⟩ := run_of_lift_bind h
  obtain ⟨wiring, n₁, hports, h⟩ := run_of_bind h
  obtain ⟨_, n₂, hown, h⟩ := run_of_bind h
  obtain ⟨_, n₃, hinner, houter⟩ := run_of_bind h
  obtain ⟨-, -, -, -, hn'⟩ := inlined_confined hdrives hports hown
    (fun hdrives => (hbody hdrives hinner :)) houter
  exact hn'.mono (fun s hs => ⟨i, .head _, name, hname, hs⟩) fun _ hs => .inr hs.target

theorem instantiate_confined {body : List String → Scope → Build Unit} {stack : List String}
    (hbody : ∀ ⦃stack scope n n'⦄, scope.Drives n → (body stack scope).run n = .ok ((), n') →
      Confined (Beneath scope.path) scope.Target n n')
    (hdrives : scope.Drives n) (h : (instantiate file body stack scope i).run n = .ok ((), n')) :
    Confined (Below scope [i]) scope.Target n n' := by
  have hdriven : ∀ {kinds d}, (∀ kind, kinds kind → Elaborated kind) → scope.Target d →
      Grown kinds (some d) n n' → Confined (Below scope [i]) scope.Target n n' :=
    fun hkinds hd hgrown => hgrown.confined hkinds fun d' hd' => .inr (by cases hd'; exact hd)
  rw [instantiate] at h
  split at h
  · obtain ⟨_, _, _, d, _, hd, hgrown⟩ := gateInstance_grown hdrives h
    exact hdriven Computed.elaborated ⟨_, _, hd⟩ hgrown
  · obtain ⟨d, hd, hgrown⟩ := blackBox_grown hdrives h
    exact hdriven (fun _ hkind => hkind) hd hgrown
  · split at h
    · cases h
    · exact inline_confined (fun _ _ _ hdrives hrun => hbody hdrives hrun) hdrives h

theorem instances_confined {body : List String → Scope → Build Unit} {stack : List String}
    {is : List Instance}
    (hbody : ∀ ⦃stack scope n n'⦄, scope.Drives n → (body stack scope).run n = .ok ((), n') →
      Confined (Beneath scope.path) scope.Target n n')
    (hdrives : scope.Drives n) (h : (is.forM (instantiate file body stack scope)).run n = .ok ((), n')) :
    Confined (Below scope is) scope.Target n n' := by
  refine forM_confined (fun i hi n n' hdrives hrun => ?_) hdrives h
  refine (instantiate_confined hbody hdrives hrun).mono (fun s hs => hs.mono ?_) fun _ hs => .inr hs
  exact List.cons_subset.2 ⟨hi, List.nil_subset _⟩

/-- By induction on the depth: the statements of a scope stay below its path and what it can
drive. -/
theorem moduleBody_confined {depth : Nat} {stack : List String} (hdrives : scope.Drives n)
    (h : (moduleBody file depth stack scope).run n = .ok ((), n')) :
    Confined (Beneath scope.path) scope.Target n n' := by
  induction depth generalizing stack scope n n' with
  | zero => cases h
  | succ depth ih =>
    rw [moduleBody] at h
    obtain ⟨_, m, hassigns, h⟩ := run_of_bind h
    have hm : Confined (Beneath scope.path) scope.Target n m :=
      forM_confined (fun _ _ _ _ => assign_confined) hdrives hassigns
    refine hm.trans ((instances_confined (fun _ _ _ _ => ih) (hdrives.mono hm) h).mono ?_ ?_)
    · exact fun _ hs => hs.beneath
    · exact fun _ hs => .inr hs

end

end Elaborate

open Elaborate

/-- The netlist of a source text is in order and valid. -/
theorem coherent_of_compile {source : String} {top : Option String} {n : Netlist}
    (h : compile source top = .ok n) : n.Coherent ∧ n.validate = .ok () := by
  obtain ⟨file, hparse, h⟩ := ok_of_bind h
  obtain ⟨m, n₀, n₁, htop, hstart, hbody, rfl, hvalid⟩ := elaborate_eq_ok h
  have hdeclared := declared_of_start (parse_wellFormed hparse m (mem_of_top htop)) hstart
  have hn₁ := moduleBody_confined hdeclared.fits.drives hbody
  exact ⟨(hn₁.coherent hdeclared.coherent).rebuildWires, hvalid⟩

end GateSynth.Verilog
