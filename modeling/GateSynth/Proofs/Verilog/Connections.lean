import GateSynth.Proofs.Verilog.Statements

/-!
# Connecting the ports of an instance

An input of an instance stands for a signal of its own width that carries what it is connected to,
and an output stands for the signal outside or drives it through a buffer: `PortWired` says which,
for every port, and `connectPorts_spec` that this is so once all ports are connected. The names
inside then stand for signals of their declared widths (`inner_fits`).
-/

namespace GateSynth.Verilog.Elaborate

open Netlist

/-! ## Ports -/

section
variable {m : Module} {port : Decl}

theorem decl?_of_mem_portDecls (h : port ∈ m.portDecls) : m.decl? port.name = some port := by
  obtain ⟨p, -, hp⟩ := List.mem_filterMap.1 h
  have hname : port.name = p := by simpa using List.find?_some hp
  rw [hname]
  exact hp

theorem portDecls_nodup (hports : m.ports.Nodup) : (m.portDecls.map Decl.name).Nodup := by
  rw [Module.portDecls, List.map_filterMap]
  refine hports.filterMap fun p q name hp hq => ?_
  obtain ⟨d, hd, rfl⟩ := Option.map_eq_some_iff.1 hp
  obtain ⟨e, he, hname⟩ := Option.map_eq_some_iff.1 hq
  have hp : d.name = p := by simpa using List.find?_some hd
  have hq : e.name = q := by simpa using List.find?_some he
  rw [← hp, ← hq, hname]

theorem decl?_of_mem (hm : m.WellFormed) (h : port ∈ m.decls) : m.decl? port.name = some port := by
  have hsome : (m.decl? port.name).isSome = true := List.find?_isSome.2 ⟨port, h, by simp⟩
  obtain ⟨d, hd⟩ := Option.isSome_iff_exists.1 hsome
  have hname : d.name = port.name := by simpa using List.find?_some hd
  rw [hd, List.inj_on_of_nodup_map hm.decls_nodup (List.mem_of_find?_eq_some hd) h hname]

end

/-- How a port of an instance is connected. -/
inductive PortWired (scope : Scope) (path : String) (connected : List (String × Option Expr))
    (n : Netlist) (wiring : Wiring) (port : Decl) : Prop
  /-- An input carries the value of an expression, cut to the width of the port. -/
  | input {e : Expr} {value : Fanin} (direction : port.direction = some .input)
    (expr : Table.findEntry port.name connected = some (some e))
    (bound : wiring.bindings.find? port.name = some (.read value))
    (taken : n.isTaken value.signal = true) (width : n.width value.signal = port.width)
    (carries : ∀ {N cells v}, Later n N → Satisfies N cells v → (v.seen N value).toNat =
      e.value scope.bits (scope.value N v) (max port.width.bits (e.ownBits scope.bits)) %
        span port.width.bits)
  /-- An output is a signal outside. -/
  | direct {name outer : String} {pos : Position} {line : Nat}
    (direction : port.direction ≠ some .input)
    (expr : Table.findEntry port.name connected = some (some (.ident name pos)))
    (dest : scope.dest name line = .ok outer)
    (bound : wiring.bindings.find? port.name = some (.alias outer))
    (width : n.width outer = port.width)
  /-- An output drives a signal outside through a buffer. -/
  | buffered {name outer : String} {pos : Position} {line : Nat}
    (direction : port.direction ≠ some .input)
    (expr : Table.findEntry port.name connected = some (some (.ident name pos)))
    (dest : scope.dest name line = .ok outer)
    (free : wiring.bindings.find? port.name = none)
    (buffer : (outer, path ++ port.name) ∈ wiring.buffers)
  /-- An output is not connected. -/
  | unconnected (direction : port.direction ≠ some .input)
    (expr : (Table.findEntry port.name connected).join = none)
    (free : wiring.bindings.find? port.name = none)

section
variable {scope : Scope} {site : Site} {i : Instance} {path : String}
  {connected : List (String × Option Expr)} {n n' : Netlist} {wiring wiring' : Wiring} {port : Decl}

/-- Later steps leave a port as it is connected. -/
theorem PortWired.mono (h : PortWired scope path connected n wiring port) (hn : Later n n')
    (hfits : scope.Fits n)
    (hbindings : wiring'.bindings.find? port.name = wiring.bindings.find? port.name)
    (hbuffers : wiring.buffers ⊆ wiring'.buffers) :
    PortWired scope path connected n' wiring' port := by
  cases h with
  | input direction expr bound taken width carries =>
    exact .input direction expr (hbindings.trans bound) (hn.taken _ taken)
      ((hn.width _ taken).trans width) fun hN hv => carries (hn.trans hN) hv
  | direct direction expr dest bound width =>
    have htaken := (hfits (Scope.read_of_dest dest)).1
    exact .direct direction expr dest (hbindings.trans bound) ((hn.width _ htaken).trans width)
  | buffered direction expr dest free buffer =>
    exact .buffered direction expr dest (hbindings.trans free) (hbuffers buffer)
  | unconnected direction expr free => exact .unconnected direction expr (hbindings.trans free)

/-- The value that an input stands for has the width of the port. -/
theorem connect_input {e : Expr} {own : Width} {value f : Fanin} {m : Netlist}
    (hfits : scope.Fits n) (hown : selfWidth scope site e = .ok own)
    (hlower : (lower scope site e (port.width.max own) none).run n = .ok (value, m))
    (h : (if m.width value.signal = port.width then pure value
      else emit site (.op .buf) [value] port.width none : Build Fanin).run m = .ok (f, n')) :
    Extends Computed Flat n n' ∧ n'.isTaken f.signal = true ∧ n'.width f.signal = port.width ∧
      ∀ {N cells v}, Later n' N → Satisfies N cells v → (v.seen N f).toNat =
        e.value scope.bits (scope.value N v) (max port.width.bits (e.ownBits scope.bits)) %
          span port.width.bits := by
  have hmax : (port.width.max own).bits = max port.width.bits (e.ownBits scope.bits) := by
    rw [bits_max, ownBits_of_selfWidth e hown]
  have hyields := lowers scope site e hfits (.none n) hown (by rw [bits_max]; omega) hlower
  rw [hmax] at hyields
  split at h
  · next hwidth =>
    cases h
    refine ⟨hyields.grows, hyields.taken, hwidth, fun {N cells v} hN hv => ?_⟩
    have hlt := hv.seen_lt value
    rw [hN.width _ hyields.taken, hwidth, (hyields.carries hN hv).exact] at hlt
    rw [(hyields.carries hN hv).exact]
    exact (Nat.mod_eq_of_lt hlt).symm
  · obtain ⟨hbuffer, hwidth⟩ := emit_yields (x := fun N v =>
      e.value scope.bits (scope.value N v) (max port.width.bits (e.ownBits scope.bits)) %
        span port.width.bits) h (.none m) trivial fun {N cells v} hN hv => by
        refine ⟨Nat.mod_lt _ port.width.values_pos, fun w' hw' => ?_⟩
        simp only [valueAt, List.map_cons, List.map_nil, Operator.toNat_value_buf,
          (hyields.carries hN hv).exact]
        exact (Nat.mod_mod_of_dvd _ (Width.values_dvd_values hw')).symm
    exact ⟨hyields.grows.trans hbuffer.grows, hbuffer.taken, hwidth rfl,
      fun hN hv => (hbuffer.carries hN hv).exact⟩

/-- What connecting ports does to the wiring of an instance: the ports are connected, other names
are not bound, and buffers drive signals outside. -/
structure Connects (scope : Scope) (path : String) (connected : List (String × Option Expr))
    (ports : List Decl) (n n' : Netlist) (wiring wiring' : Wiring) : Prop where
  grows : Extends Computed Flat n n'
  wired : ∀ port ∈ ports, PortWired scope path connected n' wiring' port
  other : ∀ name ∉ ports.map Decl.name, wiring'.bindings.find? name = wiring.bindings.find? name
  buffers : wiring.buffers ⊆ wiring'.buffers
  newBuffers : ∀ b ∈ wiring'.buffers, b ∈ wiring.buffers ∨ n'.isTaken b.1 = true

theorem connectPort_spec (hfits : scope.Fits n)
    (hfree : wiring.bindings.find? port.name = none)
    (h : (connectPort scope site i path connected wiring port).run n = .ok (wiring', n')) :
    Connects scope path connected [port] n n' wiring wiring' := by
  have hother : ∀ {binding name}, name ∉ [port].map Decl.name →
      (wiring.bindings.insert port.name binding).find? name = wiring.bindings.find? name := by
    intro binding name hname
    rw [Table.find?_insert, if_neg (by simpa using hname)]
  rw [connectPort] at h
  split at h
  · next e hdirection hexpr =>
    obtain ⟨own, hown, h⟩ := run_of_lift_bind h
    obtain ⟨value, m, hvalue, h⟩ := run_of_bind h
    obtain ⟨_, _, hget, h⟩ := run_of_bind h
    cases hget
    have hrun : ((if m.width value.signal = port.width then pure value
        else emit site (.op .buf) [value] port.width none : Build Fanin) >>= fun value =>
          pure { wiring with bindings := wiring.bindings.insert port.name (.read value) }).run m =
        .ok (wiring', n') := by
      dsimp only at h
      split at h
      · next hw => rw [if_pos hw]; exact h
      · next hw => rw [if_neg hw]; exact h
    obtain ⟨f, m', hf, hrun⟩ := run_of_bind hrun
    cases hrun
    obtain ⟨hgrows, htaken, hwidth, hcarries⟩ := connect_input hfits hown hvalue hf
    refine ⟨hgrows, ?_, fun name hname => hother hname, List.Subset.refl _, fun b hb => .inl hb⟩
    refine List.forall_mem_singleton.2 (.input hdirection (Option.join_eq_some_iff.1 hexpr) ?_
      htaken hwidth hcarries)
    exact Table.find?_insert_self _ _ _
  · cases h
  · next name pos hexpr hdir =>
    obtain ⟨outer, houter, h⟩ := run_of_lift_bind h
    obtain ⟨_, _, hget, h⟩ := run_of_bind h
    cases hget
    have hexpr := Option.join_eq_some_iff.1 hexpr
    split at h
    · next hw =>
      cases h
      refine ⟨.refl _, ?_, fun name hname => hother hname, List.Subset.refl _, fun b hb => .inl hb⟩
      exact List.forall_mem_singleton.2 (.direct hdir hexpr houter (Table.find?_insert_self _ _ _) hw)
    · cases h
      refine ⟨.refl _, ?_, fun _ _ => rfl, List.subset_append_left _ _, fun b hb => ?_⟩
      · exact List.forall_mem_singleton.2
          (.buffered hdir hexpr houter hfree (List.mem_append_right _ (.head _)))
      · rcases List.mem_append.1 hb with hb | hb
        · exact .inl hb
        · cases List.mem_singleton.1 hb
          exact .inr (hfits (Scope.read_of_dest houter)).1
  · cases h
  · next hexpr hdir =>
    cases h
    refine ⟨.refl _, ?_, fun _ _ => rfl, List.Subset.refl _, fun b hb => .inl hb⟩
    exact List.forall_mem_singleton.2 (.unconnected hdir hexpr hfree)

theorem connectPorts_spec {ports : List Decl} (hports : (ports.map Decl.name).Nodup)
    (hfits : scope.Fits n) (hfree : ∀ port ∈ ports, wiring.bindings.find? port.name = none)
    (h : (connectPorts scope site i path connected ports wiring).run n = .ok (wiring', n')) :
    Connects scope path connected ports n n' wiring wiring' := by
  induction ports generalizing n wiring with
  | nil =>
    cases h
    exact ⟨.refl _, List.forall_mem_nil _, fun _ _ => rfl, List.Subset.refl _, fun b hb => .inl hb⟩
  | cons port rest ih =>
    obtain ⟨wired, m, hport, h⟩ := run_of_bind h
    obtain ⟨hnew, hrest⟩ := List.nodup_cons.1 hports
    obtain ⟨hfreePort, hfreeRest⟩ := List.forall_mem_cons.1 hfree
    have hfirst := connectPort_spec hfits hfreePort hport
    have hothers : ∀ other ∈ rest, other.name ≠ port.name := by
      rintro other hmem heq
      exact hnew (heq ▸ List.mem_map_of_mem hmem)
    have hfits' := hfits.mono hfirst.grows.later
    have hlater := ih hrest hfits' (fun other hmem => by
      rw [hfirst.other _ (by simpa using hothers other hmem)]
      exact hfreeRest other hmem) h
    refine ⟨hfirst.grows.trans hlater.grows, ?_, fun name hname => ?_,
      List.Subset.trans hfirst.buffers hlater.buffers, fun b hb => ?_⟩
    · refine List.forall_mem_cons.2 ⟨?_, hlater.wired⟩
      exact (hfirst.wired port (.head _)).mono hlater.grows.later hfits' (hlater.other _ hnew)
        hlater.buffers
    · rw [List.map_cons, List.mem_cons, not_or] at hname
      rw [hlater.other name hname.2, hfirst.other name (by simpa using hname.1)]
    · rcases hlater.newBuffers b hb with hb | htaken
      · exact (hfirst.newBuffers b hb).imp_right (hlater.grows.taken _)
      · exact .inr htaken

/-! ## The scope inside -/

/-- The signals of an instance that are its own are declared. -/
theorem declareOwn_spec {bindings : Table String Binding} {decls : List Decl}
    (hdecls : (decls.map Decl.name).Nodup)
    (hfree : ∀ d ∈ decls, n.isTaken (path ++ d.name) = false)
    (h : (declareOwn path bindings decls).run n = .ok ((), n')) :
    Extends (fun _ => False) (fun s => ∃ d ∈ decls, s = path ++ d.name) n n' ∧
      ∀ d ∈ decls, bindings.find? d.name = none →
        n'.isTaken (path ++ d.name) = true ∧ n'.width (path ++ d.name) = d.width := by
  induction decls generalizing n with
  | nil =>
    cases h
    exact ⟨.refl _, List.forall_mem_nil _⟩
  | cons d rest ih =>
    obtain ⟨hnew, hrest⟩ := List.nodup_cons.1 hdecls
    obtain ⟨hfreeFirst, hfreeRest⟩ := List.forall_mem_cons.1 hfree
    have hothers : ∀ other ∈ rest, path ++ other.name ≠ path ++ d.name := by
      intro other hmem heq
      exact hnew (String.append_right_inj path |>.1 heq ▸ List.mem_map_of_mem hmem)
    have hmono : ∀ {m : Netlist}, Extends (fun _ => False)
        (fun s => ∃ d ∈ rest, s = path ++ d.name) m n' →
        Extends (fun _ => False) (fun s => ∃ d' ∈ d :: rest, s = path ++ d'.name) m n' :=
      fun hm => hm.mono (fun _ hk => hk) fun _ ⟨d', hd', hs⟩ => ⟨d', .tail _ hd', hs⟩
    rw [declareOwn] at h
    dsimp only at h
    split at h
    · next hbound =>
      obtain ⟨hgrows, hwidths⟩ := ih hrest hfreeRest h
      refine ⟨hmono hgrows, List.forall_mem_cons.2 ⟨fun hnone => ?_, hwidths⟩⟩
      rw [Table.contains, hnone] at hbound
      cases hbound
    · obtain ⟨_, _, hset, h⟩ := run_of_bind h
      cases hset
      have hgrowsFirst : Extends (fun _ => False) (fun s => ∃ d' ∈ d :: rest, s = path ++ d'.name) n
          (n.setWidth (path ++ d.name) d.width) := .of_setWidth hfreeFirst ⟨d, .head _, rfl⟩
      obtain ⟨hgrows, hwidths⟩ := ih hrest (fun other hmem => by
        rw [Bool.eq_false_iff, ne_eq, isTaken_setWidth, not_or]
        exact ⟨hothers other hmem, by rw [hfreeRest other hmem]; decide⟩) h
      refine ⟨hgrowsFirst.trans (hmono hgrows), List.forall_mem_cons.2 ⟨fun _ => ?_, hwidths⟩⟩
      have htaken : (n.setWidth (path ++ d.name) d.width).isTaken (path ++ d.name) = true :=
        (isTaken_setWidth n d.width).2 (.inl rfl)
      exact ⟨hgrows.taken _ htaken, by rw [hgrows.width _ htaken, width_setWidth, if_pos rfl]⟩

/-- What a bound name stands for. -/
def Binding.fanin : Binding → Fanin
  | .read value => value
  | .alias signal => .plain signal

theorem read_of_bound {inner : Scope} {name : String} {binding : Binding}
    (h : inner.bindings.find? name = some binding) (line : Nat) :
    inner.read name line = .ok binding.fanin := by
  rw [Scope.read, h]
  cases binding <;> rfl

theorem read_of_free {inner : Scope} {name : String} {d : Decl}
    (h : inner.bindings.find? name = none) (hd : inner.module.decl? name = some d) (line : Nat) :
    inner.read name line = .ok (.plain (inner.path ++ name)) := by
  rw [Scope.read, h, hd]
  rfl

theorem PortWired.bound (h : PortWired scope path connected n wiring port) (hfits : scope.Fits n)
    {binding : Binding} (hb : wiring.bindings.find? port.name = some binding) :
    n.isTaken binding.fanin.signal = true ∧ n.width binding.fanin.signal = port.width := by
  cases h with
  | input _ _ bound taken width _ =>
    cases hb.symm.trans bound
    exact ⟨taken, width⟩
  | direct _ _ dest bound width =>
    cases hb.symm.trans bound
    exact ⟨(hfits (Scope.read_of_dest dest)).1, width⟩
  | buffered _ _ _ free _ => cases hb.symm.trans free
  | unconnected _ _ free => cases hb.symm.trans free

/-- Inside an instance, names stand for signals of their declared widths, if those that are bound
keep them. -/
theorem inner_fits {child : Module} {m : Netlist} (hfits : scope.Fits n)
    (hconnects : Connects scope path connected child.portDecls n m ⟨.empty, []⟩ wiring)
    (hkept : ∀ name binding, wiring.bindings.find? name = some binding →
      m.isTaken binding.fanin.signal = true →
      n'.isTaken binding.fanin.signal = true ∧
        n'.width binding.fanin.signal = m.width binding.fanin.signal)
    (hown : ∀ d ∈ child.decls, wiring.bindings.find? d.name = none →
      n'.isTaken (path ++ d.name) = true ∧ n'.width (path ++ d.name) = d.width) :
    Scope.Fits ⟨child, path, wiring.bindings⟩ n' := by
  intro name line f hread
  cases hbinding : wiring.bindings.find? name with
  | some binding =>
    have hname : name ∈ child.portDecls.map Decl.name := by
      by_contra hother
      rw [hconnects.other name hother] at hbinding
      cases hbinding
    obtain ⟨port, hport, rfl⟩ := List.mem_map.1 hname
    have hfits' := hfits.mono hconnects.grows.later
    obtain ⟨htaken, hwidth⟩ := (hconnects.wired port hport).bound hfits' hbinding
    rw [read_of_bound hbinding] at hread
    cases hread
    obtain ⟨htaken', hwidth'⟩ := hkept _ _ hbinding htaken
    exact ⟨htaken', port, decl?_of_mem_portDecls hport, hwidth'.trans hwidth⟩
  | none =>
    cases hd : child.decl? name with
    | none =>
      rw [Scope.read, hbinding, hd] at hread
      cases hread
    | some d =>
      rw [read_of_free hbinding hd] at hread
      cases hread
      obtain rfl : d.name = name := by simpa using List.find?_some hd
      obtain ⟨htaken, hwidth⟩ := hown d (List.mem_of_find?_eq_some hd) hbinding
      exact ⟨htaken, d, rfl, hwidth⟩

/-- Every signal of a list is driven from its partner. -/
theorem driveOuter_spec {buffers : List (String × String)}
    (htaken : ∀ b ∈ buffers, n.isTaken b.1 = true)
    (h : (driveOuter site buffers).run n = .ok ((), n')) :
    Extends Computed Flat n n' ∧ ∀ {N cells v}, Later n' N → Satisfies N cells v →
      ∀ b ∈ buffers, (v b.1).toNat = (v b.2).toNat % (N.width b.1).values := by
  induction buffers generalizing n with
  | nil =>
    cases h
    exact ⟨.refl _, fun _ _ => List.forall_mem_nil _⟩
  | cons b rest ih =>
    obtain ⟨outer, own⟩ := b
    obtain ⟨houter, hrest⟩ := List.forall_mem_cons.1 htaken
    obtain ⟨_, _, hget, h⟩ := run_of_bind h
    cases hget
    obtain ⟨_, m, hdrive, h⟩ := run_of_bind h
    have hgrows := Grows.drive _ _ _ _ (fun _ hd => by cases hd; exact houter) hdrive
    obtain ⟨hgrows', hvalues⟩ := ih (fun b hb => hgrows.taken _ (hrest b hb)) h
    have hall := hgrows.toExtends.trans hgrows'
    refine ⟨hall, fun {N cells v} hN hv => List.forall_mem_cons.2 ⟨?_, hvalues hN hv⟩⟩
    have hspec := drive_spec (x := fun N v => (v own).toNat) houter rfl (fun _ _ => .inl rfl) hdrive
      (hgrows'.later.trans hN) hv
    rw [hspec, (hall.later.trans hN).width outer houter]

end

end GateSynth.Verilog.Elaborate
