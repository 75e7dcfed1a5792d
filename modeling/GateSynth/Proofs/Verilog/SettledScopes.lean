import GateSynth.Proofs.Verilog.Addresses
import GateSynth.Proofs.Verilog.Echoes

/-!
# Scopes stay settled

In every scope that elaboration comes to, the names stand for signals of their declared widths,
whatever the instances are called: what is read in a scope stands above its instances
(`Scope.Settled`), and an instance declares names below its path only. So a second instance of a
name may narrow the signals of the first one, but no signal that a statement still to come can read.
-/

namespace GateSynth.Verilog.Elaborate

open Netlist

variable {file : SourceFile} {scope : Scope} {site : Site} {i : Instance} {path : String}
  {connected : List (String × Option Expr)} {wiring wiring' : Wiring} {n n' m : Netlist}

theorem Above.inner {s : String} (h : Above path s) (rest : String) : Above (path ++ rest) s :=
  h.imp_right fun ⟨p, d, hs, hd, hp⟩ => ⟨p, d, hs, hd, hp.trans (beneath_append _ _)⟩

/-- The names of the scope stand for signals of their declared widths, and these stand above its
instances. -/
structure Scope.Settled (scope : Scope) (n : Netlist) : Prop where
  fits : scope.Fits n
  above : ∀ ⦃name line f⦄, scope.read name line = .ok f → Above scope.path f.signal

namespace Scope.Settled

theorem mono (h : scope.Settled n) (hn : Later n n') : scope.Settled n' :=
  ⟨h.fits.mono hn, h.above⟩

theorem target (h : scope.Settled n) {s : String} (hs : scope.Target s) : Above scope.path s := by
  obtain ⟨name, line, hd⟩ := hs
  exact h.above (Scope.read_of_dest hd)

/-- Instances leave the scope around them settled. -/
theorem instances {is : List Instance} {outside : String → Prop} (h : scope.Settled n)
    (hn : Confined (Below scope is) outside n n') : scope.Settled n' := by
  refine ⟨fun name line f hread => ?_, h.above⟩
  obtain ⟨htaken, d, hd, hwidth⟩ := h.fits hread
  have hkept := hn.width _ htaken (h.above hread).not_below
  exact ⟨hn.taken _ htaken, d, hd, hkept.trans hwidth⟩

/-- The value of an expression is on a signal above the instances. -/
theorem lower {e : Expr} {w : Width} {f : Fanin} (h : scope.Settled n)
    (hf : (lower scope site e w none).run n = .ok (f, n')) : Above scope.path f.signal := by
  have hhands := lower_hands e h.fits (.none n) hf
  cases hecho : e.echo? scope.bits w.bits with
  | some read =>
    rw [hecho] at hhands
    obtain ⟨-, g, hread, rfl⟩ := hhands
    have habove := h.above hread
    exact habove
  | none =>
    rw [hecho] at hhands
    exact .inl (hhands.flat (Grows.lower _ _ _ _ none (.none n) hf))

end Scope.Settled

/-! ## The scope inside an instance -/

/-- What is bound stands above the instances of the scope outside, and buffers take their values
from signals below the path inside. -/
structure Wiring.Placed (wiring : Wiring) (outer inner : String) : Prop where
  bound : ∀ name binding, wiring.bindings.find? name = some binding →
    Above outer binding.fanin.signal
  buffer : ∀ b ∈ wiring.buffers, Beneath inner b.2

theorem Wiring.Placed.bind {outer name : String} {binding : Binding}
    (h : wiring.Placed outer path) (hbinding : Above outer binding.fanin.signal) :
    Wiring.Placed { wiring with bindings := wiring.bindings.insert name binding } outer path := by
  refine ⟨fun other found hfind => ?_, h.buffer⟩
  rw [Table.find?_insert] at hfind
  split at hfind
  · cases hfind
    exact hbinding
  · exact h.bound other found hfind

theorem connectPort_placed {port : Decl} (h : scope.Settled n)
    (hwiring : wiring.Placed scope.path path)
    (hrun : (connectPort scope site i path connected wiring port).run n = .ok (wiring', n')) :
    wiring'.Placed scope.path path := by
  rw [connectPort] at hrun
  split at hrun
  · obtain ⟨own, -, hrun⟩ := run_of_lift_bind hrun
    obtain ⟨f, k, hf, hrun⟩ := run_of_bind hrun
    obtain ⟨_, _, hget, hrun⟩ := run_of_bind hrun
    cases hget
    dsimp only at hrun
    split at hrun
    · cases hrun
      exact hwiring.bind (h.lower hf)
    · obtain ⟨g, _, hg, hrun⟩ := run_of_bind hrun
      cases hrun
      have hkind : Computed (.op .buf) := trivial
      have hnew := Places.emit _ _ _ _ _ (.none k) hg
      exact hwiring.bind (.inl (hnew.flat (Grows.emit hkind _ _ _ none (.none k) hg)))
  · cases hrun
  · obtain ⟨outer, houter, hrun⟩ := run_of_lift_bind hrun
    obtain ⟨_, _, hget, hrun⟩ := run_of_bind hrun
    cases hget
    split at hrun
    · cases hrun
      exact hwiring.bind (h.above (Scope.read_of_dest houter))
    · cases hrun
      refine ⟨hwiring.bound, List.forall_mem_append.2 ⟨hwiring.buffer, ?_⟩⟩
      exact List.forall_mem_singleton.2 (beneath_append _ _)
  · cases hrun
  · cases hrun
    exact hwiring

theorem connectPorts_placed {ports : List Decl} (hports : (ports.map Decl.name).Nodup)
    (h : scope.Settled n) (hfree : ∀ port ∈ ports, wiring.bindings.find? port.name = none)
    (hwiring : wiring.Placed scope.path path)
    (hrun : (connectPorts scope site i path connected ports wiring).run n = .ok (wiring', n')) :
    wiring'.Placed scope.path path := by
  induction ports generalizing n wiring with
  | nil =>
    cases hrun
    exact hwiring
  | cons port rest ih =>
    obtain ⟨wired, k, hport, hrun⟩ := run_of_bind hrun
    obtain ⟨hnew, hrest⟩ := List.nodup_cons.1 hports
    obtain ⟨hfreePort, hfreeRest⟩ := List.forall_mem_cons.1 hfree
    have hconnects := connectPort_spec h.fits hfreePort hport
    refine ih hrest (h.mono hconnects.grows.later) (fun other hmem => ?_)
      (connectPort_placed h hwiring hport) hrun
    have hother : other.name ≠ port.name := fun heq => hnew (heq ▸ List.mem_map_of_mem hmem)
    rw [hconnects.other _ (by simpa using hother)]
    exact hfreeRest other hmem

/-- The signals of an instance that are its own are declared at their widths, whether they are new
or not. -/
theorem declareOwn_widths {bindings : Table String Binding} {decls : List Decl}
    (hdecls : (decls.map Decl.name).Nodup)
    (h : (declareOwn path bindings decls).run n = .ok ((), n')) :
    ∀ d ∈ decls, bindings.find? d.name = none →
      n'.isTaken (path ++ d.name) = true ∧ n'.width (path ++ d.name) = d.width := by
  induction decls generalizing n with
  | nil => exact List.forall_mem_nil _
  | cons d rest ih =>
    obtain ⟨hnew, hrest⟩ := List.nodup_cons.1 hdecls
    rw [declareOwn] at h
    dsimp only at h
    split at h
    · next hbound =>
      refine List.forall_mem_cons.2 ⟨fun hnone => ?_, ih hrest h⟩
      rw [Table.contains, hnone] at hbound
      cases hbound
    · obtain ⟨_, _, hset, h⟩ := run_of_bind h
      cases hset
      refine List.forall_mem_cons.2 ⟨fun _ => ?_, ih hrest h⟩
      have hlater : Confined _ (fun _ => False) _ _ := (declareOwn_confined h).1
      have hdeclared : (n.setWidth (path ++ d.name) d.width).isTaken (path ++ d.name) = true :=
        (isTaken_setWidth n d.width).2 (.inl rfl)
      refine ⟨hlater.taken _ hdeclared, ?_⟩
      rw [hlater.width _ hdeclared, width_setWidth, if_pos rfl]
      rintro ⟨other, hmem, heq⟩
      exact hnew ((String.append_right_inj path).1 heq ▸ List.mem_map_of_mem hmem)

/-- The scope inside an instance is settled once its own signals are declared. -/
theorem Scope.Settled.enter {child : Module} {name : String} {n₁ n₂ : Netlist}
    (h : scope.Settled n) (hchild : child.WellFormed)
    (hports : (connectPorts scope site i (scope.path ++ name ++ "/") connected child.portDecls
      ⟨.empty, []⟩).run n = .ok (wiring, n₁))
    (hown : (declareOwn (scope.path ++ name ++ "/") wiring.bindings child.decls).run n₁ =
      .ok ((), n₂)) :
    Scope.Settled ⟨child, scope.path ++ name ++ "/", wiring.bindings⟩ n₂ ∧
      wiring.Placed scope.path (scope.path ++ name ++ "/") := by
  have hnodup := portDecls_nodup hchild.ports_nodup
  have hconnects := connectPorts_spec hnodup h.fits (fun _ _ => rfl) hports
  have hplaced := connectPorts_placed hnodup h (fun _ _ => rfl)
    ⟨fun _ _ hb => (by cases hb), List.forall_mem_nil _⟩ hports
  have hconfined : Confined _ (fun _ => False) n₁ n₂ := (declareOwn_confined hown).1
  have hwidths := declareOwn_widths hchild.decls_nodup hown
  refine ⟨⟨inner_fits h.fits hconnects (fun port binding hb ht => ⟨hconfined.taken _ ht, ?_⟩)
    hwidths, fun port line f hread => ?_⟩, hplaced⟩
  · refine hconfined.width _ ht ?_
    rintro ⟨d, -, heq⟩
    exact (hplaced.bound port binding hb).not_beneath (heq ▸ beneath_append _ _)
  · cases hb : wiring.bindings.find? port with
    | some binding =>
      rw [read_of_bound hb] at hread
      cases hread
      rw [String.append_assoc]
      exact (hplaced.bound port binding hb).inner _
    | none =>
      cases hd : child.decl? port with
      | none =>
        rw [Scope.read, hb, hd] at hread
        cases hread
      | some d =>
        rw [read_of_free hb hd] at hread
        cases hread
        obtain rfl : d.name = port := by simpa using List.find?_some hd
        exact .inr ⟨scope.path ++ name, d.name, rfl,
          hchild.flat_decl d (List.mem_of_find?_eq_some hd), List.prefix_rfl⟩

/-- The scope of the top module is settled before its statements. -/
theorem settled_topScope {top : Module} (htop : top.WellFormed)
    (h : Declared top n fun _ => True) : (topScope top).Settled n := by
  refine ⟨h.fits, fun name line f hread => .inl ?_⟩
  obtain ⟨rfl, d, hd⟩ := topScope_read hread
  obtain rfl : d.name = name := by simpa using List.find?_some hd
  exact htop.flat_decl d (List.mem_of_find?_eq_some hd)

end GateSynth.Verilog.Elaborate
