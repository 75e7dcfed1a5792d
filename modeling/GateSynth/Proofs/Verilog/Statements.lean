import GateSynth.Proofs.Verilog.Composition
import GateSynth.Proofs.Verilog.Lowering

/-!
# Statements

An assignment gives its target the value of its expression, cut to the width of the target
(`assign_spec`). Gates and modules without a definition are not followed further than that they only
add to the netlist: `Grows` says so of a step, and it goes through sequences of steps whatever the
values and widths in them are.
-/

namespace GateSynth.Verilog.Elaborate

open Netlist

variable {kinds kinds' : Kind → Prop} {dest : Option String} {α β : Type}

/-! ## Steps that only add -/

/-- More nodes of some kinds, each on a new signal or on the destination. -/
structure Grown (kinds : Kind → Prop) (dest : Option String) (n n' : Netlist) : Prop extends
    Extends kinds Flat n n' where
  drivers : ∀ node ∈ n'.nodes, node ∈ n.nodes ∨ n.isTaken node.output = false ∨
    dest = some node.output

namespace Grown

variable {n n' n'' : Netlist}

theorem refl (n : Netlist) : Grown kinds dest n n := ⟨.refl n, fun _ h => .inl h⟩

theorem trans (h : Grown kinds dest n n') (h' : Grown kinds dest n' n'') :
    Grown kinds dest n n'' := by
  refine ⟨h.toExtends.trans h'.toExtends, fun node hnode => ?_⟩
  rcases h'.drivers node hnode with hold | hnew | hdest
  · exact h.drivers node hold
  · refine .inr (.inl (Bool.eq_false_iff.2 fun htaken => ?_))
    rw [h.taken _ htaken] at hnew
    cases hnew
  · exact .inr (.inr hdest)

end Grown

/-- The step adds nodes of some kinds, on new signals or on the destination. -/
def Grows (kinds : Kind → Prop) (dest : Option String) (step : Build α) : Prop :=
  ∀ ⦃n n' a⦄, Ready n dest → step.run n = .ok (a, n') → Grown kinds dest n n'

namespace Grows

theorem mono {step : Build α} (h : Grows kinds dest step) (hkinds : ∀ k, kinds k → kinds' k) :
    Grows kinds' dest step := by
  intro n n' a hdest hrun
  have hgrown := h hdest hrun
  exact ⟨hgrown.toExtends.mono hkinds fun _ hs => hs, hgrown.drivers⟩

theorem weaken {step : Build α} (h : Grows kinds none step) : Grows kinds dest step := by
  intro n n' a _ hrun
  have hgrown := h (.none n) hrun
  exact ⟨hgrown.toExtends, fun node hnode =>
    (hgrown.drivers node hnode).imp_right fun hnew => hnew.imp_right nofun⟩

theorem pure (a : α) : Grows kinds dest (pure a : Build α) := by
  intro n n' b _ h
  cases h
  exact .refl _

theorem throw (e : SourceError) : Grows kinds dest (throw e : Build α) := by
  intro n n' b _ h
  cases h

theorem lift (x : Except SourceError α) : Grows kinds dest (liftM x : Build α) := by
  intro n n' b _ h
  obtain ⟨-, rfl⟩ := run_of_lift h
  exact .refl _

theorem get : Grows kinds dest (get : Build Netlist) := by
  intro n n' b _ h
  cases h
  exact .refl _

theorem bind {step : Build α} {next : α → Build β} (h : Grows kinds dest step)
    (hnext : ∀ a, Grows kinds dest (next a)) : Grows kinds dest (step >>= next) := by
  intro n n' b hdest hrun
  obtain ⟨a, m, hstep, hrun⟩ := run_of_bind hrun
  have hgrows := h hdest hstep
  exact hgrows.trans (hnext a (hdest.mono hgrows.later) hrun)

theorem emit {kind : Kind} (hkind : kinds kind) (site : Site) (fanins : List Fanin) (w : Width)
    (dest : Option String) : Grows kinds dest (emit site kind fanins w dest) := by
  intro n n' f hdest h
  rcases emit_run h with ⟨-, id, output, rfl, hflat, hnew⟩ | ⟨id, d, hd, -, rfl, hadd⟩
  · refine ⟨.of_newNode hnew hkind hflat, fun node hnode => ?_⟩
    rcases hnew.mem_nodes.1 hnode with hold | rfl
    · exact .inl hold
    · exact .inr (.inl hnew.free)
  · refine ⟨.of_addNode hadd (hdest d hd) hkind, fun node hnode => ?_⟩
    rw [nodes_of_addNode hadd, List.mem_append, List.mem_singleton] at hnode
    rcases hnode with hold | rfl
    · exact .inl hold
    · exact .inr (.inr hd)

theorem composable : Composable fun dest _ step => Grows Computed dest step where
  weaken := weaken
  pure := pure
  throw := throw
  lift := lift
  get := @fun _ => get
  bind := bind
  operator site _ fanins w := emit trivial site fanins w _
  literal site _ w := emit trivial site [] w _

theorem constant (site : Site) (value : Word) (w : Width) :
    Grows Computed dest (constant site value w) :=
  composable.constant site value w

theorem invert (site : Site) (f : Fanin) (w : Width) (dest : Option String) :
    Grows Computed dest (invert site f w dest) :=
  composable.invert site f w dest

theorem powerConstant (site : Site) (exponent : Nat) :
    Grows Computed dest (powerConstant site exponent) :=
  composable.powerConstant site exponent

theorem wider (w : Width) : Grows Computed dest (wider w) := composable.wider w

theorem truth (site : Site) (f : Fanin) (w : Width) : Grows Computed dest (truth site f w) :=
  composable.truth site f w

/-- Lowering an expression only adds, whether the width holds its value or not. -/
theorem lower (scope : Scope) (site : Site) (e : Expr) (w : Width) (dest : Option String) :
    Grows Computed dest (lower scope site e w dest) :=
  composable.lower scope site e w dest

theorem drive (site : Site) (d : String) (value : Fanin) (w : Width) :
    Grows Computed (some d) (drive site d value w) :=
  composable.drive site d value w

end Grows

/-! ## Assignments -/

section
variable {scope : Scope} {site : Site} {n n' : Netlist} {d : String} {value : Fanin} {w : Width}
  {x : Netlist → Valuation → Nat}

/-- A signal that is driven by a value carries as much of it as its width holds. -/
theorem drive_spec (hdest : n.isTaken d = true) (hw : n.width d = w)
    (hcarries : ∀ {N cells v}, Later n N → Satisfies N cells v → Carries N v value (x N v) (some d))
    (h : (drive site d value w).run n = .ok ((), n')) :
    ∀ {N cells v}, Later n' N → Satisfies N cells v → (v d).toNat = x N v % w.values := by
  intro N cells v hN hv
  rw [drive] at h
  split at h
  · next heq =>
    cases h
    have hwidth : N.width d = w := by rw [hN.width d hdest, hw]
    rcases hcarries hN hv with hseen | ⟨d', hd', -, hvalue⟩
    · have hplain : v.seen N value = v d := by
        rw [Valuation.seen_plain (by simpa using heq.2), heq.1]
      have hlt := hv.lt d
      rw [hwidth] at hlt
      rw [← hseen, hplain, Nat.mod_eq_of_lt hlt]
    · cases hd'
      rw [hvalue, hwidth]
  · next hne =>
    obtain ⟨f, m, hemit, h⟩ := run_of_bind h
    cases h
    have hkind : Computed (.op .buf) := trivial
    have hgrows := Grows.emit hkind _ _ _ _ (fun _ hd => by cases hd; exact hdest) hemit
    have hN' := hgrows.later.trans hN
    rcases emit_run hemit with ⟨hwide, -⟩ | ⟨id, d', hd', -, rfl, hadd⟩
    · have := hwide d rfl
      rw [hw] at this
      omega
    · cases hd'
      have hmem : ⟨id, .op .buf, [value], d⟩ ∈ n'.nodes := by
        rw [nodes_of_addNode hadd]
        exact List.mem_append_right _ (.head _)
      have hout := hv.output (hN.nodes _ hmem) hkind
      rcases hcarries hN' hv with hseen | ⟨d', hd', hf, -⟩
      · rw [hout, ← hseen]
        simp only [valueAt, List.map_cons, List.map_nil, Operator.toNat_value_buf]
        rw [hN'.width d hdest, hw]
      · cases hd'
        exact absurd ⟨congrArg Fanin.signal hf, by rw [hf]; rfl⟩ hne

/-- The target of an assignment is declared and has the value of the expression, taken at the wider
of the two and cut to the width of the target. -/
def Scope.Holds (scope : Scope) (N : Netlist) (v : Valuation) (a : Assign) : Prop :=
  ∃ d, scope.module.decl? a.target = some d ∧ scope.value N v a.target =
    a.expr.value scope.bits (scope.value N v) (max d.width.bits (a.expr.ownBits scope.bits)) %
      span d.width.bits

theorem assign_spec {a : Assign} (hfits : scope.Fits n) (h : (assign scope a).run n = .ok ((), n')) :
    Extends Computed Flat n n' ∧
      ∀ {N cells v}, Later n' N → Satisfies N cells v → scope.Holds N v a := by
  rw [assign] at h
  obtain ⟨d, hd, h⟩ := run_of_lift_bind h
  obtain ⟨w, hw, h⟩ := run_of_lift_bind h
  obtain ⟨own, hown, h⟩ := run_of_lift_bind h
  obtain ⟨value, m, hvalue, h⟩ := run_of_bind h
  have hread := Scope.read_of_dest hd
  obtain ⟨htaken, decl, hdecl, hwidth⟩ := hfits hread
  obtain ⟨decl', hdecl', rfl, -⟩ := Scope.width_eq_ok hw
  obtain rfl : decl = decl' := by simpa [hdecl] using hdecl'
  have hready : Ready n (some d) := fun _ hd' => by cases hd'; exact htaken
  have hmax := bits_max decl.width own
  have hyields := lowers scope _ a.expr hfits hready hown (by omega) hvalue
  have htaken' := hyields.grows.taken d htaken
  have hdrive := Grows.drive _ _ _ _ (fun _ hd' => by cases hd'; exact htaken') h
  refine ⟨hyields.grows.trans hdrive.toExtends, fun {N cells v} hN hv => ?_⟩
  have hspec := drive_spec htaken' (by rw [hyields.grows.width d htaken]; exact hwidth)
    hyields.carries h hN hv
  refine ⟨decl, hdecl, ?_⟩
  rw [Scope.value_of_read hread, ← ownBits_of_selfWidth a.expr hown, ← hmax]
  exact hspec

end

/-! ## What statements drive -/

/-- The kinds that elaboration makes. -/
def Elaborated : Kind → Prop
  | .op _ | .const _ | .module _ => True
  | .cell .. => False

theorem Computed.elaborated : ∀ kind, Computed kind → Elaborated kind
  | .op _, _ | .const _, _ => trivial

/-- Every signal that can be driven in the scope is taken. -/
def Scope.Drives (scope : Scope) (n : Netlist) : Prop :=
  ∀ ⦃name line d⦄, scope.dest name line = .ok d → n.isTaken d = true

theorem Scope.Fits.drives {scope : Scope} {n : Netlist} (h : scope.Fits n) : scope.Drives n :=
  fun _ _ _ hd => (h (Scope.read_of_dest hd)).1

/-- A signal that can be driven in the scope. -/
def Scope.Target (scope : Scope) (s : String) : Prop := ∃ name line, scope.dest name line = .ok s

theorem Scope.Drives.ready {scope : Scope} {n : Netlist} {name d : String} {line : Nat}
    (hdrives : scope.Drives n) (h : scope.dest name line = .ok d) : Ready n (some d) := by
  intro d' hd
  cases hd
  exact hdrives h

namespace Grows

theorem lowerAll_list (scope : Scope) (site : Site) (w : Width) (exprs : List Expr) :
    Grows Computed dest (Elaborate.lowerAll scope site w exprs) :=
  composable.lowerAll scope site w exprs

theorem lowerEach (scope : Scope) (site : Site) (exprs : List Expr) :
    Grows Computed dest (lowerEach scope site exprs) :=
  composable.lowerEach scope site exprs

theorem gateOutput (site : Site) (i : Instance) (gate : Gate) (w : Width) (d : String)
    (values : List Fanin) : Grows Computed (some d) (gateOutput site i gate w d values) :=
  composable.gateOutput site i gate w d values

end Grows

section
variable {scope : Scope} {site : Site} {i : Instance} {n n' : Netlist}

/-- An assignment only adds to its target. -/
theorem assign_grown {a : Assign} (hdrives : scope.Drives n)
    (h : (assign scope a).run n = .ok ((), n')) :
    ∃ d, scope.dest a.target a.pos.line = .ok d ∧ Grown Computed (some d) n n' := by
  rw [assign] at h
  obtain ⟨d, hd, h⟩ := run_of_lift_bind h
  obtain ⟨w, -, h⟩ := run_of_lift_bind h
  obtain ⟨own, -, h⟩ := run_of_lift_bind h
  have hsteps := fun site => (Grows.lower scope site a.expr (w.max own) (some d)).bind fun value =>
    Grows.drive site d value w
  exact ⟨d, hd, hsteps _ (hdrives.ready hd) h⟩

/-- A gate only adds to the signal of its first terminal. -/
theorem gateInstance_grown {gate : Gate} (hdrives : scope.Drives n)
    (h : (gateInstance scope site i gate).run n = .ok ((), n')) :
    ∃ name pos inputs d, positional i = .ok (.ident name pos :: inputs) ∧
      scope.dest name i.pos.line = .ok d ∧ Grown Computed (some d) n n' := by
  rw [gateInstance] at h
  obtain ⟨terminals, hterminals, h⟩ := run_of_lift_bind h
  split at h
  · next name pos inputs =>
    obtain ⟨d, hd, h⟩ := run_of_lift_bind h
    obtain ⟨w, -, h⟩ := run_of_lift_bind h
    have hsteps := (Grows.lowerAll_list scope site w inputs).bind fun values =>
      (Grows.gateOutput site i gate w d values).bind fun value => Grows.drive site d value w
    exact ⟨name, pos, inputs, d, hterminals, hd, hsteps (hdrives.ready hd) h⟩
  · cases h

/-- A module without a definition only adds to what it drives. -/
theorem blackBox_grown (hdrives : scope.Drives n)
    (h : (blackBox scope site i).run n = .ok ((), n')) :
    ∃ d, scope.Target d ∧ Grown Elaborated (some d) n n' := by
  rw [blackBox] at h
  obtain ⟨terminals, -, h⟩ := run_of_lift_bind h
  split at h
  · next inputs =>
    obtain ⟨d, hd, h⟩ := run_of_lift_bind h
    obtain ⟨w, -, h⟩ := run_of_lift_bind h
    have hkind : Elaborated (.module i.module) := trivial
    have hsteps := ((Grows.lowerEach scope site inputs).mono Computed.elaborated).bind fun fanins =>
      (Grows.emit hkind site fanins w (some d)).bind fun value =>
      (Grows.drive site d value w).mono Computed.elaborated
    exact ⟨d, ⟨_, _, hd⟩, hsteps (hdrives.ready hd) h⟩
  · cases h

end

end GateSynth.Verilog.Elaborate
