import GateSynth.Proofs.Netlist.Provenance
import GateSynth.Proofs.Verilog.Elaboration

/-!
# Elaboration by operations

Whatever a source file says, its netlist is made from an empty one by operations on netlists
(`operated_of_elaborate`). So it is one that can be built, and what holds of those holds of it. The
statements of a module need not be in order for this: a step that succeeds only declares widths,
makes new signals and adds nodes (`Operates`).
-/

namespace GateSynth.Verilog

namespace Elaborate

open Netlist

variable {α β : Type} {file : SourceFile} {scope : Scope} {site : Site} {i : Instance}
  {n n' : Netlist}

theorem operated_setWidth (n : Netlist) (s : String) (w : Width) : n.Operated (n.setWidth s w) := by
  refine .single (.declareWidth s w.bits) ?_
  rw [Netlist.perform, Netlist.declareWidth, Width.ofNat?_bits]
  rfl

/-- If the step succeeds, then operations lead to its netlist. -/
def Operates (step : Build α) : Prop :=
  ∀ ⦃n n' a⦄, step.run n = .ok (a, n') → n.Operated n'

namespace Operates

/-! ## The parts -/

theorem pure (a : α) : Operates (pure a : Build α) := by
  intro n n' b h
  cases h
  exact .refl

theorem throw (e : SourceError) : Operates (throw e : Build α) := by
  intro n n' b h
  cases h

theorem lift (x : Except SourceError α) : Operates (liftM x : Build α) := by
  intro n n' b h
  obtain ⟨-, rfl⟩ := run_of_lift h
  exact .refl

theorem get : Operates (get : Build Netlist) := by
  intro n n' b h
  cases h
  exact .refl

theorem bind {step : Build α} {next : α → Build β} (h : Operates step)
    (hnext : ∀ a, Operates (next a)) : Operates (step >>= next) := by
  intro n n' b hrun
  obtain ⟨a, m, hstep, hrun⟩ := run_of_bind hrun
  exact (h hstep).trans (hnext a hrun)

theorem addNode (site : Site) (kind : Kind) (fanins : List Fanin) (output : String) :
    Operates (addNode site kind fanins output) := by
  intro n n' _ h
  obtain ⟨id, hadd⟩ := addNode_run h
  refine .single (.addNode kind fanins output) ?_
  rw [Netlist.perform, hadd]

theorem newSignal (w : Width) : Operates (newSignal w) := by
  intro n n' s h
  cases h
  refine .single (.freshSignal "t" w.bits) ?_
  simp only [Netlist.perform, freshSignal, Netlist.declareWidth, Width.ofNat?_bits]
  rfl

theorem emit (site : Site) (kind : Kind) (fanins : List Fanin) (w : Width)
    (dest : Option String) : Operates (emit site kind fanins w dest) := by
  refine get.bind fun n => ?_
  dsimp only
  split
  · exact (pure _).bind fun _ => (addNode _ _ _ _).bind fun _ => pure _
  · exact (newSignal w).bind fun _ => (addNode _ _ _ _).bind fun _ => pure _

theorem composable : Composable fun _ _ step => Operates step where
  weaken h := h
  pure := pure
  throw := throw
  lift := lift
  get := @fun _ => get
  bind := bind
  operator site op fanins w := emit site (.op op) fanins w _
  literal site value w := emit site (.const value) [] w _

/-- A loop over statements. -/
theorem forM {step : α → Build Unit} (h : ∀ a, Operates (step a)) (statements : List α) :
    Operates (statements.forM step) := by
  induction statements with
  | nil => exact pure _
  | cons a rest ih => exact (h a).bind fun _ => ih

/-! ## Statements -/

theorem assign (scope : Scope) (a : Assign) : Operates (assign scope a) :=
  (lift _).bind fun _ => (lift _).bind fun _ => (lift _).bind fun _ =>
    (composable.lower scope _ a.expr _ _).bind fun _ => composable.drive _ _ _ _

theorem gateInstance (scope : Scope) (site : Site) (i : Instance) (gate : Gate) :
    Operates (gateInstance scope site i gate) := by
  refine (lift _).bind fun terminals => ?_
  split
  · exact (lift _).bind fun d => (lift _).bind fun w =>
      (@Composable.lowerAll none _ composable scope site w _).bind fun values =>
      (composable.gateOutput site i gate w d values).bind fun value => composable.drive _ _ _ _
  · exact throw _

theorem blackBox (scope : Scope) (site : Site) (i : Instance) :
    Operates (blackBox scope site i) := by
  refine (lift _).bind fun terminals => ?_
  split
  · exact (lift _).bind fun d => (lift _).bind fun w =>
      (@Composable.lowerEach none _ composable scope site _).bind fun fanins =>
      (emit _ _ _ _ _).bind fun value => composable.drive _ _ _ _
  · exact throw _

/-! ## Instances -/

section
variable {path : String} {connected : List (String × Option Expr)}

theorem connectPort (wiring : Wiring) (port : Decl) :
    Operates (connectPort scope site i path connected wiring port) := by
  unfold Elaborate.connectPort
  dsimp only
  split
  · refine (lift _).bind fun own => (composable.lower scope site _ _ none).bind fun value =>
      get.bind fun n => ?_
    split
    · exact (pure _).bind fun _ => pure _
    · exact (emit _ _ _ _ _).bind fun _ => pure _
  · exact throw _
  · refine (lift _).bind fun outer => get.bind fun n => ?_
    split <;> exact pure _
  · exact throw _
  · exact pure _

theorem connectPorts (ports : List Decl) (wiring : Wiring) :
    Operates (connectPorts scope site i path connected ports wiring) := by
  induction ports generalizing wiring with
  | nil => exact pure _
  | cons port rest ih => exact (connectPort wiring port).bind ih

end

theorem declareOwn (path : String) (bindings : Table String Binding) (decls : List Decl) :
    Operates (declareOwn path bindings decls) := by
  induction decls with
  | nil => exact pure _
  | cons d rest ih =>
    have hdeclare : Operates (modify fun n => n.setWidth (path ++ d.name) d.width) := by
      intro n n' _ h
      cases h
      exact operated_setWidth _ _ _
    rw [Elaborate.declareOwn]
    dsimp only
    split
    · exact ih
    · exact hdeclare.bind fun _ => ih

theorem driveOuter (site : Site) (buffers : List (String × String)) :
    Operates (driveOuter site buffers) := by
  induction buffers with
  | nil => exact pure _
  | cons b rest ih =>
    exact get.bind fun n => (composable.drive _ _ _ _).bind fun _ => ih

theorem inline {body : Scope → Build Unit} (hbody : ∀ scope, Operates (body scope))
    (scope : Scope) (site : Site) (i : Instance) (child : Module) :
    Operates (inline body scope site i child) := by
  unfold Elaborate.inline
  split
  · exact throw _
  · exact (lift _).bind fun connected => (connectPorts _ _).bind fun wiring =>
      (declareOwn _ _ _).bind fun _ => (hbody _).bind fun _ => driveOuter _ _

theorem instantiate {body : List String → Scope → Build Unit} {stack : List String}
    (hbody : ∀ stack scope, Operates (body stack scope)) (scope : Scope) (i : Instance) :
    Operates (instantiate file body stack scope i) := by
  unfold Elaborate.instantiate
  dsimp only
  split
  · exact gateInstance _ _ _ _
  · exact blackBox _ _ _
  · split
    · exact throw _
    · exact inline (hbody _) _ _ _ _

/-- By induction on the depth to which instances nest. -/
theorem moduleBody (file : SourceFile) (depth : Nat) (stack : List String) (scope : Scope) :
    Operates (moduleBody file depth stack scope) := by
  induction depth generalizing stack scope with
  | zero => exact throw _
  | succ depth ih =>
    exact (forM (assign scope) _).bind fun _ => forM (instantiate ih scope) _

end Operates

/-! ## The top module -/

theorem operated_of_declarePorts {ports : List Decl} (h : declarePorts ports n = .ok n') :
    n.Operated n' := by
  induction ports generalizing n with
  | nil =>
    cases h
    exact .refl
  | cons port rest ih =>
    rw [declarePorts] at h
    dsimp only at h
    split at h
    · obtain ⟨m, hm, h⟩ := ok_of_bind h
      refine .head ⟨.addInput port.name port.width.bits, ?_⟩ (ih h)
      rw [Netlist.perform, hm]
      rfl
    · obtain ⟨m, hm, h⟩ := ok_of_bind h
      refine .head ⟨.addOutput port.name port.width.bits, ?_⟩ (ih h)
      rw [Netlist.perform, hm]
      rfl
    · exact ih h

theorem operated_of_start {m : Module} (h : start m = .ok n) :
    (Netlist.empty m.name).Operated n := by
  have hwires : ∀ (decls : List Decl) (n : Netlist),
      n.Operated (decls.foldl (fun n d => n.setWidth d.name d.width) n) := by
    intro decls
    induction decls with
    | nil => exact fun n => .refl
    | cons d rest ih => exact fun n => (operated_setWidth _ _ _).trans (ih _)
  exact (hwires _ _).trans (operated_of_declarePorts h)

end Elaborate

open Elaborate

/-- The netlist of a source file comes from an empty one by operations. -/
theorem operated_of_elaborate {file : SourceFile} {top : Option String} {n : Netlist}
    (h : elaborate file top = .ok n) : ∃ name, (Netlist.empty name).Operated n := by
  obtain ⟨m, n₀, n₁, -, hstart, hbody, rfl, -⟩ := elaborate_eq_ok h
  refine ⟨m.name, ((operated_of_start hstart).trans (Operates.moduleBody _ _ _ _ hbody)).trans ?_⟩
  exact Netlist.Operated.single .rebuildWires rfl

theorem built_of_elaborate {file : SourceFile} {top : Option String} {n : Netlist}
    (h : elaborate file top = .ok n) : n.Built :=
  have ⟨name, hn⟩ := operated_of_elaborate h
  (Netlist.Built.empty name).operated hn

end GateSynth.Verilog
