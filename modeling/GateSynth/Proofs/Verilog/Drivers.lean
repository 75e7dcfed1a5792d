import GateSynth.Proofs.Verilog.LineIndex
import GateSynth.Proofs.Verilog.SettledScopes

/-!
# One statement for each signal

Elaboration can keep a record of the statements that it elaborates, those of inlined instances
included, without doing anything else (`recordBody_forget`). A statement that drives its destination
finds it without a driver and leaves it with one, so no two of them have the same destination
(`elaborate_drivesOnce`). Only assignments that hand their target on to itself drive nothing, and
those are not noticed beside another driver (`elaborate_idleDriver`).
-/

namespace GateSynth.Verilog

namespace Elaborate

open Netlist

/-! ## Recorded statements -/

/-- A statement that has a destination, in its scope. -/
inductive Driving where
  /-- An assignment. -/
  | assign (scope : Scope) (a : Assign)
  /-- An instance of a gate, or of a module without a definition. -/
  | primitive (scope : Scope) (i : Instance)
  /-- The buffer for an output of an instance: the signal outside, and the one inside from which it
  takes its value. -/
  | output (scope : Scope) (i : Instance) (outer own : String)

namespace Driving

/-- The destination of a statement. -/
def Dest : Driving → String → Prop
  | assign scope a, d => scope.dest a.target a.pos.line = .ok d
  | primitive scope i, d => scope.Terminal i d
  | output scope i outer _, d => d = outer ∧ ∃ name, scope.dest name i.pos.line = .ok d

/-- The statement hands its destination on to itself. -/
def Idle : Driving → Prop
  | assign scope a => scope.Idle a
  | primitive .. | output .. => False

theorem Dest.unique {s : Driving} {d d' : String} (h : s.Dest d) (h' : s.Dest d') : d = d' := by
  cases s with
  | assign scope a => exact Except.ok.inj (h.symm.trans h')
  | primitive scope i =>
    obtain ⟨name, pos, inputs, hterminals, hd⟩ := h
    obtain ⟨name', pos', inputs', hterminals', hd'⟩ := h'
    cases hterminals.symm.trans hterminals'
    exact Except.ok.inj (hd.symm.trans hd')
  | output scope i outer own => exact h.1.trans h'.1.symm

end Driving

/-! ## Recorded elaboration -/

/-- The records of steps one after the other. -/
def recordEach {α : Type} (step : α → Build (List Driving)) : List α → Build (List Driving)
  | [] => return []
  | a :: rest => do
    let first ← step a
    return first ++ (← recordEach step rest)

/-- An assignment, with its record. -/
def recordAssign (scope : Scope) (a : Assign) : Build (List Driving) := do
  assign scope a
  return [.assign scope a]

/-- Inlining an instance, with the record of its statements and of the buffers for its outputs. -/
def recordInline (body : Scope → Build (List Driving)) (scope : Scope) (site : Site) (i : Instance)
    (child : Module) : Build (List Driving) := do
  match i.name with
  | none => throw (connectionError i "module instances need a name")
  | some name =>
    let connected ← connectedPorts i child
    let path := scope.path ++ name ++ "/"
    let wiring ← connectPorts scope site i path connected child.portDecls ⟨.empty, []⟩
    declareOwn path wiring.bindings child.decls
    let inside ← body ⟨child, path, wiring.bindings⟩
    driveOuter site wiring.buffers
    return inside ++ wiring.buffers.map fun b => .output scope i b.1 b.2

/-- An instance, with the record of its statements. -/
def recordInstance (file : SourceFile) (body : List String → Scope → Build (List Driving))
    (stack : List String) (scope : Scope) (i : Instance) : Build (List Driving) := do
  let site : Site := ⟨scope.module.name, i.pos.line⟩
  match Gate.ofName? i.module, file.module? i.module with
  | some gate, _ => do
    gateInstance scope site i gate
    return [.primitive scope i]
  | none, none => do
    blackBox scope site i
    return [.primitive scope i]
  | none, some child =>
    if stack.contains child.name then throw (.recursiveInstance child.name)
    else recordInline (body (stack ++ [child.name])) scope site i child

/-- The statements of a module in a scope, with the record of them and of those of the instances in
it. -/
def recordBody (file : SourceFile) :
    (depth : Nat) → (stack : List String) → Scope → Build (List Driving)
  | 0, _, scope => throw (.recursiveInstance scope.module.name)
  | depth + 1, stack, scope => do
    let assigns ← recordEach (recordAssign scope) scope.module.assigns
    let instances ← recordEach (recordInstance file (recordBody file depth) stack scope)
      scope.module.instances
    return assigns ++ instances

/-! ## Records change nothing -/

/-- Without its record, the first step is the second one. -/
def Forgets (x : Build (List Driving)) (y : Build Unit) : Prop := (do let _ ← x; return ()) = y

section
variable {file : SourceFile} {scope : Scope} {site : Site} {i : Instance} {n n' : Netlist}
  {log : List Driving}

theorem Forgets.run {x : Build (List Driving)} {y : Build Unit} (h : Forgets x y)
    (hx : x.run n = .ok (log, n')) : y.run n = .ok ((), n') := by
  rw [← h, StateT.run_bind, hx]
  rfl

theorem Forgets.exists_run {x : Build (List Driving)} {y : Build Unit} (h : Forgets x y)
    (hy : y.run n = .ok ((), n')) : ∃ log, x.run n = .ok (log, n') := by
  rw [← h] at hy
  obtain ⟨log, m, hx, hy⟩ := run_of_bind hy
  cases hy
  exact ⟨log, hx⟩

theorem recordEach_forget {α : Type} {step : α → Build (List Driving)} {plain : α → Build Unit}
    (hstep : ∀ a, Forgets (step a) (plain a)) (statements : List α) :
    Forgets (recordEach step statements) (statements.forM plain) := by
  induction statements with
  | nil => rfl
  | cons a rest ih =>
    have hforM : (a :: rest).forM plain = (do plain a; rest.forM plain) := rfl
    rw [Forgets, hforM, ← ih, ← hstep a]
    simp only [recordEach, bind_assoc, pure_bind]

theorem recordAssign_forget (a : Assign) : Forgets (recordAssign scope a) (assign scope a) := by
  simp only [Forgets, recordAssign, bind_assoc, pure_bind]
  exact bind_pure _

theorem recordInline_forget {body : Scope → Build (List Driving)} {plain : Scope → Build Unit}
    (hbody : ∀ scope, Forgets (body scope) (plain scope)) (child : Module) :
    Forgets (recordInline body scope site i child) (inline plain scope site i child) := by
  have hplain : ∀ scope, plain scope = (do let _ ← body scope; return ()) := fun s => (hbody s).symm
  rw [Forgets, recordInline, inline]
  cases i.name with
  | none => rfl
  | some name => simp only [hplain, bind_assoc, pure_bind, bind_pure_unit]

theorem recordInstance_forget {body : List String → Scope → Build (List Driving)}
    {plain : List String → Scope → Build Unit}
    (hbody : ∀ stack scope, Forgets (body stack scope) (plain stack scope)) (stack : List String)
    (scope : Scope) (i : Instance) :
    Forgets (recordInstance file body stack scope i) (instantiate file plain stack scope i) := by
  rw [Forgets, recordInstance, instantiate]
  cases Gate.ofName? i.module with
  | some gate => simp only [bind_assoc, pure_bind, bind_pure_unit]
  | none =>
    cases file.module? i.module with
    | none => simp only [bind_assoc, pure_bind, bind_pure_unit]
    | some child =>
      dsimp only
      split
      · rfl
      · exact recordInline_forget (hbody _) _

theorem recordBody_forget (depth : Nat) (stack : List String) (scope : Scope) :
    Forgets (recordBody file depth stack scope) (moduleBody file depth stack scope) := by
  induction depth generalizing stack scope with
  | zero => rfl
  | succ depth ih =>
    have hassigns : Forgets (recordEach (recordAssign scope) scope.module.assigns) _ :=
      recordEach_forget recordAssign_forget _
    have hinstances : Forgets (recordEach (recordInstance file (recordBody file depth) stack scope)
      scope.module.instances) _ := recordEach_forget (recordInstance_forget ih stack scope) _
    rw [moduleBody, ← hassigns, ← hinstances, Forgets, recordBody]
    simp only [bind_assoc, pure_bind]

end

/-! ## Statements that drive -/

section
variable {file : SourceFile} {scope : Scope} {site : Site} {i : Instance} {n n' m : Netlist}
  {log log' : List Driving}

theorem Confined.keeps {below outside : String → Prop} (h : Confined below outside n n') :
    Keeps n n' :=
  ⟨h.inputs, h.nodes⟩

/-- The statements of a record have destinations: those that are not idle drive a signal that had no
driver, and no two of them the same one. -/
structure Drove (log : List Driving) (n n' : Netlist) : Prop extends Keeps n n' where
  once : log.Pairwise fun s t => ∀ d, s.Dest d → t.Dest d → s.Idle ∨ t.Idle
  dest : ∀ s ∈ log, ∃ d, s.Dest d ∧ (¬ s.Idle → Anew n n' d)

namespace Drove

/-- Steps that are not recorded. -/
theorem keeps (h : Keeps n n') : Drove [] n n' := ⟨h, .nil, List.forall_mem_nil _⟩

theorem single {s : Driving} {d : String} (h : Keeps n n') (hd : s.Dest d)
    (hanew : ¬ s.Idle → Anew n n' d) : Drove [s] n n' :=
  ⟨h, List.pairwise_singleton _ _, List.forall_mem_singleton.2 ⟨d, hd, hanew⟩⟩

/-- What one record drives has a driver already when the next one begins. -/
theorem append (h : Drove log n m) (h' : Drove log' m n') : Drove (log ++ log') n n' where
  toKeeps := h.toKeeps.trans h'.toKeeps
  once := by
    refine List.pairwise_append.2 ⟨h.once, h'.once, fun s hs t ht d hd hd' => ?_⟩
    obtain ⟨e, he, hs⟩ := h.dest s hs
    obtain ⟨e', he', ht⟩ := h'.dest t ht
    obtain rfl := hd.unique he
    obtain rfl := hd'.unique he'
    by_contra hbusy
    rw [not_or] at hbusy
    have hfree := (ht hbusy.2).1
    rw [(hs hbusy.1).isDefined] at hfree
    cases hfree
  dest := by
    refine List.forall_mem_append.2 ⟨fun s hs => ?_, fun t ht => ?_⟩
    · obtain ⟨d, hd, hanew⟩ := h.dest s hs
      exact ⟨d, hd, fun hbusy => (hanew hbusy).after h'.toKeeps⟩
    · obtain ⟨d, hd, hanew⟩ := h'.dest t ht
      exact ⟨d, hd, fun hbusy => (hanew hbusy).before h.toKeeps⟩

/-- The records of steps one after the other, in a scope that they leave settled. -/
theorem each {α : Type} {step : α → Build (List Driving)} {statements : List α}
    (hstep : ∀ a ∈ statements, ∀ ⦃n n' log⦄, scope.Settled n → (step a).run n = .ok (log, n') →
      Drove log n n' ∧ scope.Settled n')
    (h : scope.Settled n) (hrun : (recordEach step statements).run n = .ok (log, n')) :
    Drove log n n' ∧ scope.Settled n' := by
  induction statements generalizing n log with
  | nil =>
    cases hrun
    exact ⟨keeps ⟨rfl, fun _ hnode => hnode⟩, h⟩
  | cons a rest ih =>
    obtain ⟨ha, hrest⟩ := List.forall_mem_cons.1 hstep
    obtain ⟨first, m, hfirst, hrun⟩ := run_of_bind hrun
    obtain ⟨others, m', hothers, hrun⟩ := run_of_bind hrun
    cases hrun
    obtain ⟨hdrove, hsettled⟩ := ha h hfirst
    obtain ⟨hdrove', hsettled'⟩ := ih hrest hsettled hothers
    exact ⟨hdrove.append hdrove', hsettled'⟩

end Drove

theorem recordAssign_drove {a : Assign} (h : scope.Settled n)
    (hrun : (recordAssign scope a).run n = .ok (log, n')) :
    Drove log n n' ∧ scope.Settled n' := by
  obtain ⟨_, m, hassign, hrun⟩ := run_of_bind hrun
  cases hrun
  obtain ⟨d, hd, hgrown⟩ := assign_grown h.fits.drives hassign
  refine ⟨.single hgrown.keeps hd fun hbusy => ?_, h.mono hgrown.later⟩
  obtain ⟨-, d', hd', hanew⟩ := (assign_anew h.fits hassign).resolve_left fun hidle => hbusy hidle.1
  cases hd.symm.trans hd'
  exact hanew

theorem driveOuter_drove {buffers : List (String × String)}
    (hdest : ∀ b ∈ buffers, ∃ name, scope.dest name i.pos.line = .ok b.1)
    (hother : ∀ b ∈ buffers, b.2 ≠ b.1) (htaken : ∀ b ∈ buffers, n.isTaken b.1 = true)
    (hrun : (driveOuter site buffers).run n = .ok ((), n')) :
    Drove (buffers.map fun b => .output scope i b.1 b.2) n n' := by
  induction buffers generalizing n with
  | nil =>
    cases hrun
    exact .keeps ⟨rfl, fun _ hnode => hnode⟩
  | cons b rest ih =>
    obtain ⟨outer, own⟩ := b
    obtain ⟨houter, hdestRest⟩ := List.forall_mem_cons.1 hdest
    obtain ⟨hdiffer, hotherRest⟩ := List.forall_mem_cons.1 hother
    obtain ⟨htakenFirst, htakenRest⟩ := List.forall_mem_cons.1 htaken
    obtain ⟨_, _, hget, hrun⟩ := run_of_bind hrun
    cases hget
    obtain ⟨_, m, hdrive, hrun⟩ := run_of_bind hrun
    have hgrown := Grows.drive _ _ _ _ (fun _ hd => by cases hd; exact htakenFirst) hdrive
    have hanew : Anew n m outer := by
      rcases drive_anew (Nat.le_refl _) hdrive with ⟨hself, -⟩ | ⟨-, hanew⟩
      · exact absurd (congrArg Fanin.signal hself) hdiffer
      · exact hanew
    have hfirst : Drove [.output scope i outer own] n m :=
      .single hgrown.keeps ⟨rfl, houter⟩ fun _ => hanew
    have htaken' : ∀ b ∈ rest, m.isTaken b.1 = true := fun b hb => hgrown.taken _ (htakenRest b hb)
    exact hfirst.append (ih hdestRest hotherRest htaken' hrun)

/-- The statements of an inlined instance, and the buffers for its outputs. -/
theorem recordInline_drove {body : Scope → Build (List Driving)} {plain : Scope → Build Unit}
    {child : Module} (hchild : child.WellFormed)
    (hforget : ∀ scope, Forgets (body scope) (plain scope))
    (hconfined : ∀ ⦃scope n n'⦄, scope.Drives n → (plain scope).run n = .ok ((), n') →
      Confined (Beneath scope.path) scope.Target n n')
    (hbody : ∀ ⦃scope n n' log⦄, scope.module = child → scope.Settled n →
      (body scope).run n = .ok (log, n') → Drove log n n')
    (h : scope.Settled n) (hrun : (recordInline body scope site i child).run n = .ok (log, n')) :
    Drove log n n' := by
  rw [recordInline] at hrun
  split at hrun
  · cases hrun
  next name hname =>
  obtain ⟨connected, -, hrun⟩ := run_of_lift_bind hrun
  obtain ⟨wiring, n₁, hports, hrun⟩ := run_of_bind hrun
  obtain ⟨_, n₂, hown, hrun⟩ := run_of_bind hrun
  obtain ⟨inside, n₃, hinside, hrun⟩ := run_of_bind hrun
  obtain ⟨_, n₄, houter, hrun⟩ := run_of_bind hrun
  cases hrun
  obtain ⟨hsettled, hplaced⟩ := h.enter hchild hports hown
  obtain ⟨-, hwiring, henters, -, -⟩ := inlined_confined h.fits.drives hports hown
    (fun hdrives => (hconfined hdrives ((hforget _).run hinside) :)) houter
  have hdrove := hbody rfl hsettled hinside
  have hkept := hconfined hsettled.fits.drives ((hforget _).run hinside)
  refine (Drove.keeps henters.keeps).append (hdrove.append (driveOuter_drove ?_ ?_ ?_ houter))
  · intro b hb
    obtain ⟨_, -, -, name, _, -, hdest⟩ := hwiring.buffer b hb
    exact ⟨name, hdest⟩
  · intro b hb heq
    have habove := h.target (hwiring.buffer b hb).target
    exact habove.not_beneath (heq ▸ hplaced.buffer b hb)
  · intro b hb
    obtain ⟨_, _, hdest⟩ := (hwiring.buffer b hb).target
    exact hkept.taken _ (henters.taken _ (h.fits.drives hdest))

/-- By induction on the depth: the statements of a scope, and those of the instances in it. -/
theorem recordBody_drove (hfile : file.WellFormed) (depth : Nat) {stack : List String}
    (hmem : scope.module ∈ file.modules) (h : scope.Settled n)
    (hrun : (recordBody file depth stack scope).run n = .ok (log, n')) : Drove log n n' := by
  induction depth generalizing stack scope n n' log with
  | zero => cases hrun
  | succ depth ih =>
    rw [recordBody] at hrun
    obtain ⟨assigns, m, hassigns, hrun⟩ := run_of_bind hrun
    obtain ⟨instances, k, hinstances, hrun⟩ := run_of_bind hrun
    cases hrun
    obtain ⟨hdrove, hsettled⟩ :=
      Drove.each (fun a _ _ _ _ hsettled => recordAssign_drove hsettled) h hassigns
    refine hdrove.append (Drove.each (fun i hi n n' log hsettled hrun => ⟨?_, ?_⟩) hsettled
      hinstances).1
    · rw [recordInstance] at hrun
      split at hrun
      · obtain ⟨_, _, hgate, hrun⟩ := run_of_bind hrun
        cases hrun
        obtain ⟨d, hd, hanew⟩ := gateInstance_anew hsettled.fits hgate
        obtain ⟨_, _, _, _, _, _, hgrown⟩ := gateInstance_grown hsettled.fits.drives hgate
        exact .single hgrown.keeps hd fun _ => hanew
      · obtain ⟨_, _, hbox, hrun⟩ := run_of_bind hrun
        cases hrun
        obtain ⟨d, hd, hanew⟩ := blackBox_anew hsettled.fits hbox
        obtain ⟨_, _, hgrown⟩ := blackBox_grown hsettled.fits.drives hbox
        exact .single hgrown.keeps hd fun _ => hanew
      · next child _ hchild =>
        split at hrun
        · cases hrun
        · have hchild := List.mem_of_find?_eq_some hchild
          refine recordInline_drove (hfile child hchild) (recordBody_forget depth _)
            (fun _ _ _ => moduleBody_confined) (fun inner _ _ _ heq hsettled => ?_) hsettled hrun
          exact ih (heq ▸ hchild) hsettled
    · have hplain := (recordInstance_forget (recordBody_forget depth) stack scope i).run hrun
      exact hsettled.instances
        (instantiate_confined (fun _ _ _ _ => moduleBody_confined) hsettled.fits.drives hplain)

/-! ## What the record has -/

/-- The record has the assignments of a scope, and its instances of gates and of modules without a
definition. -/
structure Recorded (file : SourceFile) (scope : Scope) (log : List Driving) : Prop where
  assigns : ∀ a ∈ scope.module.assigns, .assign scope a ∈ log
  primitives : ∀ i ∈ scope.module.instances,
    (Gate.ofName? i.module).isSome = true ∨ file.module? i.module = none →
    .primitive scope i ∈ log

/-- The record has the statements inside an instance, and the buffers for its outputs. -/
structure Inlining.Recorded (x : Inlining) (file : SourceFile) (log : List Driving) : Prop extends
    Elaborate.Recorded file x.inner log where
  outputs : ∀ port ∈ x.inner.module.portDecls, port.direction ≠ some .input →
    x.inner.bindings.find? port.name = none → ∀ name pos,
    Table.findEntry port.name x.connected = some (some (.ident name pos)) →
    ∃ outer, .output x.outer x.statement outer (x.inner.path ++ port.name) ∈ log

theorem Recorded.mono (h : Recorded file scope log) (hlog : log ⊆ log') :
    Recorded file scope log' :=
  ⟨fun a ha => hlog (h.assigns a ha), fun i hi hprimitive => hlog (h.primitives i hi hprimitive)⟩

theorem Inlining.Recorded.mono {x : Inlining} (h : x.Recorded file log) (hlog : log ⊆ log') :
    x.Recorded file log' :=
  ⟨h.toRecorded.mono hlog, fun port hport hdirection hfree name pos hexpr =>
    (h.outputs port hport hdirection hfree name pos hexpr).imp fun _ hmem => hlog hmem⟩

/-- The record of a step is a part of that of a list of steps. -/
theorem recordEach_append {α : Type} {step : α → Build (List Driving)} {before after : List α}
    {a : α} (hrun : (recordEach step (before ++ a :: after)).run n = .ok (log, n')) :
    ∃ first m part m', (recordEach step before).run n = .ok (first, m) ∧
      (step a).run m = .ok (part, m') ∧ part ⊆ log := by
  induction before generalizing n log with
  | nil =>
    obtain ⟨part, m', hpart, hrun⟩ := run_of_bind hrun
    obtain ⟨others, _, -, hrun⟩ := run_of_bind hrun
    cases hrun
    exact ⟨[], n, part, m', rfl, hpart, List.subset_append_left _ _⟩
  | cons b before ih =>
    obtain ⟨head, k, hhead, hrun⟩ := run_of_bind hrun
    obtain ⟨others, _, hothers, hrun⟩ := run_of_bind hrun
    cases hrun
    obtain ⟨first, m, part, m', hfirst, hpart, hsubset⟩ := ih hothers
    refine ⟨head ++ first, m, part, m', ?_, hpart, ?_⟩
    · rw [recordEach, StateT.run_bind, hhead]
      show ((recordEach step before >>= fun others => pure (head ++ others)).run k) = _
      rw [StateT.run_bind, hfirst]
      rfl
    · exact List.Subset.trans hsubset (List.subset_append_right _ _)

theorem recordBody_recorded {depth : Nat} {stack : List String}
    (hrun : (recordBody file depth stack scope).run n = .ok (log, n')) :
    Recorded file scope log := by
  cases depth with
  | zero => cases hrun
  | succ depth =>
    rw [recordBody] at hrun
    obtain ⟨assigns, m, hassigns, hrun⟩ := run_of_bind hrun
    obtain ⟨instances, k, hinstances, hrun⟩ := run_of_bind hrun
    cases hrun
    refine ⟨fun a ha => List.mem_append_left _ ?_, fun i hi hprimitive =>
      List.mem_append_right _ ?_⟩
    · obtain ⟨before, after, heq⟩ := List.append_of_mem ha
      rw [heq] at hassigns
      obtain ⟨_, _, _, _, -, ha, hsubset⟩ := recordEach_append hassigns
      obtain ⟨_, _, -, ha⟩ := run_of_bind ha
      cases ha
      exact hsubset (.head _)
    · obtain ⟨before, after, heq⟩ := List.append_of_mem hi
      rw [heq] at hinstances
      obtain ⟨_, _, _, _, -, hi, hsubset⟩ := recordEach_append hinstances
      rw [recordInstance] at hi
      split at hi
      · obtain ⟨_, _, -, hi⟩ := run_of_bind hi
        cases hi
        exact hsubset (.head _)
      · obtain ⟨_, _, -, hi⟩ := run_of_bind hi
        cases hi
        exact hsubset (.head _)
      · next hgate hchild =>
        rw [hgate, hchild] at hprimitive
        rcases hprimitive with h | h <;> cases h

/-- Entering an instance, the record has its statements and buffers and goes on inside. -/
theorem Enters.recorded (hfile : file.WellFormed) {depth : Nat} {stack : List String} {x : Inlining}
    (hx : Enters file depth stack scope n x m) (h : scope.Settled n)
    (hrun : (recordBody file (depth + 1) stack scope).run n = .ok (log, n')) :
    x.inner.Settled m ∧ x.Recorded file log ∧ ∃ inside k, inside ⊆ log ∧
      (recordBody file depth (stack ++ [x.inner.module.name]) x.inner).run m = .ok (inside, k) := by
  obtain @⟨before, after, i, child, name, connected, wiring, n₁, n₂, n₃, n₄, hinstances, hgate,
    hchild, hname, hconnected, hassigns, hearlier, hports, hown⟩ := hx
  rw [recordBody] at hrun
  obtain ⟨assigns, m₁, hrecord, hrun⟩ := run_of_bind hrun
  obtain ⟨instances, _, hrecords, hrun⟩ := run_of_bind hrun
  cases hrun
  cases hassigns.symm.trans ((recordEach_forget recordAssign_forget _).run hrecord)
  have hsettled := (Drove.each (fun a _ _ _ _ hsettled => recordAssign_drove hsettled) h hrecord).2
  rw [hinstances] at hrecords
  obtain ⟨first, m₂, part, m₃, hfirst, hpart, hsubset⟩ := recordEach_append hrecords
  have hplain : ∀ statements,
      Forgets (recordEach (recordInstance file (recordBody file depth) stack scope) statements)
        (statements.forM (instantiate file (moduleBody file depth) stack scope)) :=
    recordEach_forget (recordInstance_forget (recordBody_forget depth) stack scope)
  cases hearlier.symm.trans ((hplain before).run hfirst)
  have hsettled₂ := hsettled.instances
    (instances_confined (fun _ _ _ _ => moduleBody_confined) hsettled.fits.drives hearlier)
  have hwf := hfile child (List.mem_of_find?_eq_some hchild)
  obtain ⟨hinner, -⟩ := hsettled₂.enter hwf hports hown
  -- the record of the instance has the same ports and signals
  rw [recordInstance, hgate, hchild] at hpart
  dsimp only at hpart
  split at hpart
  · cases hpart
  rw [recordInline, hname] at hpart
  obtain ⟨connected', hconnected', hpart⟩ := run_of_lift_bind hpart
  cases hconnected.symm.trans hconnected'
  obtain ⟨wiring', k₃, hports', hpart⟩ := run_of_bind hpart
  cases hports.symm.trans hports'
  obtain ⟨_, k₄, hown', hpart⟩ := run_of_bind hpart
  cases hown.symm.trans hown'
  obtain ⟨inside, k, hinside, hpart⟩ := run_of_bind hpart
  obtain ⟨_, _, -, hpart⟩ := run_of_bind hpart
  cases hpart
  have hlog := List.Subset.trans hsubset (List.subset_append_right assigns _)
  have hinsideLog := List.Subset.trans (List.subset_append_left _ _) hlog
  refine ⟨hinner, ⟨(recordBody_recorded hinside).mono hinsideLog, ?_⟩, inside, k, hinsideLog,
    hinside⟩
  intro port hport hdirection hfree y pos hexpr
  have hconnects := connectPorts_spec (portDecls_nodup hwf.ports_nodup) hsettled₂.fits
    (fun _ _ => rfl) hports
  cases hconnects.wired port hport with
  | input direction => exact absurd direction hdirection
  | direct _ _ _ bound => cases hfree.symm.trans bound
  | @buffered _ outer _ _ _ _ _ _ buffer =>
    exact ⟨outer, hlog (List.mem_append_right _ (List.mem_map_of_mem buffer))⟩
  | unconnected _ expr =>
    rw [hexpr] at expr
    cases expr

/-- By induction on the depth of the instance: the record has the statements inside. -/
theorem Inlines.recorded (hfile : file.WellFormed) {depth : Nat} {stack : List String}
    {x : Inlining} (hx : Inlines file depth stack scope n x) (h : scope.Settled n)
    (hrun : (recordBody file depth stack scope).run n = .ok (log, n')) : x.Recorded file log := by
  induction hx generalizing log n' with
  | here enters => exact (enters.recorded hfile h hrun).2.1
  | deeper enters _ ih =>
    obtain ⟨hinner, -, inside, k, hsubset, hinside⟩ := enters.recorded hfile h hrun
    exact (ih hinner hinside).mono hsubset

end

end Elaborate

open Elaborate

/-- The statements that elaborating a file elaborates, in order. -/
def SourceFile.drivings (file : SourceFile) (top : Option String) :
    Except SourceError (List Driving) := do
  let m ← file.top top
  let n ← (start m).mapError .netlist
  let (log, _) ← (recordBody file file.modules.length [m.name] (topScope m)).run n
  return log

/-- Where elaboration succeeds, no signal is the destination of two statements of the flattened
design, assignments that hand their target on to itself apart: every other one drives its
destination, which is not an input. These are the statements of the top module and of all instances
that are inlined. -/
theorem elaborate_drivesOnce {source : String} {file : SourceFile} {top : Option String}
    {n : Netlist} (hparse : parse source = .ok file) (h : elaborate file top = .ok n) :
    ∃ log, file.drivings top = .ok log ∧
      log.Pairwise (fun s t => ∀ d, s.Dest d → t.Dest d → s.Idle ∨ t.Idle) ∧
      (∀ s ∈ log, ∃ d, s.Dest d ∧
        (¬ s.Idle → d ∉ n.inputs ∧ ∃ node ∈ n.nodes, node.output = d)) ∧
      (∀ m, file.top top = .ok m → Recorded file (topScope m) log) ∧
      ∀ x, file.Inlines top x → x.Recorded file log := by
  obtain ⟨m, n₀, n₁, hm, hstart, hbody, rfl, -⟩ := elaborate_eq_ok h
  have hfile := parse_wellFormed hparse
  have hmem := mem_of_top hm
  have hdeclared := declared_of_start (hfile m hmem) hstart
  obtain ⟨log, hlog⟩ := (recordBody_forget _ _ _).exists_run hbody
  have hsettled := settled_topScope (hfile m hmem) hdeclared
  have hdrove := recordBody_drove hfile _ hmem hsettled hlog
  refine ⟨log, ?_, hdrove.once, fun s hs => ?_, fun m' hm' => ?_, fun x hx => ?_⟩
  · rw [SourceFile.drivings, hm]
    show ((start m).mapError SourceError.netlist >>= _) = _
    rw [hstart]
    show (((recordBody file file.modules.length [m.name] (topScope m)).run n₀) >>= _) = _
    rw [hlog]
    rfl
  · obtain ⟨d, hd, hanew⟩ := hdrove.dest s hs
    refine ⟨d, hd, fun hbusy => ⟨fun hinput => ?_, (hanew hbusy).2⟩⟩
    have hfree := (hanew hbusy).1
    rw [Netlist.isDefined_of_input (hdrove.inputs ▸ hinput)] at hfree
    cases hfree
  · cases hm.symm.trans hm'
    exact recordBody_recorded hlog
  · obtain ⟨m', n₀', hm', hstart', hx⟩ := hx
    cases hm.symm.trans hm'
    cases hstart.symm.trans hstart'
    exact hx.recorded hfile hsettled hlog

/-- An inverter. -/
def inverter : Module where
  name := "inv"
  ports := ["a", "y"]
  decls := [⟨"a", some .input, .one, ⟨1, 18⟩⟩, ⟨"y", some .output, .one, ⟨1, 28⟩⟩]
  assigns := [⟨"y", .unary .not (.ident "a" ⟨1, 44⟩), ⟨1, 39⟩⟩]
  instances := []
  pos := ⟨1, 1⟩

/-- Two inverters in a row. -/
def doubleInverter : Module where
  name := "t"
  ports := ["b", "z"]
  decls := [⟨"b", some .input, .one, ⟨1, 72⟩⟩, ⟨"z", some .output, .one, ⟨1, 82⟩⟩,
    ⟨"w", none, .one, ⟨1, 91⟩⟩]
  assigns := []
  instances := [
    ⟨"inv", some "u", .positional [.ident "b" ⟨1, 100⟩, .ident "w" ⟨1, 103⟩], ⟨1, 94⟩⟩,
    ⟨"inv", some "v", .positional [.ident "w" ⟨1, 113⟩, .ident "z" ⟨1, 116⟩], ⟨1, 107⟩⟩]
  pos := ⟨1, 57⟩

/-- The assignment of an inverter whose ports are connected to signals outside. -/
def inverterAssign (path input output : String) : Driving :=
  .assign ⟨inverter, path,
      (Table.empty.insert "a" (.read (.plain input))).insert "y" (.alias output)⟩
    ⟨"y", .unary .not (.ident "a" ⟨1, 44⟩), ⟨1, 39⟩⟩

theorem inverterAssign_not_idle (path input output : String) :
    ¬ (inverterAssign path input output).Idle := by
  rintro ⟨d, -, hhanded⟩
  have hcomplement : some ⟨input, true⟩ = some (Fanin.plain d) := hhanded
  cases hcomplement

/-- The two assignments of one statement, in different instances, have different destinations. -/
theorem elaborate_drivesOnce_doubleInverter : ∃ n,
    parse ("module inv(input a, output y); assign y = ~a; endmodule " ++
      "module t(input b, output z); wire w; inv u(b, w); inv v(w, z); endmodule") =
        .ok ⟨[inverter, doubleInverter]⟩ ∧
    elaborate ⟨[inverter, doubleInverter]⟩ none = .ok n ∧
    SourceFile.drivings ⟨[inverter, doubleInverter]⟩ none =
      .ok [inverterAssign "u/" "b" "w", inverterAssign "v/" "w" "z"] ∧
    (inverterAssign "u/" "b" "w").Dest "w" ∧ ¬ (inverterAssign "v/" "w" "z").Dest "w" := by
  have hparse : parse ("module inv(input a, output y); assign y = ~a; endmodule " ++
      "module t(input b, output z); wire w; inv u(b, w); inv v(w, z); endmodule") =
        .ok ⟨[inverter, doubleInverter]⟩ := by
    rw [parse, ← String.ofList_append, tokenize_ofList]
    decide +kernel
  have hok : (elaborate ⟨[inverter, doubleInverter]⟩ none).isOk = true := by
    rw [elaborate_eq]
    decide +kernel
  have hlog : SourceFile.drivings ⟨[inverter, doubleInverter]⟩ none =
      .ok [inverterAssign "u/" "b" "w", inverterAssign "v/" "w" "z"] := rfl
  obtain ⟨n, hn⟩ := exists_ok_of_isOk hok
  obtain ⟨log, hlog', honce, -⟩ := elaborate_drivesOnce hparse hn
  cases hlog.symm.trans hlog'
  have hdest : (inverterAssign "u/" "b" "w").Dest "w" := rfl
  refine ⟨n, hparse, hn, hlog, hdest, fun hdest' => ?_⟩
  have hidle := (List.pairwise_cons.1 honce).1 _ (.head _) "w" hdest hdest'
  exact hidle.elim (inverterAssign_not_idle _ _ _) (inverterAssign_not_idle _ _ _)

/-- A module that assigns its output, and then to itself. -/
def echoing : Module where
  name := "m"
  ports := ["a", "y"]
  decls := [⟨"a", some .input, .one, ⟨1, 16⟩⟩, ⟨"y", some .output, .one, ⟨1, 26⟩⟩]
  assigns := [⟨"y", .ident "a" ⟨1, 41⟩, ⟨1, 37⟩⟩, ⟨"y", .ident "y" ⟨1, 55⟩, ⟨1, 51⟩⟩]
  instances := []
  pos := ⟨1, 1⟩

/-- Two assignments of one signal: the one of the signal to itself does nothing. -/
theorem elaborate_idleDriver : ∃ n s t,
    parse "module m(input a, output y); assign y = a; assign y = y; endmodule" =
      .ok ⟨[echoing]⟩ ∧
    elaborate ⟨[echoing]⟩ none = .ok n ∧ SourceFile.drivings ⟨[echoing]⟩ none = .ok [s, t] ∧
    s.Dest "y" ∧ t.Dest "y" ∧ t.Idle := by
  have hparse : parse "module m(input a, output y); assign y = a; assign y = y; endmodule" =
      .ok ⟨[echoing]⟩ := by
    rw [parse, tokenize_ofList]
    decide
  have hok : (elaborate ⟨[echoing]⟩ none).isOk = true := by
    rw [elaborate_eq]
    decide
  obtain ⟨n, hn⟩ := exists_ok_of_isOk hok
  refine ⟨n, .assign (topScope echoing) ⟨"y", .ident "a" ⟨1, 41⟩, ⟨1, 37⟩⟩,
    .assign (topScope echoing) ⟨"y", .ident "y" ⟨1, 55⟩, ⟨1, 51⟩⟩, hparse, hn, ?_, ?_, ?_, ?_⟩
  · rfl
  · rfl
  · rfl
  · exact ⟨"y", rfl, rfl⟩

end GateSynth.Verilog
