import GateSynth.Proofs.Verilog.Completions
import GateSynth.Proofs.Verilog.Copies
import GateSynth.Proofs.Verilog.Echoes
import GateSynth.Proofs.Verilog.Terminals

/-!
# What a statement determines

An assignment, a gate and a buffer between an instance and the signals around it give one signal a
number that depends on the others (`Determines`). This says two things: every valuation that
satisfies the netlist gives the signal this number, and a valuation that satisfies the netlist
before the statement and gives the signal this number extends to what the statement adds. So the
values of the signals that were there before are free otherwise.
-/

namespace GateSynth.Verilog

open Netlist

/-! ## Numbers at smaller widths -/

/-- The number of an operator at a width is the remainder of that at a greater one. -/
theorem number_mod (op : Operator) {m m' : Nat} (hm : m' ∣ m) (hpos : 0 < m)
    {operands : List Nat} (harity : operands.length = op.arity) :
    op.number m operands % m' = op.number m' operands := by
  have hpos' : 0 < m' := Nat.pos_of_dvd_of_pos hm hpos
  have hlast : ∀ x, (m - 1 - x % m) % m' = m' - 1 - x % m' := fun x => by
    rw [last_sub_mod hpos' hm (Nat.mod_lt _ hpos), Nat.mod_mod_of_dvd _ hm]
  obtain ⟨hone, htwo, hthree⟩ := op.operands_of_arity harity
  cases op with
  | and | or | xor | add | mul =>
    obtain ⟨x, y, rfl⟩ := htwo rfl
    exact Nat.mod_mod_of_dvd _ hm
  | nand | nor =>
    obtain ⟨x, y, rfl⟩ := htwo rfl
    exact hlast _
  | not =>
    obtain ⟨x, rfl⟩ := hone rfl
    exact hlast _
  | buf =>
    obtain ⟨x, rfl⟩ := hone rfl
    exact Nat.mod_mod_of_dvd _ hm
  | sub =>
    obtain ⟨x, y, rfl⟩ := htwo rfl
    show (x + (m - y % m)) % m % m' = (x + (m' - y % m')) % m'
    rw [Nat.mod_mod_of_dvd _ hm, add_neg_mod hm hpos]
  | div =>
    obtain ⟨x, y, rfl⟩ := htwo rfl
    show (if y = 0 then 0 else x / y % m) % m' = if y = 0 then 0 else x / y % m'
    split
    · exact Nat.zero_mod _
    · exact Nat.mod_mod_of_dvd _ hm
  | mux =>
    obtain ⟨x, y, select, rfl⟩ := hthree rfl
    exact Nat.mod_mod_of_dvd _ hm

namespace Elaborate

theorem valueAt_mod {kind : Kind} {operands : List Word} {w w' : Width} (hkind : Computed kind)
    (harity : ∀ k, kind.arity? = some k → k = operands.length) (hw : w'.bits ≤ w.bits) :
    (valueAt kind operands w').toNat = (valueAt kind operands w).toNat % w'.values := by
  have hdvd := Width.values_dvd_values hw
  cases kind with
  | op op =>
    have hlength : operands.length = op.arity := (harity _ rfl).symm
    simp only [valueAt, op.toNat_value _ hlength]
    rw [number_mod op hdvd w.values_pos (by rw [List.length_map, hlength])]
  | const value =>
    simp only [valueAt, Width.toNat_truncate]
    rw [Nat.mod_mod_of_dvd _ hdvd]
  | module | cell => cases hkind

variable {n n' k : Netlist} {cells : CellFunctions} {u u' : Valuation} {d : String}
  {x y : Netlist → Valuation → Nat}

/-! ## One signal -/

/-- How a step ends that gives a signal a number: with nothing at all, or with a node that computes
the number and drives the signal. -/
inductive Ends (n n' : Netlist) (d : String) (x : Netlist → Valuation → Nat) : Prop
  | idle (filled : Filled n n')
  | node {k : Netlist} {kind : Kind} {fanins : List Fanin} {id : NodeId} (filled : Filled n k)
    (adds : k.addNode kind fanins d = .ok (n', id)) (computed : Computed kind)
    (taken : ∀ f ∈ fanins, k.isTaken f.signal = true)
    (value : ∀ {cells u}, Closed k → Satisfies k cells u →
      (valueAt kind (fanins.map (u.seen k)) (k.width d)).toNat = x k u)

/-- The step from `n` to `n'` gives a taken signal a number and asks for nothing else. -/
structure Determines (n n' : Netlist) (d : String) (x : Netlist → Valuation → Nat) : Prop where
  taken : n.isTaken d = true
  ends : Ends n n' d x
  sound : ∀ {N cells v}, Later n' N → Satisfies N cells v → (v d).toNat = x N v

namespace Determines

theorem later (h : Determines n n' d x) : Later n n' := by
  cases h.ends with
  | idle filled => exact filled.later
  | node filled adds _ _ _ =>
    exact filled.later.trans (.of_addNode adds (filled.later.taken _ h.taken) trivial)

theorem closed (h : Determines n n' d x) (hclosed : Closed n) : Closed n' := by
  cases h.ends with
  | idle filled => exact filled.closed hclosed
  | node filled adds _ taken _ =>
    exact (filled.closed hclosed).of_addNode adds (filled.later.taken _ h.taken) taken

/-- Values that give the signal its number extend to what the step adds. -/
theorem exists_values (h : Determines n n' d x) (hclosed : Closed n) (hu : Satisfies n cells u)
    (hx : ∀ {k u'}, Later n k → Retains n u u' → x k u' = x n u) (hd : (u d).toNat = x n u) :
    ∃ u', Satisfies n' cells u' ∧ Retains n u u' := by
  cases h.ends with
  | idle filled => exact filled.exists_values hclosed hu
  | node filled adds computed taken value =>
    obtain ⟨u', hu', hretains⟩ := filled.exists_values hclosed hu
    refine ⟨u', satisfies_of_addNode adds computed hu' (UInt64.toNat_inj.1 ?_), hretains⟩
    rw [value (filled.closed hclosed) hu', hx filled.later hretains, hretains _ h.taken, hd]

theorem congr (h : Determines n n' d x)
    (hxy : ∀ {N cells v}, Later n N → Satisfies N cells v → x N v = y N v) :
    Determines n n' d y := by
  refine ⟨h.taken, ?_, fun hN hv => (h.sound hN hv).trans (hxy (h.later.trans hN) hv)⟩
  cases h.ends with
  | idle filled => exact .idle filled
  | node filled adds computed taken value =>
    exact .node filled adds computed taken fun hclosed hu =>
      (value hclosed hu).trans (hxy filled.later hu)

/-- Steps on new signals come before. -/
theorem after (h : Determines k n' d x) (hfilled : Filled n k) (htaken : n.isTaken d = true) :
    Determines n n' d x := by
  refine ⟨htaken, ?_, h.sound⟩
  cases h.ends with
  | idle filled => exact .idle (hfilled.trans filled)
  | node filled adds computed taken value =>
    exact .node (hfilled.trans filled) adds computed taken value

/-- A node that computes the number. -/
theorem of_addNode {kind : Kind} {fanins : List Fanin} {id : NodeId}
    (hadd : n.addNode kind fanins d = .ok (n', id)) (hkind : Computed kind)
    (htaken : n.isTaken d = true) (hfanins : ∀ f ∈ fanins, n.isTaken f.signal = true)
    (hx : ∀ {N cells v}, Later n N → Satisfies N cells v →
      (valueAt kind (fanins.map (v.seen N)) (n.width d)).toNat = x N v) :
    Determines n n' d x := by
  have hlater : Later n n' := .of_addNode hadd htaken trivial
  refine ⟨htaken, .node (.refl n) hadd hkind hfanins fun _ hu => hx (.refl n) hu,
    fun {N cells v} hN hv => ?_⟩
  have hmem : ⟨id, kind, fanins, d⟩ ∈ n'.nodes := by
    rw [nodes_of_addNode hadd]
    exact List.mem_append_right _ (.head _)
  rw [hv.output (hN.nodes _ hmem) hkind, (hlater.trans hN).width d htaken]
  exact hx (hlater.trans hN) hv

end Determines

/-! ## Buffers -/

section
variable {site : Site} {w : Width} {f g : Fanin} {e : Expr}

theorem drive_determines (htaken : n.isTaken d = true) (hw : n.width d = w)
    (hf : n.isTaken f.signal = true)
    (hx : ∀ {N cells v}, Later n N → Satisfies N cells v → (v.seen N f).toNat = x N v)
    (h : (drive site d f w).run n = .ok ((), n')) :
    Determines n n' d fun N v => x N v % w.values := by
  rw [drive] at h
  split at h
  · next heq =>
    cases h
    refine ⟨htaken, .idle (.refl n), fun {N cells v} hN hv => ?_⟩
    have hlt := hv.lt d
    rw [hN.width d htaken, hw] at hlt
    rw [← hx hN hv, Valuation.seen_plain (by simpa using heq.2), heq.1, Nat.mod_eq_of_lt hlt]
  · obtain ⟨g, m, hemit, h⟩ := run_of_bind h
    cases h
    rcases emit_run hemit with ⟨hwide, -⟩ | ⟨id, d', hd', -, -, hadd⟩
    · have := hwide d rfl
      rw [hw] at this
      omega
    · cases hd'
      refine .of_addNode hadd trivial htaken (List.forall_mem_singleton.2 hf)
        fun {N cells v} hN hv => ?_
      simp only [valueAt, List.map_cons, List.map_nil, Operator.toNat_value_buf, hx hN hv, hw]

/-- Signals around an instance that are driven by its own. -/
theorem driveOuter_closed {buffers : List (String × String)}
    (htaken : ∀ b ∈ buffers, n.isTaken b.1 = true ∧ n.isTaken b.2 = true)
    (h : (driveOuter site buffers).run n = .ok ((), n')) :
    (Closed n → Closed n') ∧ ∀ {cells u}, Closed n → Satisfies n cells u →
      (∀ b ∈ buffers, (u b.1).toNat = (u b.2).toNat % (n.width b.1).values) →
        ∃ u', Satisfies n' cells u' ∧ Retains n u u' := by
  induction buffers generalizing n with
  | nil =>
    cases h
    exact ⟨id, fun {_ u} _ hu _ => ⟨u, hu, fun _ _ => rfl⟩⟩
  | cons b rest ih =>
    obtain ⟨outer, own⟩ := b
    obtain ⟨⟨houter, hown⟩, hrest⟩ := List.forall_mem_cons.1 htaken
    obtain ⟨_, _, hget, h⟩ := run_of_bind h
    cases hget
    obtain ⟨_, m, hdrive, h⟩ := run_of_bind h
    have hfirst := drive_determines (f := .plain own) (x := fun _ v => (v own).toNat) houter rfl
      hown (fun _ _ => rfl) hdrive
    have hlater := hfirst.later
    obtain ⟨hclosed, hvalues⟩ :=
      ih (fun b hb => (hrest b hb).imp (hlater.taken _) (hlater.taken _)) h
    refine ⟨hclosed ∘ hfirst.closed, fun {cells u} hn hu hbuffers => ?_⟩
    obtain ⟨hb, hbs⟩ := List.forall_mem_cons.1 hbuffers
    obtain ⟨u₁, hu₁, hretains⟩ := hfirst.exists_values hn hu
      (fun _ hretains => by rw [hretains own hown]) hb
    obtain ⟨u₂, hu₂, hretains'⟩ := hvalues (hfirst.closed hn) hu₁ fun b hb' => by
      obtain ⟨h₁, h₂⟩ := hrest b hb'
      rw [hretains _ h₁, hretains _ h₂, hlater.width _ h₁, hbs b hb']
    exact ⟨u₂, hu₂, hretains.trans hlater hretains'⟩

/-! ## Assignments -/

variable {scope : Scope}

theorem Scope.Fits.value_of_retains (hfits : scope.Fits n) (hn : Later n n') (h : Retains n u u') :
    scope.value n' u' = scope.value n u := by
  funext name
  rw [Scope.value, Scope.value]
  split
  · next f hread => rw [h.seen hn (hfits hread).1]
  · rfl

/-- A node that ends a lowering computes the value that would be on a new signal, cut to the width
of the signal that it drives. -/
theorem value_of_ending {kind : Kind} {fanins : List Fanin} {m : Netlist} {id : NodeId}
    (hkind : Computed kind) (hfanins : ∀ f ∈ fanins, k.isTaken f.signal = true)
    (hadd : k.addNode kind fanins d = .ok (m, id)) (hw : (k.width d).bits ≤ w.bits)
    (hx : ∀ {f m}, (emit site kind fanins w none).run k = .ok (f, m) →
      ∀ {cells v}, Satisfies m cells v → (v.seen m f).toNat = x m v)
    (hsame : ∀ {m u'}, Later k m → Retains k u u' → x m u' = x k u)
    (hclosed : Closed k) (hu : Satisfies k cells u) :
    (valueAt kind (fanins.map (u.seen k)) (k.width d)).toNat = x k u % (k.width d).values := by
  obtain ⟨harity, -⟩ := addNode_eq_ok hadd
  obtain ⟨m₀, id₀, output, hrun, -, hnew⟩ :=
    @exists_run_emit site kind fanins w none k harity fun _ hd => by cases hd
  have hfilled := Filled.of_newNode hnew hkind hfanins
  obtain ⟨u₀, hu₀, hretains⟩ := hfilled.exists_values hclosed hu
  have hout := hu₀.output (hnew.mem_nodes.2 (.inr rfl)) hkind
  have hseen : fanins.map (u₀.seen m₀) = fanins.map (u.seen k) :=
    List.map_congr_left fun f hf => hretains.seen hfilled.later (hfanins f hf)
  rw [show m₀.width output = w by rw [hnew.width, if_pos rfl], hseen] at hout
  have hvalue := hx hrun hu₀
  rw [Valuation.seen_plain rfl, show (Fanin.plain output).signal = output from rfl, hout,
    hsame hfilled.later hretains] at hvalue
  rw [valueAt_mod hkind (by rwa [List.length_map]) hw, hvalue]

/-- An expression that is lowered for a signal, and a buffer where this is not driven yet. -/
theorem lower_determines {own v : Width} {m : Netlist} (hfits : scope.Fits n)
    (hown : selfWidth scope site e = .ok own) (hle : own.bits ≤ w.bits)
    (htaken : n.isTaken d = true) (hwidth : n.width d = v)
    (hlower : (lower scope site e w (some d)).run n = .ok (f, m))
    (h : (drive site d f v).run m = .ok ((), n')) :
    Determines n n' d fun N v' => e.value scope.bits (scope.value N v') w.bits % v.values := by
  have hready : Ready n (some d) := fun _ hd => Option.some.inj hd ▸ htaken
  have hyields := lowers scope site e hfits hready hown hle hlower
  obtain ⟨early, hearly, heq⟩ := Tails.lower scope site e w
  rw [heq] at hlower
  obtain ⟨ending, k, hending, hfinish⟩ := run_of_bind hlower
  obtain ⟨hfilled, hreads⟩ := hearly hfits.sees hending
  have hk := hfilled.later.taken d htaken
  have hkwidth := (hfilled.later.width d htaken).trans hwidth
  -- what the same steps give without a destination
  have hnone : ∀ {g m'}, (ending.finish site none).run k = .ok (g, m') →
      Yields n m' g none fun N v' => e.value scope.bits (scope.value N v') w.bits := fun hrun =>
    lowers scope site e hfits (.none n) hown hle (by
      rw [heq]
      exact (run_bind_of_run hending).trans hrun)
  cases ending with
  | done value =>
    cases hfinish
    have hexact := hnone (g := f) rfl
    have hdrive := drive_determines hk hkwidth hexact.taken
      (fun hN hv => (hexact.carries hN hv).exact) h
    exact hdrive.after hfilled htaken
  | node kind computed fanins w' =>
    have hfanins : ∀ f ∈ fanins, k.isTaken f.signal = true := fun f hf => hreads _ ⟨f, hf, rfl⟩
    rcases emit_run hfinish with ⟨-, id, output, rfl, -, hnew⟩ | ⟨id, d', hd', hle', rfl, hadd⟩
    · -- the signal is wider than the node, which is on a new one
      have hm := hfilled.trans (.of_newNode hnew computed hfanins)
      refine (drive_determines (hm.later.taken d htaken) ((hm.later.width d htaken).trans hwidth)
        hyields.taken (fun hN hv => ?_) h).after hm htaken
      refine (hyields.carries hN hv).resolve_right fun ⟨d', hd', hplain, _⟩ => ?_
      cases hd'
      cases hplain
      rw [hnew.free] at hk
      cases hk
    · cases hd'
      rw [drive, if_pos ⟨rfl, rfl⟩] at h
      cases h
      refine ⟨htaken, .node hfilled hadd computed hfanins fun hclosed hu => ?_,
        fun {N cells v'} hN hv => ?_⟩
      · have hvalue := value_of_ending computed hfanins hadd hle'
          (x := fun N v' => e.value scope.bits (scope.value N v') w.bits)
          (fun {_ _} hrun {_ _} hv => ((hnone hrun).carries (.refl _) hv).exact)
          (fun hm hretains => by rw [(hfits.mono hfilled.later).value_of_retains hm hretains])
          hclosed hu
        rwa [hkwidth] at hvalue ⊢
      · have hN' : N.width d = v :=
          ((hyields.grows.later.trans hN).width d htaken).trans hwidth
        rcases hyields.carries hN hv with hseen | ⟨d', hd', -, hvalue⟩
        · have hlt := hv.lt d
          rw [hN'] at hlt
          rw [← hseen, Valuation.seen_plain rfl]
          exact (Nat.mod_eq_of_lt hlt).symm
        · cases hd'
          rw [hvalue, hN']

/-- An assignment determines its target. -/
theorem assign_determines {a : Assign} (hfits : scope.Fits n)
    (h : (assign scope a).run n = .ok ((), n')) :
    ∃ d decl, scope.dest a.target a.pos.line = .ok d ∧ scope.module.decl? a.target = some decl ∧
      Determines n n' d fun N v => a.expr.value scope.bits (scope.value N v)
        (max decl.width.bits (a.expr.ownBits scope.bits)) % decl.width.values := by
  rw [assign] at h
  obtain ⟨d, hd, h⟩ := run_of_lift_bind h
  obtain ⟨w, hw, h⟩ := run_of_lift_bind h
  obtain ⟨own, hown, h⟩ := run_of_lift_bind h
  obtain ⟨value, m, hlower, h⟩ := run_of_bind h
  obtain ⟨htaken, hwidth⟩ := hfits.target hd hw
  obtain ⟨decl, hdecl, rfl, -⟩ := Scope.width_eq_ok hw
  have hle : own.bits ≤ (decl.width.max own).bits := by rw [bits_max]; omega
  have hdetermines := lower_determines hfits hown hle htaken hwidth hlower h
  rw [bits_max, ownBits_of_selfWidth _ hown] at hdetermines
  exact ⟨d, decl, hd, hdecl, hdetermines⟩

end

/-! ## Gates -/

namespace Gate

/-- The numbers at the inputs of a gate, joined from left to right; a signal has `m` values. -/
def joined (gate : Gate) (m : Nat) : Nat → List Nat → Nat
  | x, [] => x
  | x, [last] =>
    gate.final.number m [x, if gate = .xnor then Operator.not.number m [last] else last]
  | x, y :: rest => gate.joined m (gate.chain.number m [x, y]) rest

/-- The number of a gate, given those at its inputs. -/
def number (gate : Gate) (m : Nat) : List Nat → Nat
  | [] => 0
  | [x] => (if gate = .not then Operator.not else .buf).number m [x]
  | x :: y :: rest => gate.joined m x (y :: rest)

theorem arity_chain (gate : Gate) : gate.chain.arity = 2 := by
  cases gate <;> rfl

theorem arity_final (gate : Gate) : gate.final.arity = 2 := by
  cases gate <;> rfl

end Gate

/-- What a fanin carries as a number. -/
def carried (N : Netlist) (v : Valuation) (f : Fanin) : Nat := (v.seen N f).toNat

section
variable {site : Site} {w : Width} {f : Fanin} {fanins : List Fanin} {op : Operator}

theorem valueAt_operator (harity : fanins.length = op.arity) (N : Netlist) (v : Valuation) :
    (valueAt (.op op) (fanins.map (v.seen N)) w).toNat =
      op.number w.values (fanins.map (carried N v)) := by
  have hlength : (fanins.map (v.seen N)).length = op.arity := (List.length_map _).trans harity
  refine (op.toNat_value w hlength).trans ?_
  rw [List.map_map]
  rfl

/-- An operator on a new signal. -/
theorem emit_carries (harity : fanins.length = op.arity)
    (htaken : ∀ g ∈ fanins, n.isTaken g.signal = true)
    (h : (emit site (.op op) fanins w none).run n = .ok (f, n')) :
    Filled n n' ∧ n'.isTaken f.signal = true ∧ ∀ {N cells v}, Later n' N → Satisfies N cells v →
      carried N v f = op.number w.values (fanins.map (carried N v)) := by
  rcases emit_run h with ⟨-, id, output, rfl, -, hnew⟩ | ⟨_, _, hd, -⟩
  · have hkind : Computed (.op op) := trivial
    have houtput : n'.isTaken output = true := (hnew.taken output).2 (.inl rfl)
    refine ⟨.of_newNode hnew hkind htaken, houtput, fun {N cells v} hN hv => ?_⟩
    have hout := hv.output (hN.nodes _ (hnew.mem_nodes.2 (.inr rfl))) hkind
    have hwidth : N.width output = w := by rw [hN.width _ houtput, hnew.width, if_pos rfl]
    rw [hwidth] at hout
    rw [carried, Valuation.seen_plain rfl, ← valueAt_operator harity]
    exact congrArg UInt64.toNat hout
  · cases hd

/-- An operator that drives a signal of its width. -/
theorem emit_determines (harity : fanins.length = op.arity) (hd : n.isTaken d = true)
    (hw : n.width d = w) (htaken : ∀ g ∈ fanins, n.isTaken g.signal = true)
    (h : (emit site (.op op) fanins w (some d)).run n = .ok (f, n')) :
    f = .plain d ∧ Determines n n' d fun N v => op.number w.values (fanins.map (carried N v)) := by
  rcases emit_run h with ⟨hwide, -⟩ | ⟨id, d', hd', -, rfl, hadd⟩
  · have := hwide d rfl
    rw [hw] at this
    omega
  · cases hd'
    refine ⟨rfl, .of_addNode hadd trivial hd htaken fun {N cells v} _ _ => ?_⟩
    rw [hw, valueAt_operator harity]

/-- A complement on a new signal, or none where the fanin is as wide. -/
theorem invert_carries {g : Fanin} (htaken : n.isTaken f.signal = true)
    (h : (invert site f w none).run n = .ok (g, n')) :
    Filled n n' ∧ n'.isTaken g.signal = true ∧ ∀ {N cells v}, Later n' N → Satisfies N cells v →
      carried N v g = Operator.not.number w.values [carried N v f] := by
  have hself : Yields n n f none fun N v => carried N v f := ⟨.refl n, htaken, fun _ _ => .inl rfl⟩
  have hyields := invert_cuts hself h
  have hread : Reads f f.signal := rfl
  exact ⟨((Tails.invert hread w).fills (fun s hs => hs ▸ htaken) h).1, hyields.taken, fun hN hv =>
    (hyields.carries hN hv).exact⟩

/-- The inputs of a gate, joined, determine its output. -/
theorem joinInputs_determines {gate : Gate} {joined : Fanin} {values : List Fanin}
    (hvalues : values ≠ []) (hd : n.isTaken d = true) (hw : n.width d = w)
    (hjoined : n.isTaken joined.signal = true) (htaken : ∀ g ∈ values, n.isTaken g.signal = true)
    (h : (joinInputs site gate w d joined values).run n = .ok (f, n')) :
    f = .plain d ∧ Determines n n' d fun N v =>
      gate.joined w.values (carried N v joined) (values.map (carried N v)) := by
  fun_induction joinInputs site gate w d joined values generalizing n with
  | case1 joined => exact absurd rfl hvalues
  | case2 joined last =>
    obtain ⟨negated, m, hnegated, h⟩ := run_of_bind h
    obtain ⟨hfilled, hnegatedTaken, hnot⟩ := invert_carries (htaken last (.head _)) hnegated
    obtain ⟨rfl, hdetermines⟩ := emit_determines (by rw [Gate.arity_final]; rfl)
      (hfilled.later.taken d hd) ((hfilled.later.width d hd).trans hw)
      (by simp [hfilled.later.taken _ hjoined, hnegatedTaken]) h
    refine ⟨rfl, (hdetermines.congr fun {N cells v} hN hv => ?_).after hfilled hd⟩
    simp only [List.map_cons, List.map_nil, Gate.joined, hnot hN hv, if_pos ‹gate = .xnor›]
  | case3 joined last =>
    obtain ⟨rfl, hdetermines⟩ := emit_determines (by rw [Gate.arity_final]; rfl) hd hw
      (by simp [hjoined, htaken last]) h
    refine ⟨rfl, hdetermines.congr fun {N cells v} hN hv => ?_⟩
    simp only [List.map_cons, List.map_nil, Gate.joined, if_neg ‹¬gate = .xnor›]
  | case4 joined value rest hrest ih =>
    obtain ⟨hvalue, htaken⟩ := List.forall_mem_cons.1 htaken
    obtain ⟨first, m, hfirst, h⟩ := run_of_bind h
    obtain ⟨hfilled, hfirstTaken, hchain⟩ := emit_carries (by rw [Gate.arity_chain]; rfl)
      (by simp [hjoined, hvalue]) hfirst
    obtain ⟨rfl, hdetermines⟩ := ih first hrest (hfilled.later.taken d hd)
      ((hfilled.later.width d hd).trans hw) hfirstTaken
      (fun g hg => hfilled.later.taken _ (htaken g hg)) h
    refine ⟨rfl, (hdetermines.congr fun {N cells v} hN hv => ?_).after hfilled hd⟩
    cases rest with
    | nil => exact absurd rfl hrest
    | cons next rest => simp only [List.map_cons, List.map_nil, Gate.joined, hchain hN hv]

/-- Inputs that are all lowered at one width carry their values computed at it. -/
theorem lowerAll_carries {scope : Scope} {exprs : List Expr} {values : List Fanin}
    (hfits : scope.Fits n) (h : (lowerAll scope site w exprs).run n = .ok (values, n')) :
    Extends Computed Flat n n' ∧ Filled n n' ∧ (∀ g ∈ values, n'.isTaken g.signal = true) ∧
      ∀ {N cells v}, Later n' N → Satisfies N cells v → values.map (carried N v) =
        exprs.map fun e => e.cut scope.bits (scope.value N v) w.bits := by
  induction exprs generalizing n values with
  | nil =>
    cases h
    exact ⟨.refl _, .refl _, List.forall_mem_nil _, fun _ _ => rfl⟩
  | cons e rest ih =>
    obtain ⟨value, m, hvalue, h⟩ := run_of_bind h
    obtain ⟨others, m', hothers, h⟩ := run_of_bind h
    cases h
    have hyields := cuts scope site e hfits hvalue
    obtain ⟨hgrows, hfilled, htaken, hcarries⟩ := ih (hfits.mono hyields.grows.later) hothers
    have hfirst := (Fills.lower scope site e w hfits.sees hvalue).1
    refine ⟨hyields.grows.trans hgrows, hfirst.trans hfilled,
      List.forall_mem_cons.2 ⟨hgrows.taken _ hyields.taken, htaken⟩, fun {N cells v} hN hv => ?_⟩
    rw [List.map_cons, List.map_cons, hcarries hN hv]
    exact congrArg (· :: _) (hyields.carries (hgrows.later.trans hN) hv).exact

/-- A gate determines its output. -/
theorem gateOutput_determines {gate : Gate} {i : Instance} {values : List Fanin}
    (hd : n.isTaken d = true) (hw : n.width d = w)
    (htaken : ∀ g ∈ values, n.isTaken g.signal = true)
    (h : (gateOutput site i gate w d values).run n = .ok (f, n')) :
    f = .plain d ∧
      Determines n n' d fun N v => gate.number w.values (values.map (carried N v)) := by
  unfold gateOutput at h
  split at h
  · next hsingle =>
    split at h
    · next value =>
      obtain ⟨rfl, hdetermines⟩ :=
        emit_determines (by rcases hsingle with rfl | rfl <;> rfl) hd hw htaken h
      refine ⟨rfl, hdetermines.congr fun {N cells v} _ _ => ?_⟩
      rcases hsingle with rfl | rfl <;> rfl
    · cases h
  · split at h
    · next first second rest _ =>
      obtain ⟨hfirst, hrest⟩ := List.forall_mem_cons.1 htaken
      obtain ⟨rfl, hdetermines⟩ :=
        joinInputs_determines (List.cons_ne_nil _ _) hd hw hfirst hrest h
      exact ⟨rfl, hdetermines⟩
    · cases h

/-- An instance of a gate determines the signal of its first terminal. -/
theorem gateInstance_determines {scope : Scope} {gate : Gate} {i : Instance} (hfits : scope.Fits n)
    (h : (gateInstance scope site i gate).run n = .ok ((), n')) :
    ∃ y pos inputs d decl, i.connections = .positional (.ident y pos :: inputs) ∧
      scope.dest y i.pos.line = .ok d ∧ scope.module.decl? y = some decl ∧
      Determines n n' d fun N v => gate.number decl.width.values
        (inputs.map fun e => e.cut scope.bits (scope.value N v) decl.width.bits) := by
  rw [gateInstance] at h
  obtain ⟨terminals, hterminals, h⟩ := run_of_lift_bind h
  have hconnections : i.connections = .positional terminals := by
    rw [positional] at hterminals
    split at hterminals
    · next heq =>
      cases hterminals
      exact heq
    · cases hterminals
  split at h
  · next y pos inputs =>
    obtain ⟨d, hd, h⟩ := run_of_lift_bind h
    obtain ⟨w, hw, h⟩ := run_of_lift_bind h
    obtain ⟨values, m, hvalues, h⟩ := run_of_bind h
    obtain ⟨f, m', hf, h⟩ := run_of_bind h
    obtain ⟨htaken, hwidth⟩ := hfits.target hd hw
    obtain ⟨decl, hdecl, rfl, -⟩ := Scope.width_eq_ok hw
    obtain ⟨hgrows, hfilled, htaken', hcarries⟩ := lowerAll_carries hfits hvalues
    obtain ⟨rfl, hdetermines⟩ := gateOutput_determines (hgrows.taken d htaken)
      ((hgrows.width d htaken).trans hwidth) htaken' hf
    -- the gate drives the signal itself, so nothing is left to do
    rw [drive, if_pos ⟨rfl, rfl⟩] at h
    cases h
    refine ⟨y, pos, inputs, d, decl, hconnections, hd, hdecl,
      (hdetermines.congr fun {N cells v} hN hv => ?_).after hfilled htaken⟩
    rw [hcarries hN hv]
  · cases h

end

end Elaborate

end GateSynth.Verilog
