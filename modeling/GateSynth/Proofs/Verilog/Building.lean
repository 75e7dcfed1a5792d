import GateSynth.Proofs.Netlist.FreshNames
import GateSynth.Proofs.Simulation.Solutions
import GateSynth.Proofs.Verilog.Meaning
import GateSynth.Proofs.Verilog.Parsing

/-!
# Building netlists from expressions

Elaboration only ever adds to a netlist: nodes stay, and a name that is taken keeps its width
(`Extends`). What a step promises of its result is therefore stated against whatever the netlist
grows to: in every valuation that satisfies a later netlist, the fanin that the step returns carries
the value it stands for (`Yields`). The steps below a comparison are each proved from the number
that their operator computes.
-/

namespace GateSynth.Verilog.Elaborate

open Netlist

/-! ## Growing netlists -/

/-- The kinds that compute their value themselves. -/
def Computed : Kind → Prop
  | .op _ | .const _ => True
  | .module _ | .cell .. => False

/-- The second netlist is the first with more nodes, of some kinds, and more names. -/
structure Extends (kinds : Kind → Prop) (names : String → Prop) (n n' : Netlist) : Prop where
  coherent : n.Coherent → n'.Coherent
  name : n'.name = n.name
  inputs : n'.inputs = n.inputs
  outputs : n'.outputs = n.outputs
  nodes : ∀ node ∈ n.nodes, node ∈ n'.nodes
  newNodes : ∀ node ∈ n'.nodes, node ∈ n.nodes ∨ kinds node.kind
  taken : ∀ s, n.isTaken s = true → n'.isTaken s = true
  newNames : ∀ s, n'.isTaken s = true → n.isTaken s = true ∨ names s
  /-- Names that are taken keep their width. -/
  width : ∀ s, n.isTaken s = true → n'.width s = n.width s

variable {kinds kinds' : Kind → Prop} {names names' : String → Prop} {n n' n'' : Netlist}

theorem Extends.refl (n : Netlist) : Extends kinds names n n where
  coherent h := h
  name := rfl
  inputs := rfl
  outputs := rfl
  nodes _ h := h
  newNodes _ h := .inl h
  taken _ h := h
  newNames _ h := .inl h
  width _ _ := rfl

theorem Extends.trans (h : Extends kinds names n n') (h' : Extends kinds names n' n'') :
    Extends kinds names n n'' where
  coherent := h'.coherent ∘ h.coherent
  name := h'.name.trans h.name
  inputs := h'.inputs.trans h.inputs
  outputs := h'.outputs.trans h.outputs
  nodes node hnode := h'.nodes node (h.nodes node hnode)
  newNodes node hnode := (h'.newNodes node hnode).elim (h.newNodes node) .inr
  taken s hs := h'.taken s (h.taken s hs)
  newNames s hs := (h'.newNames s hs).elim (h.newNames s) .inr
  width s hs := by rw [h'.width s (h.taken s hs), h.width s hs]

theorem Extends.mono (h : Extends kinds names n n') (hkinds : ∀ k, kinds k → kinds' k)
    (hnames : ∀ s, names s → names' s) : Extends kinds' names' n n' :=
  { h with
    newNodes := fun node hnode => (h.newNodes node hnode).imp_right (hkinds _)
    newNames := fun s hs => (h.newNames s hs).imp_right (hnames s) }

/-- The second netlist is the first with more nodes and names of any kind. -/
abbrev Later : Netlist → Netlist → Prop := Extends (fun _ => True) fun _ => True

theorem Extends.later (h : Extends kinds names n n') : Later n n' :=
  h.mono (fun _ _ => trivial) fun _ _ => trivial

theorem Extends.of_newNode {node : Node} {w : Width} (h : NewNode n n' node w)
    (hkind : kinds node.kind) (hname : names node.output) : Extends kinds names n n' where
  coherent := h.coherent
  name := h.name
  inputs := h.inputs
  outputs := h.outputs
  nodes m hm := h.mem_nodes.2 (.inl hm)
  newNodes m hm := by
    rcases h.mem_nodes.1 hm with hm | rfl
    · exact .inl hm
    · exact .inr hkind
  taken s hs := (h.taken s).2 (.inr hs)
  newNames s hs := by
    rcases (h.taken s).1 hs with rfl | hs
    · exact .inr hname
    · exact .inl hs
  width s hs := h.width_of_taken hs

/-- Driving a taken name with a new node. -/
theorem Extends.of_addNode {kind : Kind} {fanins : List Fanin} {d : String} {id : NodeId}
    (h : n.addNode kind fanins d = .ok (n', id)) (htaken : n.isTaken d = true)
    (hkind : kinds kind) : Extends kinds names n n' := by
  have hnodes := nodes_of_addNode h
  have hdefined : ∀ s, n'.isDefined s = true ↔ s = d ∨ n.isDefined s = true := by
    intro s
    obtain ⟨-, -, -, hn'⟩ := addNode_eq_ok h
    rw [isDefined_iff, isDefined_iff, hnodes, show n'.inputs = n.inputs by rw [hn']]
    simp only [List.mem_append, List.mem_singleton, or_and_right, exists_or, exists_eq_left]
    rw [or_assoc, or_left_comm, eq_comm]
  have hcoherent : n.Coherent → n'.Coherent := fun hc => hc.addNode h
  obtain ⟨-, -, -, rfl⟩ := addNode_eq_ok h
  refine ⟨hcoherent, rfl, rfl, rfl, fun m hm => ?_, fun m hm => ?_, fun s hs => ?_, fun s hs => ?_,
    fun s _ => rfl⟩
  · rw [hnodes]
    exact List.mem_append_left _ hm
  · rw [hnodes, List.mem_append, List.mem_singleton] at hm
    rcases hm with hm | rfl
    · exact .inl hm
    · exact .inr hkind
  · rw [isTaken, Bool.or_eq_true, Bool.or_eq_true, hdefined] at *
    exact hs.imp_left fun h => h.imp_right .inr
  · rw [isTaken, Bool.or_eq_true, Bool.or_eq_true, hdefined] at hs
    rcases hs with (hs | rfl | hs) | hs
    · exact .inl (by rw [isTaken, Bool.or_eq_true, Bool.or_eq_true]; exact .inl (.inl hs))
    · exact .inl htaken
    · exact .inl (isTaken_of_isDefined hs)
    · exact .inl (isTaken_of_output (isOutput_iff.1 hs))

/-- Declaring a new name. -/
theorem Extends.of_setWidth {s : String} {w : Width} (hfree : n.isTaken s = false)
    (hname : names s) : Extends kinds names n (n.setWidth s w) where
  coherent hc := hc.setWidth s w
  name := rfl
  inputs := rfl
  outputs := rfl
  nodes _ h := h
  newNodes _ h := .inl h
  taken t ht := (isTaken_setWidth n w).2 (.inr ht)
  newNames t ht := by
    rcases (isTaken_setWidth n w).1 ht with rfl | ht
    · exact .inr hname
    · exact .inl ht
  width t ht := by
    rw [width_setWidth, if_neg]
    rintro rfl
    rw [hfree] at ht
    cases ht

/-- The stored wires do not matter. -/
theorem Extends.rebuildWires (n : Netlist) : Extends kinds names n n.rebuildWires where
  coherent hc := hc.rebuildWires
  name := rfl
  inputs := rfl
  outputs := rfl
  nodes _ h := h
  newNodes _ h := .inl h
  taken _ h := h
  newNames _ h := .inl h
  width _ _ := rfl

/-! ## Values in later netlists -/

/-- The valuation obeys the nodes of a netlist and fits its widths. -/
structure Satisfies (n : Netlist) (cells : CellFunctions) (v : Valuation) : Prop where
  node : ∀ node ∈ n.nodes, v.result n cells node = some (v node.output)
  fits : ∀ s, (n.width s).truncate (v s) = v s

section
variable {N : Netlist} {cells : CellFunctions} {v : Valuation} {f : Fanin}

theorem Satisfies.lt (h : Satisfies N cells v) (s : String) :
    (v s).toNat < (N.width s).values := by
  rw [← h.fits s]
  exact Width.truncate_lt _ _

theorem Satisfies.seen_lt (h : Satisfies N cells v) (f : Fanin) :
    (v.seen N f).toNat < (N.width f.signal).values := by
  have hpos := (N.width f.signal).values_pos
  rw [Valuation.seen]
  split
  · rw [Width.toNat_complement]
    omega
  · exact h.lt f.signal

/-- A negated fanin sees the complement at the width of its signal. -/
theorem Satisfies.seen_negate (h : Satisfies N cells v) (f : Fanin) :
    (v.seen N f.negate).toNat = (N.width f.signal).values - 1 - (v.seen N f).toNat := by
  obtain ⟨signal, inverted⟩ := f
  have hlt := h.lt signal
  have hcomplement : ((N.width signal).complement (v signal)).toNat =
      (N.width signal).values - 1 - (v signal).toNat := by
    rw [Width.toNat_complement, Nat.mod_eq_of_lt hlt]
  cases inverted with
  | false => exact hcomplement
  | true =>
    show (v signal).toNat =
      (N.width signal).values - 1 - ((N.width signal).complement (v signal)).toNat
    omega

/-- The fanin carries a number, or it is the destination and carries as much of the number as its
width holds. -/
def Carries (N : Netlist) (v : Valuation) (f : Fanin) (x : Nat) (dest : Option String) : Prop :=
  (v.seen N f).toNat = x ∨
    ∃ d, dest = some d ∧ f = .plain d ∧ (v d).toNat = x % (N.width d).values

theorem Carries.exact {x : Nat} (h : Carries N v f x none) : (v.seen N f).toNat = x :=
  h.resolve_right fun ⟨_, hd, _⟩ => nomatch hd

end

/-- A step from `n` to `n'` returns a fanin for a number, which may depend on the netlist and the
valuation in which it is seen. -/
structure Yields (n n' : Netlist) (f : Fanin) (dest : Option String)
    (x : Netlist → Valuation → Nat) : Prop where
  grows : Extends Computed Flat n n'
  taken : n'.isTaken f.signal = true
  carries : ∀ {N cells v}, Later n' N → Satisfies N cells v → Carries N v f (x N v) dest

/-- The destination, if there is one, is a taken name. -/
def Ready (n : Netlist) (dest : Option String) : Prop := ∀ d, dest = some d → n.isTaken d = true

theorem Ready.none (n : Netlist) : Ready n none := nofun

theorem Ready.mono {dest : Option String} (h : Ready n dest) (hn : Later n n') : Ready n' dest :=
  fun d hd => hn.taken d (h d hd)

section
variable {f : Fanin} {dest : Option String} {x y : Netlist → Valuation → Nat}

theorem Yields.congr (h : Yields n n' f dest x)
    (hxy : ∀ {N cells v}, Later n N → Satisfies N cells v → x N v = y N v) :
    Yields n n' f dest y :=
  ⟨h.grows, h.taken, fun hN hv => hxy (h.grows.later.trans hN) hv ▸ h.carries hN hv⟩

/-- A step after others. -/
theorem Yields.after (h : Yields n' n'' f dest x) (hn : Extends Computed Flat n n') :
    Yields n n'' f dest x :=
  ⟨hn.trans h.grows, h.taken, h.carries⟩

end

/-! ## Adding a node -/

section
variable {site : Site} {kind : Kind} {fanins : List Fanin} {w : Width} {dest : Option String}
  {f : Fanin} {x y : Netlist → Valuation → Nat}

theorem addNode_run {output : String}
    (h : (addNode site kind fanins output).run n = .ok ((), n')) :
    ∃ id, n.addNode kind fanins output = .ok (n', id) := by
  obtain ⟨m, _, hm, h⟩ := run_of_bind h
  cases hm
  split at h
  · next m' id hadd =>
    cases h
    exact ⟨id, hadd⟩
  · cases h

theorem flat_freshName (number : Nat) : Flat (freshName "t" number) := by
  intro h
  rcases mem_freshName h with h | h | h <;> revert h <;> decide

/-- A node drives the destination, if that is no wider, or is added on a new signal. -/
theorem emit_run (h : (emit site kind fanins w dest).run n = .ok (f, n')) :
    ((∀ d, dest = some d → w.bits < (n.width d).bits) ∧ ∃ id output, f = .plain output ∧
        Flat output ∧ NewNode n n' ⟨id, kind, fanins, output⟩ w) ∨
      ∃ id d, dest = some d ∧ (n.width d).bits ≤ w.bits ∧ f = .plain d ∧
        n.addNode kind fanins d = .ok (n', id) := by
  obtain ⟨m, _, hm, h⟩ := run_of_bind h
  cases hm
  dsimp only at h
  split at h
  · next d hd =>
    obtain ⟨_, _, hm, h⟩ := run_of_bind h
    cases hm
    obtain ⟨_, _, hm, h⟩ := run_of_bind h
    cases h
    obtain ⟨id, hadd⟩ := addNode_run hm
    obtain ⟨hd, hle⟩ := Option.filter_eq_some_iff.1 hd
    exact .inr ⟨id, d, hd, by simpa using hle, rfl, hadd⟩
  · next hnone =>
    obtain ⟨_, _, hm, h⟩ := run_of_bind h
    cases hm
    obtain ⟨_, _, hm, h⟩ := run_of_bind h
    cases h
    obtain ⟨id, hadd⟩ := addNode_run hm
    have hwide : ∀ d, dest = some d → w.bits < (n.width d).bits := by
      simpa [Option.filter_eq_none_iff] using hnone
    exact .inl ⟨hwide, id, _, rfl, flat_freshName _, newNode_of_addNode hadd⟩

/-- The value of a kind that computes it itself. -/
def valueAt (kind : Kind) (operands : List Word) (w : Width) : Word :=
  match kind with
  | .op operator => operator.value operands w
  | .const value => w.truncate value
  | .module _ | .cell .. => 0

theorem Satisfies.output {N : Netlist} {cells : CellFunctions} {v : Valuation} {node : Node}
    (h : Satisfies N cells v) (hnode : node ∈ N.nodes) (hkind : Computed node.kind) :
    v node.output =
      valueAt node.kind (node.fanins.map (v.seen N)) (N.width node.output) := by
  have hresult := h.node node hnode
  rw [Valuation.result] at hresult
  cases hk : node.kind with
  | op operator =>
    rw [hk] at hresult
    exact (Option.some.inj hresult).symm
  | const value =>
    rw [hk] at hresult
    exact (Option.some.inj hresult).symm
  | module name =>
    rw [hk] at hkind
    cases hkind
  | cell name init =>
    rw [hk] at hkind
    cases hkind

/-- An added node yields the number that its kind computes at the width, where computing it at a
smaller width gives the number modulo that width. -/
theorem emit_yields (h : (emit site kind fanins w dest).run n = .ok (f, n'))
    (hdest : Ready n dest) (hkind : Computed kind)
    (hx : ∀ {N cells v}, Later n N → Satisfies N cells v →
      x N v < w.values ∧ ∀ w' : Width, w'.bits ≤ w.bits →
        (valueAt kind (fanins.map (v.seen N)) w').toNat = x N v % w'.values) :
    Yields n n' f dest x ∧ (dest = none → n'.width f.signal = w) := by
  rcases emit_run h with ⟨-, id, output, rfl, hflat, hnew⟩ | ⟨id, d, hd, hle, rfl, hadd⟩
  · have hw : n'.width output = w := by rw [hnew.width, if_pos rfl]
    have hgrows : Extends Computed Flat n n' := .of_newNode hnew hkind hflat
    have htaken : n'.isTaken output = true := (hnew.taken output).2 (.inl rfl)
    refine ⟨⟨hgrows, htaken, fun {N cells v} hN hv => ?_⟩, fun _ => hw⟩
    obtain ⟨hlt, hvalue⟩ := hx (hgrows.later.trans hN) hv
    have hout := hv.output (hN.nodes _ (hnew.mem_nodes.2 (.inr rfl))) hkind
    left
    show (v output).toNat = _
    rw [hout, hN.width output htaken, hw, hvalue w (Nat.le_refl _), Nat.mod_eq_of_lt hlt]
  · have htaken := hdest d hd
    have hgrows : Extends Computed Flat n n' := .of_addNode hadd htaken hkind
    refine ⟨⟨hgrows, hgrows.taken d htaken, fun {N cells v} hN hv => ?_⟩, fun hnone => ?_⟩
    · have hN' := hgrows.later.trans hN
      obtain ⟨-, hvalue⟩ := hx hN' hv
      have hmem : ⟨id, kind, fanins, d⟩ ∈ n'.nodes := by
        rw [nodes_of_addNode hadd]
        exact List.mem_append_right _ (.head _)
      have hout := hv.output (hN.nodes _ hmem) hkind
      refine .inr ⟨d, hd, rfl, ?_⟩
      rw [hout]
      exact hvalue _ (by rw [hN'.width d htaken]; exact hle)
    · rw [hnone] at hd
      cases hd

/-- What a fanin is known to carry from a netlist on. -/
def Knows (n : Netlist) (f : Fanin) (x : Netlist → Valuation → Nat) (bits : Nat) : Prop :=
  n.isTaken f.signal = true ∧ ∀ {N cells v}, Later n N → Satisfies N cells v →
    (v.seen N f).toNat = x N v ∧ x N v < span bits

theorem Knows.mono {bits : Nat} (h : Knows n f x bits) (hn : Later n n') : Knows n' f x bits :=
  ⟨hn.taken _ h.1, fun hN hv => h.2 (hn.trans hN) hv⟩

/-- What is yielded without a destination is known. -/
theorem Yields.knows {bits : Nat} (h : Yields n n' f none x)
    (hx : ∀ {N cells v}, Later n N → Satisfies N cells v → x N v < span bits) :
    Knows n' f x bits :=
  ⟨h.taken, fun hN hv => ⟨(h.carries hN hv).exact, hx (h.grows.later.trans hN) hv⟩⟩

/-- A constant that fits its width. -/
theorem constant_knows {value : Word} (hvalue : value.toNat < w.values)
    (h : (constant site value w).run n = .ok (f, n')) :
    Extends Computed Flat n n' ∧ Knows n' f (fun _ _ => value.toNat) w.bits := by
  have hyields : Yields n n' f none fun _ _ => value.toNat := by
    refine (emit_yields h (.none n) trivial fun _ _ => ⟨hvalue, fun w' _ => ?_⟩).1
    simp only [valueAt, Width.toNat_truncate, Nat.mod_eq_of_lt hvalue]
  exact ⟨hyields.grows, hyields.knows fun _ _ => hvalue⟩

/-! ## Steps of comparisons -/

/-- The complement of a known value. -/
theorem invert_yields (hdest : Ready n dest)
    (hknows : Knows n f x w.bits) {g : Fanin} (h : (invert site f w dest).run n = .ok (g, n')) :
    Yields n n' g dest (fun N v => w.values - 1 - x N v) ∧
      (dest = none → n'.width g.signal = w) := by
  obtain ⟨m, _, hm, h⟩ := run_of_bind h
  cases hm
  split at h
  · next hw =>
    cases h
    refine ⟨⟨.refl n, hknows.1, fun {N cells v} hN hv => .inl ?_⟩, fun _ => hw⟩
    rw [hv.seen_negate, hN.width _ hknows.1, hw, (hknows.2 hN hv).1]
  · refine emit_yields h hdest trivial fun {N cells v} hN hv => ?_
    obtain ⟨hseen, hlt⟩ := hknows.2 hN hv
    have hpos := w.values_pos
    refine ⟨by omega, fun w' hw' => ?_⟩
    simp only [valueAt, List.map_cons, List.map_nil, Operator.toNat_value_not, hseen]
    exact (last_sub_mod w'.values_pos (span_dvd hw') hlt).symm

theorem maskWidth_run {bits : Nat} {u : Width} (h : (maskWidth bits).run n = .ok (u, n')) :
    u.bits = bits ∧ n = n' := by
  rw [maskWidth, Width.ofNat?] at h
  split at h
  · next u' hu =>
    cases h
    split at hu
    · cases hu
      exact ⟨rfl, rfl⟩
    · cases hu
  · cases h

theorem wider_run {u : Width} (h : (wider w).run n = .ok (u, n')) :
    u.bits = w.bits + 1 ∧ n = n' :=
  maskWidth_run h

/-- A power of two fits one bit more than its exponent. -/
theorem powerConstant_knows {exponent : Nat}
    (h : (powerConstant site exponent).run n = .ok (f, n')) :
    Extends Computed Flat n n' ∧ Knows n' f (fun _ _ => span exponent) (exponent + 1) := by
  obtain ⟨power, m, hpower, h⟩ := run_of_bind h
  obtain ⟨u, _, hu, h⟩ := run_of_bind h
  obtain ⟨hbits, rfl⟩ := maskWidth_run hu
  rw [powerOfTwo] at hpower
  split at hpower
  · next hlt =>
    cases hpower
    have hvalue : (UInt64.ofNat (Nat.pow 2 exponent)).toNat = span exponent :=
      UInt64.toNat_ofNat_of_lt' (span_lt hlt)
    obtain ⟨hgrows, hknows⟩ := constant_knows (by
      rw [hvalue, u.values_eq_span, hbits]
      exact span_lt (Nat.lt_succ_self _)) h
    rw [hvalue, hbits] at hknows
    exact ⟨hgrows, hknows⟩
  · cases hpower

/-- The top bit of a value with one bit more than a width. -/
theorem topBit_yields (hdest : Ready n dest)
    (hknows : Knows n f x (w.bits + 1)) {g : Fanin}
    (h : (topBit site f w dest).run n = .ok (g, n')) :
    Yields n n' g dest (fun N v => x N v / span w.bits) ∧
      (dest = none → n'.width g.signal = .one) := by
  obtain ⟨weight, m, hweight, h⟩ := run_of_bind h
  obtain ⟨hgrows, hweight⟩ := powerConstant_knows hweight
  obtain ⟨hyields, hwidth⟩ := emit_yields (x := fun N v => x N v / span w.bits) h
    (hdest.mono hgrows.later) trivial fun {N cells v} hN hv => by
      obtain ⟨hseen, hx⟩ := hknows.2 (hgrows.later.trans hN) hv
      obtain ⟨hw, -⟩ := hweight.2 hN hv
      have hquotient : x N v / span w.bits < 2 := by
        rw [Nat.div_lt_iff_lt_mul (span_pos _), ← span_succ]
        exact hx
      refine ⟨hquotient, fun w' _ => ?_⟩
      simp only [valueAt, List.map_cons, List.map_nil, Operator.toNat_value_div, hseen, hw]
  exact ⟨hyields.after hgrows, hwidth⟩

/-- The top bit of a difference with one bit more is its borrow. -/
theorem borrow_eq {a b bits : Nat} (ha : a < span bits) (hb : b < span bits) :
    (a + (span (bits + 1) - b % span (bits + 1))) % span (bits + 1) / span bits =
      (decide (a < b)).toNat := by
  rw [span_succ, Nat.mod_eq_of_lt (by omega : b < 2 * span bits)]
  by_cases hlt : a < b
  · rw [Nat.mod_eq_of_lt (by omega), decide_eq_true hlt]
    show _ = 1
    exact Nat.div_eq_of_lt_le (by omega) (by omega)
  · rw [show a + (2 * span bits - b) = (a - b) + 2 * span bits by omega, Nat.add_mod_right,
      Nat.mod_eq_of_lt (by omega), decide_eq_false hlt]
    exact Nat.div_eq_of_lt (by omega)

/-- A subtraction with one bit more. -/
theorem difference_knows {a b g : Fanin} {u : Width} (hu : u.bits = w.bits + 1)
    (ha : Knows n a x w.bits) (hb : Knows n b y u.bits)
    (h : (emit site (.op .sub) [a, b] u none).run n = .ok (g, n')) :
    Extends Computed Flat n n' ∧
      Knows n' g (fun N v => (x N v + (span (w.bits + 1) - y N v % span (w.bits + 1))) %
        span (w.bits + 1)) (w.bits + 1) := by
  obtain ⟨hyields, -⟩ := emit_yields (x := fun N v =>
    (x N v + (span (w.bits + 1) - y N v % span (w.bits + 1))) % span (w.bits + 1)) h (.none n)
    trivial fun {N cells v} hN hv => by
      rw [← hu, ← u.values_eq_span]
      refine ⟨Nat.mod_lt _ u.values_pos, fun w' hw' => ?_⟩
      simp only [valueAt, List.map_cons, List.map_nil, Operator.toNat_value_sub,
        (ha.2 hN hv).1, (hb.2 hN hv).1]
      rw [Nat.mod_mod_of_dvd _ (Width.values_dvd_values hw'),
        add_neg_mod (Width.values_dvd_values hw') u.values_pos]
  exact ⟨hyields.grows, hyields.knows fun _ _ => Nat.mod_lt _ (span_pos _)⟩

/-- One if the first value is less. -/
theorem less_yields {a b g : Fanin} (hdest : Ready n dest) (ha : Knows n a x w.bits)
    (hb : Knows n b y w.bits) (h : (less site a b w dest).run n = .ok (g, n')) :
    Yields n n' g dest (fun N v => (decide (x N v < y N v)).toNat) ∧
      (dest = none → n'.width g.signal = .one) := by
  obtain ⟨u, _, hu, h⟩ := run_of_bind h
  obtain ⟨hbits, rfl⟩ := wider_run hu
  obtain ⟨difference, m, hdifference, h⟩ := run_of_bind h
  have hb' : Knows n b y u.bits := ⟨hb.1, fun hN hv => by
    obtain ⟨hseen, hlt⟩ := hb.2 hN hv
    exact ⟨hseen, Nat.lt_of_lt_of_le hlt (span_le (by omega))⟩⟩
  obtain ⟨hgrows, hknows⟩ := difference_knows hbits ha hb' hdifference
  obtain ⟨hyields, hwidth⟩ := topBit_yields (hdest.mono hgrows.later) hknows h
  refine ⟨(hyields.after hgrows).congr fun hN hv => ?_, hwidth⟩
  exact borrow_eq (ha.2 hN hv).2 (hb.2 hN hv).2

theorem bit_complement {x : Nat} (h : x < 2) : 2 - 1 - x = (decide (x = 0)).toNat := by
  obtain rfl | rfl : x = 0 ∨ x = 1 := by omega
  · rfl
  · rfl

theorem bit_eq {x : Nat} (h : x < 2) : x = (decide (x ≠ 0)).toNat := by
  obtain rfl | rfl : x = 0 ∨ x = 1 := by omega
  · rfl
  · rfl

/-- One if a value is zero. -/
theorem isZero_yields {g : Fanin} (hdest : Ready n dest) (hknows : Knows n f x w.bits)
    (h : (isZero site f w dest).run n = .ok (g, n')) :
    Yields n n' g dest (fun N v => (decide (x N v = 0)).toNat) ∧
      (dest = none → n'.width g.signal = .one) := by
  rw [isZero] at h
  split at h
  · next hw =>
    rw [hw] at hknows
    obtain ⟨hyields, hwidth⟩ := invert_yields hdest hknows h
    refine ⟨hyields.congr fun hN hv => ?_, hwidth⟩
    exact bit_complement (hknows.2 hN hv).2
  · obtain ⟨u, _, hu, h⟩ := run_of_bind h
    obtain ⟨hbits, rfl⟩ := wider_run hu
    obtain ⟨one, m, hone, h⟩ := run_of_bind h
    obtain ⟨decremented, m', hdecremented, h⟩ := run_of_bind h
    obtain ⟨hgrows, hone⟩ := constant_knows
      (show (1 : Word).toNat < u.values from one_lt_span u.pos) hone
    obtain ⟨hgrows', hdecremented⟩ := difference_knows hbits (hknows.mono hgrows.later) hone
      hdecremented
    have hall := hgrows.trans hgrows'
    obtain ⟨hyields, hwidth⟩ := topBit_yields (hdest.mono hall.later) hdecremented h
    refine ⟨(hyields.after hall).congr fun {N cells v} hN hv => ?_, hwidth⟩
    have hborrow := borrow_eq (hknows.2 hN hv).2 (one_lt_span w.pos)
    refine hborrow.trans ?_
    simp

theorem xor_eq_zero {a b : Nat} : a ^^^ b = 0 ↔ a = b := by
  refine ⟨fun h => ?_, fun h => by rw [h, Nat.xor_self]⟩
  calc a = a ^^^ (b ^^^ b) := by rw [Nat.xor_self, Nat.xor_zero]
    _ = b := by rw [← Nat.xor_assoc, h, Nat.zero_xor]

/-- One if two values are equal. -/
theorem equal_yields {a b g : Fanin} (hdest : Ready n dest) (ha : Knows n a x w.bits)
    (hb : Knows n b y w.bits) (h : (equal site a b w dest).run n = .ok (g, n')) :
    Yields n n' g dest (fun N v => (decide (x N v = y N v)).toNat) ∧
      (dest = none → n'.width g.signal = .one) := by
  obtain ⟨difference, m, hdifference, h⟩ := run_of_bind h
  have hlt : ∀ {N cells v}, Later n N → Satisfies N cells v → x N v ^^^ y N v < span w.bits :=
    fun hN hv => Nat.xor_lt_two_pow (ha.2 hN hv).2 (hb.2 hN hv).2
  obtain ⟨hyields, -⟩ := emit_yields (x := fun N v => x N v ^^^ y N v) hdifference (.none n)
    trivial fun {N cells v} hN hv => by
      refine ⟨hlt hN hv, fun w' _ => ?_⟩
      simp only [valueAt, List.map_cons, List.map_nil, Operator.toNat_value_xor,
        (ha.2 hN hv).1, (hb.2 hN hv).1]
  obtain ⟨hzero, hwidth⟩ := isZero_yields (hdest.mono hyields.grows.later) (hyields.knows hlt) h
  refine ⟨(hzero.after hyields.grows).congr fun _ _ => ?_, hwidth⟩
  simp only [xor_eq_zero]

/-- The complement of a value on a new signal. -/
theorem Yields.complement (h : Yields n n' f none x) (hw : n'.width f.signal = w)
    (dest : Option String) : Yields n n' f.negate dest fun N v => w.values - 1 - x N v := by
  refine ⟨h.grows, h.taken, fun {N cells v} hN hv => .inl ?_⟩
  rw [hv.seen_negate, hN.width _ h.taken, hw, (h.carries hN hv).exact]

theorem Yields.negate {b : Netlist → Valuation → Bool}
    (h : Yields n n' f none fun N v => (b N v).toNat) (hw : n'.width f.signal = .one)
    (dest : Option String) : Yields n n' f.negate dest fun N v => (!b N v).toNat := by
  refine (h.complement hw dest).congr fun {N cells v} _ _ => ?_
  cases b N v <;> rfl

/-- One if a value is not zero. -/
theorem truth_yields {g : Fanin} (hknows : Knows n f x w.bits)
    (h : (truth site f w).run n = .ok (g, n')) :
    Yields n n' g none fun N v => (decide (x N v ≠ 0)).toNat := by
  rw [truth] at h
  split at h
  · next hw =>
    cases h
    refine ⟨.refl n, hknows.1, fun {N cells v} hN hv => .inl ?_⟩
    obtain ⟨hseen, hlt⟩ := hknows.2 hN hv
    rw [hw] at hlt
    rw [hseen]
    exact bit_eq hlt
  · obtain ⟨zero, m, hzero, h⟩ := run_of_bind h
    cases h
    obtain ⟨hyields, hwidth⟩ := isZero_yields (.none n) hknows hzero
    simpa only [← decide_not] using hyields.negate (hwidth rfl) none

/-- A comparison of two values. -/
theorem compare_yields {op : BinaryOp} {a b g : Fanin} (hop : op.isBoolean = true)
    (hop' : op.isLogical = false) (hdest : Ready n dest) (ha : Knows n a x w.bits)
    (hb : Knows n b y w.bits) (h : (compare site op a b w dest).run n = .ok (g, n')) :
    Yields n n' g dest fun N v => (op.holds (x N v) (y N v)).toNat := by
  have hnegated : ∀ {z : Build Fanin} {bit : Netlist → Valuation → Bool},
      (∀ {f m}, z.run n = .ok (f, m) → Yields n m f none (fun N v => (bit N v).toNat) ∧
        ((none : Option String) = none → m.width f.signal = .one)) →
      (do return (← z).negate : Build Fanin).run n = .ok (g, n') →
      Yields n n' g dest fun N v => (!bit N v).toNat := by
    intro z bit hz h
    obtain ⟨f, m, hf, h⟩ := run_of_bind h
    cases h
    obtain ⟨hyields, hwidth⟩ := hz hf
    exact hyields.negate (hwidth rfl) dest
  cases op <;> first | (cases hop; done) | (cases hop'; done) | skip
  case eq => exact (equal_yields hdest ha hb h).1
  case ne =>
    have hyields := hnegated (equal_yields (.none n) ha hb) h
    simpa only [BinaryOp.holds, ← decide_not] using hyields
  case lt => exact (less_yields hdest ha hb h).1
  case gt => exact (less_yields hdest hb ha h).1
  case le =>
    have hyields := hnegated (less_yields (.none n) hb ha) h
    simpa only [BinaryOp.holds, ← decide_not, Nat.not_lt] using hyields
  case ge =>
    have hyields := hnegated (less_yields (.none n) ha hb) h
    simpa only [BinaryOp.holds, ← decide_not, Nat.not_lt] using hyields

end

end GateSynth.Verilog.Elaborate
