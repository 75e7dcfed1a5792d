import GateSynth.Proofs.Verilog.Integrity

/-!
# Copies of netlists

A temporary signal is named after what is taken already, so a statement that is elaborated after
others gives its signals other names than it would alone. Nothing else depends on them. `Hosts` says
that a netlist holds a copy of a smaller one, in which temporary signals may have other names, and
`Parallel` says of two steps that the first ends well on the smaller netlist whenever the second does
on the larger one, and that a copy remains. Lowering an expression runs in parallel with itself
(`Parallel.lower`), whatever else the larger netlist has.
-/

namespace GateSynth.Verilog.Elaborate

open Netlist

/-! ## Pairs of signals -/

/-- Which signals of one netlist stand for which of another. -/
abbrev Pairing := String → String → Prop

namespace Pairing

variable {r r' : Pairing} {f g : Fanin} {fs gs : List Fanin}

/-- One more pair. -/
def add (r : Pairing) (s₀ t₀ : String) : Pairing := fun s t => r s t ∨ s = s₀ ∧ t = t₀

theorem le_add (r : Pairing) (s t : String) : r ≤ r.add s t := fun _ _ h => .inl h

/-- The fanins read signals that stand for each other. -/
def Reads (r : Pairing) (f g : Fanin) : Prop := r f.signal g.signal ∧ f.inverted = g.inverted

theorem Reads.mono (h : r.Reads f g) (hr : r ≤ r') : r'.Reads f g := ⟨hr _ _ h.1, h.2⟩

theorem Reads.negate (h : r.Reads f g) : r.Reads f.negate g.negate :=
  ⟨h.1, congrArg not h.2⟩

theorem reads_plain {s t : String} (h : r s t) : r.Reads (.plain s) (.plain t) := ⟨h, rfl⟩

/-- The lists of fanins read signals that stand for each other. -/
abbrev ReadsAll (r : Pairing) (fs gs : List Fanin) : Prop := List.Forall₂ r.Reads fs gs

theorem ReadsAll.mono (h : r.ReadsAll fs gs) (hr : r ≤ r') : r'.ReadsAll fs gs :=
  h.imp fun _ _ hread => hread.mono hr

theorem readsAll_pair {f' g' : Fanin} (h : r.Reads f g) (h' : r.Reads f' g') :
    r.ReadsAll [f, f'] [g, g'] :=
  .cons h (.cons h' .nil)

/-- The destination, if there is one, stands for itself. -/
def Fixes (r : Pairing) (dest : Option String) : Prop := ∀ d, dest = some d → r d d

theorem Fixes.mono {dest : Option String} (h : r.Fixes dest) (hr : r ≤ r') : r'.Fixes dest :=
  fun d hd => hr d d (h d hd)

theorem fixes_none (r : Pairing) : r.Fixes none := nofun

theorem fixes_some {d : String} (h : r d d) : r.Fixes (some d) := by
  intro d' hd
  cases hd
  exact h

/-- The second node is a copy of the first. -/
structure Copies (r : Pairing) (a b : Node) : Prop where
  kind : a.kind = b.kind
  fanins : r.ReadsAll a.fanins b.fanins
  output : r a.output b.output

theorem Copies.mono {a b : Node} (h : r.Copies a b) (hr : r ≤ r') : r'.Copies a b :=
  ⟨h.kind, h.fanins.mono hr, hr _ _ h.output⟩

end Pairing

/-! ## Netlists with a copy inside -/

/-- What a netlist has besides a copy of another. -/
structure Surroundings where
  /-- Names that stand for themselves and are never given to temporary signals. -/
  fixed : String → Prop
  /-- Nodes. -/
  nodes : Node → Prop
  /-- Names that are taken. -/
  names : String → Prop

/-- The netlist `n` consists of a copy of `k` and its surroundings. -/
structure Hosts (around : Surroundings) (r : Pairing) (k n : Netlist) : Prop where
  inputs : k.inputs = n.inputs
  fixed : ∀ {s}, around.fixed s → r s s
  /-- A fixed name that could be one of a temporary signal is taken. -/
  fixed_taken : ∀ {s}, around.fixed s → Flat s → k.isTaken s = true ∧ n.isTaken s = true
  /-- Only temporary signals have other names. -/
  temporary : ∀ {s t}, r s t → around.fixed s ∨ Flat t ∧ k.isTaken s = true ∧ n.isTaken t = true
  left : ∀ {s}, k.isTaken s = true → ∃ t, r s t
  right : ∀ {t}, n.isTaken t = true → around.names t ∨ ∃ s, r s t
  unique : ∀ {s t t'}, r s t → r s t' → t = t'
  injective : ∀ {s s' t}, r s t → r s' t → s = s'
  width : ∀ {s t}, r s t → k.width s = n.width t
  apart : ∀ {t}, around.names t → n.isTaken t = true ∧ ∀ s, ¬ r s t
  copied : ∀ a ∈ k.nodes, ∃ b ∈ n.nodes, r.Copies a b
  node : ∀ b ∈ n.nodes, around.nodes b ∨ ∃ a ∈ k.nodes, r.Copies a b

section
variable {around : Surroundings} {r : Pairing} {k k' n n' : Netlist} {s t : String} {w : Width}

/-- Taking a signal for an output of a node changes nothing else about the names. -/
theorem isTaken_addNode {kind : Kind} {fanins : List Fanin} {id : NodeId}
    (h : n.addNode kind fanins s = .ok (n', id)) :
    n'.isTaken t = true ↔ t = s ∨ n.isTaken t = true := by
  have hnodes := nodes_of_addNode h
  obtain ⟨-, -, -, rfl⟩ := addNode_eq_ok h
  rw [isTaken_iff, isTaken_iff, takenNames, takenNames, hnodes]
  simp only [List.map_append, List.map_cons, List.map_nil, List.mem_append, List.mem_singleton]
  tauto

namespace Hosts

theorem eq_left (h : Hosts around r k n) (hr : r s t) (hs : around.fixed s) : s = t :=
  h.unique (h.fixed hs) hr

theorem eq_right (h : Hosts around r k n) (hr : r s t) (ht : around.fixed t) : s = t :=
  h.injective hr (h.fixed ht)

/-- A new name in the smaller netlist stands for nothing yet. -/
theorem not_left (h : Hosts around r k n) (hflat : Flat s) (hfree : k.isTaken s = false) :
    ¬ r s t := by
  intro hr
  rw [← Bool.not_eq_true] at hfree
  rcases h.temporary hr with hs | ⟨-, htaken, -⟩
  · exact hfree (h.fixed_taken hs hflat).1
  · exact hfree htaken

/-- Nothing stands for a new name in the larger netlist yet. -/
theorem not_right (h : Hosts around r k n) (hflat : Flat t) (hfree : n.isTaken t = false) :
    ¬ r s t := by
  intro hr
  rw [← Bool.not_eq_true] at hfree
  rcases h.temporary hr with hs | ⟨-, -, htaken⟩
  · rw [h.eq_left hr hs] at hs
    exact hfree (h.fixed_taken hs hflat).2
  · exact hfree htaken

/-- Both netlists get the same node on a new signal each. -/
theorem newNode (h : Hosts around r k n) {a b : Node} (hk : NewNode k k' a w)
    (hn : NewNode n n' b w) (hkind : a.kind = b.kind) (hfanins : r.ReadsAll a.fanins b.fanins)
    (ha : Flat a.output) (hb : Flat b.output) :
    Hosts around (r.add a.output b.output) k' n' := by
  have hle := r.le_add a.output b.output
  have hnew : (r.add a.output b.output).Copies a b := ⟨hkind, hfanins.mono hle, .inr ⟨rfl, rfl⟩⟩
  have hleft : ∀ {t}, ¬ r a.output t := h.not_left ha hk.free
  have hright : ∀ {s}, ¬ r s b.output := h.not_right hb hn.free
  constructor
  case inputs => rw [hk.inputs, hn.inputs, h.inputs]
  case fixed => exact fun hs => .inl (h.fixed hs)
  case fixed_taken =>
    intro s hs hflat
    obtain ⟨hs, hs'⟩ := h.fixed_taken hs hflat
    exact ⟨(hk.taken s).2 (.inr hs), (hn.taken s).2 (.inr hs')⟩
  case temporary =>
    rintro s t (hr | ⟨rfl, rfl⟩)
    · rcases h.temporary hr with hs | ⟨hflat, hs, ht⟩
      · exact .inl hs
      · exact .inr ⟨hflat, (hk.taken s).2 (.inr hs), (hn.taken t).2 (.inr ht)⟩
    · exact .inr ⟨hb, (hk.taken _).2 (.inl rfl), (hn.taken _).2 (.inl rfl)⟩
  case left =>
    intro s hs
    rcases (hk.taken s).1 hs with rfl | hs
    · exact ⟨_, .inr ⟨rfl, rfl⟩⟩
    · obtain ⟨t, hr⟩ := h.left hs
      exact ⟨t, .inl hr⟩
  case right =>
    intro t ht
    rcases (hn.taken t).1 ht with rfl | ht
    · exact .inr ⟨_, .inr ⟨rfl, rfl⟩⟩
    · exact (h.right ht).imp_right fun ⟨s, hr⟩ => ⟨s, .inl hr⟩
  case unique =>
    rintro s t t' (hr | ⟨rfl, rfl⟩) (hr' | ⟨hs, ht⟩)
    · exact h.unique hr hr'
    · exact absurd (hs ▸ hr) hleft
    · exact absurd hr' hleft
    · exact ht.symm
  case injective =>
    rintro s s' t (hr | ⟨rfl, rfl⟩) (hr' | ⟨hs, ht⟩)
    · exact h.injective hr hr'
    · exact absurd (ht ▸ hr) hright
    · exact absurd hr' hright
    · exact hs.symm
  case width =>
    rintro s t (hr | ⟨rfl, rfl⟩)
    · rw [hk.width, hn.width, if_neg fun hs => hleft (hs ▸ hr), if_neg fun ht => hright (ht ▸ hr),
        h.width hr]
    · rw [hk.width, hn.width, if_pos rfl, if_pos rfl]
  case apart =>
    intro t ht
    obtain ⟨htaken, hnone⟩ := h.apart ht
    refine ⟨(hn.taken t).2 (.inr htaken), fun s hr => ?_⟩
    rcases hr with hr | ⟨-, rfl⟩
    · exact hnone s hr
    · rw [hn.free] at htaken
      cases htaken
  case copied =>
    intro c hc
    rcases hk.mem_nodes.1 hc with hc | rfl
    · obtain ⟨d, hd, hcopies⟩ := h.copied c hc
      exact ⟨d, hn.mem_nodes.2 (.inl hd), hcopies.mono hle⟩
    · exact ⟨b, hn.mem_nodes.2 (.inr rfl), hnew⟩
  case node =>
    intro d hd
    rcases hn.mem_nodes.1 hd with hd | rfl
    · refine (h.node d hd).imp_right fun ⟨c, hc, hcopies⟩ => ⟨c, ?_, hcopies.mono hle⟩
      exact hk.mem_nodes.2 (.inl hc)
    · exact .inr ⟨a, hk.mem_nodes.2 (.inr rfl), hnew⟩

/-- Both netlists get the same node on a signal that stands for itself. -/
theorem addNode (h : Hosts around r k n) {kind : Kind} {fs gs : List Fanin} {d : String}
    {id id' : NodeId} (hk : k.addNode kind fs d = .ok (k', id))
    (hn : n.addNode kind gs d = .ok (n', id')) (hd : r d d) (hfanins : r.ReadsAll fs gs) :
    Hosts around r k' n' := by
  have htakenK : ∀ {s}, k'.isTaken s = true ↔ s = d ∨ k.isTaken s = true := isTaken_addNode hk
  have htakenN : ∀ {s}, n'.isTaken s = true ↔ s = d ∨ n.isTaken s = true := isTaken_addNode hn
  have hnodesK := nodes_of_addNode hk
  have hnodesN := nodes_of_addNode hn
  have hnew : r.Copies ⟨id, kind, fs, d⟩ ⟨id', kind, gs, d⟩ := ⟨rfl, hfanins, hd⟩
  have hsame : k'.inputs = k.inputs ∧ k'.width = k.width ∧ n'.inputs = n.inputs ∧
      n'.width = n.width := by
    obtain ⟨-, -, -, rfl⟩ := addNode_eq_ok hk
    obtain ⟨-, -, -, rfl⟩ := addNode_eq_ok hn
    exact ⟨rfl, rfl, rfl, rfl⟩
  obtain ⟨hinputsK, hwidthK, hinputsN, hwidthN⟩ := hsame
  constructor
  case inputs => rw [hinputsK, hinputsN, h.inputs]
  case fixed => exact h.fixed
  case fixed_taken =>
    intro s hs hflat
    obtain ⟨hs, hs'⟩ := h.fixed_taken hs hflat
    exact ⟨htakenK.2 (.inr hs), htakenN.2 (.inr hs')⟩
  case temporary =>
    intro s t hr
    rcases h.temporary hr with hs | ⟨hflat, hs, ht⟩
    · exact .inl hs
    · exact .inr ⟨hflat, htakenK.2 (.inr hs), htakenN.2 (.inr ht)⟩
  case left =>
    intro s hs
    rcases htakenK.1 hs with rfl | hs
    · exact ⟨_, hd⟩
    · exact h.left hs
  case right =>
    intro t ht
    rcases htakenN.1 ht with rfl | ht
    · exact .inr ⟨_, hd⟩
    · exact h.right ht
  case unique => exact h.unique
  case injective => exact h.injective
  case width =>
    intro s t hr
    rw [hwidthK, hwidthN, h.width hr]
  case apart =>
    intro t ht
    obtain ⟨htaken, hnone⟩ := h.apart ht
    exact ⟨htakenN.2 (.inr htaken), hnone⟩
  case copied =>
    intro c hc
    rw [hnodesK, List.mem_append, List.mem_singleton] at hc
    rw [hnodesN]
    rcases hc with hc | rfl
    · obtain ⟨e, he, hcopies⟩ := h.copied c hc
      exact ⟨e, List.mem_append_left _ he, hcopies⟩
    · exact ⟨_, List.mem_append_right _ (.head _), hnew⟩
  case node =>
    intro e he
    rw [hnodesN, List.mem_append, List.mem_singleton] at he
    rw [hnodesK]
    rcases he with he | rfl
    · refine (h.node e he).imp_right fun ⟨c, hc, hcopies⟩ => ⟨c, ?_, hcopies⟩
      exact List.mem_append_left _ hc
    · exact .inr ⟨_, List.mem_append_right _ (.head _), hnew⟩

/-- A signal that stands for itself is defined in the larger netlist if it is in the smaller. -/
theorem isDefined_of_fixed (h : Hosts around r k n) (hs : r s s) (hdefined : k.isDefined s = true) :
    n.isDefined s = true := by
  rcases isDefined_iff.1 hdefined with ⟨a, ha, rfl⟩ | hin
  · obtain ⟨b, hb, hcopies⟩ := h.copied a ha
    rw [h.unique hs hcopies.output]
    exact isDefined_of_node hb
  · exact isDefined_of_input (h.inputs ▸ hin)

/-- A fixed name gets the same width in both netlists. -/
theorem setWidth (h : Hosts around r k n) (hs : around.fixed s) (w : Width) :
    Hosts around r (k.setWidth s w) (n.setWidth s w) where
  inputs := h.inputs
  fixed := h.fixed
  fixed_taken ht hflat := by
    obtain ⟨hk, hn⟩ := h.fixed_taken ht hflat
    exact ⟨(isTaken_setWidth k w).2 (.inr hk), (isTaken_setWidth n w).2 (.inr hn)⟩
  temporary hr := (h.temporary hr).imp_right fun ⟨hflat, hk, hn⟩ =>
    ⟨hflat, (isTaken_setWidth k w).2 (.inr hk), (isTaken_setWidth n w).2 (.inr hn)⟩
  left ht := by
    rcases (isTaken_setWidth k w).1 ht with rfl | ht
    · exact ⟨_, h.fixed hs⟩
    · exact h.left ht
  right ht := by
    rcases (isTaken_setWidth n w).1 ht with rfl | ht
    · exact .inr ⟨_, h.fixed hs⟩
    · exact h.right ht
  unique := h.unique
  injective := h.injective
  width {u t} hr := by
    have hiff : u = s ↔ t = s := by
      refine ⟨?_, ?_⟩
      · rintro rfl
        exact (h.eq_left hr hs).symm
      · rintro rfl
        exact h.eq_right hr hs
    rw [width_setWidth, width_setWidth, h.width hr]
    simp only [hiff]
  apart ht := by
    obtain ⟨htaken, hnone⟩ := h.apart ht
    exact ⟨(isTaken_setWidth n w).2 (.inr htaken), hnone⟩
  copied := h.copied
  node := h.node

end Hosts

end

/-! ## Parallel steps -/

/-- Wherever the second step ends well on a netlist that hosts a copy, the first one ends well on what is
copied, and its result stands for that of the second. -/
def Parallel {α : Type} (around : Surroundings) (r : Pairing) (x y : Build α)
    (post : Pairing → α → α → Prop) : Prop :=
  ∀ ⦃r₁⦄, r ≤ r₁ → ∀ ⦃k n⦄, Hosts around r₁ k n → ∀ ⦃b n'⦄, y.run n = .ok (b, n') →
    ∃ r' a k', r₁ ≤ r' ∧ x.run k = .ok (a, k') ∧ Hosts around r' k' n' ∧ post r' a b

theorem run_bind_of_run {α β : Type} {x : Build α} {f : α → Build β} {n m : Netlist} {a : α}
    (h : x.run n = .ok (a, m)) : (x >>= f).run n = (f a).run m := by
  rw [StateT.run_bind, h]
  rfl

/-- A node whose output can be no destination is added on a new signal. -/
theorem exists_run_emit (site : Site) {kind : Kind} {fanins : List Fanin} {w : Width}
    {dest : Option String} {n : Netlist}
    (harity : ∀ k, kind.arity? = some k → k = fanins.length)
    (hwide : ∀ d, dest = some d → w.bits < (n.width d).bits) :
    ∃ n' id output, (emit site kind fanins w dest).run n = .ok (.plain output, n') ∧
      Flat output ∧ NewNode n n' ⟨id, kind, fanins, output⟩ w := by
  have hnone : (dest.filter fun d => (n.width d).bits ≤ w.bits) = none := by
    rw [Option.filter_eq_none_iff]
    intro d hd
    have := hwide d hd
    simp only [decide_eq_true_eq]
    omega
  have hfree : (n.newSignal "t" w).1.isDefined (n.newSignal "t" w).2 = false :=
    (not_taken_iff.1 (newSignal_not_taken n "t" w)).2.1
  obtain ⟨n', id, hadd⟩ := addNode_isOk harity hfree
  refine ⟨n', id, (n.newSignal "t" w).2, ?_, flat_freshName _, newNode_of_addNode hadd⟩
  rw [emit, run_bind_of_run (show (get : Build Netlist).run n = .ok (n, n) from rfl)]
  simp only [hnone]
  rw [run_bind_of_run (show (newSignal w).run n = .ok ((n.newSignal "t" w).2, (n.newSignal "t" w).1)
    from rfl)]
  have hrun : (addNode site kind fanins (n.newSignal "t" w).2).run (n.newSignal "t" w).1 =
      .ok ((), n') := by
    rw [addNode, run_bind_of_run (show (get : Build Netlist).run _ = .ok (_, _) from rfl)]
    simp only [hadd]
    rfl
  rw [run_bind_of_run hrun]
  rfl

/-- A node that is no narrower than the destination drives it. -/
theorem run_emit_of_addNode {site : Site} {kind : Kind} {fanins : List Fanin} {w : Width}
    {d : String} {n n' : Netlist} {id : NodeId} (hle : (n.width d).bits ≤ w.bits)
    (hadd : n.addNode kind fanins d = .ok (n', id)) :
    (emit site kind fanins w (some d)).run n = .ok (.plain d, n') := by
  have hsome : ((some d).filter fun d => (n.width d).bits ≤ w.bits) = some d := by
    rw [Option.filter_some, if_pos (decide_eq_true hle)]
  rw [emit, run_bind_of_run (show (get : Build Netlist).run n = .ok (n, n) from rfl)]
  simp only [hsome]
  have hrun : (addNode site kind fanins d).run n = .ok ((), n') := by
    rw [addNode, run_bind_of_run (show (get : Build Netlist).run _ = .ok (_, _) from rfl)]
    simp only [hadd]
    rfl
  rw [pure_bind, run_bind_of_run hrun]
  rfl

namespace Parallel

variable {around : Surroundings} {r r' : Pairing} {α β : Type} {site : Site} {w : Width}
  {dest : Option String} {f g f' g' : Fanin} {post : Pairing → α → α → Prop}
  {post' : Pairing → β → β → Prop}

theorem pure {a b : α} (h : ∀ r', r ≤ r' → post r' a b) :
    Parallel around r (pure a) (pure b) post := by
  intro r₁ hr k n hhosts c n' hrun
  cases hrun
  exact ⟨r₁, a, k, le_refl r₁, rfl, hhosts, h r₁ hr⟩

theorem throw (x : Build α) (e : SourceError) : Parallel around r x (throw e) post := by
  intro r₁ hr k n hhosts b n' hrun
  cases hrun

theorem lift {x y : Except SourceError α}
    (h : ∀ b, y = .ok b → ∃ a, x = .ok a ∧ ∀ r', r ≤ r' → post r' a b) :
    Parallel around r (liftM x) (liftM y) post := by
  intro r₁ hr k n hhosts b n' hrun
  obtain ⟨hy, rfl⟩ := run_of_lift hrun
  obtain ⟨a, rfl, hpost⟩ := h b hy
  exact ⟨r₁, a, k, le_refl r₁, rfl, hhosts, hpost r₁ hr⟩

/-- A computation that does not look at the netlist has one result. -/
theorem lift_same (x : Except SourceError α) :
    Parallel around r (liftM x) (liftM x) fun _ a b => a = b :=
  lift fun b hb => ⟨b, hb, fun _ _ => rfl⟩

theorem get : Parallel around r (get : Build Netlist) get (Hosts around) := by
  intro r₁ hr k n hhosts b n' hrun
  cases hrun
  exact ⟨r₁, k, k, le_refl r₁, rfl, hhosts, hhosts⟩

theorem bind {x y : Build α} {next next' : α → Build β} (h : Parallel around r x y post)
    (hnext : ∀ r₁ a b, r ≤ r₁ → post r₁ a b → Parallel around r₁ (next a) (next' b) post') :
    Parallel around r (x >>= next) (y >>= next') post' := by
  intro r₁ hr k n hhosts c n' hrun
  obtain ⟨b, m', hb, hrun⟩ := run_of_bind hrun
  obtain ⟨r₂, a, m, hr₂, ha, hhosts₂, hpost⟩ := h hr hhosts hb
  obtain ⟨r₃, d, k', hr₃, hd, hhosts₃, hpost'⟩ :=
    hnext r₂ a b (hr.trans hr₂) hpost (le_refl r₂) hhosts₂ hrun
  exact ⟨r₃, d, k', hr₂.trans hr₃, (run_bind_of_run ha).trans hd, hhosts₃, hpost'⟩

/-- Both steps go on with the same value. -/
theorem bind_same {x y : Build α} {next next' : α → Build β}
    (h : Parallel around r x y fun _ a b => a = b)
    (hnext : ∀ r₁ a, r ≤ r₁ → Parallel around r₁ (next a) (next' a) post') :
    Parallel around r (x >>= next) (y >>= next') post' :=
  h.bind fun r₁ a _ hr hab => hab ▸ hnext r₁ a hr

/-! ### Nodes -/

theorem emit {kind : Kind} {fs gs : List Fanin} (hfanins : r.ReadsAll fs gs)
    (hdest : r.Fixes dest) :
    Parallel around r (emit site kind fs w dest) (emit site kind gs w dest) Pairing.Reads := by
  intro r₁ hr k n h g n' hrun
  have hfanins := hfanins.mono hr
  have hlength := hfanins.length_eq
  rcases emit_run hrun with ⟨hwide, id, output, rfl, hflat, hnew⟩ | ⟨id, d, rfl, hle, rfl, hadd⟩
  · have hwide' : ∀ d, dest = some d → w.bits < (k.width d).bits := fun d hd => by
      rw [h.width (hdest.mono hr d hd)]
      exact hwide d hd
    obtain ⟨k', id', output', hrun', hflat', hnew'⟩ := exists_run_emit site
      (fun c hc => (hnew.arity c hc).trans hlength.symm) hwide'
    exact ⟨_, _, k', r₁.le_add _ _, hrun', h.newNode hnew' hnew rfl hfanins hflat' hflat,
      .inr ⟨rfl, rfl⟩, rfl⟩
  · have hd := hdest.mono hr d rfl
    obtain ⟨harity, hfree, -, -⟩ := addNode_eq_ok hadd
    have hfree' : k.isDefined d = false := Bool.eq_false_iff.2 fun hdefined => by
      rw [h.isDefined_of_fixed hd hdefined] at hfree
      cases hfree
    obtain ⟨k', id', hadd'⟩ := addNode_isOk (fun c hc => (harity c hc).trans hlength.symm) hfree'
    have hle' : (k.width d).bits ≤ w.bits := by
      rw [h.width hd]
      exact hle
    exact ⟨r₁, _, k', le_refl r₁, run_emit_of_addNode hle' hadd', h.addNode hadd' hadd hd hfanins,
      hd, rfl⟩

theorem drive {d : String} (hvalue : r.Reads f g) (hd : r d d) :
    Parallel around r (drive site d f w) (drive site d g w) fun _ _ _ => True := by
  intro r₁ hr k n h b n' hrun
  have hsame : (f.signal = d ∧ !f.inverted) ↔ (g.signal = d ∧ !g.inverted) := by
    have hd₁ : r₁ d d := hr _ _ hd
    have hsignal : r₁ f.signal g.signal := hr _ _ hvalue.1
    rw [hvalue.2]
    refine and_congr_left fun _ => ⟨fun hs => ?_, fun hs => ?_⟩
    · rw [hs] at hsignal
      exact h.unique hsignal hd₁
    · rw [hs] at hsignal
      exact h.injective hsignal hd₁
  have hsteps : Parallel around r (Elaborate.drive site d f w) (Elaborate.drive site d g w)
      fun _ _ _ => True := by
    rw [Elaborate.drive, Elaborate.drive]
    simp only [hsame]
    split
    · exact pure fun _ _ => trivial
    · exact (emit (.cons hvalue .nil) (Pairing.fixes_some hd)).bind fun _ _ _ _ _ =>
        pure fun _ _ => trivial
  exact hsteps hr h hrun

theorem constant (value : Word) (w : Width) :
    Parallel around r (constant site value w) (constant site value w) Pairing.Reads :=
  emit .nil (Pairing.fixes_none r)

theorem invert (hf : r.Reads f g) (hdest : r.Fixes dest) :
    Parallel around r (invert site f w dest) (invert site g w dest) Pairing.Reads := by
  refine get.bind fun r₁ k n hr hhosts => ?_
  rw [hhosts.width (hr _ _ hf.1)]
  split
  · exact pure fun r' hr' => (hf.mono (hr.trans hr')).negate
  · exact emit (.cons (hf.mono hr) .nil) (hdest.mono hr)

theorem maskWidth (bits : Nat) :
    Parallel around r (maskWidth bits) (maskWidth bits) fun _ a b => a = b := by
  rw [Elaborate.maskWidth]
  split
  · exact pure fun _ _ => rfl
  · exact throw _ _

theorem wider (w : Width) : Parallel around r (wider w) (wider w) fun _ a b => a = b := maskWidth _

theorem powerConstant (exponent : Nat) :
    Parallel around r (powerConstant site exponent) (powerConstant site exponent)
      Pairing.Reads := by
  have hpower : Parallel around r (powerOfTwo exponent) (powerOfTwo exponent)
      fun _ a b => a = b := by
    rw [powerOfTwo]
    split
    · exact pure fun _ _ => rfl
    · exact throw _ _
  exact hpower.bind_same fun _ _ _ => (maskWidth _).bind_same fun _ _ _ => constant _ _

/-! ### Comparisons -/

theorem topBit (hf : r.Reads f g) (hdest : r.Fixes dest) :
    Parallel around r (topBit site f w dest) (topBit site g w dest) Pairing.Reads :=
  (powerConstant _).bind fun _ _ _ hr hweight =>
    emit (Pairing.readsAll_pair (hf.mono hr) hweight) (hdest.mono hr)

theorem less (hf : r.Reads f g) (hf' : r.Reads f' g') (hdest : r.Fixes dest) :
    Parallel around r (less site f f' w dest) (less site g g' w dest) Pairing.Reads :=
  (wider w).bind_same fun _ _ hr =>
    (emit (Pairing.readsAll_pair (hf.mono hr) (hf'.mono hr)) (Pairing.fixes_none _)).bind
      fun _ _ _ hr' hdifference => topBit hdifference (hdest.mono (hr.trans hr'))

theorem isZero (hf : r.Reads f g) (hdest : r.Fixes dest) :
    Parallel around r (isZero site f w dest) (isZero site g w dest) Pairing.Reads := by
  rw [Elaborate.isZero, Elaborate.isZero]
  split
  · exact invert hf hdest
  · refine (wider w).bind_same fun r₁ _ hr => (constant _ _).bind fun r₂ _ _ hr' hone => ?_
    have hr₂ := hr.trans hr'
    refine (emit (Pairing.readsAll_pair (hf.mono hr₂) hone) (Pairing.fixes_none _)).bind ?_
    exact fun _ _ _ hr₃ hdecremented => topBit hdecremented (hdest.mono (hr₂.trans hr₃))

theorem equal (hf : r.Reads f g) (hf' : r.Reads f' g') (hdest : r.Fixes dest) :
    Parallel around r (equal site f f' w dest) (equal site g g' w dest) Pairing.Reads :=
  (emit (Pairing.readsAll_pair hf hf') (Pairing.fixes_none _)).bind fun _ _ _ hr hdifference =>
    isZero hdifference (hdest.mono hr)

theorem negated {x y : Build Fanin} (h : Parallel around r x y Pairing.Reads) :
    Parallel around r (do return (← x).negate) (do return (← y).negate) Pairing.Reads :=
  h.bind fun _ _ _ _ hread => pure fun _ hr => (hread.mono hr).negate

theorem truth (hf : r.Reads f g) :
    Parallel around r (truth site f w) (truth site g w) Pairing.Reads := by
  rw [Elaborate.truth, Elaborate.truth]
  split
  · exact pure fun _ hr => hf.mono hr
  · exact (isZero hf (Pairing.fixes_none _)).negated

theorem compare (op : BinaryOp) (hf : r.Reads f g) (hf' : r.Reads f' g') (hdest : r.Fixes dest) :
    Parallel around r (compare site op f f' w dest) (compare site op g g' w dest) Pairing.Reads := by
  unfold Elaborate.compare
  split
  · exact equal hf hf' hdest
  · exact (equal hf hf' (Pairing.fixes_none _)).negated
  · exact less hf hf' hdest
  · exact less hf' hf hdest
  · exact (less hf' hf (Pairing.fixes_none _)).negated
  · exact (less hf hf' (Pairing.fixes_none _)).negated

end Parallel

/-! ## Expressions -/

/-- The names of two scopes stand for each other. -/
structure Scope.Pairs (r : Pairing) (scope scope' : Scope) : Prop where
  name : scope.module.name = scope'.module.name
  path : scope.path = scope'.path
  width : scope.width = scope'.width
  read : ∀ ⦃name line g⦄, scope'.read name line = .ok g →
    ∃ f, scope.read name line = .ok f ∧ r.Reads f g
  dest : ∀ ⦃name line d⦄, scope'.dest name line = .ok d → scope.dest name line = .ok d ∧ r d d

section
variable {around : Surroundings} {r r' : Pairing} {scope scope' : Scope} {site : Site}

theorem Scope.Pairs.mono (h : Scope.Pairs r scope scope') (hr : r ≤ r') :
    Scope.Pairs r' scope scope' where
  name := h.name
  path := h.path
  width := h.width
  read _ _ _ hg := (h.read hg).imp fun _ hf => hf.imp_right fun hread => hread.mono hr
  dest _ _ d hd := (h.dest hd).imp_right (hr d d)

mutual

/-- The width of an expression depends on the declarations only. -/
theorem selfWidth_congr (h : scope.width = scope'.width) :
    ∀ e : Expr, selfWidth scope site e = selfWidth scope' site e
  | .ident name pos => by
    rw [selfWidth, selfWidth, h]
  | .number (some bits) value => by
    rw [selfWidth, selfWidth]
  | .number none value => by
    rw [selfWidth, selfWidth]
  | .select name msb lsb pos => by
    rw [selfWidth, selfWidth, h]
  | .concat parts => by
    rw [selfWidth, selfWidth, selfBits_congr h parts]
  | .unary .not inner => by
    rw [selfWidth, selfWidth, selfWidth_congr h inner]
  | .unary .logicNot inner => by
    rw [selfWidth, selfWidth]
  | .binary op left right => by
    rw [selfWidth, selfWidth, selfWidth_congr h left, selfWidth_congr h right]
  | .ternary condition yes no => by
    rw [selfWidth, selfWidth, selfWidth_congr h yes, selfWidth_congr h no]

theorem selfBits_congr (h : scope.width = scope'.width) :
    ∀ (parts : List Expr) (before : Nat),
      selfBits scope site before parts = selfBits scope' site before parts
  | [], _ => by
    rw [selfBits, selfBits]
  | part :: rest, _ => by
    simp only [selfBits, selfWidth_congr h part, selfBits_congr h rest]

end

/-- Lowering an expression in one scope runs in parallel with lowering it in the other. -/
def LowersAlike (around : Surroundings) (scope scope' : Scope) (site : Site) (e : Expr) : Prop :=
  ∀ ⦃r w dest⦄, Scope.Pairs r scope scope' → r.Fixes dest →
    Parallel around r (lower scope site e w dest) (lower scope' site e w dest) Pairing.Reads

namespace Parallel

theorem read (hscope : Scope.Pairs r scope scope') (name : String) (line : Nat) :
    Parallel around r (liftM (scope.read name line)) (liftM (scope'.read name line))
      Pairing.Reads :=
  lift fun g hg => by
    obtain ⟨f, hf, hread⟩ := hscope.read hg
    exact ⟨f, hf, fun _ hr => hread.mono hr⟩

theorem dest (hscope : Scope.Pairs r scope scope') (name : String) (line : Nat) :
    Parallel around r (liftM (scope.dest name line)) (liftM (scope'.dest name line))
      fun r' d d' => d = d' ∧ r' d d :=
  lift fun d hd => by
    obtain ⟨hd, hfixed⟩ := hscope.dest hd
    exact ⟨d, hd, fun _ hr => ⟨rfl, hr _ _ hfixed⟩⟩

theorem selfWidth (hscope : Scope.Pairs r scope scope') (e : Expr) :
    Parallel around r (liftM (selfWidth scope site e)) (liftM (selfWidth scope' site e))
      fun _ a b => a = b := by
  rw [selfWidth_congr hscope.width]
  exact lift_same _

theorem width (hscope : Scope.Pairs r scope scope') (name : String) (line : Nat) :
    Parallel around r (liftM (scope.width name line)) (liftM (scope'.width name line))
      fun _ a b => a = b := by
  rw [hscope.width]
  exact lift_same _

end Parallel

namespace Parallel

variable {left right : Expr} {w : Width} {dest : Option String}

/-- Two operands, lowered one after the other. -/
theorem operands {β : Type} {post : Pairing → β → β → Prop} {next next' : Fanin → Fanin → Build β}
    (hleft : LowersAlike around scope scope' site left)
    (hright : LowersAlike around scope scope' site right) (hscope : Scope.Pairs r scope scope')
    (hnext : ∀ r₁ f g f' g', r ≤ r₁ → r₁.Reads f g → r₁.Reads f' g' →
      Parallel around r₁ (next f f') (next' g g') post) :
    Parallel around r
      (do
        let a ← lower scope site left w none
        let b ← lower scope site right w none
        next a b)
      (do
        let a ← lower scope' site left w none
        let b ← lower scope' site right w none
        next' a b) post :=
  (hleft hscope (Pairing.fixes_none r)).bind fun r₁ f g hr hf =>
    (hright (hscope.mono hr) (Pairing.fixes_none r₁)).bind fun r₂ f' g' hr' hf' =>
      hnext r₂ f g f' g' (hr.trans hr') (hf.mono hr') hf'

/-- Two operands, lowered at their own widths and taken for truth values. -/
theorem logical {op : BinaryOp} (hop : op.isLogical = true)
    (hleft : LowersAlike around scope scope' site left)
    (hright : LowersAlike around scope scope' site right) :
    LowersAlike around scope scope' site (.binary op left right) := by
  intro r w dest hscope hdest
  rw [lower_logical hop, lower_logical hop]
  refine (selfWidth hscope left).bind_same fun r₁ _ hr₁ => ?_
  refine (hleft (hscope.mono hr₁) (Pairing.fixes_none _)).bind fun r₂ _ _ hr₂ hf => ?_
  refine (truth hf).bind fun r₃ _ _ hr₃ ha => ?_
  have hr := hr₁.trans (hr₂.trans hr₃)
  refine (selfWidth (hscope.mono hr) right).bind_same fun r₄ _ hr₄ => ?_
  refine (hright (hscope.mono (hr.trans hr₄)) (Pairing.fixes_none _)).bind fun r₅ _ _ hr₅ hf' => ?_
  refine (truth hf').bind fun r₆ _ _ hr₆ hb => ?_
  have hr' := hr₄.trans (hr₅.trans hr₆)
  exact emit (Pairing.readsAll_pair (ha.mono hr') hb) (hdest.mono (hr.trans hr'))

/-- Two operands, lowered at the wider of their widths and compared. -/
theorem comparison {op : BinaryOp} (hop : op.isBoolean = true) (hop' : op.isLogical = false)
    (hleft : LowersAlike around scope scope' site left)
    (hright : LowersAlike around scope scope' site right) :
    LowersAlike around scope scope' site (.binary op left right) := by
  intro r w dest hscope hdest
  rw [lower_comparison hop hop', lower_comparison hop hop']
  refine (selfWidth hscope left).bind_same fun r₁ _ hr₁ => ?_
  refine (selfWidth (hscope.mono hr₁) right).bind_same fun r₂ _ hr₂ => ?_
  have hr := hr₁.trans hr₂
  split
  · exact throw _ _
  · exact operands hleft hright (hscope.mono hr) fun _ _ _ _ _ hr₃ hf hf' =>
      compare op hf hf' (hdest.mono (hr.trans hr₃))

theorem binary (op : BinaryOp) (hleft : LowersAlike around scope scope' site left)
    (hright : LowersAlike around scope scope' site right) :
    LowersAlike around scope scope' site (.binary op left right) := by
  cases op using BinaryOp.byClass with
  | logical op hop => exact logical hop hleft hright
  | comparison op hop hop' => exact comparison hop hop' hleft hright
  | xnor =>
    intro r w dest hscope hdest
    rw [lower_xnor, lower_xnor]
    exact operands hleft hright hscope fun _ _ _ _ _ _ hf hf' =>
      (emit (Pairing.readsAll_pair hf hf') (Pairing.fixes_none _)).negated
  | arithmetic op hop hxnor =>
    intro r w dest hscope hdest
    rw [lower_arithmetic hop hxnor, lower_arithmetic hop hxnor]
    exact operands hleft hright hscope fun _ _ _ _ _ hr hf hf' =>
      emit (Pairing.readsAll_pair hf hf') (hdest.mono hr)

theorem select (name : String) (msb lsb : Nat) (pos : Position) :
    LowersAlike around scope scope' site (.select name msb lsb pos) := by
  intro r w dest hscope hdest
  rw [lower, lower]
  refine (read hscope name pos.line).bind fun r₁ _ _ hr₁ hbase => ?_
  refine (selfWidth (hscope.mono hr₁) _).bind_same fun r₂ _ hr₂ => ?_
  have hr := hr₁.trans hr₂
  split
  · refine (width (hscope.mono hr) _ _).bind_same fun r₃ _ hr₃ => ?_
    split
    · exact pure fun _ hr₄ => hbase.mono (hr₂.trans (hr₃.trans hr₄))
    · exact emit (.cons (hbase.mono (hr₂.trans hr₃)) .nil) (hdest.mono (hr.trans hr₃))
  · refine (powerConstant _).bind fun r₃ _ _ hr₃ hshift => ?_
    have hr' := hr₂.trans hr₃
    exact emit (Pairing.readsAll_pair (hbase.mono hr') hshift) (hdest.mono (hr₁.trans hr'))

theorem parts {parts : List Expr}
    (hparts : ∀ part ∈ parts, LowersAlike around scope scope' site part) {high high' : Fanin}
    (total : Width) (hscope : Scope.Pairs r scope scope') (hhigh : r.Reads high high')
    (hdest : r.Fixes dest) :
    Parallel around r (lowerParts scope site parts high total dest)
      (lowerParts scope' site parts high' total dest) Pairing.Reads := by
  induction parts generalizing r high high' total with
  | nil =>
    rw [lowerParts, lowerParts]
    exact pure fun _ hr => hhigh.mono hr
  | cons part rest ih =>
    obtain ⟨hpart, hrest⟩ := List.forall_mem_cons.1 hparts
    rw [lowerParts, lowerParts]
    refine (selfWidth hscope part).bind_same fun r₁ _ hr₁ => ?_
    refine (hpart (hscope.mono hr₁) (Pairing.fixes_none _)).bind fun r₂ _ _ hr₂ hvalue => ?_
    refine (powerConstant _).bind fun r₃ _ _ hr₃ hfactor => ?_
    refine (lift_same _).bind_same fun r₄ _ hr₄ => ?_
    have hr := hr₁.trans (hr₂.trans (hr₃.trans hr₄))
    refine (emit (Pairing.readsAll_pair (hhigh.mono hr) (hfactor.mono hr₄))
      (Pairing.fixes_none _)).bind fun r₅ _ _ hr₅ hshifted => ?_
    have hlast : r₅.Fixes (if rest.isEmpty then dest else none) := by
      split
      · exact hdest.mono (hr.trans hr₅)
      · exact Pairing.fixes_none _
    have hvalue' := hvalue.mono (hr₃.trans (hr₄.trans hr₅))
    refine (emit (Pairing.readsAll_pair hshifted hvalue') hlast).bind fun r₆ _ _ hr₆ hjoined => ?_
    have hr' := hr.trans (hr₅.trans hr₆)
    exact ih hrest _ (hscope.mono hr') hjoined (hdest.mono hr')

mutual

/-- Expressions are lowered alike, under other names for temporary signals. -/
theorem lower (around : Surroundings) (scope scope' : Scope) (site : Site) :
    ∀ e : Expr, LowersAlike around scope scope' site e
  | .ident name pos => by
    intro r w dest hscope hdest
    rw [lower_ident, lower_ident]
    exact read hscope name pos.line
  | .number size value => by
    intro r w dest hscope hdest
    rw [lower_number, lower_number]
    exact emit .nil hdest
  | .select name msb lsb pos => select name msb lsb pos
  | .concat parts => by
    have hparts := lowerAll around scope scope' site parts
    intro r w dest hscope hdest
    unfold Elaborate.lower
    refine (selfWidth hscope _).bind_same fun r₁ _ hr₁ => ?_
    cases parts with
    | nil => exact throw _ _
    | cons first rest =>
      obtain ⟨hfirst, hrest⟩ := List.forall_mem_cons.1 hparts
      refine (selfWidth (hscope.mono hr₁) first).bind_same fun r₂ _ hr₂ => ?_
      have hr := hr₁.trans hr₂
      refine (hfirst (hscope.mono hr) (Pairing.fixes_none _)).bind fun r₃ _ _ hr₃ hhigh => ?_
      exact Parallel.parts hrest _ (hscope.mono (hr.trans hr₃)) hhigh (hdest.mono (hr.trans hr₃))
  | .unary .not inner => by
    have hinner := lower around scope scope' site inner
    intro r w dest hscope hdest
    rw [Elaborate.lower, Elaborate.lower]
    exact (hinner hscope (Pairing.fixes_none _)).bind fun _ _ _ hr hf => invert hf (hdest.mono hr)
  | .unary .logicNot inner => by
    have hinner := lower around scope scope' site inner
    intro r w dest hscope hdest
    rw [Elaborate.lower, Elaborate.lower]
    refine (selfWidth hscope inner).bind_same fun r₁ _ hr₁ => ?_
    exact (hinner (hscope.mono hr₁) (Pairing.fixes_none _)).bind fun _ _ _ hr₂ hf =>
      isZero hf (hdest.mono (hr₁.trans hr₂))
  | .binary op left right =>
    binary op (lower around scope scope' site left) (lower around scope scope' site right)
  | .ternary condition yes no => by
    have hcondition := lower around scope scope' site condition
    have hyes := lower around scope scope' site yes
    have hno := lower around scope scope' site no
    intro r w dest hscope hdest
    rw [Elaborate.lower, Elaborate.lower]
    refine (selfWidth hscope condition).bind_same fun r₁ _ hr₁ => ?_
    refine (hcondition (hscope.mono hr₁) (Pairing.fixes_none _)).bind fun r₂ _ _ hr₂ hselect => ?_
    have hr := hr₁.trans hr₂
    exact operands hyes hno (hscope.mono hr) fun _ _ _ _ _ hr₃ hd1 hd0 =>
      emit (.cons hd0 (Pairing.readsAll_pair hd1 (hselect.mono hr₃))) (hdest.mono (hr.trans hr₃))

theorem lowerAll (around : Surroundings) (scope scope' : Scope) (site : Site) :
    ∀ parts : List Expr, ∀ part ∈ parts, LowersAlike around scope scope' site part
  | [] => List.forall_mem_nil _
  | first :: rest => List.forall_mem_cons.2
      ⟨lower around scope scope' site first, lowerAll around scope scope' site rest⟩

end

end Parallel

end

end GateSynth.Verilog.Elaborate
