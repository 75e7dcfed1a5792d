import GateSynth.Proofs.Simulation.Meaning
import GateSynth.Proofs.Verilog.Statements

/-!
# Values for new signals

Nodes on new signals ask nothing of the values that a netlist has already: values that satisfy the
netlist extend to the new signals (`Filled`). Lowering an expression adds such nodes only, up to its
last node, which may drive the signal that the expression is for. `Tails` splits a step that way,
into what comes before and an `Ending`, and every form of an expression has such a split
(`Tails.lower`), whatever the widths in it are.
-/

namespace GateSynth.Verilog.Elaborate

open Netlist

variable {n n' n'' : Netlist} {cells : CellFunctions} {u u' : Valuation}

/-! ## Extending values -/

/-- Every signal that a node reads is taken. -/
def Closed (n : Netlist) : Prop :=
  ∀ node ∈ n.nodes, ∀ f ∈ node.fanins, n.isTaken f.signal = true

/-- The taken names have the same values. -/
def Retains (n : Netlist) (u u' : Valuation) : Prop := ∀ s, n.isTaken s = true → u' s = u s

theorem Retains.trans {u'' : Valuation} (hn : Later n n') (h : Retains n u u')
    (h' : Retains n' u' u'') : Retains n u u'' :=
  fun s hs => (h' s (hn.taken s hs)).trans (h s hs)

theorem Retains.seen (hn : Later n n') (h : Retains n u u') {f : Fanin}
    (hf : n.isTaken f.signal = true) : u'.seen n' f = u.seen n f :=
  Valuation.seen_congr (h _ hf) (hn.width _ hf)

/-- A node that is there already makes the same of values that agree. -/
theorem Retains.result (hn : Later n n') (h : Retains n u u') (hclosed : Closed n) {node : Node}
    (hnode : node ∈ n.nodes) : u'.result n' cells node = u.result n cells node := by
  have hdefined : n.isDefined node.output = true := isDefined_iff.2 (.inl ⟨node, hnode, rfl⟩)
  refine Valuation.result_congr rfl (hn.width _ (isTaken_of_isDefined hdefined)) ?_
  exact List.map_congr_left fun f hf => h.seen hn (hclosed node hnode f hf)

theorem Retains.obeys (hn : Later n n') (h : Retains n u u') (hclosed : Closed n)
    (hu : Satisfies n cells u) {node : Node} (hnode : node ∈ n.nodes) :
    u'.result n' cells node = some (u' node.output) := by
  have hdefined : n.isDefined node.output = true := isDefined_iff.2 (.inl ⟨node, hnode, rfl⟩)
  rw [h.result hn hclosed hnode, hu.node node hnode, h _ (isTaken_of_isDefined hdefined)]

theorem result_of_computed {node : Node} (h : Computed node.kind) (v : Valuation) :
    v.result n cells node =
      some (valueAt node.kind (node.fanins.map (v.seen n)) (n.width node.output)) := by
  rw [Valuation.result]
  cases hk : node.kind with
  | op | const => rfl
  | module | cell =>
    rw [hk] at h
    cases h

/-- The second netlist asks nothing of the values that the first one has. -/
structure Filled (n n' : Netlist) : Prop where
  later : Later n n'
  closed : Closed n → Closed n'
  exists_values : ∀ {cells u}, Closed n → Satisfies n cells u →
    ∃ u', Satisfies n' cells u' ∧ Retains n u u'

namespace Filled

theorem refl (n : Netlist) : Filled n n :=
  ⟨.refl n, id, fun {_ u} _ hu => ⟨u, hu, fun _ _ => rfl⟩⟩

theorem trans (h : Filled n n') (h' : Filled n' n'') : Filled n n'' := by
  refine ⟨h.later.trans h'.later, h'.closed ∘ h.closed, fun hclosed hu => ?_⟩
  obtain ⟨u₁, hu₁, hretains⟩ := h.exists_values hclosed hu
  obtain ⟨u₂, hu₂, hretains'⟩ := h'.exists_values (h.closed hclosed) hu₁
  exact ⟨u₂, hu₂, hretains.trans h.later hretains'⟩

/-- A new signal gets the value of its node. -/
theorem of_newNode {node : Node} {w : Width} (h : NewNode n n' node w)
    (hkind : Computed node.kind) (hfanins : ∀ f ∈ node.fanins, n.isTaken f.signal = true) :
    Filled n n' := by
  have hlater : Later n n' := .of_newNode h trivial trivial
  refine ⟨hlater, fun hclosed m hm f hf => ?_, fun {cells u} hclosed hu => ?_⟩
  · rcases h.mem_nodes.1 hm with hm | rfl
    · exact hlater.taken _ (hclosed m hm f hf)
    · exact hlater.taken _ (hfanins f hf)
  obtain ⟨u', hu'⟩ : ∃ u' : Valuation, u' = Function.update u node.output
    (valueAt node.kind (node.fanins.map (u.seen n)) w) := ⟨_, rfl⟩
  have hretains : Retains n u u' := by
    intro s hs
    rw [hu', Function.update_of_ne]
    rintro rfl
    rw [h.free] at hs
    cases hs
  have hwidth : n'.width node.output = w := by rw [h.width, if_pos rfl]
  have hnew : u'.result n' cells node = some (u' node.output) := by
    rw [result_of_computed hkind, hwidth, hu', Function.update_self, ← hu']
    exact congrArg (fun operands => some (valueAt node.kind operands w))
      (List.map_congr_left fun f hf => hretains.seen hlater (hfanins f hf))
  refine ⟨u', ⟨fun m hm => ?_, fun s => ?_⟩, hretains⟩
  · rcases h.mem_nodes.1 hm with hm | rfl
    · exact hretains.obeys hlater hclosed hu hm
    · exact hnew
  · by_cases hs : s = node.output
    · rw [hs]
      exact Valuation.truncate_result hnew
    · rw [h.width, if_neg hs, hu', Function.update_of_ne hs, hu.fits]

end Filled

/-! ## Driving a taken name -/

section
variable {kind : Kind} {fanins : List Fanin} {d : String} {id : NodeId}

/-- A name that is taken can be driven by a node if it has the value of the node already. -/
theorem satisfies_of_addNode (h : n.addNode kind fanins d = .ok (n', id))
    (hkind : Computed kind) (hu : Satisfies n cells u)
    (hd : u d = valueAt kind (fanins.map (u.seen n)) (n.width d)) : Satisfies n' cells u := by
  have hnodes := nodes_of_addNode h
  obtain ⟨-, -, -, hn'⟩ := addNode_eq_ok h
  have hwidth : n'.width = n.width := by rw [hn']; rfl
  have hresult : ∀ node, u.result n' cells node = u.result n cells node := fun node =>
    Valuation.result_congr rfl (by rw [hwidth])
      (List.map_congr_left fun f _ => Valuation.seen_congr rfl (by rw [hwidth]))
  refine ⟨fun node hnode => ?_, fun s => by rw [hwidth, hu.fits]⟩
  rw [hresult]
  rw [hnodes, List.mem_append, List.mem_singleton] at hnode
  rcases hnode with hnode | rfl
  · exact hu.node node hnode
  · rw [result_of_computed hkind, hd]

theorem Closed.of_addNode (hclosed : Closed n) (h : n.addNode kind fanins d = .ok (n', id))
    (htaken : n.isTaken d = true) (hfanins : ∀ f ∈ fanins, n.isTaken f.signal = true) :
    Closed n' := by
  have hlater : Later n n' := .of_addNode h htaken trivial
  intro node hnode f hf
  rw [nodes_of_addNode h, List.mem_append, List.mem_singleton] at hnode
  rcases hnode with hnode | rfl
  · exact hlater.taken _ (hclosed node hnode f hf)
  · exact hlater.taken _ (hfanins f hf)

end

/-! ## Steps on new signals -/

/-- Given that some names are taken, the step drives new signals only, and what its result reads is
taken. -/
def Fills {α : Type} (given : String → Prop) (reads : α → String → Prop) (step : Build α) : Prop :=
  ∀ ⦃n n' a⦄, (∀ s, given s → n.isTaken s = true) → step.run n = .ok (a, n') →
    Filled n n' ∧ ∀ s, reads a s → n'.isTaken s = true

/-- Nothing is read. -/
def unread {α : Type} : α → String → Prop := fun _ _ => False

/-- The signal of a fanin is read. -/
def Reads (f : Fanin) (s : String) : Prop := s = f.signal

/-- What a step still has to do: nothing, if a fanin has its value, or to add a node. -/
inductive Ending where
  | done (value : Fanin)
  | node (kind : Kind) (computed : Computed kind) (fanins : List Fanin) (w : Width)

/-- What the ending reads. -/
def Ending.reads : Ending → String → Prop
  | .done value => Reads value
  | .node _ _ fanins _ => fun s => ∃ f ∈ fanins, s = f.signal

section
variable {α β : Type} {given given' : String → Prop} {reads : α → String → Prop}
  {reads' : β → String → Prop} {site : Site}

namespace Fills

theorem mono {step : Build α} (h : Fills given reads step) (hgiven : ∀ s, given s → given' s) :
    Fills given' reads step :=
  fun _ _ _ htaken hrun => h (fun s hs => htaken s (hgiven s hs)) hrun

theorem bind {step : Build α} {next : α → Build β} (h : Fills given reads step)
    (hnext : ∀ a, Fills (fun s => given s ∨ reads a s) reads' (next a)) :
    Fills given reads' (step >>= next) := by
  intro n n' b htaken hrun
  obtain ⟨a, m, hstep, hrun⟩ := run_of_bind hrun
  obtain ⟨hfilled, hreads⟩ := h htaken hstep
  obtain ⟨hfilled', hreads'⟩ := hnext a (fun s hs => hs.elim
    (fun hs => hfilled.later.taken s (htaken s hs)) (hreads s)) hrun
  exact ⟨hfilled.trans hfilled', hreads'⟩

theorem pure {a : α} (h : ∀ s, reads a s → given s) : Fills given reads (pure a : Build α) := by
  intro n n' b htaken hrun
  cases hrun
  exact ⟨.refl _, fun s hs => htaken s (h s hs)⟩

theorem idle (a : α) : Fills given unread (Pure.pure a : Build α) := pure fun _ hs => hs.elim

theorem throw (e : SourceError) : Fills given reads (throw e : Build α) := by
  intro n n' b _ hrun
  cases hrun

theorem lift (x : Except SourceError α) : Fills given unread (liftM x : Build α) := by
  intro n n' b _ hrun
  obtain ⟨-, rfl⟩ := run_of_lift hrun
  exact ⟨.refl _, fun _ hs => hs.elim⟩

theorem get : Fills given unread (get : Build Netlist) := by
  intro n n' b _ hrun
  cases hrun
  exact ⟨.refl _, fun _ hs => hs.elim⟩

theorem maskWidth (bits : Nat) : Fills given unread (maskWidth bits) := by
  intro n n' w _ hrun
  obtain ⟨-, rfl⟩ := maskWidth_run hrun
  exact ⟨.refl _, fun _ hs => hs.elim⟩

theorem wider (w : Width) : Fills given unread (wider w) := maskWidth _

theorem emit {kind : Kind} {fanins : List Fanin} (hkind : Computed kind)
    (hfanins : ∀ f ∈ fanins, given f.signal) (site : Site) (w : Width) :
    Fills given Reads (emit site kind fanins w none) := by
  intro n n' f htaken hrun
  rcases emit_run hrun with ⟨-, id, output, rfl, -, hnew⟩ | ⟨_, d, hd, -⟩
  · refine ⟨.of_newNode hnew hkind fun f hf => htaken _ (hfanins f hf), fun s hs => ?_⟩
    exact (hnew.taken s).2 (.inl hs)
  · cases hd

theorem operator (op : Operator) {fanins : List Fanin} (hfanins : ∀ f ∈ fanins, given f.signal)
    (site : Site) (w : Width) : Fills given Reads (Elaborate.emit site (.op op) fanins w none) := by
  have hkind : Computed (.op op) := trivial
  exact emit hkind hfanins site w

theorem constant (site : Site) (value : Word) (w : Width) :
    Fills given Reads (constant site value w) := by
  have hkind : Computed (.const (w.truncate value)) := trivial
  exact emit hkind (List.forall_mem_nil _) site w

theorem powerConstant (site : Site) (exponent : Nat) :
    Fills given Reads (powerConstant site exponent) := by
  have hpower : Fills given unread (powerOfTwo exponent) := by
    rw [powerOfTwo]
    split
    · exact idle _
    · exact throw _
  exact hpower.bind fun _ => (maskWidth _).bind fun _ => constant _ _ _

end Fills

/-! ## Steps up to their last node -/

namespace Ending

/-- The last thing that a step does. -/
def finish (site : Site) (dest : Option String) : Ending → Build Fanin
  | .done value => pure value
  | .node kind _ fanins w => emit site kind fanins w dest

theorem finish_fills (site : Site) (ending : Ending) :
    Fills ending.reads Reads (ending.finish site none) := by
  cases ending with
  | done value => exact .pure fun _ hs => hs
  | node kind computed fanins w => exact .emit computed (fun f hf => ⟨f, hf, rfl⟩) site w

end Ending

/-- The step is the same for every destination up to its last node, and fills in the values of new
signals until then. -/
def Tails (site : Site) (given : String → Prop) (step : Option String → Build Fanin) : Prop :=
  ∃ early : Build Ending, Fills given Ending.reads early ∧
    ∀ dest, step dest = early >>= Ending.finish site dest

namespace Tails

variable {step : Option String → Build Fanin} {kind : Kind} {fanins : List Fanin}

theorem mono (h : Tails site given step) (hgiven : ∀ s, given s → given' s) :
    Tails site given' step :=
  let ⟨early, hearly, heq⟩ := h
  ⟨early, hearly.mono hgiven, heq⟩

/-- Without a destination, the step fills in the values of new signals to its end. -/
theorem fills (h : Tails site given step) : Fills given Reads (step none) := by
  obtain ⟨early, hearly, heq⟩ := h
  rw [heq]
  exact hearly.bind fun ending => (ending.finish_fills site).mono fun _ => .inr

theorem emit (hkind : Computed kind) (hfanins : ∀ f ∈ fanins, given f.signal) (w : Width) :
    Tails site given (emit site kind fanins w) := by
  refine ⟨pure (.node kind hkind fanins w), .pure ?_, fun dest => ?_⟩
  · rintro s ⟨f, hf, rfl⟩
    exact hfanins f hf
  · rw [pure_bind]
    rfl

theorem operator (op : Operator) (hfanins : ∀ f ∈ fanins, given f.signal) (w : Width) :
    Tails site given (Elaborate.emit site (.op op) fanins w) := by
  have hkind : Computed (.op op) := trivial
  exact emit hkind hfanins w

/-- A step that never drives the destination. -/
theorem of_fills {step : Build Fanin} (h : Fills given Reads step) :
    Tails site given fun _ => step :=
  ⟨step >>= fun f => pure (.done f), h.bind fun _ => .pure fun _ => .inr, fun _ => by
    simp only [bind_assoc, pure_bind, Ending.finish, bind_pure]⟩

/-- Something is done before the step. -/
theorem bind {first : Build α} {next : α → Option String → Build Fanin}
    (h : Fills given reads first)
    (hnext : ∀ a, Tails site (fun s => given s ∨ reads a s) (next a)) :
    Tails site given fun dest => first >>= fun a => next a dest := by
  choose early hearly heq using hnext
  refine ⟨first >>= early, h.bind hearly, fun dest => ?_⟩
  rw [bind_assoc]
  exact bind_congr fun a => heq a dest

/-- A width is found before the step. -/
theorem width {first : Build α} {next : α → Option String → Build Fanin}
    (h : Fills given unread first) (hnext : ∀ a, Tails site given (next a)) :
    Tails site given fun dest => first >>= fun a => next a dest :=
  bind h fun a => (hnext a).mono fun _ => .inl

theorem ite {c : Prop} [Decidable c] {yes no : Option String → Build Fanin}
    (hyes : Tails site given yes) (hno : Tails site given no) :
    Tails site given fun dest => if c then yes dest else no dest := by
  by_cases hc : c
  · simpa only [if_pos hc] using hyes
  · simpa only [if_neg hc] using hno

/-! ### Comparisons -/

variable {a b f : Fanin} {w : Width}

theorem invert (hf : given f.signal) (w : Width) : Tails site given (invert site f w) :=
  width .get fun _ => ite (of_fills (.pure fun _ hs => hs ▸ hf))
    (operator _ (List.forall_mem_singleton.2 hf) w)

theorem topBit (hf : given f.signal) (w : Width) : Tails site given (topBit site f w) :=
  bind (.powerConstant _ _) fun _ => operator _ (by simp [Reads, hf]) _

theorem less (ha : given a.signal) (hb : given b.signal) (w : Width) :
    Tails site given (less site a b w) := by
  exact width (.wider w) fun _ => bind (.operator _ (by simp [ha, hb]) _ _) fun _ =>
    topBit (.inr rfl) w

theorem isZero (hf : given f.signal) (w : Width) : Tails site given (isZero site f w) := by
  have hstep : Tails site given (fun dest =>
      if w = .one then Elaborate.invert site f .one dest else do
        let more ← Elaborate.wider w
        let one ← Elaborate.constant site 1 more
        let decremented ← Elaborate.emit site (.op .sub) [f, one] more none
        Elaborate.topBit site decremented w dest) :=
    ite (invert hf _) <| width (.wider w) fun _ => bind (.constant _ _ _) fun _ =>
      bind (.operator _ (by simp [Reads, hf]) _ _) fun _ => topBit (.inr rfl) w
  exact hstep

theorem equal (ha : given a.signal) (hb : given b.signal) (w : Width) :
    Tails site given (equal site a b w) := by
  exact bind (.operator _ (by simp [ha, hb]) _ _) fun _ => isZero (.inr rfl) w

/-- The complement of what a step without a destination returns. -/
theorem negate {step : Build Fanin} (h : Fills given Reads step) :
    Fills given Reads (do return (← step).negate) :=
  h.bind fun _ => .pure fun _ hs => .inr hs

theorem truth (hf : given f.signal) (w : Width) : Fills given Reads (truth site f w) := by
  rw [Elaborate.truth]
  split
  · exact .pure fun _ hs => hs ▸ hf
  · exact negate (isZero hf w).fills

theorem compare (ha : given a.signal) (hb : given b.signal) (op : BinaryOp) (w : Width) :
    Tails site given (compare site op a b w) := by
  unfold Elaborate.compare
  cases op
  case eq => exact equal ha hb w
  case ne => exact of_fills (negate (equal ha hb w).fills)
  case lt => exact less ha hb w
  case gt => exact less hb ha w
  case le => exact of_fills (negate (less hb ha w).fills)
  all_goals exact of_fills (negate (less ha hb w).fills)

end Tails

/-! ### Expressions -/

/-- A signal that a name of the scope stands for. -/
def Scope.Sees (scope : Scope) (s : String) : Prop :=
  ∃ name line f, scope.read name line = .ok f ∧ s = f.signal

theorem Scope.Fits.sees {scope : Scope} (h : scope.Fits n) (s : String) (hs : scope.Sees s) :
    n.isTaken s = true := by
  obtain ⟨_, _, _, hread, rfl⟩ := hs
  exact (h hread).1

theorem Fills.read {scope : Scope} (name : String) (line : Nat) :
    Fills scope.Sees Reads (liftM (scope.read name line) : Build Fanin) := by
  intro n n' f htaken hrun
  obtain ⟨hread, rfl⟩ := run_of_lift hrun
  exact ⟨.refl _, fun s hs => htaken s ⟨name, line, f, hread, hs⟩⟩

namespace Tails

variable {scope : Scope} {left right : Expr}

/-- Two operands, and a step that joins them. -/
theorem operands {w : Width} {next : Fanin → Fanin → Option String → Build Fanin}
    (hleft : ∀ w, Tails site scope.Sees (lower scope site left w))
    (hright : ∀ w, Tails site scope.Sees (lower scope site right w))
    (hnext : ∀ a b, Tails site (fun s => (scope.Sees s ∨ Reads a s) ∨ Reads b s) (next a b)) :
    Tails site scope.Sees (fun dest => do
      let a ← lower scope site left w none
      let b ← lower scope site right w none
      next a b dest) :=
  bind (hleft w).fills fun _ => bind ((hright w).fills.mono fun _ => .inl) fun _ => hnext _ _

theorem logical {op : BinaryOp} (hop : op.isLogical = true)
    (hleft : ∀ w, Tails site scope.Sees (lower scope site left w))
    (hright : ∀ w, Tails site scope.Sees (lower scope site right w)) (w : Width) :
    Tails site scope.Sees fun dest => lower scope site (.binary op left right) w dest := by
  simp only [lower_logical hop]
  refine width (.lift _) fun leftWidth => bind (hleft leftWidth).fills fun l =>
    bind (truth (.inr rfl) leftWidth) fun a => width (.lift _) fun rightWidth => ?_
  refine bind ((hright rightWidth).fills.mono fun _ hs => .inl (.inl hs)) fun r =>
    bind (truth (.inr rfl) rightWidth) fun b => ?_
  exact operator _ (by simp [Reads]) _

theorem comparison {op : BinaryOp} (hop : op.isBoolean = true) (hop' : op.isLogical = false)
    (hleft : ∀ w, Tails site scope.Sees (lower scope site left w))
    (hright : ∀ w, Tails site scope.Sees (lower scope site right w)) (w : Width) :
    Tails site scope.Sees fun dest => lower scope site (.binary op left right) w dest := by
  simp only [lower_comparison hop hop']
  exact width (.lift _) fun leftWidth => width (.lift _) fun rightWidth =>
    ite (of_fills (.throw _)) <| operands hleft hright fun a b =>
      compare (.inl (.inr rfl)) (.inr rfl) op _

theorem binary (hleft : ∀ w, Tails site scope.Sees (lower scope site left w))
    (hright : ∀ w, Tails site scope.Sees (lower scope site right w)) (op : BinaryOp) (w : Width) :
    Tails site scope.Sees (lower scope site (.binary op left right) w) := by
  show Tails site scope.Sees fun dest => lower scope site (.binary op left right) w dest
  cases op using BinaryOp.byClass with
  | logical op hop => exact logical hop hleft hright w
  | comparison op hop hop' => exact comparison hop hop' hleft hright w
  | xnor =>
    simp only [lower_xnor]
    exact operands hleft hright fun _ _ => of_fills (negate (.operator _ (by simp [Reads]) _ _))
  | arithmetic op hop hxnor =>
    simp only [lower_arithmetic hop hxnor]
    exact operands hleft hright fun _ _ => operator _ (by simp [Reads]) w

/-- Parts side by side below others: only the last one may drive the destination. -/
theorem parts {parts : List Expr}
    (hparts : ∀ part ∈ parts, ∀ w, Tails site scope.Sees (lower scope site part w))
    (high : Fanin) (total : Width) :
    Tails site (fun s => scope.Sees s ∨ Reads high s) (lowerParts scope site parts high total) := by
  show Tails site _ fun dest => lowerParts scope site parts high total dest
  induction parts generalizing high total with
  | nil =>
    simp only [lowerParts]
    exact of_fills (.pure fun _ => .inr)
  | cons part rest ih =>
    obtain ⟨hpart, hrest⟩ := List.forall_mem_cons.1 hparts
    simp only [lowerParts]
    refine width (.lift _) fun partWidth =>
      bind ((hpart partWidth).fills.mono fun _ => .inl) fun value =>
      bind (.powerConstant _ _) fun factor => width (.lift _) fun total' =>
      bind (.operator _ (by simp [Reads]) _ _) fun shifted => ?_
    cases rest with
    | nil =>
      simp only [lowerParts, List.isEmpty_nil, if_true, bind_pure]
      exact operator _ (by simp [Reads]) _
    | cons next rest =>
      refine bind (.operator _ (by simp [Reads]) _ _) fun joined => (ih hrest joined total').mono ?_
      rintro s (hs | hs)
      · exact .inl (.inl (.inl (.inl (.inl hs))))
      · exact .inr hs

mutual

/-- Lowering an expression fills in the values of new signals up to its last node. -/
theorem lower (scope : Scope) (site : Site) :
    ∀ (e : Expr) (w : Width), Tails site scope.Sees (lower scope site e w)
  | .ident name pos, _ => by
    show Tails site _ fun dest => Elaborate.lower scope site _ _ dest
    simp only [Elaborate.lower]
    exact of_fills (.read name pos.line)
  | .number _ value, w => by
    have hkind : Computed (.const (w.truncate value)) := trivial
    show Tails site _ fun dest => Elaborate.lower scope site _ _ dest
    simp only [Elaborate.lower]
    exact emit hkind (List.forall_mem_nil _) w
  | .select name _ lsb pos, _ => by
    show Tails site _ fun dest => Elaborate.lower scope site _ _ dest
    simp only [Elaborate.lower]
    refine bind (.read name pos.line) fun base => width (.lift _) fun selected => ite ?_ ?_
    · refine width (.lift _) fun declared => ite (of_fills (.pure fun _ => .inr)) ?_
      exact operator _ (by simp [Reads]) _
    · exact bind (.powerConstant _ _) fun _ => operator _ (by simp [Reads]) _
  | .concat parts, _ => by
    have hparts := lowerAll scope site parts
    show Tails site _ fun dest => Elaborate.lower scope site _ _ dest
    unfold Elaborate.lower
    refine width (.lift _) fun _ => ?_
    cases parts with
    | nil => exact of_fills (.throw _)
    | cons first rest =>
      obtain ⟨hfirst, hrest⟩ := List.forall_mem_cons.1 hparts
      exact width (.lift _) fun w => bind (hfirst w).fills fun high => Tails.parts hrest high w
  | .unary .not inner, w => by
    have hinner := lower scope site inner
    show Tails site _ fun dest => Elaborate.lower scope site _ _ dest
    simp only [Elaborate.lower]
    exact bind (hinner w).fills fun _ => invert (.inr rfl) w
  | .unary .logicNot inner, _ => by
    have hinner := lower scope site inner
    show Tails site _ fun dest => Elaborate.lower scope site _ _ dest
    simp only [Elaborate.lower]
    exact width (.lift _) fun w => bind (hinner w).fills fun _ => isZero (.inr rfl) w
  | .binary op left right, w => binary (lower scope site left) (lower scope site right) op w
  | .ternary condition yes no, w => by
    have hcondition := lower scope site condition
    have hyes := lower scope site yes
    have hno := lower scope site no
    show Tails site _ fun dest => Elaborate.lower scope site _ _ dest
    simp only [Elaborate.lower]
    refine width (.lift _) fun conditionWidth => bind (hcondition _).fills fun select =>
      bind ((hyes w).fills.mono fun _ => .inl) fun d1 =>
      bind ((hno w).fills.mono fun _ hs => .inl (.inl hs)) fun d0 => ?_
    exact operator _ (by simp [Reads]) w

theorem lowerAll (scope : Scope) (site : Site) :
    ∀ (parts : List Expr), ∀ part ∈ parts, ∀ w,
      Tails site scope.Sees (Elaborate.lower scope site part w)
  | [] => List.forall_mem_nil _
  | first :: rest => List.forall_mem_cons.2 ⟨lower scope site first, lowerAll scope site rest⟩

end

end Tails

/-- Lowering an expression on new signals fills in their values. -/
theorem Fills.lower (scope : Scope) (site : Site) (e : Expr) (w : Width) :
    Fills scope.Sees Reads (lower scope site e w none) :=
  (Tails.lower scope site e w).fills

end

end GateSynth.Verilog.Elaborate
