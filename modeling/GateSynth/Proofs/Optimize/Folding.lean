import GateSynth.Optimize.Folding
import GateSynth.Proofs.Optimize.Weights
import GateSynth.Proofs.Simulation.Operators

/-!
# Folded nodes

Folding gives a node fewer fanins of those that it had and makes it a literal, a buffer or an
inverter (`fold_lighter`). So the netlist stays in order and gets lighter with every change
(`foldConstants_preserved`, `foldConstants_cost`), and without `strict` the pass always succeeds.

A node is changed twice at most, whatever the netlist looks like, so the sweeps end
(`foldSweeps_induct`) and the last one leaves nothing to fold (`FoldsOn.exhausted`).
-/

namespace GateSynth

open Netlist

namespace Folding

variable {node : Node} {operands : List (Option Word)} {w : Width} {fanins : List Fanin}

/-! ## What folding makes of a node -/

/-- The fold makes a literal that fits, or a buffer or an inverter of one of the fanins. -/
def Fold.Simple (fanins : List Fanin) (w : Width) : Fold → Prop
  | .become kind used =>
    (∃ value, kind = .const value ∧ used = [] ∧ w.truncate value = value) ∨
      ∃ f ∈ fanins, (kind = .op .buf ∨ kind = .op .not) ∧ used = [f]
  | .keep | .divisionByZero => True

theorem truncate_mask (w : Width) : w.truncate w.mask = w.mask := by
  rw [Width.truncate, UInt64.and_self]

theorem Fold.simple_const {value : Word} (h : w.truncate value = value) :
    (Fold.const value).Simple fanins w :=
  .inl ⟨value, rfl, rfl, h⟩

theorem Fold.simple_buffer {f : Fanin} (h : f ∈ fanins) : (Fold.buffer f).Simple fanins w :=
  .inr ⟨f, h, .inl rfl, rfl⟩

theorem Fold.simple_inverter {f : Fanin} (h : f ∈ fanins) : (Fold.inverter f).Simple fanins w :=
  .inr ⟨f, h, .inr rfl, rfl⟩

theorem commutativeFold_simple (op : Operator) (w : Width) (c : Word) {x : Fanin}
    (hx : x ∈ fanins) : (commutativeFold op w c x).Simple fanins w := by
  have hzero : (Fold.const 0).Simple fanins w := Fold.simple_const w.truncate_zero
  have hones : (Fold.const w.mask).Simple fanins w := Fold.simple_const (truncate_mask w)
  have hbuffer := Fold.simple_buffer (w := w) hx
  have hinverter := Fold.simple_inverter (w := w) hx
  cases op <;> simp only [commutativeFold] <;> first | trivial | skip
  all_goals repeat' split
  all_goals first | assumption | trivial

theorem splitConst_mem {c : Word} {x : Fanin} (h : splitConst fanins operands = some (c, x)) :
    x ∈ fanins := by
  unfold splitConst at h
  split at h
  · cases h
    exact .tail _ (.head _)
  · cases h
    exact .head _
  · cases h

theorem partialFold_simple (op : Operator) (fanins : List Fanin) (operands : List (Option Word))
    (w : Width) : (partialFold op fanins operands w).Simple fanins w := by
  unfold partialFold
  split
  · split
    · split
      · exact Fold.simple_buffer (.head _)
      · trivial
    · trivial
  · split
    · split
      · trivial
      · split
        · exact Fold.simple_buffer (.head _)
        · trivial
    · trivial
  · split
    · refine Fold.simple_buffer ?_
      split
      · exact .head _
      · exact .tail _ (.head _)
    · split
      · exact Fold.simple_buffer (.head _)
      · trivial
    · trivial
  · trivial
  · trivial
  · split
    · next h => exact commutativeFold_simple _ w _ (splitConst_mem h)
    · trivial

/-- Operators are folded, of which a buffer or an inverter becomes nothing but a literal, and
literals that have fanins. -/
theorem fold_cases {kind : Kind} {used : List Fanin} (h : fold node operands w = .become kind used) :
    (∃ op, node.kind = .op op ∧ (Fold.become kind used).Simple node.fanins w ∧
      (op = .buf ∨ op = .not → ∃ value, kind = .const value)) ∨
    (∃ old, node.kind = .const old) ∧ node.fanins ≠ [] ∧ ∃ value, kind = .const value ∧ used = [] := by
  rw [fold] at h
  split at h
  · next hall =>
    simp only [Bool.and_eq_true, Bool.not_eq_true', List.isEmpty_eq_false_iff] at hall
    cases hkind : node.kind with
    | op op =>
      simp only [hkind, Kind.apply] at h
      rcases op.apply_eq (operands.filterMap id) w with hok | ⟨herror, -⟩
      · rw [hok] at h
        cases h
        exact .inl ⟨op, rfl, Fold.simple_const (op.truncate_value _ _), fun _ => ⟨_, rfl⟩⟩
      · rw [herror] at h
        cases h
    | const value =>
      simp only [hkind, Kind.apply] at h
      cases h
      exact .inr ⟨⟨value, rfl⟩, hall.1.1, _, rfl, rfl⟩
    | module name =>
      simp only [hkind, Kind.apply] at h
      cases h
    | cell name init =>
      rw [hkind] at hall
      cases hall.1.2
  · split at h
    · next op hkind =>
      have hsimple := partialFold_simple op node.fanins operands w
      rw [h] at hsimple
      refine .inl ⟨op, hkind, hsimple, ?_⟩
      rintro (rfl | rfl) <;> cases h
    · cases h

/-- Of nodes with the right number of fanins only operators are folded. -/
theorem fold_become (harity : ∀ k, node.kind.arity? = some k → k = node.fanins.length)
    {kind : Kind} {used : List Fanin} (h : fold node operands w = .become kind used) :
    ∃ op, node.kind = .op op ∧ (Fold.become kind used).Simple node.fanins w ∧
      (op = .buf ∨ op = .not → ∃ value, kind = .const value) := by
  refine (fold_cases h).resolve_right ?_
  rintro ⟨⟨value, hkind⟩, hsome, -⟩
  have hlen := harity 0 (by rw [hkind]; rfl)
  exact hsome (List.length_eq_zero_iff.1 hlen.symm)

/-- The arity of what a node becomes is right, and it reads nothing new. -/
theorem Fold.Simple.arity {kind : Kind} {used : List Fanin}
    (h : (Fold.become kind used).Simple fanins w) :
    (∀ k, kind.arity? = some k → k = used.length) ∧ used ⊆ fanins := by
  rcases h with ⟨value, rfl, rfl, -⟩ | ⟨f, hf, hkind, rfl⟩
  · refine ⟨fun k hk => ?_, List.nil_subset _⟩
    cases hk
    rfl
  · refine ⟨fun k hk => ?_, List.cons_subset.2 ⟨hf, List.nil_subset _⟩⟩
    rcases hkind with rfl | rfl
    · cases hk
      rfl
    · cases hk
      rfl

/-- What a node becomes has the right number of fanins. -/
theorem fold_arity {kind : Kind} {used : List Fanin}
    (h : fold node operands w = .become kind used) :
    ∀ k, kind.arity? = some k → k = used.length := by
  rcases fold_cases h with ⟨op, -, hsimple, -⟩ | ⟨-, -, value, rfl, rfl⟩
  · exact hsimple.arity.1
  · rintro k hk
    cases hk
    rfl

/-- A folded node is lighter. -/
theorem fold_lighter {n : Netlist}
    (harity : ∀ k, node.kind.arity? = some k → k = node.fanins.length) {kind : Kind}
    {used : List Fanin} (h : fold node operands (n.width node.output) = .become kind used) :
    n.weight { node with kind, fanins := used } < n.weight node := by
  obtain ⟨op, hop, hsimple, hliteral⟩ := fold_become harity h
  have hold : 2 ≤ n.weight node := by
    rw [weight, hop]
    cases op <;> simp
    split <;> omega
  rcases hsimple with ⟨value, rfl, rfl, hfits⟩ | ⟨f, -, hkind, rfl⟩
  · have hnew : n.weight { node with kind := .const value, fanins := [] } = 1 := if_pos hfits
    omega
  · have hnew : n.weight { node with kind, fanins := [f] } ≤ 3 := by
      rcases hkind with rfl | rfl
      · simp only [weight]
        split <;> omega
      · exact Nat.le_refl 3
    have hfour : n.weight node = 4 := by
      rw [weight, hop]
      cases op with
      | buf =>
        obtain ⟨value, rfl⟩ := hliteral (.inl rfl)
        rcases hkind with hkind | hkind <;> cases hkind
      | not =>
        obtain ⟨value, rfl⟩ := hliteral (.inr rfl)
        rcases hkind with hkind | hkind <;> cases hkind
      | _ => rfl
    omega

/-- How often a node of this kind and with these fanins can still be changed. -/
def changesLeft (kind : Kind) (fanins : List Fanin) : Nat :=
  match kind with
  | .op .buf | .op .not => 1
  | .op _ => 2
  | .const _ => if fanins = [] then 0 else 1
  | _ => 0

/-- How many changes there can still be. -/
def slack (n : Netlist) : Nat := (n.nodes.map fun node => changesLeft node.kind node.fanins).sum

theorem changesLeft_lt {kind : Kind} {used : List Fanin}
    (h : fold node operands w = .become kind used) :
    changesLeft kind used < changesLeft node.kind node.fanins := by
  rcases fold_cases h with ⟨op, hop, hsimple, hliteral⟩ | ⟨⟨old, hold⟩, hsome, value, rfl, rfl⟩
  · rw [hop]
    rcases hsimple with ⟨value, rfl, rfl, -⟩ | ⟨f, -, hkind, -⟩
    · cases op <;> exact Nat.succ_pos _
    · have hone : changesLeft kind used = 1 := by rcases hkind with rfl | rfl <;> rfl
      have hnot : ¬ ∃ value, kind = .const value := by
        rintro ⟨value, rfl⟩
        rcases hkind with hkind | hkind <;> cases hkind
      rw [hone]
      cases op with
      | buf => exact absurd (hliteral (.inl rfl)) hnot
      | not => exact absurd (hliteral (.inr rfl)) hnot
      | _ => exact Nat.lt_succ_self 1
  · rw [hold, changesLeft, changesLeft, if_pos rfl, if_neg hsome]
    exact Nat.one_pos

/-! ## Visiting nodes -/

/-- Folding changes the node into one of this kind with these fanins. -/
def Becomes (n : Netlist) (node : Node) (kind : Kind) (used : List Fanin) : Prop :=
  fold node (node.fanins.map (constOperand n)) (n.width node.output) = .become kind used

section Visits
variable {n : Netlist} {s : State} {id : NodeId} {kind : Kind} {used : List Fanin} {strict : Bool}

/-- A node that becomes something can be replaced by it. -/
theorem Becomes.replaceNode_eq (h : Becomes n node kind used) (hnode : n.node? id = some node) :
    n.replaceNode id kind used = .ok (n.updateNode id kind used) :=
  Netlist.replaceNode_eq hnode (fold_arity h)

/-- What a visit does: it changes the node in place, or it leaves the netlist alone. -/
theorem visit_cases (strict : Bool) (s : State) (id : NodeId) :
    (∃ node kind used, s.netlist.node? id = some node ∧ Becomes s.netlist node kind used ∧
        (s.visit strict id).1.netlist = s.netlist.updateNode id kind used ∧
        (s.visit strict id).1.changed = s.changed + 1) ∨
      (s.visit strict id).1.netlist = s.netlist ∧ (s.visit strict id).1.changed = s.changed ∧
        ∀ node kind used, s.netlist.node? id = some node → Becomes s.netlist node kind used →
          kind = node.kind ∧ used = node.fanins := by
  unfold State.visit
  split
  · next hnone =>
    refine .inr ⟨rfl, rfl, fun node kind used hnode => ?_⟩
    rw [hnone] at hnode
    cases hnode
  · next node hnode =>
    dsimp only
    split
    · next hfold =>
      refine .inr ⟨rfl, rfl, fun m kind used hm hbecomes => ?_⟩
      rw [hnode] at hm
      cases hm
      rw [Becomes, hfold] at hbecomes
      cases hbecomes
    · next kind used hfold =>
      split
      · next hsame =>
        refine .inr ⟨rfl, rfl, fun m kind' used' hm hbecomes => ?_⟩
        rw [hnode] at hm
        cases hm
        rw [Becomes, hfold] at hbecomes
        cases hbecomes
        exact hsame
      · have hbecomes : Becomes s.netlist node kind used := hfold
        rw [hbecomes.replaceNode_eq hnode]
        exact .inl ⟨node, kind, used, hnode, hbecomes, rfl, rfl⟩
    · next hfold =>
      have hnever : ∀ m kind used, s.netlist.node? id = some m → Becomes s.netlist m kind used →
          kind = m.kind ∧ used = m.fanins := by
        intro m kind used hm hbecomes
        rw [hnode] at hm
        cases hm
        rw [Becomes, hfold] at hbecomes
        cases hbecomes
      split
      · exact .inr ⟨rfl, rfl, hnever⟩
      · exact .inr ⟨rfl, rfl, hnever⟩

/-- Where there is a node, only a division by zero ends the pass, and only with `strict`. -/
theorem visit_error {e : OptError} (hthere : (s.netlist.node? id).isSome)
    (h : (s.visit strict id).2 = some e) : strict = true ∧ ∃ error, e = .fold error := by
  unfold State.visit at h
  split at h
  · next hnone =>
    rw [hnone] at hthere
    cases hthere
  · next node hnode =>
    dsimp only at h
    split at h
    · cases h
    · next kind used hfold =>
      have hbecomes : Becomes s.netlist node kind used := hfold
      rw [hbecomes.replaceNode_eq hnode] at h
      split at h <;> cases h
    · split at h
      · next hstrict =>
        cases h
        exact ⟨hstrict, _, rfl⟩
      · cases h

/-- Every identifier is that of a node. -/
def AllThere (n : Netlist) (ids : List NodeId) : Prop := ∀ id ∈ ids, (n.node? id).isSome

theorem allThere_of_topoOrder (hc : n.Coherent) {order : List NodeId}
    (horder : n.topoOrder = .ok order) : AllThere n order := by
  intro id hid
  obtain ⟨m, hm, rfl⟩ := List.mem_map.1 ((hc.perm_of_topoOrder horder).mem_iff.1 hid)
  rw [hc.node?_of_mem hm]
  rfl

/-- A visit takes no node away. -/
theorem AllThere.visit {ids : List NodeId} (h : AllThere s.netlist ids) (strict : Bool)
    (id : NodeId) : AllThere (s.visit strict id).1.netlist ids := by
  intro other hother
  rcases visit_cases strict s id with ⟨node, kind, used, -, -, hnet, -⟩ | ⟨hnet, -, -⟩
  · rw [hnet, isSome_node?_updateNode]
    exact h other hother
  · rw [hnet]
    exact h other hother

/-- A visit takes as many changes off those that there can still be as it makes. -/
theorem slack_visit (strict : Bool) (s : State) (id : NodeId) :
    slack (s.visit strict id).1.netlist + (s.visit strict id).1.changed ≤
      slack s.netlist + s.changed := by
  rcases visit_cases strict s id with ⟨node, kind, used, hnode, hbecomes, hnet, hchanged⟩ |
    ⟨hnet, hchanged, -⟩
  · obtain ⟨before, after, hnodes, -, hupdate⟩ := exists_split hnode
    have hlt := changesLeft_lt hbecomes
    rw [hnet, hchanged, slack, slack, hupdate, hnodes]
    simp only [List.map_append, List.map_cons, List.sum_append, List.sum_cons]
    omega
  · rw [hnet, hchanged]

theorem slack_visitAll (strict : Bool) (order : List NodeId) (s : State) :
    slack (s.visitAll strict order).1.netlist + (s.visitAll strict order).1.changed ≤
      slack s.netlist + s.changed := by
  induction order generalizing s with
  | nil => exact Nat.le_refl _
  | cons id rest ih =>
    have hvisit := slack_visit strict s id
    rw [State.visitAll]
    split
    · next s' heq =>
      rw [heq] at hvisit
      exact (ih s').trans hvisit
    · exact hvisit

end Visits

/-! ## The loop -/

section Loop
variable {n : Netlist} {strict : Bool} {errors : Table NodeId FoldError} {order : List NodeId}
  {s : State}

theorem foldSweeps_of_unordered {e : NetlistError} (h : n.topoOrder = .error e) (changes : Nat) :
    n.foldSweeps strict errors changes = (n, .error (.structural .constprop e)) := by
  rw [Netlist.foldSweeps, h]

theorem foldSweeps_of_stopped {error : OptError} (h : n.topoOrder = .ok order)
    (hvisits : State.visitAll strict order ⟨n, errors, 0⟩ = (s, some error)) (changes : Nat) :
    n.foldSweeps strict errors changes = (s.netlist, .error error) := by
  rw [Netlist.foldSweeps, h]
  dsimp only
  rw [hvisits]

theorem foldSweeps_of_last (h : n.topoOrder = .ok order)
    (hvisits : State.visitAll strict order ⟨n, errors, 0⟩ = (s, none)) (hnone : s.changed = 0)
    (changes : Nat) :
    n.foldSweeps strict errors changes = (s.netlist, .ok ⟨changes, s.errors.values⟩) := by
  rw [Netlist.foldSweeps, h]
  dsimp only
  rw [hvisits]
  exact if_pos hnone

theorem foldSweeps_of_more (h : n.topoOrder = .ok order)
    (hvisits : State.visitAll strict order ⟨n, errors, 0⟩ = (s, none)) (hsome : s.changed ≠ 0)
    (changes : Nat) :
    n.foldSweeps strict errors changes =
      s.netlist.foldSweeps strict s.errors (changes + s.changed) := by
  rw [Netlist.foldSweeps, h]
  dsimp only
  rw [hvisits]
  exact if_neg hsome

/-- The loop ends on every netlist: the nodes cannot be ordered, or a sweep stops, or a sweep
changes nothing; and there are sweeps before it that change something. -/
@[elab_as_elim]
theorem foldSweeps_induct (strict : Bool) {motive : Netlist → Table NodeId FoldError → Nat → Prop}
    (unordered : ∀ n errors changes e, n.topoOrder = .error e → motive n errors changes)
    (stopped : ∀ n errors changes order s error, n.topoOrder = .ok order →
      State.visitAll strict order ⟨n, errors, 0⟩ = (s, some error) → motive n errors changes)
    (last : ∀ n errors changes order s, n.topoOrder = .ok order →
      State.visitAll strict order ⟨n, errors, 0⟩ = (s, none) → s.changed = 0 →
      motive n errors changes)
    (more : ∀ n errors changes order s, n.topoOrder = .ok order →
      State.visitAll strict order ⟨n, errors, 0⟩ = (s, none) → s.changed ≠ 0 →
      motive s.netlist s.errors (changes + s.changed) → motive n errors changes)
    (n : Netlist) (errors : Table NodeId FoldError) (changes : Nat) :
    motive n errors changes := by
  induction hslack : slack n using Nat.strongRecOn generalizing n errors changes with
  | _ size ih =>
    cases horder : n.topoOrder with
    | error e => exact unordered n errors changes e horder
    | ok order =>
      have hless := slack_visitAll strict order ⟨n, errors, 0⟩
      obtain ⟨⟨s, stop⟩, hvisits⟩ :
          ∃ visited, State.visitAll strict order ⟨n, errors, 0⟩ = visited := ⟨_, rfl⟩
      rw [hvisits] at hless
      dsimp only at hless
      cases stop with
      | some error => exact stopped n errors changes order s error horder hvisits
      | none =>
        by_cases hnone : s.changed = 0
        · exact last n errors changes order s horder hvisits hnone
        · exact more n errors changes order s horder hvisits hnone
            (ih (slack s.netlist) (by omega) s.netlist s.errors _ rfl)

end Loop

theorem Becomes.legal {n : Netlist} {kind : Kind} {used : List Fanin} (hl : n.Legal)
    (hc : n.Coherent) (hm : node ∈ n.nodes) (h : Becomes n node kind used) :
    (n.updateNode node.id kind used).Legal := by
  obtain ⟨op, -, hsimple, -⟩ := fold_become (hl.arity node hm) h
  obtain ⟨harity, hsub⟩ := hsimple.arity
  exact hl.updateNode_of_subset hc hm harity hsub

/-! ## Sweeps -/

section Sweeps
variable {n : Netlist} {strict : Bool} {P : Netlist → Nat → Prop}

/-- A statement about a netlist and the number of changes that every change keeps. -/
def KeptByChanges (P : Netlist → Nat → Prop) : Prop :=
  ∀ ⦃m c node kind used⦄, m.Coherent → m.Legal → P m c → node ∈ m.nodes →
    Becomes m node kind used → P (m.updateNode node.id kind used) (c + 1)

/-- The netlist is in order and the statement holds of it. -/
structure Holds (P : Netlist → Nat → Prop) (m : Netlist) (c : Nat) : Prop where
  coherent : m.Coherent
  legal : m.Legal
  holds : P m c

theorem visit_holds (hstep : KeptByChanges P) {s : State} {c : Nat}
    (h : Holds P s.netlist (c + s.changed)) (id : NodeId) :
    Holds P (s.visit strict id).1.netlist (c + (s.visit strict id).1.changed) := by
  rcases visit_cases strict s id with ⟨node, kind, used, hnode, hbecomes, hnet, hchanged⟩ |
    ⟨hnet, hchanged, -⟩
  · obtain ⟨hm, rfl⟩ := h.coherent.node?_eq_some_iff.1 hnode
    rw [hnet, hchanged]
    exact ⟨h.coherent.updateNode _ _ _, hbecomes.legal h.legal h.coherent hm,
      hstep h.coherent h.legal h.holds hm hbecomes⟩
  · rw [hnet, hchanged]
    exact h

theorem visitAll_holds (hstep : KeptByChanges P) {order : List NodeId} {s : State} {c : Nat}
    (h : Holds P s.netlist (c + s.changed)) :
    Holds P (s.visitAll strict order).1.netlist (c + (s.visitAll strict order).1.changed) := by
  induction order generalizing s with
  | nil => exact h
  | cons id rest ih =>
    have hvisit : Holds P (s.visit strict id).1.netlist (c + (s.visit strict id).1.changed) :=
      visit_holds hstep h id
    rw [State.visitAll]
    split
    · next s' heq =>
      rw [heq] at hvisit
      exact ih hvisit
    · exact hvisit

/-- A sweep leaves the netlist in order, also where it stops. -/
theorem inOrder_of_visitAll {errors : Table NodeId FoldError} {order : List NodeId} {s : State}
    {stop : Option OptError} (hc : n.Coherent) (hl : n.Legal)
    (hvisits : State.visitAll strict order ⟨n, errors, 0⟩ = (s, stop)) :
    s.netlist.Coherent ∧ s.netlist.Legal := by
  have hkept : Holds (fun _ _ => True) (State.visitAll strict order ⟨n, errors, 0⟩).1.netlist
      (0 + (State.visitAll strict order ⟨n, errors, 0⟩).1.changed) :=
    visitAll_holds (fun _ _ _ _ _ _ _ _ _ _ => trivial) ⟨hc, hl, trivial⟩
  rw [hvisits] at hkept
  exact ⟨hkept.coherent, hkept.legal⟩

/-- What every change keeps holds at the end of the pass. -/
theorem foldSweeps_holds (hstep : KeptByChanges P) {c : Nat} {errors : Table NodeId FoldError}
    (h : Holds P n c) :
    ∃ c', Holds P (n.foldSweeps strict errors c).1 c' ∧
      ∀ outcome, (n.foldSweeps strict errors c).2 = .ok outcome → outcome.changes = c' := by
  have hall : ∀ {n c errors order s stop}, Holds P n c →
      State.visitAll strict order ⟨n, errors, 0⟩ = (s, stop) → Holds P s.netlist (c + s.changed) := by
    intro n c errors order s stop h hvisits
    have hkept : Holds P (State.visitAll strict order ⟨n, errors, 0⟩).1.netlist
        (c + (State.visitAll strict order ⟨n, errors, 0⟩).1.changed) := visitAll_holds hstep h
    rwa [hvisits] at hkept
  induction n, errors, c using foldSweeps_induct strict with
  | unordered n errors c e horder =>
    rw [foldSweeps_of_unordered horder]
    exact ⟨c, h, fun outcome houtcome => by cases houtcome⟩
  | stopped n errors c order s error horder hvisits =>
    rw [foldSweeps_of_stopped horder hvisits]
    exact ⟨_, hall h hvisits, fun outcome houtcome => by cases houtcome⟩
  | last n errors c order s horder hvisits hnone =>
    rw [foldSweeps_of_last horder hvisits hnone]
    have hend := hall h hvisits
    rw [hnone] at hend
    refine ⟨c, hend, fun outcome houtcome => ?_⟩
    cases houtcome
    rfl
  | more n errors c order s horder hvisits hsome ih =>
    rw [foldSweeps_of_more horder hvisits hsome]
    exact ih (hall h hvisits)

theorem visitAll_error {order : List NodeId} {s : State} {e : OptError}
    (hthere : AllThere s.netlist order) (h : (s.visitAll strict order).2 = some e) :
    strict = true ∧ ∃ error, e = .fold error := by
  induction order generalizing s with
  | nil => cases h
  | cons id rest ih =>
    have hrest : AllThere s.netlist rest := fun other hother => hthere other (.tail _ hother)
    have hkept := hrest.visit strict id
    rw [State.visitAll] at h
    split at h
    · next s' hvisit =>
      rw [hvisit] at hkept
      exact ih hkept h
    · exact visit_error (hthere id (.head _)) h

/-- Without `strict` nothing ends a sweep. -/
theorem visitAll_lenient {order : List NodeId} {s : State} (hthere : AllThere s.netlist order) :
    (s.visitAll false order).2 = none :=
  Option.eq_none_iff_forall_ne_some.2 fun _ h => Bool.false_ne_true (visitAll_error hthere h).1

theorem visit_lenient {s : State} {id : NodeId} (hthere : (s.netlist.node? id).isSome) :
    (s.visit false id).2 = none :=
  Option.eq_none_iff_forall_ne_some.2 fun _ h => Bool.false_ne_true (visit_error hthere h).1

theorem visitAll_cons {s : State} {id : NodeId} (hthere : (s.netlist.node? id).isSome)
    (rest : List NodeId) :
    s.visitAll false (id :: rest) = (s.visit false id).1.visitAll false rest := by
  have hlenient := visit_lenient hthere
  rw [State.visitAll]
  generalize s.visit false id = visited at hlenient ⊢
  obtain ⟨s', stop⟩ := visited
  cases hlenient
  rfl

/-- Only divisions by zero end the pass, and only with `strict`. -/
theorem foldSweeps_error {c : Nat} {errors : Table NodeId FoldError} {e : OptError}
    (hc : n.Coherent) (hl : n.Legal) (h : (n.foldSweeps strict errors c).2 = .error e) :
    strict = true ∧ ∃ error, e = .fold error := by
  induction n, errors, c using foldSweeps_induct strict with
  | unordered n errors c e horder =>
    obtain ⟨order, hordered⟩ := hl.topoOrder hc
    cases horder.symm.trans hordered
  | stopped n errors c order s error horder hvisits =>
    rw [foldSweeps_of_stopped horder hvisits] at h
    cases h
    exact visitAll_error (s := ⟨n, errors, 0⟩) (allThere_of_topoOrder hc horder)
      (congrArg Prod.snd hvisits)
  | last n errors c order s horder hvisits hnone =>
    rw [foldSweeps_of_last horder hvisits hnone] at h
    cases h
  | more n errors c order s horder hvisits hsome ih =>
    obtain ⟨hc', hl'⟩ := inOrder_of_visitAll hc hl hvisits
    rw [foldSweeps_of_more horder hvisits hsome] at h
    exact ih hc' hl' h

theorem changed_le_visitAll (strict : Bool) (order : List NodeId) (s : State) :
    s.changed ≤ (s.visitAll strict order).1.changed := by
  induction order generalizing s with
  | nil => exact Nat.le_refl _
  | cons id rest ih =>
    have hvisit : s.changed ≤ (s.visit strict id).1.changed := by
      rcases visit_cases strict s id with ⟨-, -, -, -, -, -, hchanged⟩ | ⟨-, hchanged, -⟩
      · omega
      · omega
    rw [State.visitAll]
    split
    · next s' heq =>
      rw [heq] at hvisit
      exact hvisit.trans (ih s')
    · exact hvisit

/-- A sweep without changes finds nothing to fold. -/
theorem visitAll_settled {order : List NodeId} {s : State} (hthere : AllThere s.netlist order)
    (h : (s.visitAll false order).1.changed = s.changed) {id : NodeId} (hid : id ∈ order)
    (hnode : s.netlist.node? id = some node) {kind : Kind} {used : List Fanin}
    (hbecomes : Becomes s.netlist node kind used) : kind = node.kind ∧ used = node.fanins := by
  induction order generalizing s with
  | nil => cases hid
  | cons first rest ih =>
    have hrest : AllThere s.netlist rest := fun other hother => hthere other (.tail _ hother)
    rw [visitAll_cons (hthere first (.head _))] at h
    have hle := changed_le_visitAll false rest (s.visit false first).1
    rcases visit_cases false s first with ⟨-, -, -, -, -, -, hchanged⟩ | ⟨hnet, hchanged, hsame⟩
    · omega
    · rcases List.mem_cons.1 hid with rfl | hid
      · exact hsame node kind used hnode hbecomes
      · exact ih (hrest.visit false first) (by omega) hid (hnet ▸ hnode) (hnet ▸ hbecomes)

/-- If a sweep changes nothing, there is nothing to fold. -/
theorem not_becomes_of_visitAll {errors : Table NodeId FoldError} (hc : n.Coherent) (hl : n.Legal)
    {order : List NodeId} (horder : n.topoOrder = .ok order)
    (h : (State.visitAll false order ⟨n, errors, 0⟩).1.changed = 0) (hm : node ∈ n.nodes)
    {kind : Kind} {used : List Fanin} : ¬ Becomes n node kind used := by
  intro hbecomes
  have hmem : node.id ∈ order := (hc.perm_of_topoOrder horder).mem_iff.2 (List.mem_map_of_mem hm)
  obtain ⟨rfl, rfl⟩ : kind = node.kind ∧ used = node.fanins :=
    visitAll_settled (s := ⟨n, errors, 0⟩) (allThere_of_topoOrder hc horder) h hmem
      (hc.node?_of_mem hm) hbecomes
  exact Nat.lt_irrefl _ (fold_lighter (hl.arity node hm) hbecomes)

theorem keptByChanges_le (least : Nat) : KeptByChanges fun _ c => least ≤ c :=
  fun _ _ _ _ _ _ _ h _ _ => Nat.le_succ_of_le h

theorem keptByChanges_same (n : Netlist) : KeptByChanges fun m c => c = 0 → m = n :=
  fun _ _ _ _ _ _ _ _ _ _ h => absurd h (Nat.succ_ne_zero _)

/-- A pass without changes ends with its first sweep. -/
theorem foldSweeps_settled {c : Nat} {errors : Table NodeId FoldError} (hc : n.Coherent)
    (hl : n.Legal) {order : List NodeId} (horder : n.topoOrder = .ok order) {outcome : PassOutcome}
    (h : (n.foldSweeps false errors c).2 = .ok outcome) (hcount : outcome.changes = c) :
    (State.visitAll false order ⟨n, errors, 0⟩).1.changed = 0 := by
  have hkept : Holds (fun _ c' => c ≤ c') (State.visitAll false order ⟨n, errors, 0⟩).1.netlist
      (c + (State.visitAll false order ⟨n, errors, 0⟩).1.changed) :=
    visitAll_holds (keptByChanges_le c) ⟨hc, hl, Nat.le_refl c⟩
  have hnone := visitAll_lenient (s := ⟨n, errors, 0⟩) (allThere_of_topoOrder hc horder)
  obtain ⟨⟨s, stop⟩, hvisits⟩ :
      ∃ visited, State.visitAll false order ⟨n, errors, 0⟩ = visited := ⟨_, rfl⟩
  rw [hvisits] at hkept hnone ⊢
  cases hnone
  by_contra hsome
  -- Later sweeps only add to the changes of the first.
  have hstart : Holds (fun _ c' => c + s.changed ≤ c') s.netlist (c + s.changed) :=
    ⟨hkept.coherent, hkept.legal, Nat.le_refl _⟩
  rw [foldSweeps_of_more horder hvisits hsome] at h
  obtain ⟨c', hc', hchanges⟩ := foldSweeps_holds (keptByChanges_le _) hstart
  have hle := hc'.holds
  rw [← hchanges outcome h, hcount] at hle
  dsimp only at hsome
  omega

end Sweeps

/-! ## Without strict mode -/

/-- Sweeping on for as long as something changes, with no bound on the sweeps, ends with a netlist
and an outcome. The divisions by zero and the changes so far go along. -/
inductive FoldsOn : Netlist → Table NodeId FoldError → Nat → Netlist → PassOutcome → Prop
  | last {n : Netlist} {errors : Table NodeId FoldError} {changes : Nat} {order : List NodeId}
      {s : State} (horder : n.topoOrder = .ok order)
      (hvisit : State.visitAll false order ⟨n, errors, 0⟩ = (s, none)) (hnone : s.changed = 0) :
      FoldsOn n errors changes s.netlist ⟨changes, s.errors.values⟩
  | more {n n' : Netlist} {errors : Table NodeId FoldError} {changes : Nat} {order : List NodeId}
      {s : State} {outcome : PassOutcome} (horder : n.topoOrder = .ok order)
      (hvisit : State.visitAll false order ⟨n, errors, 0⟩ = (s, none)) (hsome : s.changed ≠ 0)
      (hrest : FoldsOn s.netlist s.errors (changes + s.changed) n' outcome) :
      FoldsOn n errors changes n' outcome

/-- On a netlist in order the loop does not stop. -/
theorem foldsOn_of_legal (errors : Table NodeId FoldError) (changes : Nat) {n : Netlist}
    (hc : n.Coherent) (hl : n.Legal) :
    ∃ n' outcome, FoldsOn n errors changes n' outcome ∧
      n.foldSweeps false errors changes = (n', .ok outcome) := by
  induction n, errors, changes using foldSweeps_induct false with
  | unordered n errors changes e horder =>
    obtain ⟨order, hordered⟩ := hl.topoOrder hc
    cases horder.symm.trans hordered
  | stopped n errors changes order s error horder hvisits =>
    have hnone := visitAll_lenient (s := ⟨n, errors, 0⟩) (allThere_of_topoOrder hc horder)
    rw [hvisits] at hnone
    cases hnone
  | last n errors changes order s horder hvisits hnone =>
    exact ⟨_, _, .last horder hvisits hnone, foldSweeps_of_last horder hvisits hnone changes⟩
  | more n errors changes order s horder hvisits hsome ih =>
    obtain ⟨hc', hl'⟩ := inOrder_of_visitAll hc hl hvisits
    obtain ⟨n', outcome, hon, hsweeps⟩ := ih hc' hl'
    refine ⟨n', outcome, .more horder hvisits hsome hon, ?_⟩
    rw [foldSweeps_of_more horder hvisits hsome, hsweeps]

/-- The last sweep leaves nothing to fold. -/
theorem FoldsOn.exhausted {n n' : Netlist} {errors : Table NodeId FoldError} {changes : Nat}
    {outcome : PassOutcome} (hon : FoldsOn n errors changes n' outcome) (hc : n.Coherent)
    (hl : n.Legal) (hm : node ∈ n'.nodes) {kind : Kind} {used : List Fanin} :
    ¬ Becomes n' node kind used := by
  induction hon with
  | @last n errors changes order s horder hvisits hnone =>
    have hsame : Holds (fun m c => c = 0 → m = n)
        (State.visitAll false order ⟨n, errors, 0⟩).1.netlist
        (0 + (State.visitAll false order ⟨n, errors, 0⟩).1.changed) :=
      visitAll_holds (keptByChanges_same n) ⟨hc, hl, fun _ => rfl⟩
    have hstill : (State.visitAll false order ⟨n, errors, 0⟩).1.changed = 0 := by
      rw [hvisits]
      exact hnone
    rw [hvisits, Nat.zero_add] at hsame
    rw [hsame.holds hnone] at hm ⊢
    exact not_becomes_of_visitAll hc hl horder hstill hm
  | more horder hvisits hsome hrest ih =>
    obtain ⟨hc', hl'⟩ := inOrder_of_visitAll hc hl hvisits
    exact ih hc' hl' hm

/-! ## Constant ports -/

section Ports
variable {n : Netlist} {value : Word} {port source : String}

/-- A buffer of a literal that fits becomes the literal. -/
theorem fold_buffer (hkind : node.kind = .op .buf) (hfanins : node.fanins = [.plain source])
    (hfits : w.truncate value = value) :
    fold node [some value] w = .become (.const value) [] := by
  have happly : Kind.apply (.op .buf) [value] w = .ok value := by
    simp only [Kind.apply, Operator.apply, Operator.raw, operand, List.getElem?_cons_zero,
      Option.getD_some, Except.map, hfits]
  simp [fold, hkind, hfanins, Kind.isGeneric, happly, Fold.const]

theorem constOperand_literal (hl : n.Legal) (hm : node ∈ n.nodes) (hkind : node.kind = .const value)
    (hfits : (n.width node.output).truncate value = value) :
    constOperand n (.plain node.output) = some value := by
  simp only [constOperand, Fanin.plain, driverNode?_of_mem hl.single hm, Option.bind_eq_bind,
    Option.bind_some, hkind, Kind.constValue?, Bool.false_eq_true, if_false, hfits]
  rfl

theorem constOperand_buffer (hl : n.Legal) (hm : node ∈ n.nodes) (hkind : node.kind = .op .buf) :
    constOperand n (.plain node.output) = none := by
  simp only [constOperand, Fanin.plain, driverNode?_of_mem hl.single hm, Option.bind_eq_bind,
    Option.bind_some, hkind, Kind.constValue?, Option.bind_none]

/-- A constant port is a literal, or there is a buffer to fold. -/
theorem becomes_of_constantPort (hl : n.Legal) (h : ConstantPort n value w port) :
    (∃ node ∈ n.nodes, node.kind = .const value ∧ node.output = port) ∨
      ∃ node ∈ n.nodes, Becomes n node (.const value) [] := by
  induction h with
  | literal hm hkind _ _ _ => exact .inl ⟨_, hm, hkind, rfl⟩
  | @buffer node source hm hkind hfanins _ hwidth hsource ih =>
    rcases ih with ⟨d, hd, hdkind, rfl⟩ | hfound
    · refine .inr ⟨node, hm, ?_⟩
      have hfits : (n.width d.output).truncate value = value := by
        rw [hsource.width_eq, hsource.fits]
      rw [Becomes, hfanins, List.map_singleton, constOperand_literal hl hd hdkind hfits, hwidth]
      exact fold_buffer hkind hfanins hsource.fits
    · exact .inr hfound

/-- A constant port stays constant when a node is folded. -/
theorem Becomes.constantPort {kind : Kind} {used : List Fanin} (hl : n.Legal) (hc : n.Coherent)
    (hm : node ∈ n.nodes) (hbecomes : Becomes n node kind used)
    (h : ConstantPort n value w port) :
    ConstantPort (n.updateNode node.id kind used) value w port := by
  obtain ⟨op, hop, -, -⟩ := fold_become (hl.arity node hm) hbecomes
  induction h with
  | @literal m hmem hkind hout hwidth hfits =>
    refine .literal ((hc.mem_nodes_updateNode hm).2 (.inr ⟨hmem, fun hid => ?_⟩)) hkind hout hwidth
      hfits
    rw [hc.eq_of_id hmem hm hid, hop] at hkind
    cases hkind
  | @buffer m source hmem hkind hfanins hout hwidth hsource ih =>
    by_cases hid : m.id = node.id
    · have hsame := hc.eq_of_id hmem hm hid
      subst hsame
      -- The folded buffer reads a literal, so it becomes the same literal.
      have hliteral : kind = .const value := by
        rw [Becomes, hfanins, List.map_singleton, hwidth] at hbecomes
        cases hsource with
        | literal hd hdkind _ hdwidth hfits =>
          rw [constOperand_literal hl hd hdkind (by rw [hdwidth, hfits]),
            fold_buffer hkind hfanins hfits] at hbecomes
          cases hbecomes
          rfl
        | buffer hd hdkind _ _ _ _ =>
          rw [constOperand_buffer hl hd hdkind] at hbecomes
          simp [fold, hkind, partialFold] at hbecomes
      subst hliteral
      have hnew : { m with kind := .const value, fanins := used } ∈
          (n.updateNode m.id (.const value) used).nodes :=
        (hc.mem_nodes_updateNode hm).2 (.inl rfl)
      have hport := ConstantPort.literal hnew rfl hout hwidth hsource.fits
      exact hport
    · exact .buffer ((hc.mem_nodes_updateNode hm).2 (.inr ⟨hmem, hid⟩)) hkind hfanins hout hwidth ih

end Ports

end Folding

namespace Netlist

variable {n : Netlist} {strict : Bool} {outcome : PassOutcome}

open Folding

/-- What every change keeps holds of the netlist behind the pass. -/
theorem Legal.foldConstants_holds (hl : n.Legal) (hc : n.Coherent) (strict : Bool)
    {P : Netlist → Nat → Prop} (hstep : KeptByChanges P) (h : P n 0) :
    ∃ c, Holds P (n.foldConstants strict).1 c ∧
      ∀ outcome, (n.foldConstants strict).2 = .ok outcome → outcome.changes = c :=
  foldSweeps_holds hstep ⟨hc, hl, h⟩

/-- Without `strict` folding goes on for as long as something changes. -/
theorem Legal.foldConstants_foldsOn (hl : n.Legal) (hc : n.Coherent) :
    ∃ n' outcome, FoldsOn n Table.empty 0 n' outcome ∧
      n.foldConstants false = (n', .ok outcome) :=
  foldsOn_of_legal Table.empty 0 hc hl

theorem Legal.foldConstants_error (hl : n.Legal) (hc : n.Coherent) {e : OptError}
    (h : (n.foldConstants strict).2 = .error e) : strict = true ∧ ∃ error, e = .fold error :=
  foldSweeps_error hc hl h

/-- Without `strict` the pass succeeds. -/
theorem Legal.foldConstants_isOk (hl : n.Legal) (hc : n.Coherent) :
    ∃ outcome, (n.foldConstants false).2 = .ok outcome := by
  cases h : (n.foldConstants false).2 with
  | ok outcome => exact ⟨outcome, rfl⟩
  | error e => cases (hl.foldConstants_error hc h).1

/-- Folding keeps the netlist in order. -/
theorem Legal.foldConstants_preserved (hl : n.Legal) (hc : n.Coherent) :
    Preserved n (n.foldConstants strict).1 := by
  have hstep : KeptByChanges fun m _ => Preserved n m := by
    intro m c node kind used hmc hml h hm hbecomes
    exact h.trans ⟨hmc.updateNode _ _ _, hbecomes.legal hml hmc hm, rfl, rfl, rfl, fun _ _ => rfl,
      (hmc.nodeCount_updateNode _ _ _).le⟩
  obtain ⟨c, h, -⟩ := hl.foldConstants_holds hc strict hstep (.refl hc hl)
  exact h.holds

/-- Every change makes the netlist lighter. -/
theorem Legal.foldConstants_cost (hl : n.Legal) (hc : n.Coherent)
    (hok : (n.foldConstants strict).2 = .ok outcome) :
    (n.foldConstants strict).1.cost + outcome.changes ≤ n.cost := by
  have hstep : KeptByChanges fun m c => m.cost + c ≤ n.cost := by
    intro m c node kind used hmc hml h hm hbecomes
    have hlighter := fold_lighter (hml.arity node hm) hbecomes
    have hcost := hmc.cost_updateNode hm kind used
    omega
  obtain ⟨c, h, hcount⟩ := hl.foldConstants_holds hc strict hstep (Nat.le_refl _)
  rw [hcount outcome hok]
  exact h.holds

theorem Legal.foldConstants_of_count (hl : n.Legal) (hc : n.Coherent)
    (hok : (n.foldConstants strict).2 = .ok outcome) (hzero : outcome.changes = 0) :
    (n.foldConstants strict).1 = n := by
  obtain ⟨c, h, hcount⟩ := hl.foldConstants_holds hc strict (keptByChanges_same n) fun _ => rfl
  exact h.holds (by rw [← hcount outcome hok, hzero])

/-- A pass without changes finds nothing to fold. -/
theorem Legal.foldConstants_settled (hl : n.Legal) (hc : n.Coherent)
    (hok : (n.foldConstants false).2 = .ok outcome) (hzero : outcome.changes = 0) {node : Node}
    (hm : node ∈ n.nodes) {kind : Kind} {used : List Fanin} :
    ¬ Becomes n node kind used := by
  obtain ⟨order, horder⟩ := hl.topoOrder hc
  exact not_becomes_of_visitAll hc hl horder (foldSweeps_settled hc hl horder hok hzero) hm

theorem Legal.foldConstants_locked (hl : n.Legal) (hc : n.Coherent) (h : n.Locked) :
    (n.foldConstants strict).1.Locked := by
  have hstep : KeptByChanges fun m _ => m.Locked := by
    intro m c node kind used hmc hml h hm hbecomes
    exact h.imp fun value w port hport => hbecomes.constantPort hml hmc hm hport
  obtain ⟨c, h, -⟩ := hl.foldConstants_holds hc strict hstep h
  exact h.holds

end Netlist

end GateSynth
