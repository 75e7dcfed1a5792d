import GateSynth.Proofs.Optimize.FoldedCompletely

/-!
# Refused divisions

Folding refuses a node that divides by a constant zero (`refused_iff`), and it does so for good:
the node is never changed, and neither is the literal that it divides by (`Refused.updateNode`). In
strict mode the first such node ends the pass, otherwise it is listed and the pass goes on.

A visit that meets no such node is the same in both modes (`visit_modes`), so the two runs share
every state up to the first one (`visitAll_modes`, `FoldsOn.modes`). The last sweep of the other mode
changes nothing and visits all nodes, so what is listed in the end is what the netlist behind the
pass has of them (`FoldsOn.listed`). `foldConstants_modes` compares the two modes.
-/

namespace GateSynth

open Netlist

namespace Folding

variable {n : Netlist} {node : Node} {f : Fanin} {c : Word} {s : State}
  {errors : Table NodeId FoldError}

/-! ## Nodes that are refused -/

/-- The node divides by a fanin that reads as a constant zero. -/
def DividesByZero (n : Netlist) (node : Node) : Prop :=
  node.kind = .op .div ∧ ∃ x f, node.fanins = [x, f] ∧ Reads n f 0

/-- Folding refuses the node. -/
def Refused (n : Netlist) (node : Node) : Prop :=
  fold node (node.fanins.map (constOperand n)) (n.width node.output) = .divisionByZero

/-- The entry of a node that folding refuses. -/
def refusal (n : Netlist) (node : Node) : FoldError :=
  ⟨node.id, node.kind.tag, node.fanins.map (constOperand n)⟩

/-- Only literals are seen as constants. -/
theorem reads_of_constOperand (h : constOperand n f = some c) : Reads n f c := by
  obtain ⟨driver, hdriver, h⟩ := Option.bind_eq_some_iff.1 h
  obtain ⟨value, hvalue, h⟩ := Option.bind_eq_some_iff.1 h
  obtain ⟨hm, ho⟩ := driverNode?_eq_some hdriver
  have hkind : driver.kind = .const value := by
    cases hk : driver.kind <;> rw [hk] at hvalue <;> cases hvalue
    rfl
  exact ⟨driver, hm, ho, value, hkind, (Option.some.inj h).symm⟩

theorem commutativeFold_ne (op : Operator) (w : Width) (c : Word) (x : Fanin) :
    commutativeFold op w c x ≠ .divisionByZero := by
  cases op <;> simp only [commutativeFold]
  all_goals repeat' split
  all_goals exact fun h => by cases h

/-- Of the operators with an unknown operand only a division is refused, and only by zero. -/
theorem partialFold_eq_divisionByZero {fanins : List Fanin} {operands : List (Option Word)}
    {w : Width} (h : partialFold op fanins operands w = .divisionByZero) :
    op = .div ∧ ∃ x f first, fanins = [x, f] ∧ operands = [first, some 0] := by
  unfold partialFold at h
  split at h
  · split at h
    · split at h <;> cases h
    · cases h
  · split at h
    · next x f first c =>
      split at h
      · next hzero => exact ⟨rfl, x, f, first, rfl, by rw [hzero]⟩
      · split at h <;> cases h
    · cases h
  · split at h
    · cases h
    · split at h <;> cases h
    · cases h
  · cases h
  · cases h
  · split at h
    · exact absurd h (commutativeFold_ne _ _ _ _)
    · cases h

/-- With all operands known only a division is refused, and only by zero. -/
theorem dividesByZero_of_known (hl : n.Legal) (hm : node ∈ n.nodes)
    (hknown : (node.fanins.map (constOperand n)).all Option.isSome = true)
    (h : node.kind.apply ((node.fanins.map (constOperand n)).filterMap id) (n.width node.output) =
      .error .divisionByZero) : DividesByZero n node := by
  cases hkind : node.kind with
  | op op =>
    rw [hkind, Kind.apply] at h
    rcases apply_cases op ((node.fanins.map (constOperand n)).filterMap id)
      (n.width node.output) with ⟨value, hok⟩ | ⟨rfl, hzero⟩
    · rw [hok] at h
      cases h
    · have harity : 2 = node.fanins.length := hl.arity node hm _ (by rw [hkind]; rfl)
      obtain ⟨x, f, hfanins⟩ := List.length_eq_two.1 harity.symm
      rw [hfanins] at hknown hzero
      cases hx : constOperand n x with
      | none => simp [hx] at hknown
      | some a =>
        cases hf : constOperand n f with
        | none => simp [hf] at hknown
        | some b =>
          have hb : b = 0 := by simpa [hx, hf, operand] using hzero
          exact ⟨hkind, x, f, hfanins, reads_of_constOperand (hb ▸ hf)⟩
  | const value =>
    rw [hkind] at h
    cases h
  | module name =>
    rw [hkind] at h
    cases h
  | cell name init =>
    rw [hkind] at h
    cases h

/-- Folding refuses exactly the divisions by a constant zero. -/
theorem refused_iff (hl : n.Legal) (hm : node ∈ n.nodes) :
    Refused n node ↔ DividesByZero n node := by
  constructor
  · intro h
    rw [Refused, fold] at h
    split at h
    · next hall =>
      rw [Bool.and_eq_true] at hall
      split at h
      · cases h
      · next hzero => exact dividesByZero_of_known hl hm hall.2 hzero
      · cases h
    · split at h
      · next op hkind =>
        obtain ⟨rfl, x, f, first, hfanins, hoperands⟩ := partialFold_eq_divisionByZero h
        rw [hfanins, List.map_cons, List.map_singleton, List.cons.injEq, List.singleton_inj]
          at hoperands
        exact ⟨hkind, x, f, hfanins, reads_of_constOperand hoperands.2⟩
      · cases h
  · rintro ⟨hkind, x, f, hfanins, hreads⟩
    have hf := hreads.constOperand hl
    rw [Refused]
    cases hx : constOperand n x with
    | none =>
      rw [fold_of_unknown hkind (by simp [hfanins, hx]), hfanins, List.map_cons, List.map_singleton,
        hf]
      simp [partialFold]
    | some a =>
      simp [fold, hkind, hfanins, hx, hf, Kind.isGeneric, Kind.apply, Operator.apply, Operator.raw,
        operand, Except.map]

/-- What is refused is not what becomes something else, so it stays when another node is changed,
and so does the literal that it divides by. -/
theorem Refused.updateNode {m : Node} {kind : Kind} {used : List Fanin} (hl : n.Legal)
    (hc : n.Coherent) (hnode : node ∈ n.nodes) (h : Refused n node) (hm : m ∈ n.nodes)
    (hbecomes : Becomes n m kind used) :
    node ∈ (n.updateNode m.id kind used).nodes ∧ Refused (n.updateNode m.id kind used) node := by
  have hother : node.id ≠ m.id := by
    intro hid
    obtain rfl := hc.eq_of_id hnode hm hid
    rw [Becomes, h] at hbecomes
    cases hbecomes
  have hkept : node ∈ (n.updateNode m.id kind used).nodes :=
    (hc.mem_nodes_updateNode hm).2 (.inr ⟨hnode, hother⟩)
  obtain ⟨hkind, x, f, hfanins, driver, hd, ho, value, hliteral, hzero⟩ :=
    (refused_iff hl hnode).1 h
  obtain ⟨op, hop, -, -⟩ := fold_become (hl.arity m hm) hbecomes
  have hdriver : driver.id ≠ m.id := by
    intro hid
    rw [hc.eq_of_id hd hm hid, hop] at hliteral
    cases hliteral
  have hreads : Reads (n.updateNode m.id kind used) f 0 :=
    ⟨driver, (hc.mem_nodes_updateNode hm).2 (.inr ⟨hd, hdriver⟩), ho, value, hliteral, hzero⟩
  exact ⟨hkept, (refused_iff (hbecomes.legal hl hc hm) hkept).2 ⟨hkind, x, f, hfanins, hreads⟩⟩

/-! ## Both modes -/

/-- At a refused node strict mode stops and the other one lists it; any other node is the same to
both. -/
theorem visit_modes (hc : s.netlist.Coherent) (id : NodeId) :
    (∃ node ∈ s.netlist.nodes, node.id = id ∧ Refused s.netlist node ∧
      s.visit true id = (s, some (.fold (refusal s.netlist node))) ∧
      s.visit false id =
        ({ s with errors := s.errors.insert id (refusal s.netlist node) }, none)) ∨
      (∀ node ∈ s.netlist.nodes, node.id = id → ¬ Refused s.netlist node) ∧
        s.visit true id = s.visit false id ∧ (s.visit false id).1.errors = s.errors := by
  cases hnode : s.netlist.node? id with
  | none =>
    refine .inr ⟨fun node hm hid => ?_, ?_, ?_⟩
    · rw [hc.node?_eq_some_iff.2 ⟨hm, hid⟩] at hnode
      cases hnode
    · simp only [State.visit, hnode]
    · simp only [State.visit, hnode]
  | some node =>
    obtain ⟨hm, rfl⟩ := hc.node?_eq_some_iff.1 hnode
    by_cases hrefused : Refused s.netlist node
    · have hfold := hrefused
      rw [Refused] at hfold
      refine .inl ⟨node, hm, rfl, hrefused, ?_, ?_⟩
      · simp only [State.visit, hnode, hfold, if_true, refusal]
      · simp only [State.visit, hnode, hfold, Bool.false_eq_true, if_false, refusal]
    · refine .inr ⟨fun m hm' hid => hc.eq_of_id hm' hm hid ▸ hrefused, ?_⟩
      simp only [State.visit, hnode]
      split
      · exact ⟨rfl, rfl⟩
      · next kind used hfold =>
        have hbecomes : Becomes s.netlist node kind used := hfold
        rw [hbecomes.replaceNode_eq hnode]
        split <;> exact ⟨rfl, rfl⟩
      · next hfold => exact absurd hfold hrefused

/-- The netlist is in order and the list has refused nodes of it, each once. -/
structure Listed (n : Netlist) (errors : Table NodeId FoldError) : Prop where
  coherent : n.Coherent
  legal : n.Legal
  nodup : errors.keys.Nodup
  refused : ∀ {id error}, errors.find? id = some error →
    error.node = id ∧ ∃ node ∈ n.nodes, node.id = id ∧ Refused n node

theorem listed_empty (hc : n.Coherent) (hl : n.Legal) : Listed n Table.empty :=
  ⟨hc, hl, List.nodup_nil, fun h => by cases h⟩

/-- The entries name the nodes that they are listed under. -/
theorem Listed.map_node (h : Listed n errors) :
    errors.values.map FoldError.node = errors.keys := by
  rw [Table.values, Table.keys, List.map_map]
  refine List.map_congr_left fun e he => ?_
  exact (h.refused ((Table.find?_eq_some_iff h.nodup).2 he)).1

theorem Listed.insert (h : Listed n errors) (hm : node ∈ n.nodes) (hrefused : Refused n node) :
    Listed n (errors.insert node.id (refusal n node)) := by
  refine ⟨h.coherent, h.legal, Table.nodup_keys_insert h.nodup, fun {id error} hfind => ?_⟩
  rw [Table.find?_insert] at hfind
  split at hfind
  · next hid =>
    cases hfind
    exact ⟨hid.symm, node, hm, hid.symm, hrefused⟩
  · exact h.refused hfind

/-- A change leaves the list right. -/
theorem keptByChanges_listed (errors : Table NodeId FoldError) :
    KeptByChanges fun m _ => Listed m errors := by
  intro m c changed kind used hc hl h hm hbecomes
  refine ⟨hc.updateNode _ _ _, hbecomes.legal hl hc hm, h.nodup, fun {id error} hfind => ?_⟩
  obtain ⟨hnamed, node, hnode, hid, hrefused⟩ := h.refused hfind
  obtain ⟨hkept, hrefused⟩ := hrefused.updateNode hl hc hnode hm hbecomes
  exact ⟨hnamed, node, hkept, hid, hrefused⟩

theorem visit_listed (h : Listed s.netlist s.errors) (id : NodeId) :
    Listed (s.visit false id).1.netlist (s.visit false id).1.errors ∧
      s.errors.keys <+: (s.visit false id).1.errors.keys := by
  rcases visit_modes h.coherent id with ⟨node, hm, rfl, hrefused, -, hvisit⟩ | ⟨-, -, herrors⟩
  · rw [hvisit]
    exact ⟨h.insert hm hrefused, Table.keys_prefix_insert⟩
  · have hkept : Holds (fun m _ => Listed m s.errors) (s.visit false id).1.netlist
        (0 + (s.visit false id).1.changed) :=
      visit_holds (keptByChanges_listed _) ⟨h.coherent, h.legal, h⟩ id
    rw [herrors]
    exact ⟨hkept.holds, List.prefix_refl _⟩

theorem visitAll_listed (h : Listed s.netlist s.errors) (order : List NodeId) :
    Listed (s.visitAll false order).1.netlist (s.visitAll false order).1.errors ∧
      s.errors.keys <+: (s.visitAll false order).1.errors.keys := by
  induction order generalizing s with
  | nil => exact ⟨h, List.prefix_refl _⟩
  | cons id rest ih =>
    obtain ⟨hvisit, hprefix⟩ := visit_listed h id
    rw [State.visitAll]
    split
    · next s' heq =>
      rw [heq] at hvisit hprefix
      obtain ⟨hrest, hprefix'⟩ := ih hvisit
      exact ⟨hrest, hprefix.trans hprefix'⟩
    · exact ⟨hvisit, hprefix⟩

/-- A sweep that lists nothing is the same in both modes; the first node that is listed is the one
that ends it in strict mode. -/
theorem visitAll_modes (h : Listed s.netlist s.errors) (hnone : s.errors = Table.empty)
    {order : List NodeId} (hthere : AllThere s.netlist order) :
    s.visitAll true order = s.visitAll false order ∧
        (s.visitAll false order).1.errors = Table.empty ∨
      ∃ s' error, s.visitAll true order = (s', some (.fold error)) ∧
        [error.node] <+: (s.visitAll false order).1.errors.keys := by
  induction order generalizing s with
  | nil => exact .inl ⟨rfl, hnone⟩
  | cons id rest ih =>
    have hvisit := (visit_listed h id).1
    have hfirst := hthere id (.head _)
    have hrest : AllThere s.netlist rest := fun other hother => hthere other (.tail _ hother)
    rw [visitAll_cons hfirst, State.visitAll]
    rcases visit_modes h.coherent id with ⟨node, hm, rfl, -, hstrict, hlenient⟩ |
      ⟨-, hsame, herrors⟩
    · refine .inr ⟨s, refusal s.netlist node, by rw [hstrict], ?_⟩
      have hkeys : (s.visit false node.id).1.errors.keys = [node.id] := by
        rw [hlenient, hnone]
        rfl
      exact hkeys ▸ (visitAll_listed hvisit rest).2
    · have hgoes : s.visit true id = ((s.visit false id).1, none) := by
        rw [hsame]
        exact Prod.ext rfl (visit_lenient hfirst)
      rw [hgoes]
      exact ih hvisit (herrors.trans hnone) (hrest.visit false id)

/-! ## The last sweep -/

/-- A sweep without changes lists every refused node as the netlist has it. -/
theorem visitAll_lists {order : List NodeId} (h : Listed s.netlist s.errors)
    (hthere : AllThere s.netlist order)
    (hsame : (s.visitAll false order).1.changed = s.changed) :
    (s.visitAll false order).1.netlist = s.netlist ∧
      ∀ node ∈ s.netlist.nodes, Refused s.netlist node →
        (node.id ∈ order ∨ s.errors.find? node.id = some (refusal s.netlist node)) →
          (s.visitAll false order).1.errors.find? node.id = some (refusal s.netlist node) := by
  induction order generalizing s with
  | nil => exact ⟨rfl, fun node _ _ hlisted => hlisted.resolve_left List.not_mem_nil⟩
  | cons id rest ih =>
    rw [visitAll_cons (hthere id (.head _))] at hsame ⊢
    have hle := changed_le_visitAll false rest (s.visit false id).1
    have hvisit := (visit_listed h id).1
    have hrest : AllThere s.netlist rest := fun other hother => hthere other (.tail _ hother)
    rcases visit_cases false s id with ⟨-, -, -, -, -, -, hchanged⟩ | ⟨hnet, hchanged, -⟩
    · omega
    · obtain ⟨hsame', hlists⟩ := ih hvisit (hrest.visit false id) (by omega)
      rw [hnet] at hsame' hlists
      refine ⟨hsame', fun node hm hrefused hlisted => hlists node hm hrefused ?_⟩
      rcases visit_modes h.coherent id with ⟨m, hm', rfl, -, -, hlenient⟩ | ⟨hnever, -, herrors⟩
      · rw [hlenient]
        by_cases hid : node.id = m.id
        · obtain rfl := h.coherent.eq_of_id hm hm' hid
          exact .inr (Table.find?_insert_self _ _ _)
        · refine hlisted.imp (fun hmem => (List.mem_cons.1 hmem).resolve_left hid) fun hfind => ?_
          rw [Table.find?_insert, if_neg hid, hfind]
      · rw [herrors]
        refine hlisted.imp_left fun hmem => (List.mem_cons.1 hmem).resolve_left fun hid => ?_
        exact hnever node hm hid hrefused

/-- In the end the list is that of the netlist behind the pass, and what was listed first still
comes first. -/
theorem FoldsOn.listed {n' : Netlist} {changes : Nat} {outcome : PassOutcome}
    (hon : FoldsOn n errors changes n' outcome) (h : Listed n errors) :
    ∃ listed, outcome.foldErrors = listed.values ∧ Listed n' listed ∧
      errors.keys <+: listed.keys ∧
      ∀ node ∈ n'.nodes, Refused n' node → listed.find? node.id = some (refusal n' node) := by
  induction hon with
  | @last n errors changes order s horder hvisit hnone =>
    obtain ⟨hlisted, hprefix⟩ := visitAll_listed (s := ⟨n, errors, 0⟩) h order
    have hsame : (State.visitAll false order ⟨n, errors, 0⟩).1.changed = 0 := by
      rw [hvisit]
      exact hnone
    obtain ⟨hnet, hlists⟩ := visitAll_lists (s := ⟨n, errors, 0⟩) h
      (allThere_of_topoOrder h.coherent horder) hsame
    rw [hvisit] at hlisted hprefix hnet hlists
    refine ⟨s.errors, rfl, hlisted, hprefix, fun node hm hrefused => ?_⟩
    rw [hnet] at hm hrefused ⊢
    have hmem : node.id ∈ order :=
      (h.coherent.perm_of_topoOrder horder).mem_iff.2 (List.mem_map_of_mem hm)
    exact hlists node hm hrefused (.inl hmem)
  | @more n n' errors changes order s outcome horder hvisit hsome hrest ih =>
    obtain ⟨hlisted, hprefix⟩ := visitAll_listed (s := ⟨n, errors, 0⟩) h order
    rw [hvisit] at hlisted hprefix
    obtain ⟨listed, hvalues, hend, hprefix', hlists⟩ := ih hlisted
    exact ⟨listed, hvalues, hend, hprefix.trans hprefix', hlists⟩

/-- The list has each node once, with its operands in the netlist behind the pass, and the nodes are
those that divide by a constant zero there. -/
theorem FoldsOn.exact {n' : Netlist} {changes : Nat} {outcome : PassOutcome} (hc : n.Coherent)
    (hl : n.Legal) (hon : FoldsOn n Table.empty changes n' outcome) :
    (outcome.foldErrors.map FoldError.node).Nodup ∧
      ∀ error, error ∈ outcome.foldErrors ↔
        ∃ node ∈ n'.nodes, DividesByZero n' node ∧ error = refusal n' node := by
  obtain ⟨listed, hvalues, hlisted, -, hlists⟩ := hon.listed (listed_empty hc hl)
  refine ⟨?_, fun error => ?_⟩
  · rw [hvalues, hlisted.map_node]
    exact hlisted.nodup
  · rw [hvalues, Table.values, List.mem_map]
    constructor
    · rintro ⟨⟨id, error⟩, hmem, rfl⟩
      have hfind := (Table.find?_eq_some_iff hlisted.nodup).2 hmem
      obtain ⟨-, node, hm, rfl, hrefused⟩ := hlisted.refused hfind
      have herror : error = refusal n' node :=
        Option.some.inj (hfind.symm.trans (hlists node hm hrefused))
      exact ⟨node, hm, (refused_iff hlisted.legal hm).1 hrefused, herror⟩
    · rintro ⟨node, hm, hzero, rfl⟩
      have hrefused := (refused_iff hlisted.legal hm).2 hzero
      exact ⟨_, Table.mem_entries_of_find? (hlists node hm hrefused), rfl⟩

/-- The loop sweeps once and stops, or goes on from there. -/
theorem FoldsOn.sweep {n' : Netlist} {changes : Nat} {outcome : PassOutcome} {order : List NodeId}
    (hon : FoldsOn n errors changes n' outcome) (horder : n.topoOrder = .ok order) :
    ∃ s, State.visitAll false order ⟨n, errors, 0⟩ = (s, none) ∧
      (s.changed = 0 ∧ n' = s.netlist ∧ outcome = ⟨changes, s.errors.values⟩ ∨
        s.changed ≠ 0 ∧ FoldsOn s.netlist s.errors (changes + s.changed) n' outcome) := by
  cases hon with
  | last horder' hvisit hnone =>
    cases horder.symm.trans horder'
    exact ⟨_, hvisit, .inl ⟨hnone, rfl, rfl⟩⟩
  | more horder' hvisit hsome hrest =>
    cases horder.symm.trans horder'
    exact ⟨_, hvisit, .inr ⟨hsome, hrest⟩⟩

/-- What the first sweep lists comes first in the end. -/
theorem FoldsOn.prefix_firstSweep {n' : Netlist} {changes : Nat} {outcome : PassOutcome}
    {order : List NodeId} (hon : FoldsOn n errors changes n' outcome) (h : Listed n errors)
    (horder : n.topoOrder = .ok order) :
    (State.visitAll false order ⟨n, errors, 0⟩).1.errors.keys <+:
      outcome.foldErrors.map FoldError.node := by
  obtain ⟨hlisted, -⟩ := visitAll_listed (s := ⟨n, errors, 0⟩) h order
  obtain ⟨s, hvisit, hend⟩ := hon.sweep horder
  rw [hvisit] at hlisted ⊢
  rcases hend with ⟨-, -, rfl⟩ | ⟨-, hrest⟩
  · exact hlisted.map_node ▸ List.prefix_rfl
  · obtain ⟨listed, hvalues, hlast, hprefix, -⟩ := hrest.listed hlisted
    rw [hvalues, hlast.map_node]
    exact hprefix

/-- The two modes sweep alike until one node is listed. -/
theorem FoldsOn.modes {changes : Nat} {n' : Netlist} {outcome : PassOutcome}
    (hon : FoldsOn n errors changes n' outcome) (hnone : errors = Table.empty) (hc : n.Coherent)
    (hl : n.Legal) :
    n.foldSweeps true errors changes = (n', .ok outcome) ∧ outcome.foldErrors = [] ∨
      ∃ stopped error, n.foldSweeps true errors changes = (stopped, .error (.fold error)) ∧
        [error.node] <+: outcome.foldErrors.map FoldError.node := by
  -- A refused division that strict mode meets first is the first one that is listed.
  have hstops : ∀ {n changes n' outcome order stopped error}, n.Coherent → n.Legal →
      FoldsOn n Table.empty changes n' outcome → n.topoOrder = .ok order →
      State.visitAll true order ⟨n, Table.empty, 0⟩ = (stopped, some (.fold error)) →
      [error.node] <+: (State.visitAll false order ⟨n, Table.empty, 0⟩).1.errors.keys →
        ∃ stopped error, n.foldSweeps true Table.empty changes = (stopped, .error (.fold error)) ∧
          [error.node] <+: outcome.foldErrors.map FoldError.node :=
    fun hc hl hon horder hstrict hfirst => ⟨_, _, foldSweeps_of_stopped horder hstrict _,
      hfirst.trans (hon.prefix_firstSweep (listed_empty hc hl) horder)⟩
  induction hon with
  | @last n errors changes order s horder hvisits hzero =>
    subst hnone
    rcases visitAll_modes (s := ⟨n, Table.empty, 0⟩) (listed_empty hc hl) rfl
      (allThere_of_topoOrder hc horder) with ⟨hsame, hempty⟩ | ⟨stopped, error, hstrict, hfirst⟩
    · rw [hvisits] at hsame hempty
      exact .inl ⟨foldSweeps_of_last horder hsame hzero changes, congrArg Table.values hempty⟩
    · exact .inr (hstops hc hl (.last horder hvisits hzero) horder hstrict hfirst)
  | @more n n' errors changes order s outcome horder hvisits hsome hrest ih =>
    subst hnone
    have hlisted := (visitAll_listed (s := ⟨n, Table.empty, 0⟩) (listed_empty hc hl) order).1
    rcases visitAll_modes (s := ⟨n, Table.empty, 0⟩) (listed_empty hc hl) rfl
      (allThere_of_topoOrder hc horder) with ⟨hsame, hempty⟩ | ⟨stopped, error, hstrict, hfirst⟩
    · rw [hvisits] at hsame hempty hlisted
      rw [foldSweeps_of_more horder hsame hsome]
      exact ih hempty hlisted.coherent hlisted.legal
    · exact .inr (hstops hc hl (.more horder hvisits hsome hrest) horder hstrict hfirst)

end Folding

namespace Netlist

variable {n : Netlist}

/-- Strict mode fails exactly where the other one lists a division by zero, and with the first that
is listed; else the two modes do the same. Each node is listed once, with its operands in the
netlist behind the pass, and listed are exactly the nodes that divide by a constant zero there. -/
theorem foldConstants_modes (hc : n.Coherent) (hv : n.validate = .ok ()) :
    ∃ n' outcome, n.foldConstants false = (n', .ok outcome) ∧
      ((∃ error, (n.foldConstants true).2 = .error (.fold error)) ↔ outcome.foldErrors ≠ []) ∧
      (∀ error, (n.foldConstants true).2 = .error (.fold error) →
        (outcome.foldErrors.map FoldError.node).head? = some error.node) ∧
      (outcome.foldErrors = [] → n.foldConstants true = (n', .ok outcome)) ∧
      (outcome.foldErrors.map FoldError.node).Nodup ∧
      ∀ error, error ∈ outcome.foldErrors ↔
        ∃ node ∈ n'.nodes, Folding.DividesByZero n' node ∧ error = Folding.refusal n' node := by
  have hl := hc.legal_of_validate hv
  obtain ⟨n', outcome, hon, hsweeps⟩ := hl.foldConstants_foldsOn hc
  have hexact := hon.exact hc hl
  rcases hon.modes rfl hc hl with ⟨hstrict, hnone⟩ |
    ⟨stopped, error, hstrict, rest, hfirst⟩
  · have hok : (n.foldConstants true).2 = .ok outcome := congrArg Prod.snd hstrict
    refine ⟨n', outcome, hsweeps, ⟨?_, fun hsome => absurd hnone hsome⟩, fun error herror => ?_,
      fun _ => hstrict, hexact⟩
    · rintro ⟨error, herror⟩
      rw [hok] at herror
      cases herror
    · rw [hok] at herror
      cases herror
  · have hfails : (n.foldConstants true).2 = .error (.fold error) := congrArg Prod.snd hstrict
    have hsome : outcome.foldErrors ≠ [] := by
      intro hnil
      rw [hnil] at hfirst
      cases hfirst
    refine ⟨n', outcome, hsweeps, ⟨fun _ => hsome, fun _ => ⟨error, hfails⟩⟩, fun e he => ?_,
      fun hnil => absurd hnil hsome, hexact⟩
    rw [hfails] at he
    cases he
    rw [← hfirst]
    rfl

end Netlist

namespace LateZero

/-- The divisor of the first division is chosen between `a` and zero, which takes two sweeps to
tell; the second division is by zero itself. -/
def netlist : Netlist where
  name := "late"
  inputs := ["a"]
  outputs := ["p", "q"]
  widths := ⟨["a", "zero", "m", "p", "q"].map (·, (Width.ofNat? 3).getD .one)⟩
  arena := [some ⟨⟨0⟩, .const 0, [], "zero"⟩,
    some ⟨⟨1⟩, .op .mux, [.plain "zero", .plain "a", .plain "zero"], "m"⟩,
    some ⟨⟨2⟩, .op .div, [.plain "a", .plain "m"], "p"⟩,
    some ⟨⟨3⟩, .op .div, [.plain "a", .plain "zero"], "q"⟩]
  wires := [⟨"zero", ⟨1⟩, 0⟩, ⟨"a", ⟨1⟩, 1⟩, ⟨"zero", ⟨1⟩, 2⟩, ⟨"a", ⟨2⟩, 0⟩, ⟨"m", ⟨2⟩, 1⟩,
    ⟨"a", ⟨3⟩, 0⟩, ⟨"zero", ⟨3⟩, 1⟩]
  nextFresh := 0

theorem coherent : netlist.Coherent := by
  refine ⟨fun {i node} h => ?_, by decide, by decide, by decide⟩
  match i, h with
  | 0, h | 1, h | 2, h | 3, h =>
    cases h
    rfl

theorem validate : netlist.validate = .ok () := by
  rw [Netlist.validate, Netlist.checkWires_of_derived (by decide)]
  decide

end LateZero

/-- The later division is listed first, and it is the one that strict mode reports. -/
theorem foldConstants_modes_lateZero :
    LateZero.netlist.Coherent ∧ LateZero.netlist.validate = .ok () ∧
      ∃ n' error rest, LateZero.netlist.foldConstants false = (n', .ok ⟨2, ⟨⟨3⟩, "DIV",
          [none, some 0]⟩ :: rest⟩) ∧
        rest.map FoldError.node = [⟨2⟩] ∧ error.node = ⟨3⟩ ∧
        (LateZero.netlist.foldConstants true).2 = .error (.fold error) := by
  obtain ⟨n', outcome, hfold, hiff, hfirst, -⟩ :=
    Netlist.foldConstants_modes LateZero.coherent LateZero.validate
  have houtcome : (LateZero.netlist.foldConstants false).2 =
      .ok ⟨2, [⟨⟨3⟩, "DIV", [none, some 0]⟩, ⟨⟨2⟩, "DIV", [none, some 0]⟩]⟩ := by cbv
  rw [hfold] at houtcome
  cases houtcome
  obtain ⟨error, herror⟩ := hiff.2 (by simp)
  exact ⟨LateZero.coherent, LateZero.validate, n', error, _, hfold, rfl,
    (Option.some.inj (hfirst error herror)).symm, herror⟩

end GateSynth
