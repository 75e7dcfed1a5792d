import GateSynth.Mapping.Cover
import GateSynth.Proofs.Netlist.Coherence
import GateSynth.Proofs.Tables

/-!
# Demanded nodes

Once a match is picked for every node, the primary outputs demand instances: for their drivers, and
then for whatever drives a leaf of a picked match (`Demanded`). The walk from the outputs finds
exactly these nodes, or stops at one for which nothing is picked (`required_cases`): whatever is met
is demanded, the worklist holds what is still missing (`Walk`), and every step takes a signal off
the worklist, on which the leaves of a match are put once.
-/

namespace GateSynth

open Netlist

variable {ν : Type}

/-- The nodes that need an instance, if these matches are picked. -/
inductive Netlist.Demanded (n : Netlist) (pick : NodeId → Option (Match ν)) : NodeId → Prop
  /-- The driver of an output. -/
  | output {o : String} {d : NodeId} : o ∈ n.outputs → n.driver? o = some d → Demanded n pick d
  /-- The driver of a leaf of the match of a demanded node. -/
  | leaf {id d : NodeId} {m : Match ν} {leaf : String} : Demanded n pick id → pick id = some m →
      leaf ∈ m.leaves → n.driver? leaf = some d → Demanded n pick d

theorem Netlist.Demanded.exists_node {n : Netlist} {pick : NodeId → Option (Match ν)} {id : NodeId}
    (h : n.Demanded pick id) : ∃ node ∈ n.nodes, node.id = id := by
  cases h with
  | output _ hd | leaf _ _ _ hd =>
    obtain ⟨node, hnode, -, hid⟩ := driver?_eq_some hd
    exact ⟨node, hnode, hid⟩

namespace Selection

variable {sel : Selection ν} {n : Netlist} {steps : Nat} {work : List String} {seen : List NodeId}
  {id : NodeId} {signal : String}

/-- A node is seen or drives a signal of the worklist. -/
def Pending (n : Netlist) (work : List String) (seen : List NodeId) (id : NodeId) : Prop :=
  id ∈ seen ∨ ∃ x ∈ work, n.driver? x = some id

/-- The state of the walk. -/
structure Walk (sel : Selection ν) (n : Netlist) (work : List String) (seen : List NodeId) :
    Prop where
  /-- Whatever is met is demanded. -/
  demanded : ∀ id, Pending n work seen id → n.Demanded sel.chosen? id
  chosen : ∀ id ∈ seen, (sel.chosen? id).isSome
  outputs : ∀ o ∈ n.outputs, ∀ d, n.driver? o = some d → Pending n work seen d
  leaves : ∀ id ∈ seen, ∀ m, sel.chosen? id = some m → ∀ leaf ∈ m.leaves, ∀ d,
    n.driver? leaf = some d → Pending n work seen d

theorem walk_outputs (sel : Selection ν) (n : Netlist) : Walk sel n n.outputs.reverse [] where
  demanded id h := by
    obtain ⟨x, hx, hd⟩ := h.resolve_left List.not_mem_nil
    exact .output (List.mem_reverse.1 hx) hd
  chosen _ h := by cases h
  outputs o ho d hd := .inr ⟨o, List.mem_reverse.2 ho, hd⟩
  leaves _ h := by cases h

/-- A signal whose driver is no news is taken off the worklist. -/
theorem Walk.skip (h : Walk sel n (signal :: work) seen)
    (hseen : ∀ id, n.driver? signal = some id → id ∈ seen) : Walk sel n work seen := by
  have hpending : ∀ id, Pending n work seen id ↔ Pending n (signal :: work) seen id := by
    refine fun id => ⟨Or.imp_right fun ⟨x, hx, hd⟩ => ⟨x, .tail _ hx, hd⟩, ?_⟩
    rintro (hid | ⟨x, hx, hd⟩)
    · exact .inl hid
    · rcases List.mem_cons.1 hx with rfl | hx
      · exact .inl (hseen id hd)
      · exact .inr ⟨x, hx, hd⟩
  exact ⟨fun id hid => h.demanded id ((hpending id).1 hid), h.chosen,
    fun o ho d hd => (hpending d).2 (h.outputs o ho d hd),
    fun id hid m hm leaf hleaf d hd => (hpending d).2 (h.leaves id hid m hm leaf hleaf d hd)⟩

/-- The driver of a signal is taken over, and its leaves are put on the worklist. -/
theorem Walk.visit (h : Walk sel n (signal :: work) seen) (hdriver : n.driver? signal = some id)
    {m : Match ν} (hm : sel.chosen? id = some m) :
    Walk sel n (m.leaves.reverse ++ work) (seen ++ [id]) := by
  have hid : n.Demanded sel.chosen? id := h.demanded id (.inr ⟨signal, .head _, hdriver⟩)
  have hmono : ∀ d, Pending n (signal :: work) seen d →
      Pending n (m.leaves.reverse ++ work) (seen ++ [id]) d := by
    rintro d (hd | ⟨x, hx, hd⟩)
    · exact .inl (List.mem_append_left _ hd)
    · rcases List.mem_cons.1 hx with rfl | hx
      · rw [hdriver] at hd
        cases hd
        exact .inl (List.mem_append_right _ (.head _))
      · exact .inr ⟨x, List.mem_append_right _ hx, hd⟩
  refine ⟨fun d hd => ?_, fun d hd => ?_, fun o ho d hd => hmono d (h.outputs o ho d hd),
    fun d hd m' hm' leaf hleaf c hc => ?_⟩
  · rcases hd with hd | ⟨x, hx, hd⟩
    · rcases List.mem_append.1 hd with hd | hd
      · exact h.demanded d (.inl hd)
      · rwa [List.mem_singleton.1 hd]
    · rcases List.mem_append.1 hx with hx | hx
      · exact .leaf hid hm (List.mem_reverse.1 hx) hd
      · exact h.demanded d (.inr ⟨x, .tail _ hx, hd⟩)
  · rcases List.mem_append.1 hd with hd | hd
    · exact h.chosen d hd
    · rw [List.mem_singleton.1 hd, hm]
      rfl
  · rcases List.mem_append.1 hd with hd | hd
    · exact hmono c (h.leaves d hd m' hm' leaf hleaf c hc)
    · rw [List.mem_singleton.1 hd, hm] at hm'
      cases hm'
      exact .inr ⟨leaf, List.mem_append_left _ (List.mem_reverse.2 hleaf), hc⟩

/-- At the end exactly the demanded nodes are seen. -/
theorem Walk.mem_iff (h : Walk sel n [] seen) : id ∈ seen ↔ n.Demanded sel.chosen? id := by
  have hpending : ∀ d, Pending n [] seen d → d ∈ seen :=
    fun d hd => hd.resolve_right fun ⟨x, hx, _⟩ => List.not_mem_nil hx
  refine ⟨fun hid => h.demanded id (.inl hid), fun hid => ?_⟩
  induction hid with
  | output ho hd => exact hpending _ (h.outputs _ ho _ hd)
  | leaf _ hm hleaf hd ih => exact hpending _ (h.leaves _ ih _ hm _ hleaf _ hd)

/-! ## Enough steps -/

/-- The number of leaves of the matches that are not visited yet. -/
def unvisited (sel : Selection ν) (seen : List NodeId) : Nat :=
  total ((sel.best.entries.filter fun e => e.1 ∉ seen).map fun e => e.2.candidate.leaves.length)

/-- Visiting a node frees the steps that its leaves take. -/
theorem unvisited_step {m : Match ν} (hid : id ∉ seen) (hm : sel.chosen? id = some m) :
    m.leaves.length + sel.unvisited (seen ++ [id]) ≤ sel.unvisited seen := by
  obtain ⟨choice, hchoice, rfl⟩ := Option.map_eq_some_iff.1 hm
  have hfilter : (sel.best.entries.filter fun e => e.1 ∉ seen ++ [id]) =
      (sel.best.entries.filter fun e => e.1 ∉ seen).filter fun e => e.1 ≠ id := by
    rw [List.filter_filter]
    refine List.filter_congr fun e _ => ?_
    simp [not_or, and_comm]
  have hmem : (id, choice) ∈ sel.best.entries.filter fun e => e.1 ∉ seen :=
    List.mem_filter.2 ⟨Table.mem_entries_of_find? hchoice, by simpa using hid⟩
  have hle := total_filter_add_le (f := fun e : NodeId × Choice ν => e.2.candidate.leaves.length)
    (p := fun e => e.1 ≠ id) (by simp) hmem
  dsimp only at hle
  rw [unvisited, hfilter, unvisited]
  omega

/-- The walk ends with the demanded nodes, or at one for which there is no match. -/
theorem need_cases (h : Walk sel n work seen) (hsteps : work.length + sel.unvisited seen < steps) :
    (∃ needed, sel.need n steps work seen = .ok needed ∧ Walk sel n [] needed) ∨
      ∃ id, sel.need n steps work seen = .error (sel.unmappable n id) ∧
        n.Demanded sel.chosen? id ∧ sel.chosen? id = none := by
  induction steps generalizing work seen with
  | zero => omega
  | succ steps ih =>
    cases work with
    | nil => exact .inl ⟨seen, rfl, h⟩
    | cons signal work =>
      rw [List.length_cons] at hsteps
      rw [need]
      cases hdriver : n.driver? signal with
      | none => exact ih (h.skip fun id hid => by rw [hdriver] at hid; cases hid) (by omega)
      | some id =>
        dsimp only
        by_cases hid : id ∈ seen
        · rw [if_pos hid]
          refine ih (h.skip fun other hother => ?_) (by omega)
          rw [hdriver] at hother
          cases hother
          exact hid
        · rw [if_neg hid]
          cases hm : sel.chosen? id with
          | none => exact .inr ⟨id, rfl, h.demanded id (.inr ⟨signal, .head _, hdriver⟩), hm⟩
          | some m =>
            have hstep := unvisited_step hid hm
            refine ih (h.visit hdriver hm) ?_
            rw [List.length_append, List.length_reverse]
            omega

/-- The required nodes are the demanded ones, and each has a match; or one of them has none, and it
stops the walk. -/
theorem required_cases (sel : Selection ν) (n : Netlist) :
    (∃ needed, sel.required n = .ok needed ∧ (∀ id, id ∈ needed ↔ n.Demanded sel.chosen? id) ∧
      ∀ id, n.Demanded sel.chosen? id → (sel.chosen? id).isSome) ∨
      ∃ id, sel.required n = .error (sel.unmappable n id) ∧ n.Demanded sel.chosen? id ∧
        sel.chosen? id = none := by
  have hsteps : n.outputs.reverse.length + sel.unvisited [] <
      n.outputs.length + sel.leafCount + 1 := by
    have hle := total_filter_le (fun e : NodeId × Choice ν => e.2.candidate.leaves.length)
      (fun e => e.1 ∉ ([] : List NodeId)) sel.best.entries
    have hcount : sel.leafCount =
        total (sel.best.entries.map fun e => e.2.candidate.leaves.length) := by
      rw [leafCount, Table.values, List.map_map]
      rfl
    rw [List.length_reverse, unvisited, hcount]
    omega
  refine (need_cases (walk_outputs sel n) hsteps).imp_left ?_
  rintro ⟨needed, hneeded, hwalk⟩
  exact ⟨needed, hneeded, fun id => hwalk.mem_iff,
    fun id hid => hwalk.chosen id (hwalk.mem_iff.2 hid)⟩

end Selection

end GateSynth
