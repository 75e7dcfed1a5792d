import GateSynth.Netlist.Hops
import GateSynth.Optimize.Merging
import GateSynth.Proofs.Netlist.Construction
import Mathlib.Data.List.Perm.Subperm

/-!
# Chains of substitutions

A chain that does not come back to a signal visits each key of its substitution at most once, so it
has ended after as many hops as there are entries (`Acyclic.ends`). The loop that counts its hops
ends on every substitution and does what `Netlist.redirect` says (`redirectHopping_eq`); where no
chain comes back to a signal, the loop that does not count them ends as well, at the same fanin, and
a netlist that was redirected reads nothing that is substituted (`redirect_follows`).
-/

namespace GateSynth

open Netlist Relation StateTransition

namespace Substitution

variable {sub : Substitution} {f g : Fanin}

/-- One signal is substituted by another. -/
def HopsTo (sub : Substitution) (s t : String) : Prop :=
  ∃ target, sub.find? s = some target ∧ target.signal = t

/-- No chain comes back to a signal. -/
def Acyclic (sub : Substitution) : Prop := ∀ s, ¬ TransGen sub.HopsTo s s

/-- A substitution whose entries all lead upwards is acyclic. -/
theorem Acyclic.of_rank (rank : String → Nat)
    (h : ∀ e ∈ sub.entries, rank e.1 < rank e.2.signal) : sub.Acyclic := by
  have hup : ∀ {s t}, TransGen sub.HopsTo s t → rank s < rank t := by
    intro s t hst
    induction hst with
    | single hhop =>
      obtain ⟨target, hfind, rfl⟩ := hhop
      exact h _ (Table.mem_entries_of_find? hfind)
    | tail _ hhop ih =>
      obtain ⟨target, hfind, rfl⟩ := hhop
      exact Nat.lt_trans ih (h _ (Table.mem_entries_of_find? hfind))
  exact fun s hs => Nat.lt_irrefl _ (hup hs)

/-! ## Single hops -/

theorem hop?_eq_none_iff : sub.hop? f = none ↔ f.signal ∉ sub.keys := by
  rw [hop?, Option.map_eq_none_iff, Table.find?_eq_none_iff]

theorem hopsTo_of_hop (h : sub.hop? f = some g) : sub.HopsTo f.signal g.signal := by
  obtain ⟨target, hfind, rfl⟩ := Option.map_eq_some_iff.1 h
  exact ⟨target, hfind, rfl⟩

theorem mem_keys_of_hop (h : sub.hop? f = some g) : f.signal ∈ sub.keys := by
  obtain ⟨target, hfind, -⟩ := Option.map_eq_some_iff.1 h
  exact Table.mem_keys_of_find? hfind

theorem follow_of_hop (h : sub.hop? f = some g) (hops : Nat) :
    follow sub (hops + 1) f = follow sub hops g := by
  obtain ⟨target, hfind, rfl⟩ := Option.map_eq_some_iff.1 h
  rw [follow, hfind]

theorem follow_of_end (h : sub.hop? f = none) (hops : Nat) : follow sub hops f = f := by
  cases hops with
  | zero => rfl
  | succ hops => rw [follow, Option.map_eq_none_iff.1 h]

/-- Hops can be taken in two goes. -/
theorem follow_add (sub : Substitution) (f : Fanin) (hops more : Nat) :
    follow sub (hops + more) f = follow sub more (follow sub hops f) := by
  induction hops generalizing f with
  | zero => rw [Nat.zero_add, follow]
  | succ hops ih =>
    cases hnext : sub.hop? f with
    | none => simp only [follow_of_end hnext]
    | some g => rw [Nat.succ_add, follow_of_hop hnext, follow_of_hop hnext, ih]

/-- A chain that has ended stays where it is. -/
theorem follow_eq_of_le {hops more : Nat} (hle : hops ≤ more)
    (hend : sub.hop? (follow sub hops f) = none) : follow sub more f = follow sub hops f := by
  obtain ⟨rest, rfl⟩ := Nat.exists_eq_add_of_le hle
  rw [follow_add, follow_of_end hend]

/-! ## Loops -/

theorem reaches_follow (sub : Substitution) (f : Fanin) (hops : Nat) :
    Reaches sub.hop? f (follow sub hops f) := by
  induction hops generalizing f with
  | zero => exact .refl
  | succ hops ih =>
    cases hnext : sub.hop? f with
    | none =>
      rw [follow_of_end hnext]
      exact .refl
    | some g =>
      rw [follow_of_hop hnext]
      exact .head hnext (ih g)

theorem hopCounted?_of_end (h : sub.hop? f = none) (hops : Nat) :
    sub.hopCounted? (f, hops) = none := by
  rw [hopCounted?, h, Option.map_none, ite_self]

theorem hopCounted?_of_hop (h : sub.hop? f = some g) {hops : Nat} (hhops : hops ≤ sub.size) :
    sub.hopCounted? (f, hops) = some (g, hops + 1) := by
  rw [hopCounted?, if_neg (Nat.not_lt.2 hhops), h, Option.map_some]

/-- The counting loop comes to an end, by the number of hops that are left. It counts a hop if
there is one. -/
theorem exists_reaches_counted {hops left : Nat} (hleft : hops + left = sub.size + 1) (f : Fanin) :
    ∃ taken, Reaches sub.hopCounted? (f, hops) (follow sub left f, hops + taken) ∧
      sub.hopCounted? (follow sub left f, hops + taken) = none ∧
      (0 < taken ↔ 0 < left ∧ f.signal ∈ sub.keys) := by
  induction left generalizing hops f with
  | zero => exact ⟨0, .refl, if_pos (by omega), by simp⟩
  | succ left ih =>
    cases hnext : sub.hop? f with
    | none =>
      rw [follow_of_end hnext]
      exact ⟨0, .refl, hopCounted?_of_end hnext hops, by simpa using hop?_eq_none_iff.1 hnext⟩
    | some g =>
      have hmore : hops + 1 + left = sub.size + 1 := by omega
      obtain ⟨taken, hreach, hend, -⟩ := ih hmore g
      rw [Nat.add_assoc, Nat.add_comm 1] at hreach hend
      rw [follow_of_hop hnext]
      exact ⟨taken + 1, .head (hopCounted?_of_hop hnext (by omega)) hreach, hend,
        by simpa using mem_keys_of_hop hnext⟩

/-- The counting loop ends after one hop more than the substitution has entries. -/
theorem chaseCounted_eq (sub : Substitution) (f : Fanin) :
    ∃ taken, sub.chaseCounted f = Part.some (redirectFanin sub f, taken) ∧
      (0 < taken ↔ sub.contains f.signal = true) := by
  obtain ⟨taken, hreach, hend, htaken⟩ := exists_reaches_counted (Nat.zero_add (sub.size + 1)) f
  rw [Nat.zero_add] at hreach hend
  refine ⟨taken, Part.eq_some_iff.2 (mem_eval.2 ⟨hreach, hend⟩), ?_⟩
  rw [htaken, Table.contains_iff]
  exact and_iff_right (Nat.succ_pos _)

theorem redirectFanins_eq (sub : Substitution) (fanins : List Fanin) (count : Nat) :
    sub.redirectFanins fanins count = Part.some (fanins.map (redirectFanin sub),
      count + fanins.countP fun f => sub.contains f.signal) := by
  induction fanins generalizing count with
  | nil => rfl
  | cons f rest ih =>
    obtain ⟨taken, hchase, htaken⟩ := chaseCounted_eq sub f
    rw [redirectFanins, hchase]
    simp only [Part.bind_eq_bind, Part.bind_some, ih, Part.pure_eq_some, List.map_cons,
      List.countP_cons, gt_iff_lt, htaken, Nat.add_comm (List.countP _ rest)]
    split <;> simp only [Nat.zero_add, Nat.add_assoc]

theorem redirectSlots_eq (sub : Substitution) (arena : List (Option Node)) (count : Nat) :
    sub.redirectSlots arena count = Part.some
      (arena.map (Option.map fun node =>
        { node with fanins := node.fanins.map (redirectFanin sub) }),
      count + ((arena.filterMap id).flatMap Node.fanins).countP fun f =>
        sub.contains f.signal) := by
  induction arena generalizing count with
  | nil => rfl
  | cons slot rest ih =>
    cases slot with
    | none =>
      rw [redirectSlots, ih]
      simp only [Part.bind_eq_bind, Part.bind_some, Part.pure_eq_some]
      rfl
    | some node =>
      rw [redirectSlots, redirectFanins_eq]
      simp only [Part.bind_eq_bind, Part.bind_some, ih, Part.pure_eq_some, List.map_cons,
        Option.map_some, List.filterMap_cons, id, List.flatMap_cons, List.countP_append,
        Nat.add_assoc]

/-! ## Chains without repetition -/

theorem hopsTo_follow {hops : Nat} (h : (follow sub hops f).signal ∈ sub.keys) :
    sub.HopsTo (follow sub hops f).signal (follow sub (hops + 1) f).signal := by
  cases hnext : sub.hop? (follow sub hops f) with
  | none => exact absurd h (hop?_eq_none_iff.1 hnext)
  | some g =>
    rw [follow_add, follow_of_hop hnext]
    exact hopsTo_of_hop hnext

/-- On a chain that goes on, the earlier signal leads to the later one. -/
theorem transGen_follow {few more : Nat} (hlt : few < more)
    (hon : ∀ k < more, (follow sub k f).signal ∈ sub.keys) :
    TransGen sub.HopsTo (follow sub few f).signal (follow sub more f).signal := by
  induction more with
  | zero => exact absurd hlt (Nat.not_lt_zero few)
  | succ more ih =>
    have hlast := hopsTo_follow (hon more (Nat.lt_succ_self more))
    rcases Nat.lt_succ_iff_lt_or_eq.1 hlt with hlt | rfl
    · exact .tail (ih hlt fun k hk => hon k (Nat.lt_succ_of_lt hk)) hlast
    · exact .single hlast

/-- As long as an acyclic chain goes on, every hop leads to a new signal. -/
theorem Acyclic.nodup_follow (h : sub.Acyclic) {hops : Nat}
    (hon : ∀ k < hops, (follow sub k f).signal ∈ sub.keys) :
    ((List.range (hops + 1)).map fun k => (follow sub k f).signal).Nodup := by
  have hne : ∀ i j, i < j → j ≤ hops → (follow sub i f).signal ≠ (follow sub j f).signal := by
    intro i j hij hj heq
    have hloop := transGen_follow hij fun k hk => hon k (Nat.lt_of_lt_of_le hk hj)
    rw [← heq] at hloop
    exact h _ hloop
  refine List.nodup_range.map_on fun i hi j hj heq => ?_
  rw [List.mem_range, Nat.lt_succ_iff] at hi hj
  rcases Nat.lt_trichotomy i j with hij | hij | hij
  · exact absurd heq (hne i j hij hj)
  · exact hij
  · exact absurd heq.symm (hne j i hij hi)

/-- A chain that goes on for longer than there are entries comes back to a signal, so an acyclic one
has ended by then. -/
theorem Acyclic.ends (h : sub.Acyclic) (f : Fanin) : sub.hop? (follow sub sub.size f) = none := by
  rw [hop?_eq_none_iff]
  intro hkey
  have hon : ∀ k ≤ sub.size, (follow sub k f).signal ∈ sub.keys := by
    intro k hk
    by_contra hend
    rw [follow_eq_of_le hk (hop?_eq_none_iff.2 hend)] at hkey
    exact hend hkey
  -- one signal more on the chain than there are keys
  have hnodup := h.nodup_follow fun k hk => hon k (Nat.le_of_lt hk)
  have hsub : ((List.range (sub.size + 1)).map fun k => (follow sub k f).signal) ⊆ sub.keys := by
    intro s hs
    obtain ⟨k, hk, rfl⟩ := List.mem_map.1 hs
    exact hon k (Nat.le_of_lt_succ (List.mem_range.1 hk))
  have hle := (hnodup.subperm hsub).length_le
  have hsize : sub.keys.length = sub.size := List.length_map _
  rw [List.length_map, List.length_range, hsize] at hle
  exact Nat.not_succ_le_self _ hle

theorem Acyclic.chase_eq (h : sub.Acyclic) (f : Fanin) :
    sub.chase f = Part.some (Merging.resolve sub f) :=
  Part.eq_some_iff.2 (mem_eval.2 ⟨reaches_follow sub f sub.size, h.ends f⟩)

/-- The further hop that the counting loop would take is not there. -/
theorem Acyclic.redirectFanin_eq (h : sub.Acyclic) :
    redirectFanin sub = Merging.resolve sub :=
  funext fun f => follow_eq_of_le (Nat.le_succ _) (h.ends f)

end Substitution

namespace Netlist

open Substitution

variable {n : Netlist} {sub : Substitution}

/-- The loop over all fanins ends on every substitution. -/
theorem redirectHopping_eq (n : Netlist) (sub : Substitution) :
    n.redirectHopping sub = Part.some (n.redirect sub) := by
  rw [redirectHopping]
  split
  · next hsize => rw [redirect_of_size n hsize]
  · rw [redirectSlots_eq, Nat.zero_add]
    simp only [Part.bind_eq_bind, Part.bind_some, Part.pure_eq_some]
    rfl

/-- A netlist that reads no substituted signal is left alone. -/
theorem redirect_of_ends (h : ∀ node ∈ n.nodes, ∀ f ∈ node.fanins, sub.hop? f = none) :
    n.redirect sub = (n, 0) := by
  have harena : n.arena.map (Option.map fun node =>
      { node with fanins := node.fanins.map (redirectFanin sub) }) = n.arena := by
    refine (List.map_congr_left (g := id) fun slot hslot => ?_).trans (List.map_id _)
    cases slot with
    | none => rfl
    | some node =>
      have hends := h node (List.mem_filterMap.2 ⟨_, hslot, rfl⟩)
      have hfanins : node.fanins.map (redirectFanin sub) = node.fanins :=
        (List.map_congr_left (g := id) fun f hf => follow_of_end (hends f hf) _).trans
          (List.map_id _)
      rw [Option.map_some, hfanins]
      rfl
  have hcount : ((n.nodes.flatMap Node.fanins).countP fun f => sub.contains f.signal) = 0 := by
    rw [List.countP_eq_zero]
    intro f hf
    obtain ⟨node, hnode, hf⟩ := List.mem_flatMap.1 hf
    rw [Table.contains_iff]
    exact hop?_eq_none_iff.1 (h node hnode f hf)
  rw [redirect, hcount]
  exact congrArg (fun arena => ({ n with arena }, 0)) harena

/-- Redirecting a netlist ends, whatever the substitution. If no chain of the substitution comes
back to a signal, then every fanin is replaced by the end of its chain, at which the unbounded loop
ends as well; the fanins with a substituted signal are counted, and to do it again changes
nothing. -/
theorem redirect_follows (n : Netlist) (sub : Substitution) :
    n.redirectHopping sub = Part.some (n.redirect sub) ∧
      (sub.Acyclic →
        (∀ f, sub.chase f = Part.some (Merging.resolve sub f)) ∧
        n.redirect sub =
          ({ n with
              arena := n.arena.map (Option.map fun node =>
                { node with fanins := node.fanins.map (Merging.resolve sub) }) },
            (n.nodes.flatMap Node.fanins).countP fun f => f.signal ∈ sub.keys) ∧
        (n.redirect sub).1.redirect sub = ((n.redirect sub).1, 0)) := by
  refine ⟨n.redirectHopping_eq sub, fun h => ⟨h.chase_eq, ?_, redirect_of_ends ?_⟩⟩
  · rw [redirect, h.redirectFanin_eq]
    simp only [← Table.contains_iff, Bool.decide_eq_true]
  · intro node hnode f hf
    rw [nodes_redirect, h.redirectFanin_eq] at hnode
    obtain ⟨old, -, rfl⟩ := List.mem_map.1 hnode
    obtain ⟨f, -, rfl⟩ := List.mem_map.1 hf
    exact h.ends f

/-! ### A chain and a loop -/

namespace AndOr

/-- `(a AND b) OR a`, the disjunction read inverted. -/
def netlist : Netlist where
  name := "andor"
  inputs := ["a", "b"]
  outputs := ["y"]
  widths := ⟨["a", "b", "t", "y"].map (·, .one)⟩
  arena := [some ⟨⟨0⟩, .op .and, [⟨"a", false⟩, ⟨"b", false⟩], "t"⟩, none,
    some ⟨⟨2⟩, .op .or, [⟨"t", true⟩, ⟨"a", false⟩], "y"⟩]
  wires := []
  nextFresh := 0

/-- A chain with as many hops as entries. -/
def chain : Substitution := ⟨[("u", ⟨"b", true⟩), ("t", ⟨"u", true⟩)]⟩

/-- Two signals for one another. -/
def loop : Substitution := ⟨[("a", ⟨"b", true⟩), ("b", ⟨"a", false⟩)]⟩

theorem acyclic_chain : chain.Acyclic :=
  .of_rank (fun s => if s = "t" then 0 else if s = "u" then 1 else 2) (by decide)

end AndOr

/-- The loop is left, and the chain is followed to its end, with the inversions on the way. -/
theorem redirect_follows_andOr :
    AndOr.netlist.redirectHopping AndOr.loop = Part.some (AndOr.netlist.redirect AndOr.loop) ∧
      AndOr.chain.Acyclic ∧ AndOr.chain.chase ⟨"t", true⟩ = Part.some ⟨"b", true⟩ ∧
      AndOr.netlist.redirect AndOr.chain =
        ({ AndOr.netlist with
            arena := [some ⟨⟨0⟩, .op .and, [⟨"a", false⟩, ⟨"b", false⟩], "t"⟩, none,
              some ⟨⟨2⟩, .op .or, [⟨"b", true⟩, ⟨"a", false⟩], "y"⟩] }, 1) := by
  obtain ⟨hloop, -⟩ := redirect_follows AndOr.netlist AndOr.loop
  obtain ⟨-, hchain⟩ := redirect_follows AndOr.netlist AndOr.chain
  obtain ⟨hchase, hresult, -⟩ := hchain AndOr.acyclic_chain
  exact ⟨hloop, AndOr.acyclic_chain, (hchase _).trans (congrArg Part.some (by decide)),
    hresult.trans (by decide)⟩

end Netlist

end GateSynth
