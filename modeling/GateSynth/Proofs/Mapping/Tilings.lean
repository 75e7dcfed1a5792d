import GateSynth.Proofs.Mapping.Assembly
import Mathlib.Data.List.Dedup

/-!
# Tilings

A closed set of matches covers the cone of the outputs: every node of the cone lies in the region of
one of its matches (`Placed.exists_touches`), and a node whose signal is no inner one has a match of
its own (`Placed.exists_root`). Where no match is superfluous (`Tight`) the regions do not overlap
(`Tight.eq_of_touches`), so a signal with a single reader is a leaf of one match at most. Hence the
leaves with a single reader, taken over all matches, are the roots with a single reader
(`Tight.perm_absorbed`): what is counted at such a leaf is counted once. Every closed set of matches
has a part that is tight (`Placed.exists_tight`).
-/

namespace GateSynth

open Netlist

variable {ν : Type} {lib : Library ν} {s : Subject}

/-- The leaves that have no other reader, each once. -/
def Match.absorbed (m : Match ν) (s : Subject) : List String :=
  (m.leaves.filter s.isAbsorbable).dedup

namespace Match

variable {m : Match ν} {x : String}

theorem mem_absorbed : x ∈ m.absorbed s ↔ x ∈ m.leaves ∧ s.isAbsorbable x = true := by
  rw [absorbed, List.mem_dedup, List.mem_filter]

theorem nodup_absorbed (m : Match ν) (s : Subject) : (m.absorbed s).Nodup := List.nodup_dedup _

end Match

namespace Selection

variable {pairs : List (Node × Match ν)} {p q : Node × Match ν} {x : String}

/-- A closed set of matches in which none is superfluous: its signal is an output or a leaf. -/
structure Tight (s : Subject) (lib : Library ν) (pairs : List (Node × Match ν)) : Prop
    extends Placed s lib pairs where
  needed : ∀ p ∈ pairs, p.1.output ∈ s.netlist.outputs ∨ ∃ q ∈ pairs, p.1.output ∈ q.2.leaves

/-! ## Every node of the cone is covered -/

section
variable (hlib : lib.Checked) (hs : s.WellFormed) (h : Placed s lib pairs)
include hlib hs h

theorem Placed.tiles (hp : p ∈ pairs) : p.2.Tiles s p.1 :=
  Subject.tiles_of_nodeMatches hlib hs (h.node p hp) (h.isMatch p hp)

theorem Placed.touches_root (hp : p ∈ pairs) : p.2.Touches p.1.id :=
  .inl (h.tiles hlib hs hp).root.symm

/-- A node of the cone lies in the region of a match. -/
theorem Placed.exists_touches {id : NodeId} (hcone : s.netlist.Cone id) :
    ∃ p ∈ pairs, p.2.Touches id := by
  induction hcone with
  | output ho hd =>
    obtain ⟨d, hnode, hdo, rfl⟩ := driver?_eq_some hd
    obtain ⟨p, hp, rfl⟩ := h.outputs _ ho d hnode hdo
    exact ⟨p, hp, h.touches_root hlib hs hp⟩
  | fanin hreader _ hf hd ih =>
    obtain ⟨p, hp, htouch⟩ := ih
    obtain ⟨d, hnode, hdo, rfl⟩ := driver?_eq_some hd
    rcases (h.tiles hlib hs hp).closed _ hreader htouch _ ⟨_, hf, rfl⟩ with
      hleaf | ⟨c, hc, hco, hcovered⟩
    · obtain ⟨q, hq, rfl⟩ := h.leaves p hp _ hleaf d hnode hdo
      exact ⟨q, hq, h.touches_root hlib hs hq⟩
    · obtain rfl := List.inj_on_of_nodup_map hs.legal.single hc hnode (hco.trans hdo.symm)
      exact ⟨p, hp, .inr hcovered⟩

/-- A node of the cone that no cell may absorb has a match of its own. -/
theorem Placed.exists_root {node : Node} (hnode : node ∈ s.netlist.nodes)
    (hcone : s.netlist.Cone node.id) (habsorb : s.isAbsorbable node.output = false) :
    ∃ p ∈ pairs, p.1 = node := by
  obtain ⟨p, hp, hroot | hcovered⟩ := h.exists_touches hlib hs hcone
  · exact ⟨p, hp, hs.coherent.eq_of_id (h.node p hp) hnode
      (hroot.trans (h.tiles hlib hs hp).root).symm⟩
  · obtain ⟨c, hc, hid, hcabsorb, -⟩ := (h.tiles hlib hs hp).inner _ hcovered
    obtain rfl := hs.coherent.eq_of_id hc hnode hid
    rw [habsorb] at hcabsorb
    cases hcabsorb

end

/-- A node has one match only. -/
theorem Placed.eq_of_root (h : Placed s lib pairs) (hp : p ∈ pairs) (hq : q ∈ pairs)
    (hroot : p.1 = q.1) : p = q :=
  List.inj_on_of_nodup_map h.nodup hp hq hroot

/-! ## Nothing is covered twice -/

section
variable (hlib : lib.Checked) (hs : s.WellFormed) (h : Tight s lib pairs)
include hlib hs h

/-- No node lies in the regions of two matches. -/
theorem Tight.eq_of_touches : ∀ node ∈ s.netlist.nodes, ∀ p ∈ pairs, ∀ q ∈ pairs,
    p.2.Touches node.id → q.2.Touches node.id → p = q := by
  refine hs.legal.acyclic.readers_induction fun node hnode ih => ?_
  -- If the node is inner for `q`, then `q` touches its reader, and its signal is no leaf elsewhere.
  have hinner : ∀ p ∈ pairs, ∀ q ∈ pairs, p.2.Touches node.id → node.id ∈ q.2.covered → p = q := by
    intro p hp q hq hpt hqc
    obtain ⟨c, hc, hid, habsorb, r, hr, hqr, hreads⟩ := (h.tiles hlib hs hq).inner _ hqc
    obtain rfl := hs.coherent.eq_of_id hc hnode hid
    obtain ⟨r', hr', hsingle, -⟩ := hs.exists_reader habsorb
    have hreader : ∀ k ∈ s.netlist.nodes, Reads k c.output → k = r := by
      intro k hk hkreads
      refine hs.coherent.eq_of_id hk hr ?_
      rw [hs.eq_reader hsingle hk hkreads, hs.eq_reader hsingle hr hreads]
    rcases hpt with hroot | hpc
    · obtain rfl := hs.coherent.eq_of_id (h.node p hp) hc
        (hroot.trans (h.tiles hlib hs hp).root).symm
      rcases h.needed p hp with hout | ⟨p', hp', hleaf⟩
      · rw [hs.not_absorbable_of_output hout] at habsorb
        cases habsorb
      · obtain ⟨k, hk, hk', hkreads⟩ := (h.tiles hlib hs hp').leaf _ hleaf
        obtain rfl := hreader k hk hkreads
        obtain rfl := ih k hk hkreads p' hp' q hq hk' hqr
        exact absurd hqc ((h.tiles hlib hs hq).apart hs (h.node _ hq) hc habsorb hleaf)
    · obtain ⟨c', hc', hid', -, k, hk, hk', hkreads⟩ := (h.tiles hlib hs hp).inner _ hpc
      obtain rfl := hs.coherent.eq_of_id hc' hc hid'
      obtain rfl := hreader k hk hkreads
      exact ih k hk hkreads p hp q hq hk' hqr
  intro p hp q hq hpt hqt
  rcases hqt with hqroot | hqc
  · rcases hpt with hproot | hpc
    · refine h.eq_of_root hp hq (hs.coherent.eq_of_id (h.node p hp) (h.node q hq) ?_)
      rw [← (h.tiles hlib hs hp).root, ← (h.tiles hlib hs hq).root, ← hproot, ← hqroot]
    · exact (hinner q hq p hp (.inl hqroot) hpc).symm
  · exact hinner p hp q hq hpt hqc

/-- A signal with a single reader is a leaf of one match at most. -/
theorem Tight.eq_of_leaf (hp : p ∈ pairs) (hq : q ∈ pairs) (habsorb : s.isAbsorbable x = true)
    (hpx : x ∈ p.2.leaves) (hqx : x ∈ q.2.leaves) : p = q := by
  obtain ⟨r, -, hsingle, -⟩ := hs.exists_reader habsorb
  obtain ⟨k, hk, hpk, hkreads⟩ := (h.tiles hlib hs hp).leaf _ hpx
  obtain ⟨k', hk', hqk', hkreads'⟩ := (h.tiles hlib hs hq).leaf _ hqx
  have hsame : k' = k := by
    refine hs.coherent.eq_of_id hk' hk ?_
    rw [hs.eq_reader hsingle hk' hkreads', hs.eq_reader hsingle hk hkreads]
  exact h.eq_of_touches hlib hs k hk p hp q hq hpk (hsame ▸ hqk')

/-- The leaves with a single reader, over all matches, are the roots with a single reader. -/
theorem Tight.perm_absorbed : (pairs.flatMap fun p => p.2.absorbed s).Perm
    ((pairs.map fun p => p.1.output).filter s.isAbsorbable) := by
  refine (List.perm_ext_iff_of_nodup ?_ ((h.nodup_outputs hs).filter _)).2 fun x => ?_
  · refine List.nodup_flatMap.2 ⟨fun p _ => p.2.nodup_absorbed s, ?_⟩
    refine List.Pairwise.imp_of_mem (fun hp hq hne => ?_) (List.Nodup.of_map _ h.nodup)
    rintro x hpx hqx
    obtain ⟨hpx, habsorb⟩ := Match.mem_absorbed.1 hpx
    exact hne (h.eq_of_leaf hlib hs hp hq habsorb hpx (Match.mem_absorbed.1 hqx).1)
  · rw [List.mem_flatMap, List.mem_filter, List.mem_map]
    constructor
    · rintro ⟨p, hp, hx⟩
      obtain ⟨hleaf, habsorb⟩ := Match.mem_absorbed.1 hx
      obtain ⟨d, hd, hdo⟩ := Subject.exists_driver habsorb
      obtain ⟨q, hq, rfl⟩ := h.leaves p hp x hleaf d hd hdo
      exact ⟨⟨q, hq, hdo⟩, habsorb⟩
    · rintro ⟨⟨p, hp, rfl⟩, habsorb⟩
      rcases h.needed p hp with hout | ⟨q, hq, hleaf⟩
      · rw [hs.not_absorbable_of_output hout] at habsorb
        cases habsorb
      · exact ⟨q, hq, Match.mem_absorbed.2 ⟨hleaf, habsorb⟩⟩

end

/-! ## Leaving out what is superfluous -/

/-- A match whose signal is neither an output nor a leaf can be left out. -/
theorem Placed.erase {before after : List (Node × Match ν)}
    (h : Placed s lib (before ++ p :: after)) (hout : p.1.output ∉ s.netlist.outputs)
    (hleaf : ∀ q ∈ before ++ p :: after, p.1.output ∉ q.2.leaves) :
    Placed s lib (before ++ after) := by
  have hsub : List.Sublist (before ++ after) (before ++ p :: after) :=
    (List.sublist_cons_self p after).append_left before
  have hkept : ∀ q ∈ before ++ p :: after, q.1.output ≠ p.1.output → q ∈ before ++ after := by
    intro q hq hne
    rcases List.mem_append.1 hq with hq | hq
    · exact List.mem_append_left _ hq
    · rcases List.mem_cons.1 hq with rfl | hq
      · exact absurd rfl hne
      · exact List.mem_append_right _ hq
  refine ⟨fun q hq => h.node q (hsub.subset hq), fun q hq => h.isMatch q (hsub.subset hq),
    h.nodup.sublist (hsub.map _), fun o ho d hd hdo => ?_, fun q hq x hx d hd hdo => ?_⟩
  · obtain ⟨q, hq, rfl⟩ := h.outputs o ho d hd hdo
    refine ⟨q, hkept q hq fun heq => hout ?_, rfl⟩
    rw [← heq, hdo]
    exact ho
  · obtain ⟨q', hq', rfl⟩ := h.leaves q (hsub.subset hq) x hx d hd hdo
    refine ⟨q', hkept q' hq' fun heq => hleaf q (hsub.subset hq) ?_, rfl⟩
    rw [← heq, hdo]
    exact hx

/-- Every closed set of matches has a part that is tight. -/
theorem Placed.exists_tight (h : Placed s lib pairs) :
    ∃ kept, List.Sublist kept pairs ∧ Tight s lib kept := by
  induction hlength : pairs.length using Nat.strong_induction_on generalizing pairs with
  | _ length ih =>
    by_cases hneeded : ∀ p ∈ pairs,
        p.1.output ∈ s.netlist.outputs ∨ ∃ q ∈ pairs, p.1.output ∈ q.2.leaves
    · exact ⟨pairs, .refl _, h, hneeded⟩
    · simp only [not_forall, not_or, not_exists, not_and] at hneeded
      obtain ⟨p, hp, hout, hleaf⟩ := hneeded
      obtain ⟨before, after, rfl⟩ := List.append_of_mem hp
      obtain ⟨kept, hsub, htight⟩ := ih (before ++ after).length (by simp at hlength ⊢; omega)
        (h.erase hout hleaf) rfl
      exact ⟨kept, hsub.trans ((List.sublist_cons_self p after).append_left before), htight⟩

end Selection

end GateSynth
