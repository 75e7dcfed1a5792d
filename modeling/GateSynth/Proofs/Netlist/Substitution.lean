import GateSynth.Proofs.Netlist.Coherence

/-!
# Short substitutions

The substitutions that come of merging send a signal to one that stands for it, and that one at most
once more to a primary output; they never invert. Following such a substitution with as many hops
as it has entries leads to the end of every chain (`Short.follow`), and a further entry moves exactly
the signals that ended at its key (`Short.target_insert`).
-/

namespace GateSynth.Netlist

variable {ports : List String} {sub : Substitution} {key other s : String} {f g : Fanin}

/-- Chains keep the sign, start at no port, and end at a port after their second step. -/
structure Short (ports : List String) (sub : Substitution) : Prop where
  plain : ∀ {key f}, sub.find? key = some f → f.inverted = false
  free : ∀ {key f}, sub.find? key = some f → key ∉ ports
  second : ∀ {key f g}, sub.find? key = some f → sub.find? f.signal = some g → g.signal ∈ ports

/-- The end of a chain of at most two steps. -/
def target (sub : Substitution) (s : String) : String :=
  match sub.find? s with
  | none => s
  | some f => ((sub.find? f.signal).map Fanin.signal).getD f.signal

/-- The fanin at the end of a chain of at most two steps. -/
def retarget (sub : Substitution) (f : Fanin) : Fanin := ⟨target sub f.signal, f.inverted⟩

theorem Short.empty : Short ports Table.empty :=
  ⟨fun h => (by cases h), fun h => (by cases h), fun h => (by cases h)⟩

theorem target_of_none (h : sub.find? s = none) : target sub s = s := by
  simp only [target, h]

theorem target_of_some (h : sub.find? s = some f) (hf : sub.find? f.signal = none) :
    target sub s = f.signal := by
  simp only [target, h, hf, Option.map_none, Option.getD_none]

theorem target_of_two (h : sub.find? s = some f) (hf : sub.find? f.signal = some g) :
    target sub s = g.signal := by
  simp only [target, h, hf, Option.map_some, Option.getD_some]

namespace Short

theorem find?_port (h : Short ports sub) (hs : s ∈ ports) : sub.find? s = none := by
  cases hfind : sub.find? s with
  | none => rfl
  | some f => exact absurd hs (h.free hfind)

/-- The end of a chain is sent nowhere. -/
theorem find?_target (h : Short ports sub) (s : String) : sub.find? (target sub s) = none := by
  cases hs : sub.find? s with
  | none => rw [target_of_none hs, hs]
  | some f =>
    cases hf : sub.find? f.signal with
    | none => rw [target_of_some hs hf, hf]
    | some g => rw [target_of_two hs hf, h.find?_port (h.second hs hf)]

theorem target_target (h : Short ports sub) (s : String) :
    target sub (target sub s) = target sub s :=
  target_of_none (h.find?_target s)

theorem retarget_retarget (h : Short ports sub) (f : Fanin) :
    retarget sub (retarget sub f) = retarget sub f := by
  simp only [retarget, h.target_target]

/-- With as many hops as there are entries a fanin is followed to the end of its chain. -/
theorem follow (h : Short ports sub) {hops : Nat} (hhops : sub.size ≤ hops) (f : Fanin) :
    Netlist.follow sub hops f = retarget sub f := by
  have hstop : ∀ k s i, sub.find? s = none → Netlist.follow sub k ⟨s, i⟩ = ⟨s, i⟩ := by
    intro k s i hs
    cases k with
    | zero => rfl
    | succ k => simp only [Netlist.follow, hs]
  have hsize : sub.keys.length = sub.size := List.length_map _
  cases hf : sub.find? f.signal with
  | none => rw [retarget, target_of_none hf, hstop hops f.signal f.inverted hf]
  | some g =>
    have hkey := Table.mem_keys_of_find? hf
    have hplain := h.plain hf
    cases hops with
    | zero =>
      have := List.length_pos_of_mem hkey
      omega
    | succ hops =>
      simp only [Netlist.follow, hf, hplain, Bool.xor_false]
      cases hg : sub.find? g.signal with
      | none => rw [hstop hops _ _ hg, retarget, target_of_some hf hg]
      | some e =>
        have hend := h.find?_port (h.second hf hg)
        cases hops with
        | zero =>
          -- A chain of two steps has two keys: it ends at a port, and no key is one.
          have hkey' := Table.mem_keys_of_find? hg
          obtain ⟨only, honly⟩ := List.length_eq_one_iff.1
            (Nat.le_antisymm (hsize ▸ hhops) (List.length_pos_of_mem hkey))
          rw [honly, List.mem_singleton] at hkey hkey'
          have hsecond := h.second hf hg
          rw [hkey', ← hkey, hf] at hg
          cases hg
          exact absurd (hkey'.trans hkey.symm ▸ hsecond) (h.free hf)
        | succ hops =>
          simp only [Netlist.follow, hg, h.plain hg, Bool.xor_false]
          rw [hstop hops _ _ hend, retarget, target_of_two hf hg]

/-! ## A further entry -/

/-- What it takes to add an entry: it starts at the end of chains, and if it makes a second step, it
leads to a port. -/
structure Extendable (ports : List String) (sub : Substitution) (key goal : String) : Prop where
  key_free : key ∉ ports
  key_end : sub.find? key = none
  goal_end : sub.find? goal = none
  ne : goal ≠ key
  last : goal ∈ ports ∨ ∀ {k f}, sub.find? k = some f → f.signal ≠ key

theorem insert (h : Short ports sub) {goal : String} (he : Extendable ports sub key goal) :
    Short ports (sub.insert key (.plain goal)) := by
  refine ⟨fun {k f} hk => ?_, fun {k f} hk => ?_, fun {k f g} hk hf => ?_⟩
  · rw [Table.find?_insert] at hk
    split at hk
    · cases hk
      rfl
    · exact h.plain hk
  · rw [Table.find?_insert] at hk
    split at hk
    · next heq => exact heq ▸ he.key_free
    · exact h.free hk
  · rw [Table.find?_insert] at hk hf
    split at hk
    · cases hk
      rw [show (Fanin.plain goal).signal = goal from rfl, if_neg he.ne, he.goal_end] at hf
      cases hf
    · split at hf
      · next heq =>
        cases hf
        exact he.last.resolve_right fun hnone => hnone hk heq
      · exact h.second hk hf

/-- The new entry moves what ended at its key. -/
theorem target_insert (h : Short ports sub) {goal : String} (he : Extendable ports sub key goal)
    (s : String) :
    target (sub.insert key (.plain goal)) s =
      if target sub s = key then goal else target sub s := by
  have hgoal : (sub.insert key (.plain goal)).find? goal = none := by
    rw [Table.find?_insert, if_neg he.ne, he.goal_end]
  by_cases hs : s = key
  · subst hs
    rw [target_of_none he.key_end, if_pos rfl]
    exact target_of_some (Table.find?_insert_self _ _ _) hgoal
  · have hfind : (sub.insert key (.plain goal)).find? s = sub.find? s := by
      rw [Table.find?_insert, if_neg hs]
    cases hf : sub.find? s with
    | none =>
      rw [target_of_none hf, if_neg hs]
      exact target_of_none (hfind.trans hf)
    | some f =>
      by_cases hkey : f.signal = key
      · have hstep : (sub.insert key (.plain goal)).find? f.signal = some (.plain goal) := by
          rw [hkey, Table.find?_insert_self]
        rw [target_of_some hf (hkey ▸ he.key_end), if_pos hkey]
        exact target_of_two (hfind.trans hf) hstep
      · have hfind' : (sub.insert key (.plain goal)).find? f.signal = sub.find? f.signal := by
          rw [Table.find?_insert, if_neg hkey]
        cases hg : sub.find? f.signal with
        | none =>
          rw [target_of_some hf hg, if_neg hkey]
          exact target_of_some (hfind.trans hf) (hfind'.trans hg)
        | some g =>
          have hport : g.signal ≠ key := fun heq => he.key_free (heq ▸ h.second hf hg)
          rw [target_of_two hf hg, if_neg hport]
          exact target_of_two (hfind.trans hf) (hfind'.trans hg)

end Short

end GateSynth.Netlist
