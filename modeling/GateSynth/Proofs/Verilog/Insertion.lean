import GateSynth.Proofs.Simulation.Extensions
import GateSynth.Proofs.Verilog.ParallelStatements

/-!
# One statement among others

A netlist that is built by many statements consists of what one of them builds alone and what the
others build without it, up to the names of temporary signals (`exists_joins`). So a value for
every signal that satisfies the others can be carried over from one netlist to another in which that
statement reads differently, and it satisfies all of the second one if it satisfies what the
statement builds there (`Joins.exists_valuation`).
-/

namespace GateSynth.Verilog.Elaborate

open Netlist

/-! ## Netlists around a copy -/

/-- What has come to a netlist is put among the surroundings. -/
def Surroundings.grow (around : Surroundings) (n n' : Netlist) : Surroundings where
  fixed := around.fixed
  nodes b := around.nodes b ∨ b ∈ n'.nodes ∧ b ∉ n.nodes
  names t := around.names t ∨ n'.isTaken t = true ∧ n.isTaken t = false

section
variable {around : Surroundings} {r : Pairing} {k n n' : Netlist}
  {below outside : String → Prop}

/-- At first everything is a copy of itself. -/
theorem hosts_self (fixed : String → Prop) (hnodes : n.nodes = [])
    (hfixed : ∀ s, fixed s → Flat s → n.isTaken s = true)
    (htaken : ∀ s, n.isTaken s = true → fixed s) :
    Hosts ⟨fixed, fun _ => False, fun _ => False⟩ (fun s t => s = t ∧ fixed s) n n where
  inputs := rfl
  fixed hs := ⟨rfl, hs⟩
  fixed_taken hs hflat := ⟨hfixed _ hs hflat, hfixed _ hs hflat⟩
  temporary hr := .inl hr.2
  left hs := ⟨_, rfl, htaken _ hs⟩
  right ht := .inr ⟨_, rfl, htaken _ ht⟩
  unique hr hr' := hr.1.symm.trans hr'.1
  injective hr hr' := hr.1.trans hr'.1.symm
  width hr := by rw [hr.1]
  apart ht := ht.elim
  copied a ha := by
    rw [hnodes] at ha
    cases ha
  node b hb := by
    rw [hnodes] at hb
    cases hb

/-- A copy stays one while the netlist around it grows. -/
theorem Hosts.grow (h : Hosts around r k n) (hn : Confined below outside n n')
    (hflat : ∀ s, below s → ¬ Flat s) (hfixed : ∀ s, below s → ¬ around.fixed s) :
    Hosts (around.grow n n') r k n' := by
  -- a name that stands for something was taken before, or it is fixed and still not taken
  have hold : ∀ {s t}, r s t → n.isTaken t = true ∨ n'.isTaken t = false ∧ n.isTaken t = false := by
    intro s t hr
    rcases h.temporary hr with hs | ⟨-, -, ht⟩
    · rw [h.eq_left hr hs] at hs
      cases ht : n.isTaken t with
      | true => exact .inl rfl
      | false =>
        refine .inr ⟨Bool.eq_false_iff.2 fun ht' => ?_, rfl⟩
        rw [← Bool.not_eq_true] at ht
        rcases hn.newNames t ht' with hold | hflat | hbelow
        · exact ht hold
        · exact ht (h.fixed_taken hs hflat).2
        · exact hfixed t hbelow hs
    · exact .inl ht
  constructor
  case inputs => rw [hn.inputs, h.inputs]
  case fixed => exact h.fixed
  case fixed_taken => exact fun hs hflat => (h.fixed_taken hs hflat).imp_right (hn.taken _)
  case temporary =>
    exact fun hr => (h.temporary hr).imp_right fun ⟨hflat, hs, ht⟩ => ⟨hflat, hs, hn.taken _ ht⟩
  case left => exact h.left
  case right =>
    intro t ht
    cases hold : n.isTaken t with
    | true => exact (h.right hold).imp_left .inl
    | false => exact .inl (.inr ⟨ht, hold⟩)
  case unique => exact h.unique
  case injective => exact h.injective
  case width =>
    intro s t hr
    rw [h.width hr]
    rcases hold hr with ht | ⟨ht', ht⟩
    · refine (hn.width t ht fun hbelow => ?_).symm
      rcases h.temporary hr with hs | ⟨hflat', -, -⟩
      · exact hfixed t hbelow (h.eq_left hr hs ▸ hs)
      · exact hflat t hbelow hflat'
    · rw [width_of_not_taken ht, width_of_not_taken ht']
  case apart =>
    rintro t (ht | ⟨ht', ht⟩)
    · exact (h.apart ht).imp_left (hn.taken t)
    · refine ⟨ht', fun s hr => ?_⟩
      rcases hold hr with htaken | ⟨hfree, -⟩
      · rw [ht] at htaken
        cases htaken
      · rw [ht'] at hfree
        cases hfree
  case copied =>
    intro a ha
    obtain ⟨b, hb, hcopies⟩ := h.copied a ha
    exact ⟨b, hn.nodes b hb, hcopies⟩
  case node =>
    intro b hb
    by_cases hmem : b ∈ n.nodes
    · exact (h.node b hmem).imp_left .inl
    · exact .inl (.inr ⟨hb, hmem⟩)

end

/-! ## Two copies side by side -/

/-- The netlist `n` consists of a copy of `k` and a copy of `c`, which share no names but those of
`declared`. -/
structure Joins (declared : String → Prop) (r q : Pairing) (k c n : Netlist) : Prop where
  /-- Everything besides the copy of `k`. -/
  exists_hosts : ∃ around : Surroundings, Hosts around r k n ∧ (∀ s, declared s → around.fixed s) ∧
    (∀ b, around.nodes b → ∃ a ∈ c.nodes, q.Copies a b) ∧
    ∀ s t, q s t → declared s ∨ around.names t
  /-- Everything besides the copy of `c`. -/
  exists_hosts' : ∃ around : Surroundings, Hosts around q c n ∧ ∀ s, declared s → around.fixed s

section
variable {n₀ n₁ n₂ n₃ : Netlist} {before before' statement after after' : Build Unit}
  {below below' outside outside' outside'' : String → Prop}

/-- Steps that run in parallel in any surroundings in which the given names stay what they are. -/
def Portable (declared : String → Prop) (x y : Build Unit) : Prop :=
  ∀ (around : Surroundings) ⦃r⦄, (∀ s, ¬ Flat s → around.fixed s) → (∀ s, declared s → r s s) →
    Parallel around r x y Pairing.Done

/-- What a statement builds between others is what it builds alone, and what they build without it
remains the same. -/
theorem exists_joins (hnodes : n₀.nodes = []) (hflat : ∀ s, n₀.isTaken s = true → Flat s)
    (hbefore : Portable (fun s => n₀.isTaken s = true) before' before)
    (hafter : Portable (fun s => n₀.isTaken s = true) after' after)
    (hstatement : ∀ ⦃around r⦄, (∀ s, n₀.isTaken s = true → r s s) →
      Parallel around r statement statement Pairing.Done)
    (h₁ : before.run n₀ = .ok ((), n₁)) (h₂ : statement.run n₁ = .ok ((), n₂))
    (h₃ : after.run n₂ = .ok ((), n₃)) (hn₁ : Confined below outside n₀ n₁)
    (hn₂ : Confined (fun _ => False) outside' n₁ n₂) (hn₃ : Confined below' outside'' n₂ n₃)
    (hbelow : ∀ s, below s → ¬ Flat s) (hbelow' : ∀ s, below' s → ¬ Flat s) :
    ∃ k c r q, (before' >>= fun _ => after').run n₀ = .ok ((), k) ∧
      statement.run n₀ = .ok ((), c) ∧ Joins (fun s => n₀.isTaken s = true) r q k c n₃ := by
  -- beside the others, names below instances are fixed too
  have hhosts := hosts_self (fun s => n₀.isTaken s = true ∨ ¬ Flat s) hnodes
    (fun s hs hflat => hs.resolve_right fun hnot => hnot hflat) fun s => .inl
  obtain ⟨r₁, _, k₁, hr₁, hk₁, hhosts₁, -⟩ := hbefore ⟨_, _, _⟩ (fun s hs => .inr hs)
    (fun s hs => ⟨rfl, .inl hs⟩) (le_refl _) hhosts h₁
  have hhosts₂ := hhosts₁.grow hn₂ (fun _ hs => hs.elim) fun _ hs => hs.elim
  have hfixed₁ : ∀ s, n₀.isTaken s = true → r₁ s s := fun s hs => hr₁ _ _ ⟨rfl, .inl hs⟩
  obtain ⟨r, _, k, -, hk, hhosts₃, -⟩ :=
    hafter ⟨_, _, _⟩ (fun s hs => .inr hs) hfixed₁ (le_refl _) hhosts₂ h₃
  -- alone, they may be declared around the statement
  have hown := hosts_self (fun s => n₀.isTaken s = true) hnodes (fun _ hs _ => hs) fun _ hs => hs
  have hdeclared : ∀ s, ¬ Flat s → ¬ n₀.isTaken s = true := fun s hs htaken => hs (hflat s htaken)
  have hown₁ := hown.grow hn₁ hbelow fun s hs => hdeclared s (hbelow s hs)
  obtain ⟨q, _, c, -, hc, hown₂, -⟩ := hstatement (fun s hs => ⟨rfl, hs⟩) (le_refl _) hown₁ h₂
  have hown₃ := hown₂.grow hn₃ hbelow' fun s hs => hdeclared s (hbelow' s hs)
  refine ⟨k, c, r, q, (run_bind_of_run hk₁).trans hk, hc,
    ⟨_, hhosts₃, fun s hs => .inl hs, fun b hb => ?_, fun s t hq => ?_⟩,
    ⟨_, hown₃, fun s hs => hs⟩⟩
  · obtain ⟨hb, hnew⟩ := hb.resolve_left id
    refine (hown₂.node b hb).resolve_left ?_
    rintro (h | ⟨hb₁, -⟩)
    · exact h
    · exact hnew hb₁
  · rcases hown₂.temporary hq with hs | ⟨-, -, ht⟩
    · exact .inl hs
    · cases hs : n₁.isTaken t with
      | false => exact .inr (.inr ⟨ht, hs⟩)
      | true =>
        cases h₀ : n₀.isTaken t with
        | true =>
          left
          rw [hown₂.eq_right hq h₀]
          exact h₀
        | false => exact absurd hq ((hown₂.apart (.inr ⟨hs, h₀⟩)).2 s)

end

/-! ## Values of copies -/

/-- Signals that stand for each other have the same value. -/
def Pairing.Agree (r : Pairing) (u v : Valuation) : Prop := ∀ ⦃s t⦄, r s t → u s = v t

theorem Pairing.exists_agree (r : Pairing) (h : ∀ ⦃s t t'⦄, r s t → r s t' → t = t')
    (v other : Valuation) : ∃ u : Valuation, r.Agree u v ∧ ∀ s, (∀ t, ¬ r s t) → u s = other s := by
  have hvalue : ∀ s, ∃ x, (∀ t, r s t → x = v t) ∧ ((∀ t, ¬ r s t) → x = other s) := by
    intro s
    by_cases hs : ∃ t, r s t
    · obtain ⟨t, ht⟩ := hs
      exact ⟨v t, fun t' ht' => by rw [h ht ht'], fun hnone => absurd ht (hnone t)⟩
    · exact ⟨other s, fun t ht => absurd ⟨t, ht⟩ hs, fun _ => rfl⟩
  choose u hu hother using hvalue
  exact ⟨u, fun s t hr => hu s t hr, hother⟩

namespace Hosts

variable {around : Surroundings} {r : Pairing} {k n : Netlist} {cells : CellFunctions}
  {u v : Valuation} {a b : Node}

theorem seen_eq (h : Hosts around r k n) (huv : r.Agree u v) {f g : Fanin} (hread : r.Reads f g) :
    u.seen k f = v.seen n g := by
  rw [Valuation.seen, Valuation.seen, hread.2, h.width hread.1, huv hread.1]

/-- A node obeys its equation exactly if its copy does. -/
theorem obeys_iff (h : Hosts around r k n) (huv : r.Agree u v) (hcopies : r.Copies a b) :
    u.result k cells a = some (u a.output) ↔ v.result n cells b = some (v b.output) := by
  have hseen : a.fanins.map (u.seen k) = b.fanins.map (v.seen n) := by
    rw [← List.forall₂_eq_eq_eq, List.forall₂_map_left_iff, List.forall₂_map_right_iff]
    exact hcopies.fanins.imp fun _ _ hread => h.seen_eq huv hread
  rw [Valuation.result_congr hcopies.kind (h.width hcopies.output) hseen, huv hcopies.output]

/-- The values of a netlist are values of the copy inside. -/
theorem exists_inside (h : Hosts around r k n) (hv : ∀ t, (n.width t).truncate (v t) = v t) :
    ∃ u, r.Agree u v ∧ ∀ s, (k.width s).truncate (u s) = u s := by
  obtain ⟨u, huv, hzero⟩ := r.exists_agree (fun _ _ _ hr hr' => h.unique hr hr') v fun _ => 0
  refine ⟨u, huv, fun s => ?_⟩
  by_cases hs : ∃ t, r s t
  · obtain ⟨t, ht⟩ := hs
    rw [h.width ht, huv ht, hv]
  · rw [hzero s fun t ht => hs ⟨t, ht⟩]
    exact Width.truncate_zero _

/-- What satisfies a netlist satisfies the copy inside. -/
theorem exists_satisfies (h : Hosts around r k n) (hv : Satisfies n cells v) :
    ∃ u, r.Agree u v ∧ Satisfies k cells u := by
  obtain ⟨u, huv, hfits⟩ := h.exists_inside hv.fits
  refine ⟨u, huv, fun a ha => ?_, hfits⟩
  obtain ⟨b, hb, hcopies⟩ := h.copied a ha
  exact (h.obeys_iff huv hcopies).2 (hv.node b hb)

end Hosts

namespace Joins

variable {declared : String → Prop} {r q r' q' : Pairing} {k c n c' n' : Netlist}
  {cells : CellFunctions} {u v v' : Valuation} {y : String}

/-- Values that satisfy `k` extend to values that obey all of `n` but the nodes of `c` that drive
declared names. -/
theorem exists_valuation (h : Joins declared r q k c n) (hl : n.Legal)
    (hcomputed : ∀ a ∈ c.nodes, Computed a.kind) (hu : Satisfies k cells u) :
    ∃ v, r.Agree u v ∧ (∀ t, (n.width t).truncate (v t) = v t) ∧
      ∀ b ∈ n.nodes, (∃ a ∈ k.nodes, r.Copies a b) ∨ ¬ declared b.output →
        v.result n cells b = some (v b.output) := by
  obtain ⟨around, hhosts, hfixed, hnodes, hown⟩ := h.exists_hosts
  obtain ⟨w, huw, hzero⟩ :=
    Pairing.exists_agree (fun t s => r s t) (fun _ _ _ hr hr' => hhosts.injective hr hr') u fun _ => 0
  -- all is held but the temporary signals of the statement, which are computed
  obtain ⟨held, hheld⟩ : ∃ held : String → Prop, ∀ t, ¬ held t ↔ around.names t :=
    ⟨fun t => ¬ around.names t, fun _ => not_not⟩
  have hresult : ∀ b ∈ n.nodes, ¬ held b.output →
      ∀ v : Valuation, (v.result n cells b).isSome = true := by
    intro b hb hname v
    rcases hhosts.node b hb with hnode | ⟨a, -, hcopies⟩
    · obtain ⟨a, ha, hcopies⟩ := hnodes b hnode
      have hkind := hcomputed a ha
      rw [hcopies.kind] at hkind
      rw [Valuation.result]
      cases hk : b.kind with
      | op | const => rfl
      | module | cell =>
        rw [hk] at hkind
        cases hkind
    · exact absurd hcopies.output ((hhosts.apart ((hheld _).1 hname)).2 _)
  obtain ⟨v, hobeys, hsame⟩ := hl.exists_extension hresult w
  have huv : r.Agree u v := by
    intro s t hr
    have ht : held t := by_contra fun hname => (hhosts.apart ((hheld t).1 hname)).2 s hr
    rw [hsame t fun b _ _ => ht, huw hr]
  have hall : ∀ b ∈ n.nodes, (∃ a ∈ k.nodes, r.Copies a b) ∨ ¬ declared b.output →
      v.result n cells b = some (v b.output) := by
    intro b hb hcase
    by_cases hcopy : ∃ a ∈ k.nodes, r.Copies a b
    · obtain ⟨a, ha, hcopies⟩ := hcopy
      exact (hhosts.obeys_iff huv hcopies).1 (hu.node a ha)
    · obtain ⟨a, ha, hcopies⟩ := hnodes b ((hhosts.node b hb).resolve_right hcopy)
      refine hobeys b hb ((hheld _).2 ((hown _ _ hcopies.output).resolve_left fun ha => ?_))
      obtain ⟨around', hhosts', hfixed'⟩ := h.exists_hosts'
      rw [hhosts'.eq_left hcopies.output (hfixed' _ ha)] at ha
      exact hcase.resolve_left hcopy ha
  refine ⟨v, huv, fun t => ?_, hall⟩
  by_cases ht : ∃ b ∈ n.nodes, b.output = t ∧ ¬ held t
  · obtain ⟨b, hb, rfl, hname⟩ := ht
    exact Valuation.truncate_result (hobeys b hb hname)
  · rw [hsame t fun b hb ho => by_contra fun hname => ht ⟨b, hb, ho, hname⟩]
    by_cases hs : ∃ s, r s t
    · obtain ⟨s, hr⟩ := hs
      rw [huw hr, ← hhosts.width hr, hu.fits]
    · rw [hzero t fun s hr => hs ⟨s, hr⟩]
      exact Width.truncate_zero _

/-- A declared name keeps its name in both copies. -/
theorem eq_of_declared (h : Joins declared r q k c n) {s t : String} (ht : declared t) :
    (r s t → s = t) ∧ (q s t → s = t) := by
  obtain ⟨around, hhosts, hfixed, -⟩ := h.exists_hosts
  obtain ⟨around', hhosts', hfixed'⟩ := h.exists_hosts'
  exact ⟨fun hr => hhosts.eq_right hr (hfixed t ht), fun hq => hhosts'.eq_right hq (hfixed' t ht)⟩

theorem inputs (h : Joins declared r q k c n) : k.inputs = n.inputs :=
  let ⟨_, hhosts, _⟩ := h.exists_hosts
  hhosts.inputs

theorem width (h : Joins declared r q k c n) {s : String} (hs : declared s) :
    k.width s = n.width s := by
  obtain ⟨around, hhosts, hfixed, -⟩ := h.exists_hosts
  exact hhosts.width (hhosts.fixed (hfixed s hs))

/-- Every node is a copy. -/
theorem copies (h : Joins declared r q k c n) {b : Node} (hb : b ∈ n.nodes) :
    (∃ a ∈ k.nodes, r.Copies a b) ∨ ∃ a ∈ c.nodes, q.Copies a b := by
  obtain ⟨around, hhosts, -, hnodes, -⟩ := h.exists_hosts
  exact (hhosts.node b hb).symm.imp_right (hnodes b)

/-- A declared name that the statement does not drive is defined as it is without the statement. -/
theorem isDefined_iff (h : Joins declared r q k c n) {s : String} (hs : declared s)
    (hc : ∀ a ∈ c.nodes, a.output ≠ s) : n.isDefined s = true ↔ k.isDefined s = true := by
  obtain ⟨around, hhosts, hfixed, -⟩ := h.exists_hosts
  refine ⟨fun hdefined => ?_, hhosts.isDefined_of_fixed (hhosts.fixed (hfixed s hs))⟩
  rcases Netlist.isDefined_iff.1 hdefined with ⟨b, hb, rfl⟩ | hin
  · rcases h.copies hb with ⟨a, ha, hcopies⟩ | ⟨a, ha, hcopies⟩
    · rw [← (h.eq_of_declared hs).1 hcopies.output]
      exact isDefined_of_node ha
    · exact absurd ((h.eq_of_declared hs).2 hcopies.output) (hc a ha)
  · exact isDefined_of_input (h.inputs ▸ hin)

/-- The values of a netlist in which a statement reads differently, as values of this one. They obey
all of its nodes but those that drive the target of the statement. -/
theorem exists_transfer (h : Joins declared r q k c n) (h' : Joins declared r' q' k c' n')
    (hl : n.Legal) (hcomputed : ∀ a ∈ c.nodes, Computed a.kind)
    (hy : ∀ a ∈ c.nodes, declared a.output → a.output = y) (hv' : Satisfies n' cells v') :
    ∃ v : Valuation, (∀ s, declared s → v s = v' s) ∧
      (∀ t, (n.width t).truncate (v t) = v t) ∧ n.Obeys cells (fun s => s = y) v := by
  obtain ⟨around', hhosts', hfixed', -⟩ := h'.exists_hosts
  obtain ⟨u, hu, hsatisfies⟩ := hhosts'.exists_satisfies hv'
  obtain ⟨v, hv, hfits, hobeys⟩ := h.exists_valuation hl hcomputed hsatisfies
  obtain ⟨around, hhosts, hfixed, -⟩ := h.exists_hosts
  refine ⟨v, fun s hs => ?_, hfits, fun b hb hne => hobeys b hb ?_⟩
  · rw [← hv (hhosts.fixed (hfixed s hs)), hu (hhosts'.fixed (hfixed' s hs))]
  · refine (h.copies hb).imp_right fun ⟨a, ha, hcopies⟩ hb' => hne ?_
    have heq := (h.eq_of_declared hb').2 hcopies.output
    rw [← heq] at hb' ⊢
    exact hy a ha hb'

section
variable (h : Joins declared r q k c n) (h' : Joins declared r' q' k c' n') (hl : n.Legal)
  (hcomputed : ∀ a ∈ c.nodes, Computed a.kind)
  (hy : ∀ a ∈ c.nodes, declared a.output → a.output = y) (hdeclared : declared y)
  (hports : ∀ i ∈ k.inputs, declared i) (hv : Satisfies n cells v) (hv' : Satisfies n' cells v')
  (hinputs : ∀ i ∈ k.inputs, v i = v' i)

include h h' hl hcomputed hy hdeclared hports hv hv' hinputs

/-- Two netlists that differ in a statement give all declared names the same values once they give
its target the same value. -/
theorem values_eq (hy' : ∀ a ∈ c'.nodes, declared a.output → a.output = y)
    (hzero : ∀ s, n.isDefined s = false → v s = 0)
    (hzero' : ∀ s, n'.isDefined s = false → v' s = 0) (htarget : v y = v' y) :
    ∀ s, declared s → v s = v' s := by
  obtain ⟨w, hw, -, hobeys⟩ := h.exists_transfer h' hl hcomputed hy hv'
  intro s hs
  by_cases hsy : s = y
  · rw [hsy, htarget]
  cases hdefined : n.isDefined s with
  | true =>
    rw [← hw s hs]
    refine hl.eq_of_extensions (fun b hb _ => hv.node b hb) hobeys (fun i hi => ?_) ?_ hdefined
    · rw [← h.inputs] at hi
      rw [hinputs i hi, hw i (hports i hi)]
    · rintro _ rfl
      rw [htarget, hw _ hdeclared]
  | false =>
    have hdefined' : n'.isDefined s = false := by
      rw [← Bool.not_eq_true] at hdefined ⊢
      rw [h.isDefined_iff hs fun a ha ho => hsy (ho ▸ hy a ha (ho ▸ hs))] at hdefined
      rwa [h'.isDefined_iff hs fun a ha ho => hsy (ho ▸ hy' a ha (ho ▸ hs))]
    rw [hzero s hdefined, hzero' s hdefined']

/-- They do so if the values of the other netlist satisfy what the statement builds in this one. -/
theorem target_eq (hdrives : ∃ a ∈ c.nodes, a.output = y)
    (hstatement : ∀ x : Valuation, (∀ s, declared s → x s = v' s) →
      (∀ s, (c.width s).truncate (x s) = x s) → c.Obeys cells (fun s => s = y) x →
      ∀ a ∈ c.nodes, x.result c cells a = some (x a.output)) : v y = v' y := by
  obtain ⟨w, hw, hfits, hobeys⟩ := h.exists_transfer h' hl hcomputed hy hv'
  obtain ⟨around, hhosts, hfixed⟩ := h.exists_hosts'
  obtain ⟨x, hx, hfits'⟩ := hhosts.exists_inside hfits
  have hxw : ∀ s, declared s → x s = v' s := fun s hs => by
    rw [hx (hhosts.fixed (hfixed s hs)), hw s hs]
  have hsatisfied := hstatement x hxw hfits' fun a ha hne => by
    obtain ⟨b, hb, hcopies⟩ := hhosts.copied a ha
    refine (hhosts.obeys_iff hx hcopies).2 (hobeys b hb fun ho => hne ?_)
    have houtput := hcopies.output
    rw [ho] at houtput
    exact (h.eq_of_declared hdeclared).2 houtput
  -- so the values obey the node that drives the target too
  obtain ⟨a, ha, ho⟩ := hdrives
  obtain ⟨b, hb, hcopies⟩ := hhosts.copied a ha
  have hob : b.output = y := by
    have houtput := hcopies.output
    rw [ho] at houtput
    exact (hhosts.eq_left houtput (hfixed y hdeclared)).symm
  have hall : n.Obeys cells (fun _ => False) w := by
    intro d hd _
    by_cases hod : d.output = y
    · rw [List.inj_on_of_nodup_map hl.single hd hb (hod.trans hob.symm)]
      exact (hhosts.obeys_iff hx hcopies).1 (hsatisfied a ha)
    · exact hobeys d hd hod
  have hdefined : n.isDefined y = true := hob ▸ isDefined_of_node hb
  rw [← hw y hdeclared]
  refine hl.eq_of_extensions (fun b hb _ => hv.node b hb) hall (fun i hi => ?_) (fun _ hs => hs.elim)
    hdefined
  rw [← h.inputs] at hi
  rw [hinputs i hi, hw i (hports i hi)]

end

end Joins

end GateSynth.Verilog.Elaborate
