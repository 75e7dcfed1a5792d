import GateSynth.Proofs.Optimize.FoldedValues

/-!
# Complete folding

What folding leaves is compared with what there is to fold at all, told without `fold`: nodes that
read nothing but literals (`becomes_of_literals`), and the identities of one known operand
(`Identity`). Each of them would become something (`Identity.becomes`), and in the end no node does.
-/

namespace GateSynth

open Netlist

namespace Folding

variable {n : Netlist} {node : Node} {op : Operator} {f x : Fanin} {c : Word}

/-! ## What there is to fold -/

/-- The fanin is driven by a literal, and this is the value that is read from it. -/
def Reads (n : Netlist) (f : Fanin) (c : Word) : Prop :=
  ∃ driver ∈ n.nodes, driver.output = f.signal ∧ ∃ value, driver.kind = .const value ∧
    c = if f.inverted then (n.width f.signal).complement value
      else (n.width f.signal).truncate value

/-- The constants that have an identity with an operator that does not mind the order of its
operands. -/
def Special (op : Operator) (w : Width) (c : Word) : Prop :=
  match op with
  | .and | .or | .xor | .nand | .nor => c = 0 ∨ c = w.mask
  | .add => c = 0
  | .mul => c = 0 ∨ c = 1
  | _ => False

/-- An identity of one known operand applies to the node. -/
inductive Identity (n : Netlist) (node : Node) : Prop
  /-- A special constant on either side, cut to the width of the output. -/
  | commutative {op : Operator} {f x : Fanin} {c : Word} (hkind : node.kind = .op op)
      (hfanins : node.fanins = [f, x] ∨ node.fanins = [x, f]) (hreads : Reads n f c)
      (hspecial : Special op (n.width node.output) ((n.width node.output).truncate c))
  /-- Zero, cut to the width of the output, is taken away. -/
  | minusZero {x f : Fanin} {c : Word} (hkind : node.kind = .op .sub)
      (hfanins : node.fanins = [x, f])
      (hreads : Reads n f c) (hzero : (n.width node.output).truncate c = 0)
  /-- One divides. -/
  | byOne {x f : Fanin} (hkind : node.kind = .op .div) (hfanins : node.fanins = [x, f])
      (hreads : Reads n f 1)
  /-- The choice is known. -/
  | chosen {d₀ d₁ f : Fanin} {c : Word} (hkind : node.kind = .op .mux)
      (hfanins : node.fanins = [d₀, d₁, f]) (hreads : Reads n f c)
  /-- The choice is one between equals. -/
  | equals {d f : Fanin} (hkind : node.kind = .op .mux) (hfanins : node.fanins = [d, d, f])

theorem Reads.constOperand (hl : n.Legal) (h : Reads n f c) : constOperand n f = some c := by
  obtain ⟨driver, hd, ho, value, hkind, rfl⟩ := h
  have hdriver := driverNode?_of_mem hl.single hd
  rw [ho] at hdriver
  simp only [Folding.constOperand, hdriver, Option.bind_eq_bind, Option.bind_some, hkind,
    Kind.constValue?]
  rfl

/-! ## It is folded -/

/-- Only a division by zero has no value. -/
theorem apply_cases (op : Operator) (operands : List Word) (w : Width) :
    (∃ value, op.apply operands w = .ok value) ∨
      op = .div ∧ operand operands 1 = 0 := by
  cases op with
  | div =>
    by_cases hzero : operand operands 1 = 0
    · exact .inr ⟨rfl, hzero⟩
    · refine .inl ⟨w.truncate (operand operands 0 / operand operands 1), ?_⟩
      simp only [Operator.apply, Operator.raw, if_neg hzero, Except.map]
  | _ => exact .inl ⟨_, rfl⟩

/-- A node whose operands are all known becomes a literal, unless it divides by zero. -/
theorem becomes_of_known (hkind : node.kind = .op op) (hsome : node.fanins ≠ [])
    (hknown : (node.fanins.map (constOperand n)).all Option.isSome = true) :
    (∃ value, Becomes n node (.const value) []) ∨
      op = .div ∧ operand ((node.fanins.map (constOperand n)).filterMap id) 1 = 0 := by
  have hall : (!node.fanins.isEmpty && node.kind.isGeneric &&
      (node.fanins.map (constOperand n)).all Option.isSome) = true := by
    simp [hsome, hkind, Kind.isGeneric, hknown]
  rcases apply_cases op ((node.fanins.map (constOperand n)).filterMap id) (n.width node.output) with
    ⟨value, hok⟩ | ⟨hdiv, hzero⟩
  · refine .inl ⟨value, ?_⟩
    rw [Becomes, fold, if_pos hall, hkind, Kind.apply, hok]
    rfl
  · exact .inr ⟨hdiv, hzero⟩

/-- If an operand is not known, the identities decide. -/
theorem fold_of_unknown (hkind : node.kind = .op op)
    (hunknown : ¬ (node.fanins.map (constOperand n)).all Option.isSome = true) :
    fold node (node.fanins.map (constOperand n)) (n.width node.output) =
      partialFold op node.fanins (node.fanins.map (constOperand n)) (n.width node.output) := by
  rw [fold, if_neg (by simp only [Bool.and_eq_true]; exact fun h => hunknown h.2), hkind]

/-- A special constant makes something of the node. -/
theorem commutativeFold_special {w : Width} (h : Special op w c) (x : Fanin) :
    ∃ kind used, commutativeFold op w c x = .become kind used := by
  cases op <;> simp only [Special] at h <;> simp only [commutativeFold]
  all_goals repeat' split
  -- Where nothing would become of the node, the constant is none of the special ones.
  all_goals first
    | exact ⟨_, _, rfl⟩
    | simp_all

/-- If one operand of two is known, it is the other one that is not. -/
theorem none_of_unknown (hl : n.Legal) (hfanins : node.fanins = [x, f]) (hreads : Reads n f c)
    (hunknown : ¬ (node.fanins.map (constOperand n)).all Option.isSome = true) :
    constOperand n x = none := by
  cases hx : constOperand n x with
  | none => rfl
  | some value => simp [hfanins, hreads.constOperand hl, hx] at hunknown

theorem splitConst_of_reads (hl : n.Legal) (hfanins : node.fanins = [f, x] ∨ node.fanins = [x, f])
    (hreads : Reads n f c)
    (hunknown : ¬ (node.fanins.map (constOperand n)).all Option.isSome = true) :
    splitConst node.fanins (node.fanins.map (constOperand n)) = some (c, x) := by
  have hf := hreads.constOperand hl
  have hx : constOperand n x = none := by
    cases hx : constOperand n x with
    | none => rfl
    | some value => rcases hfanins with h | h <;> simp [h, hf, hx] at hunknown
  rcases hfanins with h | h <;> simp [h, hf, hx, splitConst]

/-- None of the identities divides by zero, so with known operands the node becomes a literal. -/
theorem Identity.becomes_of_known (hl : n.Legal) (h : Identity n node)
    (hknown : (node.fanins.map (constOperand n)).all Option.isSome = true) :
    ∃ value, Becomes n node (.const value) [] := by
  have hliteral : ∀ {op}, node.kind = .op op → node.fanins ≠ [] →
      (op = .div → operand ((node.fanins.map (constOperand n)).filterMap id) 1 ≠ 0) →
        ∃ value, Becomes n node (.const value) [] := by
    intro op hkind hsome hnonzero
    refine (Folding.becomes_of_known hkind hsome hknown).resolve_right ?_
    rintro ⟨hdiv, hzero⟩
    exact hnonzero hdiv hzero
  cases h with
  | commutative hkind hfanins hreads hspecial =>
    refine hliteral hkind (by rcases hfanins with h | h <;> simp [h]) ?_
    rintro rfl
    exact hspecial.elim
  | minusZero hkind hfanins => exact hliteral hkind (by simp [hfanins]) fun h => by cases h
  | byOne hkind hfanins hreads =>
    refine hliteral hkind (by simp [hfanins]) fun _ => ?_
    have hone := hreads.constOperand hl
    simp only [hfanins, List.map_cons, List.map_nil, hone, List.all_cons, List.all_nil,
      Bool.and_true, Option.isSome_some] at hknown
    obtain ⟨value, hvalue⟩ := Option.isSome_iff_exists.1 hknown
    simp [hfanins, hone, hvalue, operand]
  | chosen hkind hfanins => exact hliteral hkind (by simp [hfanins]) fun h => by cases h
  | equals hkind hfanins => exact hliteral hkind (by simp [hfanins]) fun h => by cases h

/-- With an operand that is not known, the identity says what becomes of the node. -/
theorem Identity.becomes_of_unknown (hl : n.Legal) (h : Identity n node)
    (hunknown : ¬ (node.fanins.map (constOperand n)).all Option.isSome = true) :
    ∃ kind used, Becomes n node kind used := by
  have hfold : ∀ {op}, node.kind = .op op →
      (∃ kind used, partialFold op node.fanins (node.fanins.map (constOperand n))
        (n.width node.output) = .become kind used) → ∃ kind used, Becomes n node kind used := by
    rintro op hkind ⟨kind, used, hpartial⟩
    exact ⟨kind, used, (fold_of_unknown hkind hunknown).trans hpartial⟩
  cases h with
  | @commutative op f x c hkind hfanins hreads hspecial =>
    have hsplit := splitConst_of_reads hl hfanins hreads hunknown
    obtain ⟨kind, used, hbecome⟩ := commutativeFold_special hspecial x
    refine hfold hkind ⟨kind, used, ?_⟩
    cases op <;> first | exact hspecial.elim | simp only [partialFold, hsplit, hbecome]
  | @minusZero x f c hkind hfanins hreads hzero =>
    have hx := none_of_unknown hl hfanins hreads hunknown
    refine hfold hkind ⟨.op .buf, [x], ?_⟩
    simp [partialFold, hfanins, hx, hreads.constOperand hl, hzero, Fold.buffer]
  | @byOne x f hkind hfanins hreads =>
    have hx := none_of_unknown hl hfanins hreads hunknown
    refine hfold hkind ⟨.op .buf, [x], ?_⟩
    simp [partialFold, hfanins, hx, hreads.constOperand hl, Fold.buffer]
  | @chosen d₀ d₁ f c hkind hfanins hreads =>
    refine hfold hkind ⟨.op .buf, [if c = 0 then d₀ else d₁], ?_⟩
    simp [partialFold, hfanins, hreads.constOperand hl, Fold.buffer]
  | @equals d f hkind hfanins =>
    refine hfold hkind ⟨.op .buf, [d], ?_⟩
    cases hf : constOperand n f <;> simp [partialFold, hfanins, hf, Fold.buffer]

/-- Where an identity applies, the node becomes something. -/
theorem Identity.becomes (hl : n.Legal) (h : Identity n node) :
    ∃ kind used, Becomes n node kind used := by
  by_cases hknown : (node.fanins.map (constOperand n)).all Option.isSome = true
  · obtain ⟨value, hbecomes⟩ := h.becomes_of_known hl hknown
    exact ⟨_, _, hbecomes⟩
  · exact h.becomes_of_unknown hl hknown

/-- A node that reads nothing but literals becomes one, unless it divides by zero or is one already
or has no function. -/
theorem becomes_of_literals (hl : n.Legal) (hm : node ∈ n.nodes)
    (hreads : ∀ f ∈ node.fanins, ∃ c, Reads n f c) :
    (∃ kind used, Becomes n node kind used) ∨ (∃ value, node.kind = .const value) ∨
      (∃ name, node.kind = .module name) ∨ (∃ name init, node.kind = .cell name init) ∨
      node.kind = .op .div ∧ ∃ x f, node.fanins = [x, f] ∧ Reads n f 0 := by
  cases hkind : node.kind with
  | const value => exact .inr (.inl ⟨value, rfl⟩)
  | module name => exact .inr (.inr (.inl ⟨name, rfl⟩))
  | cell name init => exact .inr (.inr (.inr (.inl ⟨name, init, rfl⟩)))
  | op op =>
    have harity : op.arity = node.fanins.length := hl.arity node hm _ (by rw [hkind]; rfl)
    have hsome : node.fanins ≠ [] := by
      intro hnil
      rw [hnil] at harity
      cases op <;> cases harity
    have hknown : (node.fanins.map (constOperand n)).all Option.isSome = true := by
      rw [List.all_map, List.all_eq_true]
      intro f hf
      obtain ⟨c, hc⟩ := hreads f hf
      rw [Function.comp_apply, hc.constOperand hl]
      rfl
    rcases becomes_of_known hkind hsome hknown with ⟨value, hbecomes⟩ | ⟨rfl, hzero⟩
    · exact .inl ⟨_, _, hbecomes⟩
    · obtain ⟨x, f, hfanins⟩ := List.length_eq_two.1 harity.symm
      rw [hfanins] at hreads hzero
      obtain ⟨a, ha⟩ := hreads x (.head _)
      obtain ⟨b, hb⟩ := hreads f (.tail _ (.head _))
      have hb0 : b = 0 := by simpa [ha.constOperand hl, hb.constOperand hl, operand] using hzero
      exact .inr (.inr (.inr (.inr ⟨rfl, x, f, hfanins, hb0 ▸ hb⟩)))

end Folding

namespace Netlist

variable {n : Netlist}

/-- Where there is nothing to fold, folding changes nothing. -/
theorem Legal.foldConstants_of_folded (hl : n.Legal) (hc : n.Coherent)
    (h : ∀ node ∈ n.nodes, ∀ kind used, ¬ Folding.Becomes n node kind used) :
    ∃ outcome, n.foldConstants false = (n, .ok outcome) ∧ outcome.changes = 0 := by
  obtain ⟨outcome, hok⟩ := hl.foldConstants_isOk hc
  have hstep : Folding.KeptByChanges fun m c => m = n ∧ c = 0 := by
    rintro m c node kind used _ _ ⟨rfl, -⟩ hm hbecomes
    exact absurd hbecomes (h node hm kind used)
  obtain ⟨c, hkept, hcount⟩ := hl.foldConstants_holds hc false hstep ⟨rfl, rfl⟩
  exact ⟨outcome, Prod.ext hkept.holds.1 hok, (hcount outcome hok).trans hkept.holds.2⟩

/-- Folding constants ends and is complete: without `strict` the loop that sweeps for as long as
something changes comes to an end, with the result of `foldConstants`. Of the nodes that read
nothing but literals only literals, instances, cells and divisions by zero are left; no identity of
one known operand applies to any node; and folding once more changes nothing. -/
theorem foldConstants_complete (hc : n.Coherent) (hv : n.validate = .ok ()) :
    ∃ n' outcome, Folding.FoldsOn n Table.empty 0 n' outcome ∧
      n.foldConstants false = (n', .ok outcome) ∧
      (∀ node ∈ n'.nodes, (∀ f ∈ node.fanins, ∃ c, Folding.Reads n' f c) →
        (∃ value, node.kind = .const value) ∨ (∃ name, node.kind = .module name) ∨
          (∃ name init, node.kind = .cell name init) ∨
          node.kind = .op .div ∧ ∃ x f, node.fanins = [x, f] ∧ Folding.Reads n' f 0) ∧
      (∀ node ∈ n'.nodes, ¬ Folding.Identity n' node) ∧
      ∃ again, n'.foldConstants false = (n', .ok again) ∧ again.changes = 0 := by
  have hl := hc.legal_of_validate hv
  obtain ⟨n', outcome, hon, hsweeps⟩ := Folding.foldsOn_of_legal Table.empty 0 hc hl
  have hp : Preserved n (n.foldConstants false).1 := hl.foldConstants_preserved hc
  have hfolded : ∀ node ∈ n'.nodes, ∀ kind used, ¬ Folding.Becomes n' node kind used :=
    fun node hm kind used => hon.exhausted hc hl hm
  rw [foldConstants, hsweeps] at hp
  refine ⟨n', outcome, hon, hsweeps, fun node hm hreads => ?_, fun node hm hidentity => ?_, ?_⟩
  · refine (Folding.becomes_of_literals hp.legal hm hreads).resolve_left ?_
    rintro ⟨kind, used, hbecomes⟩
    exact hfolded node hm kind used hbecomes
  · obtain ⟨kind, used, hbecomes⟩ := hidentity.becomes hp.legal
    exact hfolded node hm kind used hbecomes
  · exact hp.legal.foldConstants_of_folded hp.coherent hfolded

end Netlist

/-- Four gates are folded, one of them a multiplexer with a known choice, and then no more. -/
theorem foldConstants_complete_mixedWidths :
    MixedWidths.netlist.Coherent ∧ MixedWidths.netlist.validate = .ok () ∧
      ∃ n', Folding.FoldsOn MixedWidths.netlist Table.empty 0 n' ⟨4, []⟩ ∧
        ∃ again, n'.foldConstants false = (n', .ok again) ∧ again.changes = 0 := by
  obtain ⟨n', outcome, hon, hfold, -, -, hagain⟩ :=
    Netlist.foldConstants_complete MixedWidths.coherent MixedWidths.valid
  have houtcome := MixedWidths.folded
  rw [hfold] at houtcome
  cases houtcome
  exact ⟨MixedWidths.coherent, MixedWidths.valid, n', hon, hagain⟩

end GateSynth
