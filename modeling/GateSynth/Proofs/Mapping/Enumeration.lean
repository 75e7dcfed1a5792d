import GateSynth.Proofs.Mapping.Remapping

/-!
# All matches

`Occurs` says, without looking for it, that a pattern occurs at a signal when its pins are bound in a
given way. What `expand` finds is just this: everything that it finds occurs under any binding that
agrees with it (`occurs_of_expand`), and of a pattern that occurs it loses nothing
(`expand_of_occurs`). So the matches of a node are the occurrences of the functions of the cells
(`mem_nodeMatches`). Two matches with the same leaves that cover the same nodes in another order are
different matches.
-/

namespace GateSynth

/-! ## Occurrences without a search -/

mutual

/-- Is there a constant in the pattern? -/
def Pattern.hasConst : Pattern → Bool
  | .pin _ => false
  | .const => true
  | .op _ args | .module _ args => Pattern.haveConst args

/-- Is there a constant in one of the patterns? -/
def Pattern.haveConst : List Pattern → Bool
  | [] => false
  | p :: rest => p.hasConst || Pattern.haveConst rest

end

/-- A node that drives a signal can be where a pattern goes on: at the root any can, below it one that
is absorbable and has the width of the root. -/
structure Subject.Stands (s : Subject) (w : Width) (signal : String) (isRoot : Bool) (node : Node) :
    Prop where
  mem : node ∈ s.netlist.nodes
  output : node.output = signal
  below : isRoot = false → s.isAbsorbable signal = true ∧ s.netlist.width signal = w

/-- The operands of a kind as they stand, or the two of a commutative kind swapped. -/
inductive Kind.Ordered (kind : Kind) : (signals operands : List String) → Prop
  | straight {signals : List String} : Ordered kind signals signals
  | swapped {a b : String} : kind.isCommutative = true → Ordered kind [a, b] [b, a]

/-- The nodes that an operator or constant of a pattern covers. -/
def ownNodes (isRoot : Bool) (node : Node) : List NodeId := if isRoot then [] else [node.id]

section
variable (s : Subject) (w : Width) (binding : String → String) (init : Option Word)

mutual

/-- A pattern occurs at a signal under a binding of its pins and a constant. Below the root it covers
the nodes at its operators and constants, from left to right. -/
inductive Occurs : Pattern → (signal : String) → (isRoot : Bool) → (covered : List NodeId) → Prop
  | pin {isRoot : Bool} (name : String) : Occurs (.pin name) (binding name) isRoot []
  | const {signal : String} {isRoot : Bool} {node : Node} {value : Word} :
      s.Stands w signal isRoot node → node.kind = .const value → init = some value →
      Occurs .const signal isRoot (ownNodes isRoot node)
  | op {operator : Operator} {args : List Pattern} {signal : String} {isRoot : Bool} {node : Node}
      {operands : List String} {covered : List NodeId} :
      s.Stands w signal isRoot node → node.kind = .op operator →
      node.kind.Ordered node.faninSignals operands → OccurAll args operands covered →
      Occurs (.op operator args) signal isRoot (ownNodes isRoot node ++ covered)
  | module {name : String} {args : List Pattern} {signal : String} {isRoot : Bool} {node : Node}
      {covered : List NodeId} :
      s.Stands w signal isRoot node → node.kind = .module name →
      OccurAll args node.faninSignals covered →
      Occurs (.module name args) signal isRoot (ownNodes isRoot node ++ covered)

/-- Patterns occur at the signals of a list, one at each. -/
inductive OccurAll : List Pattern → (signals : List String) → (covered : List NodeId) → Prop
  | nil : OccurAll [] [] []
  | cons {p : Pattern} {rest : List Pattern} {signal : String} {signals : List String}
      {covered more : List NodeId} :
      Occurs p signal false covered → OccurAll rest signals more →
      OccurAll (p :: rest) (signal :: signals) (covered ++ more)

end

end

namespace Occurrence

variable {o o' o'' : Occurrence} {pin signal : String} {value : Word} {binding : String → String}
  {init : Option Word} {isRoot : Bool} {names names' : List String} {const const' : Bool}
  {covered covered' : List NodeId}

/-! ## What an expansion adds -/

/-- The second occurrence fixes the pins of these names besides what the first one fixes, and the
constant if there is one, and covers these further nodes. -/
structure Adds (names : List String) (const : Bool) (covered : List NodeId) (o o' : Occurrence) :
    Prop extends Extends o o' where
  bound : ∀ pin, (o'.pins.find? pin).isSome = true ↔
    (o.pins.find? pin).isSome = true ∨ pin ∈ names
  fixed : o'.init.isSome = (o.init.isSome || const)
  covers : o'.covered = o.covered ++ covered

theorem Adds.refl (o : Occurrence) : Adds [] false [] o o :=
  ⟨.refl o, by simp, by simp, by simp⟩

theorem Adds.trans (h : Adds names const covered o o') (h' : Adds names' const' covered' o' o'') :
    Adds (names ++ names') (const || const') (covered ++ covered') o o'' where
  toExtends := h.toExtends.trans h'.toExtends
  bound pin := by rw [h'.bound, h.bound, List.mem_append, or_assoc]
  fixed := by rw [h'.fixed, h.fixed, Bool.or_assoc]
  covers := by rw [h'.covers, h.covers, List.append_assoc]

theorem adds_cover (o : Occurrence) (isRoot : Bool) (node : Node) :
    Adds [] false (ownNodes isRoot node) o (o.cover isRoot node.id) := by
  cases isRoot with
  | true => exact .refl o
  | false => exact ⟨extends_cover o false node.id, by simp [cover], by simp [cover], rfl⟩

theorem adds_bindPin (h : o' ∈ o.bindPin pin signal) : Adds [pin] false [] o o' := by
  refine ⟨(bindPin_sound h).1, fun other => ?_, ?_, ?_⟩
  · rcases mem_bindPin.1 h with ⟨hbound, rfl⟩ | ⟨hfree, rfl⟩
    · simp only [List.mem_singleton, iff_self_or]
      rintro rfl
      rw [hbound, Option.isSome_some]
    · by_cases heq : other = pin <;> simp [Table.find?_insert, heq]
  · rcases mem_bindPin.1 h with ⟨-, rfl⟩ | ⟨-, rfl⟩ <;> simp
  · rcases mem_bindPin.1 h with ⟨-, rfl⟩ | ⟨-, rfl⟩ <;> simp

theorem adds_bindInit (h : o' ∈ o.bindInit value) : Adds [] true [] o o' := by
  refine ⟨(bindInit_sound h).1, fun other => ?_, ?_, ?_⟩
  · rcases mem_bindInit.1 h with ⟨-, rfl⟩ | ⟨-, rfl⟩ <;> simp
  · rw [(bindInit_sound h).2, Bool.or_true, Option.isSome_some]
  · rcases mem_bindInit.1 h with ⟨-, rfl⟩ | ⟨-, rfl⟩ <;> simp

/-- A binding and a constant agree with what an occurrence fixes. -/
structure Agrees (binding : String → String) (init : Option Word) (o : Occurrence) : Prop where
  pins : ∀ pin signal, o.pins.find? pin = some signal → binding pin = signal
  init : ∀ value, o.init = some value → init = some value

theorem Agrees.empty : Agrees binding init .empty := ⟨nofun, nofun⟩

theorem Extends.agrees (h : o.Extends o') (h' : Agrees binding init o') : Agrees binding init o :=
  ⟨fun pin signal hpin => h'.pins pin signal (h.pins pin signal hpin),
    fun value hvalue => h'.init value (h.init value hvalue)⟩

theorem Agrees.cover (h : Agrees binding init o) (isRoot : Bool) (id : NodeId) :
    Agrees binding init (o.cover isRoot id) := by
  cases isRoot <;> exact ⟨h.pins, h.init⟩

theorem Agrees.exists_bindPin (h : Agrees binding init o) (pin : String) :
    ∃ o' ∈ o.bindPin pin (binding pin), Agrees binding init o' := by
  cases hpin : o.pins.find? pin with
  | some bound =>
    rw [h.pins pin bound hpin]
    exact ⟨o, mem_bindPin.2 (.inl ⟨hpin, rfl⟩), h⟩
  | none =>
    refine ⟨_, mem_bindPin.2 (.inr ⟨hpin, rfl⟩), fun other signal hother => ?_, h.init⟩
    rw [Table.find?_insert] at hother
    split at hother
    · next heq => rw [heq, Option.some.inj hother]
    · exact h.pins other signal hother

theorem Agrees.exists_bindInit (h : Agrees binding init o) (hinit : init = some value) :
    ∃ o' ∈ o.bindInit value, Agrees binding init o' := by
  cases hfixed : o.init with
  | some fixed =>
    have heq : fixed = value := Option.some.inj ((h.init fixed hfixed).symm.trans hinit)
    exact ⟨o, mem_bindInit.2 (.inl ⟨heq ▸ hfixed, rfl⟩), h⟩
  | none =>
    refine ⟨_, mem_bindInit.2 (.inr ⟨hfixed, rfl⟩), h.pins, fun other hother => ?_⟩
    rw [← hother]
    exact hinit

/-! ## Where operators stand -/

section
variable {s : Subject} {w : Width} {node : Node}

theorem operatorAt?_eq_some_iff (hs : s.WellFormed) :
    operatorAt? s w signal isRoot = some node ↔ s.Stands w signal isRoot node := by
  constructor
  · intro h
    obtain ⟨hmem, hout, hbelow⟩ := operatorAt?_eq_some h
    exact ⟨hmem, hout, hbelow⟩
  · rintro ⟨hmem, rfl, hbelow⟩
    exact operatorAt?_of_mem hs.legal.single hmem hbelow

theorem mem_operandOrders {kind : Kind} {signals operands : List String} :
    operands ∈ operandOrders kind signals ↔ kind.Ordered signals operands := by
  constructor
  · intro h
    unfold operandOrders at h
    split at h
    · next hcomm =>
      rcases List.mem_pair.1 h with rfl | rfl
      · exact .straight
      · exact .swapped hcomm
    · rw [List.mem_singleton.1 h]
      exact .straight
  · intro h
    cases h with
    | straight =>
      unfold operandOrders
      split
      · exact .head _
      · exact .head _
    | swapped hcomm =>
      simp [operandOrders, hcomm]

/-! ## Expansion -/

theorem length_of_occurAll {ps : List Pattern} {signals : List String}
    (h : OccurAll s w binding init ps signals covered) : ps.length = signals.length := by
  induction ps generalizing signals covered with
  | nil =>
    cases h
    rfl
  | cons p ps ih =>
    cases h with
    | cons _ hrest => rw [List.length_cons, List.length_cons, ih hrest]

mutual

/-- A pattern occurs where it is found, under every binding that agrees with what is found. -/
theorem occurs_of_expand (hs : s.WellFormed) :
    ∀ (p : Pattern) {signal : String} {isRoot : Bool} {o o' : Occurrence},
      o' ∈ expand s w p signal isRoot o → ∃ covered, Adds p.pinList p.hasConst covered o o' ∧
        ∀ {binding init}, Agrees binding init o' → Occurs s w binding init p signal isRoot covered
  | .pin name, signal, isRoot, o, o', h => by
    rw [expand] at h
    refine ⟨[], adds_bindPin h, fun hagrees => ?_⟩
    rw [← hagrees.pins name signal (bindPin_sound h).2]
    exact .pin name
  | .const, signal, isRoot, o, o', h => by
    obtain ⟨node, value, hnode, hkind, o₁, hinit, rfl⟩ := mem_expand_const.1 h
    have hadds := (adds_bindInit hinit).trans (adds_cover o₁ isRoot node)
    refine ⟨_, hadds, fun hagrees => ?_⟩
    have hfixed := (extends_cover o₁ isRoot node.id).init value (bindInit_sound hinit).2
    exact .const ((operatorAt?_eq_some_iff hs).1 hnode) hkind (hagrees.init value hfixed)
  | .op operator args, signal, isRoot, o, o', h => by
    obtain ⟨node, operands, hnode, hkind, hlength, horder, h⟩ := mem_expand_op.1 h
    obtain ⟨covered, hadds, hargs⟩ := occurAll_of_expandAll hs args h hlength
    refine ⟨_, (adds_cover o isRoot node).trans hadds, fun hagrees => ?_⟩
    exact .op ((operatorAt?_eq_some_iff hs).1 hnode) hkind (hkind ▸ mem_operandOrders.1 horder)
      (hargs hagrees)
  | .module name args, signal, isRoot, o, o', h => by
    obtain ⟨node, hnode, hkind, hlength, h⟩ := mem_expand_module.1 h
    obtain ⟨covered, hadds, hargs⟩ := occurAll_of_expandAll hs args h hlength
    refine ⟨_, (adds_cover o isRoot node).trans hadds, fun hagrees => ?_⟩
    exact .module ((operatorAt?_eq_some_iff hs).1 hnode) hkind (hargs hagrees)

/-- Patterns occur where they are found. -/
theorem occurAll_of_expandAll (hs : s.WellFormed) :
    ∀ (ps : List Pattern) {signals : List String} {o o' : Occurrence},
      o' ∈ expandAll s w ps signals o → ps.length = signals.length →
      ∃ covered, Adds (Pattern.pinLists ps) (Pattern.haveConst ps) covered o o' ∧
        ∀ {binding init}, Agrees binding init o' → OccurAll s w binding init ps signals covered
  | [], [], o, o', h, _ => by
    rw [expandAll, List.mem_singleton] at h
    · exact ⟨[], h ▸ .refl o, fun _ => .nil⟩
    · intros; contradiction
  | p :: ps, signal :: signals, o, o', h, hlength => by
    rw [expandAll] at h
    obtain ⟨o₁, hfirst, hrest⟩ := List.mem_flatMap.1 h
    obtain ⟨covered, hadds, hoccurs⟩ := occurs_of_expand hs p hfirst
    obtain ⟨more, hadds', hoccur⟩ := occurAll_of_expandAll hs ps hrest (Nat.succ.inj hlength)
    exact ⟨_, hadds.trans hadds', fun hagrees =>
      .cons (hoccurs (hadds'.toExtends.agrees hagrees)) (hoccur hagrees)⟩

end

mutual

/-- A pattern that occurs is found, whatever is fixed before, as long as the binding agrees with
that. -/
theorem expand_of_occurs (hs : s.WellFormed) :
    ∀ (p : Pattern) {signal : String} {isRoot : Bool} {covered : List NodeId} {o : Occurrence},
      Occurs s w binding init p signal isRoot covered → Agrees binding init o →
      ∃ o' ∈ expand s w p signal isRoot o, Agrees binding init o' ∧
        o'.covered = o.covered ++ covered
  | .pin name, signal, isRoot, covered, o, h, ho => by
    cases h
    obtain ⟨o', ho', hagrees⟩ := ho.exists_bindPin name
    rw [expand]
    exact ⟨o', ho', hagrees, (adds_bindPin ho').covers⟩
  | .const, signal, isRoot, covered, o, h, ho => by
    cases h with
    | @const _ _ node value hstands hkind hinit =>
      obtain ⟨o', ho', hagrees⟩ := ho.exists_bindInit hinit
      have hnode := (operatorAt?_eq_some_iff hs).2 hstands
      refine ⟨_, mem_expand_const.2 ⟨node, value, hnode, hkind, o', ho', rfl⟩,
        hagrees.cover isRoot node.id, ?_⟩
      exact ((adds_bindInit ho').trans (adds_cover o' isRoot node)).covers
  | .op operator args, signal, isRoot, covered, o, h, ho => by
    cases h with
    | @op _ _ _ _ node operands more hstands hkind horder hargs =>
      obtain ⟨o', ho', hagrees, hcovered⟩ :=
        expandAll_of_occurAll hs args hargs (ho.cover isRoot node.id)
      have hnode := (operatorAt?_eq_some_iff hs).2 hstands
      have hmem := mem_operandOrders.2 (hkind ▸ horder)
      refine ⟨o', mem_expand_op.2 ⟨node, operands, hnode, hkind, length_of_occurAll hargs, hmem, ho'⟩,
        hagrees, ?_⟩
      rw [hcovered, (adds_cover o isRoot node).covers, List.append_assoc]
  | .module name args, signal, isRoot, covered, o, h, ho => by
    cases h with
    | @module _ _ _ _ node more hstands hkind hargs =>
      obtain ⟨o', ho', hagrees, hcovered⟩ :=
        expandAll_of_occurAll hs args hargs (ho.cover isRoot node.id)
      have hnode := (operatorAt?_eq_some_iff hs).2 hstands
      refine ⟨o', mem_expand_module.2 ⟨node, hnode, hkind, length_of_occurAll hargs, ho'⟩, hagrees, ?_⟩
      rw [hcovered, (adds_cover o isRoot node).covers, List.append_assoc]

/-- Patterns that occur are found. -/
theorem expandAll_of_occurAll (hs : s.WellFormed) :
    ∀ (ps : List Pattern) {signals : List String} {covered : List NodeId} {o : Occurrence},
      OccurAll s w binding init ps signals covered → Agrees binding init o →
      ∃ o' ∈ expandAll s w ps signals o, Agrees binding init o' ∧
        o'.covered = o.covered ++ covered
  | [], signals, covered, o, h, ho => by
    cases h
    refine ⟨o, ?_, ho, by simp⟩
    rw [expandAll]
    · exact List.mem_singleton_self o
    · intros; contradiction
  | p :: ps, signals, covered, o, h, ho => by
    cases h with
    | cons hfirst hrest =>
      obtain ⟨o₁, ho₁, hagrees₁, hcovered₁⟩ := expand_of_occurs hs p hfirst ho
      obtain ⟨o', ho', hagrees, hcovered⟩ := expandAll_of_occurAll hs ps hrest hagrees₁
      rw [expandAll]
      refine ⟨o', List.mem_flatMap.2 ⟨o₁, ho₁, ho'⟩, hagrees, ?_⟩
      rw [hcovered, hcovered₁, List.append_assoc]

end

end

end Occurrence

namespace Subject

open Occurrence

variable {ν : Type} {s : Subject} {lib : Library ν} {cell : Cell ν} {node : Node} {m m' : Match ν}
  {found : List (Match ν)}

/-! ## The matches of a cell -/

/-- The match is one of a node: the function of its cell occurs at the node, when the pins are bound
to the leaves, and covers what the match covers. It has a constant if the function does. -/
structure Occurring (s : Subject) (node : Node) (m : Match ν) : Prop where
  root : m.root = node.id
  init : m.init.isSome = m.cell.function.hasConst
  occurs : ∃ binding, m.leaves = m.cell.inputs.map binding ∧
    Occurs s (s.netlist.width node.output) binding m.init m.cell.function node.output true m.covered

/-- A cell matches where its function occurs. -/
theorem mem_cellMatches_iff (hs : s.WellFormed)
    (hpins : ∀ pin, pin ∈ cell.function.pinList ↔ pin ∈ cell.inputs) :
    m ∈ s.cellMatches node cell ↔ m.cell = cell ∧ s.Occurring node m := by
  rw [cellMatches, List.mem_filterMap]
  constructor
  · rintro ⟨o, ho, hm⟩
    obtain ⟨leaves, hleaves, hm⟩ := Option.bind_eq_some_iff.1 hm
    cases hm
    obtain ⟨covered, hadds, hoccurs⟩ := occurs_of_expand hs _ ho
    have hcovered : o.covered = covered := hadds.covers
    let binding : String → String := fun pin => (o.pins.find? pin).getD ""
    have hagrees : Agrees binding o.init o :=
      ⟨fun pin signal hpin => by simp [binding, hpin], fun _ hvalue => hvalue⟩
    refine ⟨rfl, rfl, hadds.fixed, binding, ?_, hcovered ▸ hoccurs hagrees⟩
    have hbound := forall₂_of_mapM_some hleaves
    rw [← List.forall₂_eq_eq_eq, List.forall₂_map_right_iff]
    exact hbound.flip.imp fun leaf pin hpin => by simp [binding, hpin]
  · rintro ⟨rfl, hroot, hinit, binding, hleaves, hoccurs⟩
    obtain ⟨o, ho, hagrees, hcovered⟩ := expand_of_occurs hs _ hoccurs .empty
    obtain ⟨_, hadds, -⟩ := occurs_of_expand hs _ ho
    refine ⟨o, ho, ?_⟩
    have hbound : ∀ pin ∈ m.cell.inputs, o.pins.find? pin = some (binding pin) := by
      intro pin hpin
      obtain ⟨signal, hsignal⟩ :=
        Option.isSome_iff_exists.1 ((hadds.bound pin).2 (.inr ((hpins pin).2 hpin)))
      rw [hsignal, hagrees.pins pin signal hsignal]
    have hconst : o.init = m.init := by
      cases hfixed : o.init with
      | some value => exact (hagrees.init value hfixed).symm
      | none =>
        have hnone : o.init.isSome = m.cell.function.hasConst := hadds.fixed
        rw [← hinit, hfixed] at hnone
        exact (Option.isNone_iff_eq_none.1 (Option.isSome_eq_false_iff.1 hnone.symm)).symm
    rw [mapM_eq_some_map hbound, ← hleaves, hconst, hcovered, ← hroot]
    rfl

/-- A cell whose function occurs at a node is looked up for its kind. -/
theorem lookupKey?_of_occurs (hs : s.WellFormed) (hnode : node ∈ s.netlist.nodes) {p : Pattern}
    {w : Width} {binding : String → String} {init : Option Word} {covered : List NodeId}
    (h : Occurs s w binding init p node.output true covered) (hroot : p.rootKey?.isSome = true) :
    node.kind.lookupKey? = p.rootKey? := by
  have hsame : ∀ {other : Node}, s.Stands w node.output true other → other = node :=
    fun hstands => List.inj_on_of_nodup_map hs.legal.single hstands.mem hnode hstands.output
  cases p with
  | pin name => cases hroot
  | const =>
    cases h with
    | const hstands hkind _ =>
      rw [← hsame hstands, hkind]
      rfl
  | op operator args =>
    cases h with
    | op hstands hkind _ _ =>
      rw [← hsame hstands, hkind]
      rfl
  | module name args =>
    cases h with
    | module hstands hkind _ =>
      rw [← hsame hstands, hkind]
      rfl

/-! ## Repetitions -/

/-- Cells with different names are different instances. -/
theorem eq_of_sameInstance (hlib : lib.Checked) (hm : m.cell ∈ lib.cells) (hm' : m'.cell ∈ lib.cells)
    (hroot : m.root = m'.root) (h : m.sameInstance m' = true) : m = m' := by
  simp only [Match.sameInstance, Bool.and_eq_true, beq_iff_eq] at h
  obtain ⟨⟨⟨hname, hleaves⟩, hcovered⟩, hinit⟩ := h
  have hcell := List.inj_on_of_nodup_map hlib.names hm hm' hname
  cases m
  cases m'
  simp_all

theorem nodup_distinctMatches (found : List (Match ν)) : (distinctMatches found).Nodup := by
  suffices hfold : ∀ before : List (Match ν), before.Nodup → (found.foldl
      (fun kept m => if kept.any m.sameInstance then kept else kept ++ [m]) before).Nodup from
    hfold [] .nil
  induction found with
  | nil => exact fun before h => h
  | cons first rest ih =>
    intro before h
    refine ih _ ?_
    dsimp only
    split
    · exact h
    · next hnew =>
      refine List.nodup_append.2 ⟨h, List.nodup_singleton _, fun kept hkept m hm => ?_⟩
      rw [List.mem_singleton.1 hm]
      rintro rfl
      exact hnew (List.any_eq_true.2 ⟨kept, hkept, sameInstance_self kept⟩)

/-! ## The matches of a node -/

/-- The matches of a node that is no cell, in any subject graph that is well-formed. -/
theorem WellFormed.mem_nodeMatches_iff (hs : s.WellFormed) (hlib : lib.Exact)
    (hnode : node ∈ s.netlist.nodes) (hkind : ∀ name init, node.kind ≠ .cell name init) :
    m ∈ s.nodeMatches lib node ↔ m.cell ∈ lib.cells ∧ s.Occurring node m := by
  have hpins : ∀ cell ∈ lib.cells, ∀ pin, pin ∈ cell.function.pinList ↔ pin ∈ cell.inputs :=
    fun cell hcell pin => ⟨hlib.pins cell hcell pin, hlib.used cell hcell pin⟩
  have hfound : ∀ m : Match ν, m ∈ (lib.lookup node.kind).flatMap (s.cellMatches node) ↔
      m.cell ∈ lib.cells ∧ s.Occurring node m := by
    intro m
    rw [List.mem_flatMap]
    constructor
    · rintro ⟨cell, hcell, hm⟩
      have hmem := Library.mem_of_lookup hcell
      obtain ⟨rfl, hoccurring⟩ := (mem_cellMatches_iff hs (hpins cell hmem)).1 hm
      exact ⟨hmem, hoccurring⟩
    · rintro ⟨hmem, hoccurring⟩
      refine ⟨m.cell, ?_, (mem_cellMatches_iff hs (hpins _ hmem)).2 ⟨rfl, hoccurring⟩⟩
      obtain ⟨binding, -, hoccurs⟩ := hoccurring.occurs
      have hroot := hlib.rooted m.cell hmem
      obtain ⟨key, hkey⟩ := Option.isSome_iff_exists.1 hroot
      rw [Library.lookup, lookupKey?_of_occurs hs hnode hoccurs hroot, hkey]
      exact List.mem_filter.2 ⟨hmem, decide_eq_true hkey⟩
  rw [nodeMatches_of_not_cell hkind]
  constructor
  · exact fun h => (hfound m).1 (mem_of_distinctMatches h)
  · intro h
    obtain ⟨kept, hkept, hsame⟩ := exists_distinct ((hfound m).2 h)
    obtain ⟨hcell, hoccurring⟩ := (hfound kept).1 (mem_of_distinctMatches hkept)
    rw [eq_of_sameInstance hlib.toChecked h.1 hcell (h.2.root.trans hoccurring.root.symm) hsame]
    exact hkept

/-- The matches of a node that is no cell are the occurrences of the functions of the cells there,
each of them once. -/
theorem mem_nodeMatches {n : Netlist} (hc : n.Coherent) (hs : ofNetlist n = .ok s)
    (hlib : lib.Exact) (hnode : node ∈ s.netlist.nodes)
    (hkind : ∀ name init, node.kind ≠ .cell name init) :
    (∀ m, m ∈ s.nodeMatches lib node ↔ m.cell ∈ lib.cells ∧ m.root = node.id ∧
      m.init.isSome = m.cell.function.hasConst ∧
      ∃ binding, m.leaves = m.cell.inputs.map binding ∧
        Occurs s (s.netlist.width node.output) binding m.init m.cell.function node.output true
          m.covered) ∧
    (s.nodeMatches lib node).Nodup := by
  have hwell := wellFormed_of_ofNetlist hc hs
  refine ⟨fun m => ?_, ?_⟩
  · rw [hwell.mem_nodeMatches_iff hlib hnode hkind]
    exact and_congr_right fun _ => ⟨fun h => ⟨h.root, h.init, h.occurs⟩, fun h => ⟨h.1, h.2.1, h.2.2⟩⟩
  · rw [nodeMatches]
    split
    · next name init heq => exact absurd heq (hkind name init)
    · exact nodup_distinctMatches _

end Subject

namespace Deep

/-- A disjunction whose second operand has its operands the other way round than the function of the
cell, which reads one of its pins twice. -/
def netlist : Netlist where
  name := "deep"
  inputs := ["a", "b"]
  outputs := ["y"]
  widths := ⟨[("a", .one), ("b", .one), ("y", .one)]⟩
  arena := [some ⟨⟨0⟩, .op .not, [.plain "b"], "t"⟩,
    some ⟨⟨1⟩, .op .and, [.plain "t", .plain "a"], "u"⟩,
    some ⟨⟨2⟩, .op .or, [.plain "b", .plain "u"], "y"⟩]
  wires := [⟨"b", ⟨0⟩, 0⟩, ⟨"t", ⟨1⟩, 0⟩, ⟨"a", ⟨1⟩, 1⟩, ⟨"b", ⟨2⟩, 0⟩, ⟨"u", ⟨2⟩, 1⟩]
  nextFresh := 0

/-- The cell is `OR(AND(A,NOT(B)),B)`. -/
def cell : Cell Nat :=
  ⟨"ORAN", .op .or [.op .and [.pin "A", .op .not [.pin "B"]], .pin "B"], ["A", "B"], "Y", 1,
    .uniform 1⟩

/-- The library of the cell. -/
def library : Library Nat := ⟨"deep", [cell]⟩

/-- The subject graph is the netlist itself. -/
def subject : Subject := ⟨netlist, netlist.fanout⟩

theorem coherent : netlist.Coherent := by
  refine ⟨fun {i node} h => ?_, by decide, by decide, by decide⟩
  match i, h with
  | 0, h | 1, h | 2, h =>
    cases h
    rfl

theorem ofNetlist_netlist : Subject.ofNetlist netlist = .ok subject :=
  Subject.ofNetlist_of_plain coherent
    ((Netlist.validate_of_derived (by decide)).trans (by decide)) (by decide) (by decide)

theorem exact_library : library.Exact := ⟨⟨by decide, by decide⟩, by decide, by decide⟩

end Deep

/-- The cell matches with both operands found the other way round. -/
theorem mem_nodeMatches_deep :
    Deep.netlist.Coherent ∧ Subject.ofNetlist Deep.netlist = .ok Deep.subject ∧
      Deep.library.Exact ∧
      ∃ node ∈ Deep.subject.netlist.nodes, (∀ name init, node.kind ≠ .cell name init) ∧
        (⟨⟨2⟩, Deep.cell, ["a", "b"], [⟨1⟩, ⟨0⟩], none⟩ : Match Nat) ∈
          Deep.subject.nodeMatches Deep.library node ∧
        (Deep.subject.nodeMatches Deep.library node).Nodup := by
  have hnode : ⟨⟨2⟩, .op .or, [.plain "b", .plain "u"], "y"⟩ ∈ Deep.subject.netlist.nodes :=
    .tail _ (.tail _ (.head _))
  obtain ⟨hiff, hnodup⟩ := Subject.mem_nodeMatches Deep.coherent Deep.ofNetlist_netlist
    Deep.exact_library hnode nofun
  let binding : String → String := fun pin => if pin = "A" then "a" else "b"
  have hor : Deep.subject.Stands .one "y" true ⟨⟨2⟩, .op .or, [.plain "b", .plain "u"], "y"⟩ :=
    ⟨hnode, rfl, nofun⟩
  have hand : Deep.subject.Stands .one "u" false
      ⟨⟨1⟩, .op .and, [.plain "t", .plain "a"], "u"⟩ :=
    ⟨.tail _ (.head _), rfl, fun _ => ⟨by decide, by decide⟩⟩
  have hnot : Deep.subject.Stands .one "t" false ⟨⟨0⟩, .op .not, [.plain "b"], "t"⟩ :=
    ⟨.head _, rfl, fun _ => ⟨by decide, by decide⟩⟩
  have occursA : Occurs Deep.subject .one binding none (.pin "A") "a" false [] := .pin "A"
  have occursB : Occurs Deep.subject .one binding none (.pin "B") "b" false [] := .pin "B"
  have occursNot : Occurs Deep.subject .one binding none (.op .not [.pin "B"]) "t" false [⟨0⟩] :=
    .op hnot rfl .straight (.cons occursB .nil)
  -- The operands of the conjunction are swapped, and so are those of the disjunction.
  have occursAnd : Occurs Deep.subject .one binding none (.op .and [.pin "A", .op .not [.pin "B"]])
      "u" false [⟨1⟩, ⟨0⟩] :=
    .op hand rfl (.swapped rfl) (.cons occursA (.cons occursNot .nil))
  have occursOr : Occurs Deep.subject .one binding none Deep.cell.function "y" true [⟨1⟩, ⟨0⟩] :=
    .op hor rfl (.swapped rfl) (.cons occursAnd (.cons occursB .nil))
  exact ⟨Deep.coherent, Deep.ofNetlist_netlist, Deep.exact_library, _, hnode, nofun,
    (hiff _).2 ⟨.head _, rfl, rfl, binding, rfl, occursOr⟩, hnodup⟩

end GateSynth
