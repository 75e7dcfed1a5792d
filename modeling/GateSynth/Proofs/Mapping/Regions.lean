import GateSynth.Proofs.Mapping.Covers
import GateSynth.Proofs.Mapping.Origins

/-!
# Regions

The nodes that one instance takes the place of: the root of a match and the nodes below it that the
match covers. `Occurrence.Explores` says what the search for a pattern leaves behind; it is kept from
operand to operand and from a node to its operands. For a whole match this gives `Match.Tiles`: a
region reads nothing but its leaves and its own signals, its inner signals are read inside it only,
and a signal that only the region reads is not both a leaf and an inner signal. All leaves lie below
the root (`Match.Tiles.rank_lt`) and in its cone (`Match.Tiles.cone`).
-/

namespace GateSynth

open Netlist

variable {ν : Type} {lib : Library ν} {s : Subject}

namespace Occurrence

variable {o o' o'' : Occurrence} {pins pins' signals signals' : List String} {x : String}

/-- A signal is dealt with: a pin is bound to it, or the node that drives it is covered. -/
def Meets (s : Subject) (o : Occurrence) (x : String) : Prop :=
  (∃ pin, o.pins.find? pin = some x) ∨ ∃ d ∈ s.netlist.nodes, d.output = x ∧ d.id ∈ o.covered

/-- A signal is one of a list or is read by a covered node. -/
def Seen (s : Subject) (signals : List String) (o : Occurrence) (x : String) : Prop :=
  x ∈ signals ∨ ∃ d ∈ s.netlist.nodes, d.id ∈ o.covered ∧ Reads d x

/-- What is found between two occurrences when patterns with pins among `pins` are looked for at the
signals `signals`. -/
structure Explores (s : Subject) (pins signals : List String) (o o' : Occurrence) : Prop where
  bound : ∀ pin x, o.pins.find? pin = some x → o'.pins.find? pin = some x
  covered : ∀ id ∈ o.covered, id ∈ o'.covered
  reached : ∀ x ∈ signals, o'.Meets s x
  /-- Whatever a newly covered node reads is dealt with. -/
  closed : ∀ d ∈ s.netlist.nodes, d.id ∈ o'.covered →
    d.id ∈ o.covered ∨ ∀ x, Reads d x → o'.Meets s x
  newPin : ∀ pin x, o'.pins.find? pin = some x →
    o.pins.find? pin = some x ∨ pin ∈ pins ∧ o'.Seen s signals x
  newNode : ∀ id ∈ o'.covered, id ∈ o.covered ∨ ∃ d ∈ s.netlist.nodes, d.id = id ∧
    s.isAbsorbable d.output = true ∧ o'.Seen s signals d.output
  /-- A signal with a single reader is met no more often than this reader is covered. -/
  count : ∀ d ∈ s.netlist.nodes, ∀ r, s.fanout.singleConsumer? d.output = some r →
    o'.pins.values.count d.output + o'.covered.count d.id + o.covered.count r ≤
      o.pins.values.count d.output + o.covered.count d.id + o'.covered.count r +
        signals.count d.output

theorem Meets.mono (h : o.Meets s x)
    (hbound : ∀ pin x, o.pins.find? pin = some x → o'.pins.find? pin = some x)
    (hcovered : ∀ id ∈ o.covered, id ∈ o'.covered) : o'.Meets s x := by
  rcases h with ⟨pin, hpin⟩ | ⟨d, hd, hx, hid⟩
  · exact .inl ⟨pin, hbound pin x hpin⟩
  · exact .inr ⟨d, hd, hx, hcovered _ hid⟩

theorem Seen.mono (h : o.Seen s signals x) (hsignals : ∀ y ∈ signals, y ∈ signals')
    (hcovered : ∀ id ∈ o.covered, id ∈ o'.covered) : o'.Seen s signals' x := by
  rcases h with hx | ⟨d, hd, hid, hreads⟩
  · exact .inl (hsignals x hx)
  · exact .inr ⟨d, hd, hcovered _ hid, hreads⟩

/-! ## Exploring -/

theorem Explores.refl (s : Subject) (pins : List String) (o : Occurrence) :
    Explores s pins [] o o where
  bound _ _ h := h
  covered _ h := h
  reached _ h := by cases h
  closed _ _ h := .inl h
  newPin _ _ h := .inl h
  newNode _ h := .inl h
  count d _ r _ := by
    rw [List.count_nil]
    omega

/-- First some signals, then others. -/
theorem Explores.trans (h : Explores s pins signals o o') (h' : Explores s pins' signals' o' o'') :
    Explores s (pins ++ pins') (signals ++ signals') o o'' := by
  have hleft : ∀ {x}, o'.Seen s signals x → o''.Seen s (signals ++ signals') x :=
    fun hx => hx.mono (fun y hy => List.mem_append_left _ hy) h'.covered
  have hright : ∀ {x}, o''.Seen s signals' x → o''.Seen s (signals ++ signals') x :=
    fun hx => hx.mono (fun y hy => List.mem_append_right _ hy) fun _ hid => hid
  constructor
  case bound => exact fun pin x hx => h'.bound pin x (h.bound pin x hx)
  case covered => exact fun id hid => h'.covered id (h.covered id hid)
  case reached =>
    intro x hx
    rcases List.mem_append.1 hx with hx | hx
    · exact (h.reached x hx).mono h'.bound h'.covered
    · exact h'.reached x hx
  case closed =>
    intro d hd hid
    rcases h'.closed d hd hid with hold | hnew
    · refine (h.closed d hd hold).imp_right fun hmeets x hx => ?_
      exact (hmeets x hx).mono h'.bound h'.covered
    · exact .inr hnew
  case newPin =>
    intro pin x hx
    rcases h'.newPin pin x hx with hold | ⟨hpin, hseen⟩
    · refine (h.newPin pin x hold).imp_right fun ⟨hpin, hseen⟩ => ?_
      exact ⟨List.mem_append_left _ hpin, hleft hseen⟩
    · exact .inr ⟨List.mem_append_right _ hpin, hright hseen⟩
  case newNode =>
    intro id hid
    rcases h'.newNode id hid with hold | ⟨d, hd, hdid, habsorb, hseen⟩
    · refine (h.newNode id hold).imp_right fun ⟨d, hd, hdid, habsorb, hseen⟩ => ?_
      exact ⟨d, hd, hdid, habsorb, hleft hseen⟩
    · exact .inr ⟨d, hd, hdid, habsorb, hright hseen⟩
  case count =>
    intro d hd r hr
    have hfirst := h.count d hd r hr
    have hsecond := h'.count d hd r hr
    rw [List.count_append]
    omega

/-- The order of the signals does not matter. -/
theorem Explores.perm (h : Explores s pins signals o o') (hperm : signals.Perm signals') :
    Explores s pins signals' o o' := by
  have hseen : ∀ {x}, o'.Seen s signals x → o'.Seen s signals' x :=
    fun hx => hx.mono (fun y hy => hperm.mem_iff.1 hy) fun _ hid => hid
  refine ⟨h.bound, h.covered, fun x hx => h.reached x (hperm.mem_iff.2 hx), h.closed,
    fun pin x hx => ?_, fun id hid => ?_, fun d hd r hr => ?_⟩
  · exact (h.newPin pin x hx).imp_right fun ⟨hpin, hx⟩ => ⟨hpin, hseen hx⟩
  · refine (h.newNode id hid).imp_right fun ⟨d, hd, hdid, habsorb, hx⟩ => ?_
    exact ⟨d, hd, hdid, habsorb, hseen hx⟩
  · rw [← hperm.count_eq]
    exact h.count d hd r hr

/-- Binding a pin deals with the signal. -/
theorem explores_of_bindPin {pin signal : String} (h : o' ∈ o.bindPin pin signal) :
    Explores s [pin] [signal] o o' := by
  obtain ⟨hext, hbound⟩ := bindPin_sound h
  have hreached : ∀ x ∈ [signal], o'.Meets s x := by
    intro x hx
    rw [List.mem_singleton.1 hx]
    exact .inl ⟨pin, hbound⟩
  rcases mem_bindPin.1 h with ⟨-, rfl⟩ | ⟨hfree, rfl⟩
  · refine ⟨hext.pins, fun _ hid => hid, hreached, fun _ _ hid => .inl hid, fun _ _ hx => .inl hx,
      fun _ hid => .inl hid, fun d hd r hr => ?_⟩
    omega
  · refine ⟨hext.pins, fun _ hid => hid, hreached, fun _ _ hid => .inl hid, fun other x hx => ?_,
      fun _ hid => .inl hid, fun d hd r hr => ?_⟩
    · rw [Table.find?_insert] at hx
      split at hx
      · next heq =>
        cases hx
        exact .inr ⟨heq ▸ .head _, .inl (.head _)⟩
      · exact .inl hx
    · have hvalues : (o.pins.insert pin signal).values = o.pins.values ++ [signal] := by
        rw [Table.insert_of_not_mem (Table.find?_eq_none_iff.1 hfree), Table.values, List.map_append]
        rfl
      simp only [hvalues, List.count_append]
      omega

/-- Fixing the constant deals with no signal. -/
theorem explores_of_bindInit {value : Word} (h : o' ∈ o.bindInit value) :
    Explores s [] [] o o' := by
  have hsame : o'.pins = o.pins ∧ o'.covered = o.covered := by
    rcases mem_bindInit.1 h with ⟨-, rfl⟩ | ⟨-, rfl⟩ <;> exact ⟨rfl, rfl⟩
  obtain ⟨hpins, hcovered⟩ := hsame
  obtain ⟨pins, covered, init⟩ := o'
  dsimp only at hpins hcovered
  subst hpins hcovered
  have hrefl := Explores.refl s [] o
  exact ⟨hrefl.bound, hrefl.covered, fun _ hx => absurd hx List.not_mem_nil, hrefl.closed,
    hrefl.newPin, hrefl.newNode, hrefl.count⟩

section
variable {node : Node} {w : Width}

/-- A node is dealt with by covering it and dealing with what it reads. -/
theorem Explores.descend (hs : s.WellFormed) (hnode : node ∈ s.netlist.nodes)
    (habsorb : s.isAbsorbable node.output = true)
    (h : Explores s pins node.faninSignals (o.cover false node.id) o') :
    Explores s pins [node.output] o o' := by
  have hcover : (o.cover false node.id).covered = o.covered ++ [node.id] := rfl
  have hin : node.id ∈ o'.covered := h.covered _ (by simp [hcover])
  have hseen : ∀ {x}, o'.Seen s node.faninSignals x → o'.Seen s [node.output] x := by
    rintro x (hx | hx)
    · exact .inr ⟨node, hnode, hin, reads_iff.2 hx⟩
    · exact .inr hx
  constructor
  case bound => exact h.bound
  case covered => exact fun id hid => h.covered id (by simp [hcover, hid])
  case reached =>
    intro x hx
    rw [List.mem_singleton.1 hx]
    exact .inr ⟨node, hnode, rfl, hin⟩
  case closed =>
    intro d hd hid
    rcases h.closed d hd hid with hold | hnew
    · rw [hcover, List.mem_append, List.mem_singleton] at hold
      refine hold.imp_right fun heq x hx => ?_
      obtain rfl := hs.coherent.eq_of_id hd hnode heq
      exact h.reached x (reads_iff.1 hx)
    · exact .inr hnew
  case newPin =>
    intro pin x hx
    exact (h.newPin pin x hx).imp_right fun ⟨hpin, hx⟩ => ⟨hpin, hseen hx⟩
  case newNode =>
    intro id hid
    rcases h.newNode id hid with hold | ⟨d, hd, hdid, hdabsorb, hx⟩
    · rw [hcover, List.mem_append, List.mem_singleton] at hold
      refine hold.imp_right fun heq => ?_
      exact ⟨node, hnode, heq.symm, habsorb, .inl (.head _)⟩
    · exact .inr ⟨d, hd, hdid, hdabsorb, hseen hx⟩
  case count =>
    intro d hd r hr
    have hcount := h.count d hd r hr
    -- The node reads the signal only if it is the reader, and drives it only if it is its driver.
    have hreads : node.faninSignals.count d.output ≤ if node.id = r then 1 else 0 :=
      count_faninSignals_le hnode (hs.fanout ▸ hr)
    have hdrives : [node.id].count d.id ≤ [node.output].count d.output := by
      by_cases heq : node.id = d.id
      · rw [hs.coherent.eq_of_id hnode hd heq]
        simp
      · simp [List.count_singleton, heq]
    have hreader : [node.id].count r = if node.id = r then 1 else 0 := by
      simp [List.count_singleton]
    rw [hcover, List.count_append, List.count_append, hreader] at hcount
    have hpins : (o.cover false node.id).pins = o.pins := rfl
    rw [hpins] at hcount
    omega

/-- In a legal netlist a literal reads nothing. -/
theorem faninSignals_of_const (hs : s.WellFormed) (hnode : node ∈ s.netlist.nodes) {value : Word}
    (hkind : node.kind = .const value) : node.faninSignals = [] := by
  have hnone : 0 = node.fanins.length := hs.legal.arity node hnode 0 (by rw [hkind]; rfl)
  rw [Node.faninSignals, List.length_eq_zero_iff.1 hnone.symm, List.map_nil]

mutual

/-- Looking for a pattern below the root deals with the signal. -/
theorem explores_of_expand (hs : s.WellFormed) :
    ∀ (p : Pattern) {signal : String} {o o' : Occurrence}, o' ∈ expand s w p signal false o →
      Explores s p.pinList [signal] o o'
  | .pin name, signal, o, o', h => by
    rw [expand] at h
    exact explores_of_bindPin h
  | .const, signal, o, o', h => by
    obtain ⟨node, value, hnode, hkind, o₁, hinit, rfl⟩ := mem_expand_const.1 h
    obtain ⟨hmem, rfl, hbelow⟩ := operatorAt?_eq_some hnode
    have hinner : Explores s [] node.faninSignals (o₁.cover false node.id)
        (o₁.cover false node.id) := by
      rw [faninSignals_of_const hs hmem hkind]
      exact .refl s [] _
    exact (explores_of_bindInit hinit).trans (hinner.descend hs hmem (hbelow rfl).1)
  | .op operator args, signal, o, o', h => by
    obtain ⟨node, operands, hnode, -, hlength, horder, hargs⟩ := mem_expand_op.1 h
    obtain ⟨hmem, rfl, hbelow⟩ := operatorAt?_eq_some hnode
    have hread := (explores_of_expandAll hs args hargs hlength).perm (perm_of_operandOrders horder)
    exact hread.descend hs hmem (hbelow rfl).1
  | .module name args, signal, o, o', h => by
    obtain ⟨node, hnode, -, hlength, hargs⟩ := mem_expand_module.1 h
    obtain ⟨hmem, rfl, hbelow⟩ := operatorAt?_eq_some hnode
    exact (explores_of_expandAll hs args hargs hlength).descend hs hmem (hbelow rfl).1

/-- Looking for patterns at the signals of a list deals with all of them. -/
theorem explores_of_expandAll (hs : s.WellFormed) :
    ∀ (ps : List Pattern) {signals : List String} {o o' : Occurrence},
      o' ∈ expandAll s w ps signals o → ps.length = signals.length →
      Explores s (Pattern.pinLists ps) signals o o'
  | [], [], o, o', h, _ => by
    rw [expandAll, List.mem_singleton] at h
    · rw [h]
      exact .refl s _ o
    · intros; contradiction
  | p :: ps, signal :: signals, o, o', h, hlength => by
    rw [expandAll] at h
    obtain ⟨o₁, hfirst, hrest⟩ := List.mem_flatMap.1 h
    have htail := explores_of_expandAll hs ps hrest (Nat.succ.inj hlength)
    exact (explores_of_expand hs p hfirst).trans htail

end

theorem operatorAt?_root (hs : s.WellFormed) (hnode : node ∈ s.netlist.nodes) :
    operatorAt? s w node.output true = some node :=
  operatorAt?_of_mem hs.legal.single hnode nofun

/-- Looking for a pattern at the root deals with what the root reads. -/
theorem explores_of_expand_root (hs : s.WellFormed) (hnode : node ∈ s.netlist.nodes) {p : Pattern}
    (hp : p.rootKey?.isSome) (h : o' ∈ expand s w p node.output true o) :
    Explores s p.pinList node.faninSignals o o' := by
  have hroot : ∀ {found}, operatorAt? s w node.output true = some found → node = found :=
    fun hfound => Option.some.inj ((operatorAt?_root hs hnode).symm.trans hfound)
  cases p with
  | pin name => cases hp
  | const =>
    obtain ⟨found, value, hfound, hkind, o₁, hinit, rfl⟩ := mem_expand_const.1 h
    obtain rfl := hroot hfound
    rw [faninSignals_of_const hs hnode hkind]
    exact explores_of_bindInit hinit
  | op operator args =>
    obtain ⟨found, operands, hfound, -, hlength, horder, hargs⟩ := mem_expand_op.1 h
    obtain rfl := hroot hfound
    exact (explores_of_expandAll hs args hargs hlength).perm (perm_of_operandOrders horder)
  | module name args =>
    obtain ⟨found, hfound, -, hlength, hargs⟩ := mem_expand_module.1 h
    obtain rfl := hroot hfound
    exact explores_of_expandAll hs args hargs hlength

end

end Occurrence

/-! ## The region of a match -/

namespace Match

variable {node : Node} {m : Match ν} {x : String}

/-- A node belongs to the region of a match. -/
def Touches (m : Match ν) (id : NodeId) : Prop := id = m.root ∨ id ∈ m.covered

/-- The region of a match of a node is closed: signals get into it at the leaves and out of it at
the root. -/
structure Tiles (s : Subject) (node : Node) (m : Match ν) : Prop where
  root : m.root = node.id
  /-- What the region reads is a leaf or driven by an inner node. -/
  closed : ∀ d ∈ s.netlist.nodes, m.Touches d.id → ∀ x, Reads d x →
    x ∈ m.leaves ∨ ∃ c ∈ s.netlist.nodes, c.output = x ∧ c.id ∈ m.covered
  /-- The region reads its leaves. -/
  leaf : ∀ x ∈ m.leaves, ∃ d ∈ s.netlist.nodes, m.Touches d.id ∧ Reads d x
  /-- The region reads what an inner node drives, and nothing else does. -/
  inner : ∀ id ∈ m.covered, ∃ c ∈ s.netlist.nodes, c.id = id ∧ s.isAbsorbable c.output = true ∧
    ∃ d ∈ s.netlist.nodes, m.Touches d.id ∧ Reads d c.output
  /-- A signal with a single reader is met once for every time that this reader is. -/
  once : ∀ c ∈ s.netlist.nodes, ∀ r, s.fanout.singleConsumer? c.output = some r →
    (if c.output ∈ m.leaves then 1 else 0) + m.covered.count c.id ≤
      m.covered.count r + if node.id = r then 1 else 0

/-- A leaf that is driven by no node is a primary input. -/
theorem Tiles.input_of_undriven (hs : s.WellFormed) (h : m.Tiles s node) (hx : x ∈ m.leaves)
    (hnone : s.netlist.driver? x = none) :
    x ∈ s.netlist.inputs := by
  obtain ⟨d, hd, -, f, hf, rfl⟩ := h.leaf x hx
  rcases hs.legal.source (hs.legal.reads d hd f hf) with ⟨c, -, -, hdriver⟩ | ⟨hin, -⟩
  · rw [hnone] at hdriver
    cases hdriver
  · exact hin

section
variable (hs : s.WellFormed) (hnode : node ∈ s.netlist.nodes) (h : m.Tiles s node)
include hs hnode h

/-- What holds of the root and, with a node, of everything that drives it, holds of the region. -/
theorem Tiles.region_induction {P : Node → Prop} (hroot : P node)
    (hbelow : ∀ d ∈ s.netlist.nodes, P d → ∀ c ∈ s.netlist.nodes, Reads d c.output → P c) :
    ∀ d ∈ s.netlist.nodes, m.Touches d.id → P d := by
  refine hs.legal.acyclic.readers_induction fun c hc ih htouch => ?_
  rcases htouch with hid | hcovered
  · rwa [hs.coherent.eq_of_id hc hnode (hid.trans h.root)]
  · obtain ⟨c', hc', hid, -, d, hd, htouch, hreads⟩ := h.inner _ hcovered
    obtain rfl := hs.coherent.eq_of_id hc' hc hid
    exact hbelow d hd (ih d hd hreads htouch) c' hc' hreads

/-- The root has the highest rank of the region. -/
theorem Tiles.rank_le {rank : String → Nat} (hrank : s.netlist.Ranked rank) :
    ∀ d ∈ s.netlist.nodes, m.Touches d.id → rank d.output ≤ rank node.output := by
  refine h.region_induction hs hnode (Nat.le_refl _) fun d hd hle c _ hreads => ?_
  obtain ⟨f, hf, hsignal⟩ := hreads
  have hlt := hrank d hd f hf
  rw [hsignal] at hlt
  omega

/-- The leaves lie below the root. -/
theorem Tiles.rank_lt {rank : String → Nat} (hrank : s.netlist.Ranked rank) (hx : x ∈ m.leaves) :
    rank x < rank node.output := by
  obtain ⟨d, hd, htouch, f, hf, rfl⟩ := h.leaf x hx
  exact Nat.lt_of_lt_of_le (hrank d hd f hf) (h.rank_le hs hnode hrank d hd htouch)

/-- The root is no inner node. -/
theorem Tiles.root_not_covered : node.id ∉ m.covered := by
  obtain ⟨rank, hrank⟩ := hs.legal.acyclic.ranked
  intro hcovered
  obtain ⟨c, hc, hid, -, d, hd, htouch, f, hf, hsignal⟩ := h.inner _ hcovered
  obtain rfl := hs.coherent.eq_of_id hc hnode hid
  have hlt := hrank d hd f hf
  have hle := h.rank_le hs hnode hrank d hd htouch
  rw [hsignal] at hlt
  omega

/-- The region lies in the cone if the root does. -/
theorem Tiles.cone_of_touches (hcone : s.netlist.Cone node.id) :
    ∀ d ∈ s.netlist.nodes, m.Touches d.id → s.netlist.Cone d.id := by
  refine h.region_induction hs hnode hcone fun d hd hcone c hc hreads => ?_
  obtain ⟨f, hf, hsignal⟩ := hreads
  exact .fanin hd hcone hf (hsignal ▸ hs.driver?_output hc)

/-- What drives a leaf lies in the cone if the root does. -/
theorem Tiles.cone (hcone : s.netlist.Cone node.id) (hx : x ∈ m.leaves) {id : NodeId}
    (hid : s.netlist.driver? x = some id) : s.netlist.Cone id := by
  obtain ⟨d, hd, htouch, f, hf, rfl⟩ := h.leaf x hx
  exact .fanin hd (h.cone_of_touches hs hnode hcone d hd htouch) hf hid

/-- A node occurs in the region at most once. -/
theorem Tiles.count_le_one :
    ∀ c ∈ s.netlist.nodes, m.covered.count c.id + (if node.id = c.id then 1 else 0) ≤ 1 := by
  refine hs.legal.acyclic.readers_induction fun c hc ih => ?_
  by_cases hcovered : c.id ∈ m.covered
  · have hne : node.id ≠ c.id := fun heq => h.root_not_covered hs hnode (heq ▸ hcovered)
    obtain ⟨c', hc', hid, habsorb, -⟩ := h.inner _ hcovered
    obtain rfl := hs.coherent.eq_of_id hc' hc hid
    obtain ⟨r, hr, hsingle, hreads⟩ := hs.exists_reader habsorb
    have honce := h.once c' hc' r.id hsingle
    have hreader := ih r hr hreads
    rw [if_neg hne]
    omega
  · rw [List.count_eq_zero.2 hcovered]
    split <;> omega

/-- A signal that only the region reads is not both a leaf and driven by an inner node. -/
theorem Tiles.apart {c : Node} (hc : c ∈ s.netlist.nodes)
    (habsorb : s.isAbsorbable c.output = true) (hleaf : c.output ∈ m.leaves) :
    c.id ∉ m.covered := by
  intro hcovered
  obtain ⟨r, hr, hsingle, -⟩ := hs.exists_reader habsorb
  have honce := h.once c hc r.id hsingle
  have hreader := h.count_le_one hs hnode r hr
  have hpos : 0 < m.covered.count c.id := List.count_pos_iff.2 hcovered
  rw [if_pos hleaf] at honce
  omega

end

end Match

namespace Subject

variable {node : Node} {m : Match ν}

theorem tiles_of_cellMatches (hlib : lib.Checked) (hs : s.WellFormed)
    (hnode : node ∈ s.netlist.nodes) {cell : Cell ν} (hcell : cell ∈ lib.cells)
    (hroot : cell.function.rootKey?.isSome) (h : m ∈ s.cellMatches node cell) :
    m.Tiles s node := by
  obtain ⟨o, ho, hm⟩ := List.mem_filterMap.1 h
  obtain ⟨leaves, hleaves, hm⟩ := Option.bind_eq_some_iff.1 hm
  cases hm
  have hbound := forall₂_of_mapM_some hleaves
  have hexplores := Occurrence.explores_of_expand_root hs hnode hroot ho
  -- Every pin that is bound is an input of the cell, so what it is bound to is a leaf.
  have hleaf : ∀ pin x, o.pins.find? pin = some x → x ∈ leaves := by
    intro pin x hx
    obtain ⟨hpin, -⟩ := (hexplores.newPin pin x hx).resolve_left nofun
    obtain ⟨leaf, hmem, hfind⟩ := exists_of_forall₂ hbound.flip (hlib.pins cell hcell pin hpin)
    rw [hx] at hfind
    cases hfind
    exact hmem
  have hmeets : ∀ x, o.Meets s x →
      x ∈ leaves ∨ ∃ c ∈ s.netlist.nodes, c.output = x ∧ c.id ∈ o.covered := by
    rintro x (⟨pin, hpin⟩ | hdriven)
    · exact .inl (hleaf pin x hpin)
    · exact .inr hdriven
  have hseen : ∀ x, o.Seen s node.faninSignals x → ∃ d ∈ s.netlist.nodes,
      (d.id = node.id ∨ d.id ∈ o.covered) ∧ Reads d x := by
    rintro x (hx | ⟨d, hd, hid, hreads⟩)
    · exact ⟨node, hnode, .inl rfl, reads_iff.2 hx⟩
    · exact ⟨d, hd, .inr hid, hreads⟩
  refine ⟨rfl, fun d hd htouch x hx => hmeets x ?_, fun x hx => ?_, fun id hid => ?_,
    fun c hc r hr => ?_⟩
  · rcases htouch with hid | hid
    · obtain rfl := hs.coherent.eq_of_id hd hnode hid
      exact hexplores.reached x (reads_iff.1 hx)
    · exact (hexplores.closed d hd hid).resolve_left List.not_mem_nil x hx
  · obtain ⟨pin, -, hpin⟩ := exists_of_forall₂ hbound hx
    exact hseen x ((hexplores.newPin pin x hpin).resolve_left nofun).2
  · obtain ⟨c, hc, hcid, habsorb, hx⟩ := (hexplores.newNode id hid).resolve_left List.not_mem_nil
    exact ⟨c, hc, hcid, habsorb, hseen _ hx⟩
  · have hcount := hexplores.count c hc r hr
    have hreads : node.faninSignals.count c.output ≤ if node.id = r then 1 else 0 :=
      count_faninSignals_le hnode (hs.fanout ▸ hr)
    have hpins : (if c.output ∈ leaves then 1 else 0) ≤ o.pins.values.count c.output := by
      split
      · next hmem =>
        obtain ⟨pin, -, hpin⟩ := exists_of_forall₂ hbound hmem
        have hvalue : c.output ∈ o.pins.values :=
          List.mem_map_of_mem (f := Prod.snd) (Table.mem_entries_of_find? hpin)
        exact List.count_pos_iff.2 hvalue
      · exact Nat.zero_le _
    have hempty : Occurrence.empty.pins.values.count c.output = 0 := rfl
    have hnone : ∀ id, Occurrence.empty.covered.count id = 0 := fun _ => rfl
    rw [hempty, hnone, hnone] at hcount
    show (if c.output ∈ leaves then 1 else 0) + o.covered.count c.id ≤
      o.covered.count r + if node.id = r then 1 else 0
    omega

/-- Every match of a node has a closed region. -/
theorem tiles_of_nodeMatches (hlib : lib.Checked) (hs : s.WellFormed)
    (hnode : node ∈ s.netlist.nodes) (h : m ∈ s.nodeMatches lib node) : m.Tiles s node := by
  rcases of_mem_nodeMatches h with ⟨name, init, cell, -, -, -, rfl⟩ | ⟨cell, hcell, hm⟩
  · have htouch : ∀ d ∈ s.netlist.nodes,
        Match.Touches ⟨node.id, cell, node.faninSignals, [], init⟩ d.id → d = node := by
      rintro d hd (hid | hid)
      · exact hs.coherent.eq_of_id hd hnode hid
      · cases hid
    refine ⟨rfl, fun d hd hd' x hx => .inl ?_, fun x hx => ?_,
      fun _ hid => absurd hid List.not_mem_nil, fun c hc r hr => ?_⟩
    · obtain rfl := htouch d hd hd'
      exact reads_iff.1 hx
    · exact ⟨node, hnode, .inl rfl, reads_iff.2 hx⟩
    · have hreads : node.faninSignals.count c.output ≤ if node.id = r then 1 else 0 :=
        count_faninSignals_le hnode (hs.fanout ▸ hr)
      have hmem : (if c.output ∈ node.faninSignals then 1 else 0) ≤
          node.faninSignals.count c.output := by
        split
        · next hmem => exact List.count_pos_iff.2 hmem
        · exact Nat.zero_le _
      show (if c.output ∈ node.faninSignals then 1 else 0) + 0 ≤ 0 + if node.id = r then 1 else 0
      omega
  · rw [Library.lookup] at hcell
    split at hcell
    · obtain ⟨hmem, hkey⟩ := List.mem_filter.1 hcell
      refine tiles_of_cellMatches hlib hs hnode hmem ?_ hm
      rw [of_decide_eq_true hkey]
      rfl
    · cases hcell

end Subject

end GateSynth
