import GateSynth.Proofs.Verilog.Statements

/-!
# Values that are handed on

Lowering an expression makes a node for its value, unless the expression does nothing but read a
signal, perhaps complemented (`Expr.echo?`). Where it makes a node, the signal of the value had no
driver before and has one now (`Anew`), and where it hands a signal on, the netlist stays as it is
(`lower_hands`). So an assignment drives its target with a new node, except for one that assigns its
target to itself, which does nothing at all (`assign_anew`).
-/

namespace GateSynth.Verilog

/-- The complement of a signal needs no node where it is as wide as its value. -/
def echoComplement (bits : String → Nat) (w : Nat) :
    Option (String × Bool) → Option (String × Bool)
  | some (name, inverted) => if bits name = w then some (name, !inverted) else none
  | none => none

mutual

/-- The name that the value of an expression at a width is read under if no node is made for it, and
whether it is complemented, given the widths of the names. -/
def Expr.echo? (bits : String → Nat) (w : Nat) : Expr → Option (String × Bool)
  | .ident name _ => some (name, false)
  | .number _ _ => none
  | .select name msb lsb _ => if lsb = 0 ∧ msb + 1 = bits name then some (name, false) else none
  | .concat parts => Expr.onlyEcho? bits parts
  | .unary .not inner => echoComplement bits w (inner.echo? bits w)
  | .unary .logicNot inner =>
    if inner.ownBits bits = 1 then echoComplement bits 1 (inner.echo? bits 1) else none
  | .binary _ _ _ => none
  | .ternary _ _ _ => none

/-- A part that stands alone is handed on. -/
def Expr.onlyEcho? (bits : String → Nat) : List Expr → Option (String × Bool)
  | [part] => part.echo? bits (part.ownBits bits)
  | _ => none

end

namespace Elaborate

open Netlist

variable {kinds : Kind → Prop} {n m n' : Netlist} {s : String} {dest : Option String}
  {α : Type}

/-! ## New drivers -/

/-- The inputs stay, and so do the nodes. -/
structure Keeps (n n' : Netlist) : Prop where
  inputs : n'.inputs = n.inputs
  nodes : ∀ node ∈ n.nodes, node ∈ n'.nodes

theorem Keeps.trans {n'' : Netlist} (h : Keeps n n') (h' : Keeps n' n'') : Keeps n n'' :=
  ⟨h'.inputs.trans h.inputs, fun node hnode => h'.nodes node (h.nodes node hnode)⟩

theorem Grown.keeps (h : Grown kinds dest n n') : Keeps n n' := ⟨h.inputs, h.nodes⟩

theorem Keeps.isDefined (h : Keeps n n') (hs : n.isDefined s = true) : n'.isDefined s = true := by
  rcases isDefined_iff.1 hs with ⟨node, hnode, rfl⟩ | hinput
  · exact isDefined_of_node (h.nodes node hnode)
  · exact isDefined_of_input (h.inputs ▸ hinput)

/-- The signal was neither driven nor an input before, and is driven now. -/
def Anew (n n' : Netlist) (s : String) : Prop :=
  n.isDefined s = false ∧ ∃ node ∈ n'.nodes, node.output = s

theorem Anew.isDefined (h : Anew n n' s) : n'.isDefined s = true := by
  obtain ⟨-, node, hnode, rfl⟩ := h
  exact isDefined_of_node hnode

theorem Anew.before (h : Anew m n' s) (hn : Keeps n m) : Anew n n' s := by
  refine ⟨Bool.eq_false_iff.2 fun hdefined => ?_, h.2⟩
  have hnew := h.1
  rw [hn.isDefined hdefined] at hnew
  cases hnew

theorem Anew.after (h : Anew n m s) (hn : Keeps m n') : Anew n n' s :=
  ⟨h.1, let ⟨node, hnode, ho⟩ := h.2; ⟨node, hn.nodes node hnode, ho⟩⟩

theorem Anew.of_addNode {kind : Kind} {fanins : List Fanin} {id : NodeId}
    (h : n.addNode kind fanins s = .ok (n', id)) : Anew n n' s := by
  obtain ⟨-, hfree, -, -⟩ := addNode_eq_ok h
  refine ⟨hfree, ⟨id, kind, fanins, s⟩, ?_, rfl⟩
  rw [nodes_of_addNode h]
  exact List.mem_append_right _ (.head _)

/-- A signal that a step without a destination drives anew is a temporary one. -/
theorem Anew.flat (h : Anew n n' s) (hn : Grown kinds none n n') : Flat s := by
  obtain ⟨hfree, node, hnode, rfl⟩ := h
  rcases hn.drivers node hnode with hold | hnew | hdest
  · rw [isDefined_of_node hold] at hfree
    cases hfree
  · refine (hn.newNames _ (isTaken_of_isDefined (isDefined_of_node hnode))).resolve_left ?_
    rw [hnew]
    decide
  · cases hdest

/-- The step returns the signal of a node that it adds. -/
def Places (dest : Option String) (step : Build Fanin) : Prop :=
  ∀ ⦃n n' f⦄, Ready n dest → step.run n = .ok (f, n') → Anew n n' f.signal

namespace Places

theorem emit (site : Site) (kind : Kind) (fanins : List Fanin) (w : Width)
    (dest : Option String) : Places dest (emit site kind fanins w dest) := by
  intro n n' f _ h
  rcases emit_run h with ⟨-, id, output, rfl, -, hnew⟩ | ⟨id, d, -, -, rfl, hadd⟩
  · refine ⟨Bool.eq_false_iff.2 fun hdefined => ?_, _, hnew.mem_nodes.2 (.inr rfl), rfl⟩
    have hfree : n.isTaken output = false := hnew.free
    have htaken : n.isTaken output = true := isTaken_of_isDefined hdefined
    rw [htaken] at hfree
    cases hfree
  · obtain ⟨-, hfree, -, -⟩ := addNode_eq_ok hadd
    refine ⟨hfree, ⟨id, kind, fanins, d⟩, ?_, rfl⟩
    rw [nodes_of_addNode hadd]
    exact List.mem_append_right _ (.head _)

theorem weaken {step : Build Fanin} (h : Places none step) : Places dest step :=
  fun n _ _ _ hrun => h (.none n) hrun

theorem throw (e : SourceError) : Places dest (throw e) := by
  intro n n' f _ h
  cases h

theorem bind {step : Build α} {next : α → Build Fanin} (h : Grows kinds dest step)
    (hnext : ∀ a, Places dest (next a)) : Places dest (step >>= next) := by
  intro n n' f hdest hrun
  obtain ⟨a, m, hstep, hrun⟩ := run_of_bind hrun
  have hgrown := h hdest hstep
  exact (hnext a (hdest.mono hgrown.later) hrun).before hgrown.keeps

theorem lift_bind {x : Except SourceError α} {next : α → Build Fanin}
    (hnext : ∀ a, Places dest (next a)) : Places dest (liftM x >>= next) :=
  have hlift : Grows Computed dest (liftM x : Build α) := .lift x
  bind hlift hnext

theorem negate {step : Build Fanin} (h : Places dest step) :
    Places dest (do return (← step).negate) := by
  intro n n' f hdest hrun
  obtain ⟨g, m, hstep, hrun⟩ := run_of_bind hrun
  cases hrun
  have hg : Anew n n' g.signal := h hdest hstep
  exact hg

theorem topBit (site : Site) (f : Fanin) (w : Width) (dest : Option String) :
    Places dest (topBit site f w dest) :=
  bind (Grows.powerConstant _ _) fun _ => emit _ _ _ _ _

theorem less (site : Site) (a b : Fanin) (w : Width) (dest : Option String) :
    Places dest (less site a b w dest) :=
  have hkind : Computed (.op .sub) := trivial
  bind (Grows.wider w) fun _ => bind ((Grows.emit hkind _ _ _ none).weaken) fun _ => topBit _ _ _ _

end Places

/-- The complement of a signal that was driven anew is on a signal that was. -/
theorem anew_invert {site : Site} {f g : Fanin} {w : Width} (hf : Anew n m f.signal)
    (hn : Grown kinds none n m) (h : (invert site f w dest).run m = .ok (g, n'))
    (hdest : Ready m dest) : Anew n n' g.signal := by
  obtain ⟨_, _, hget, h⟩ := run_of_bind h
  cases hget
  split at h
  · cases h
    exact hf
  · exact (Places.emit _ _ _ _ _ hdest h).before hn.keeps

/-- A test of a wide value makes nodes. -/
theorem Places.isZero {site : Site} {f : Fanin} {w : Width} (hw : w ≠ .one)
    (dest : Option String) : Places dest (isZero site f w dest) := by
  have hkind : Computed (.op .sub) := trivial
  rw [Elaborate.isZero, if_neg hw]
  exact bind (Grows.wider w) fun _ => bind (Grows.constant _ _ _) fun _ =>
    bind ((Grows.emit hkind _ _ _ none).weaken) fun _ => topBit _ _ _ _

theorem anew_isZero {site : Site} {f g : Fanin} {w : Width} (hf : Anew n m f.signal)
    (hn : Grown kinds none n m) (h : (isZero site f w dest).run m = .ok (g, n'))
    (hdest : Ready m dest) : Anew n n' g.signal := by
  by_cases hw : w = .one
  · rw [isZero, if_pos hw] at h
    exact anew_invert hf hn h hdest
  · exact (Places.isZero hw dest hdest h).before hn.keeps

namespace Places

theorem equal (site : Site) (a b : Fanin) (w : Width) (dest : Option String) :
    Places dest (equal site a b w dest) := by
  intro n n' f hdest h
  obtain ⟨difference, m, hdifference, h⟩ := run_of_bind h
  have hkind : Computed (.op .xor) := trivial
  have hgrown := Grows.emit hkind _ _ _ none (.none n) hdifference
  exact anew_isZero (emit _ _ _ _ none (.none n) hdifference) hgrown h (hdest.mono hgrown.later)

theorem compare (site : Site) (op : BinaryOp) (a b : Fanin) (w : Width) (dest : Option String) :
    Places dest (compare site op a b w dest) := by
  unfold Elaborate.compare
  split
  · exact equal _ _ _ _ _
  · exact (equal _ _ _ _ none).weaken.negate
  · exact less _ _ _ _ _
  · exact less _ _ _ _ _
  · exact (less _ _ _ _ none).weaken.negate
  · exact (less _ _ _ _ none).weaken.negate

section
variable (scope : Scope) (site : Site)

theorem binary (op : BinaryOp) (left right : Expr) (w : Width) (dest : Option String) :
    Places dest (lower scope site (.binary op left right) w dest) := by
  have hl : ∀ w, Grows Computed dest (lower scope site left w none) := fun w =>
    (Grows.lower scope site left w none).weaken
  have hr : ∀ w, Grows Computed dest (lower scope site right w none) := fun w =>
    (Grows.lower scope site right w none).weaken
  have htruth : ∀ f w, Grows Computed dest (truth site f w) := .truth site
  cases op using BinaryOp.byClass with
  | logical op hop =>
    rw [lower_logical hop]
    exact lift_bind fun _ => bind (hl _) fun _ => bind (htruth _ _) fun _ => lift_bind fun _ =>
      bind (hr _) fun _ => bind (htruth _ _) fun _ => emit _ _ _ _ _
  | comparison op hop hop' =>
    rw [lower_comparison hop hop']
    refine lift_bind fun _ => lift_bind fun _ => ?_
    split
    · exact throw _
    · exact bind (hl _) fun _ => bind (hr _) fun _ => compare _ _ _ _ _ _
  | xnor =>
    rw [lower_xnor]
    exact bind (hl _) fun _ => bind (hr _) fun _ => ((emit _ _ _ _ none).weaken).negate
  | arithmetic op hop hxnor =>
    rw [lower_arithmetic hop hxnor]
    exact bind (hl _) fun _ => bind (hr _) fun _ => emit _ _ _ _ _

/-- Parts that are joined to others. -/
theorem parts (part : Expr) (rest : List Expr) (high : Fanin) (total : Width)
    (dest : Option String) :
    Places dest (lowerParts scope site (part :: rest) high total dest) := by
  have hmul : Computed (.op .mul) := trivial
  have hor : Computed (.op .or) := trivial
  induction rest generalizing part high total with
  | nil =>
    have hjoin : ∀ fanins w dest, Places dest (do
        let joined ← Elaborate.emit site (.op .or) fanins w dest
        lowerParts scope site [] joined w dest) := fun fanins w dest => by
      simp only [lowerParts, bind_pure]
      exact emit _ _ _ _ _
    rw [lowerParts]
    exact lift_bind fun _ =>
      bind ((Grows.lower scope site part _ none).weaken) fun _ =>
      bind (Grows.powerConstant _ _) fun _ => lift_bind fun _ =>
      bind ((Grows.emit hmul _ _ _ none).weaken) fun _ => hjoin _ _ _
  | cons next rest ih =>
    rw [lowerParts]
    exact lift_bind fun _ =>
      bind ((Grows.lower scope site part _ none).weaken) fun _ =>
      bind (Grows.powerConstant _ _) fun _ => lift_bind fun _ =>
      bind ((Grows.emit hmul _ _ _ none).weaken) fun _ =>
      bind ((Grows.emit hor _ _ _ none).weaken) fun _ => ih _ _ _

theorem ternary (condition yes no : Expr) (w : Width) (dest : Option String) :
    Places dest (lower scope site (.ternary condition yes no) w dest) := by
  rw [lower]
  exact lift_bind fun _ =>
    bind ((Grows.lower scope site condition _ none).weaken) fun _ =>
    bind ((Grows.lower scope site yes _ none).weaken) fun _ =>
    bind ((Grows.lower scope site no _ none).weaken) fun _ => emit _ _ _ _ _

end

end Places

/-! ## Expressions -/

/-- A step returns what is read under a name, perhaps complemented, and leaves the netlist as it is,
or it makes a node for what it returns. -/
def Hands (scope : Scope) (n n' : Netlist) (f : Fanin) : Option (String × Bool) → Prop
  | some (name, inverted) =>
    n' = n ∧ ∃ g, scope.read name 0 = .ok g ∧ f = ⟨g.signal, g.inverted ^^ inverted⟩
  | none => Anew n n' f.signal

section
variable {scope : Scope} {site : Site} {f g : Fanin} {w : Width} {handed : Option (String × Bool)}

/-- The complement of what is handed on is, where it is as wide as its signal. -/
theorem hands_invert (hfits : scope.Fits n) (hdest : Ready n dest) (hf : Hands scope n m f handed)
    (hn : Grown kinds none n m) (h : (invert site f w dest).run m = .ok (g, n')) :
    Hands scope n n' g (echoComplement scope.bits w.bits handed) := by
  cases handed with
  | none => exact anew_invert hf hn h (hdest.mono hn.later)
  | some read =>
    obtain ⟨name, inverted⟩ := read
    obtain ⟨rfl, base, hread, rfl⟩ := hf
    obtain ⟨-, d, hd, hwidth⟩ := hfits hread
    have hbits : scope.bits name = w.bits ↔ m.width base.signal = w := by
      rw [Scope.bits, Module.bits_of_decl? hd, hwidth]
      exact ⟨Width.ext, fun h => h ▸ rfl⟩
    rw [echoComplement]
    obtain ⟨_, _, hget, h⟩ := run_of_bind h
    cases hget
    split at h
    · next hw =>
      cases h
      rw [if_pos (hbits.2 hw)]
      exact ⟨rfl, base, hread, by simp [Fanin.negate]⟩
    · next hw =>
      rw [if_neg (mt hbits.1 hw)]
      exact Places.emit _ _ _ _ _ hdest h

theorem hands_select {name : String} {msb lsb : Nat} {pos : Position} (hdest : Ready n dest)
    (h : (lower scope site (.select name msb lsb pos) w dest).run n = .ok (f, n')) :
    Hands scope n n' f (Expr.echo? scope.bits w.bits (.select name msb lsb pos)) := by
  rw [lower] at h
  obtain ⟨base, hread, h⟩ := run_of_lift_bind h
  obtain ⟨selected, hselected, h⟩ := run_of_lift_bind h
  have hbits := ownBits_of_selfWidth _ hselected
  rw [Expr.ownBits] at hbits
  rw [Expr.echo?]
  split at h
  · next hlsb =>
    obtain ⟨declared, hdeclared, h⟩ := run_of_lift_bind h
    obtain ⟨-, -, -, hname⟩ := Scope.width_eq_ok hdeclared
    split at h
    · next heq =>
      cases h
      rw [if_pos ⟨hlsb, by rw [hname, ← heq, hbits, hlsb]; rfl⟩]
      exact ⟨rfl, f, Scope.read_line hread 0, by simp⟩
    · next hne =>
      rw [if_neg fun hwhole => hne (Width.ext (by rw [← hname, ← hwhole.2, hbits, hlsb]; rfl))]
      exact Places.emit _ _ _ _ _ hdest h
  · next hlsb =>
    rw [if_neg fun hwhole => hlsb hwhole.1]
    exact Places.bind (Grows.powerConstant _ _) (fun _ => Places.emit _ _ _ _ _) hdest h

mutual

/-- Lowering an expression makes a node for its value, unless it hands a signal on. -/
theorem lower_hands : ∀ (e : Expr) {w : Width} {dest : Option String} {n n' : Netlist} {f : Fanin},
    scope.Fits n → Ready n dest → (lower scope site e w dest).run n = .ok (f, n') →
    Hands scope n n' f (e.echo? scope.bits w.bits)
  | .ident name pos, w, dest, n, n', f, _, _, h => by
    rw [lower_ident] at h
    obtain ⟨hread, rfl⟩ := run_of_lift h
    rw [Expr.echo?]
    exact ⟨rfl, f, Scope.read_line hread 0, by simp⟩
  | .number size value, w, dest, n, n', f, _, hdest, h => by
    rw [lower_number] at h
    rw [Expr.echo?]
    exact Places.emit _ _ _ _ _ hdest h
  | .select name msb lsb pos, w, dest, n, n', f, _, hdest, h => hands_select hdest h
  | .concat parts, w, dest, n, n', f, hfits, hdest, h => by
    have hparts := parts_hands parts
    unfold lower at h
    obtain ⟨_, -, h⟩ := run_of_lift_bind h
    rw [Expr.echo?]
    cases parts with
    | nil => cases h
    | cons first rest =>
      obtain ⟨own, hown, h⟩ := run_of_lift_bind h
      obtain ⟨high, m, hhigh, h⟩ := run_of_bind h
      have hfirst := hparts first (.head _) hfits (.none n) hhigh
      rw [ownBits_of_selfWidth first hown] at hfirst
      cases rest with
      | nil =>
        rw [lowerParts] at h
        cases h
        exact hfirst
      | cons next rest =>
        have hgrown := Grows.lower _ _ _ _ none (.none n) hhigh
        exact (Places.parts _ _ _ _ _ _ _ (hdest.mono hgrown.later) h).before hgrown.keeps
  | .unary .not inner, w, dest, n, n', f, hfits, hdest, h => by
    rw [lower] at h
    obtain ⟨g, m, hg, h⟩ := run_of_bind h
    have hgrown := Grows.lower _ _ _ _ none (.none n) hg
    rw [Expr.echo?]
    exact hands_invert hfits hdest (lower_hands inner hfits (.none n) hg) hgrown h
  | .unary .logicNot inner, w, dest, n, n', f, hfits, hdest, h => by
    rw [lower] at h
    obtain ⟨own, hown, h⟩ := run_of_lift_bind h
    obtain ⟨g, m, hg, h⟩ := run_of_bind h
    have hgrown := Grows.lower _ _ _ _ none (.none n) hg
    have hinner := lower_hands inner hfits (.none n) hg
    rw [Expr.echo?, ← ownBits_of_selfWidth inner hown]
    by_cases hone : own = .one
    · rw [isZero, if_pos hone] at h
      rw [hone] at hinner ⊢
      have hbits : Width.one.bits = 1 := rfl
      rw [if_pos hbits]
      exact hands_invert hfits hdest hinner hgrown h
    · have hbits : own.bits ≠ 1 := fun hbits => hone (Width.ext hbits)
      rw [if_neg hbits]
      exact (Places.isZero hone _ (hdest.mono hgrown.later) h).before hgrown.keeps
  | .binary op left right, w, dest, n, n', f, _, hdest, h => by
    rw [Expr.echo?]
    exact Places.binary _ _ _ _ _ _ _ hdest h
  | .ternary condition yes no, w, dest, n, n', f, _, hdest, h => by
    rw [Expr.echo?]
    exact Places.ternary _ _ _ _ _ _ _ hdest h

theorem parts_hands : ∀ (parts : List Expr), ∀ part ∈ parts, ∀ {w : Width} {dest : Option String}
    {n n' : Netlist} {f : Fanin}, scope.Fits n → Ready n dest →
    (lower scope site part w dest).run n = .ok (f, n') →
    Hands scope n n' f (part.echo? scope.bits w.bits)
  | [] => List.forall_mem_nil _
  | part :: rest => List.forall_mem_cons.2 ⟨lower_hands part, parts_hands rest⟩

end

end

/-! ## Statements -/

/-- What an expression hands on at a width. -/
def Scope.handed? (scope : Scope) (e : Expr) (w : Nat) : Option Fanin := do
  let (name, inverted) ← e.echo? scope.bits w
  let g ← (scope.read name 0).toOption
  return ⟨g.signal, g.inverted ^^ inverted⟩

/-- The assignment hands its target on to itself. -/
def Scope.Idle (scope : Scope) (a : Assign) : Prop :=
  ∃ d, scope.dest a.target a.pos.line = .ok d ∧
    scope.handed? a.expr (max (scope.bits a.target) (a.expr.ownBits scope.bits)) = some (.plain d)

section
variable {scope : Scope} {site : Site} {i : Instance} {d : String} {f : Fanin} {w : Width}

theorem handed?_eq_none {e : Expr} {w : Nat} (h : e.echo? scope.bits w = none) :
    scope.handed? e w = none := by
  rw [Scope.handed?, h]
  rfl

theorem handed?_eq_some {e : Expr} {w : Nat} {name : String} {inverted : Bool} {g : Fanin}
    (h : e.echo? scope.bits w = some (name, inverted)) (hread : scope.read name 0 = .ok g) :
    scope.handed? e w = some ⟨g.signal, g.inverted ^^ inverted⟩ := by
  rw [Scope.handed?, h]
  simp only [Option.bind_eq_bind, Option.bind_some, hread]
  rfl

/-- What is driven under a name has the declared width of the name. -/
theorem Scope.Fits.target {name : String} {line : Nat} (hfits : scope.Fits n)
    (hd : scope.dest name line = .ok d) (hw : scope.width name line = .ok w) :
    n.isTaken d = true ∧ n.width d = w := by
  obtain ⟨htaken, decl, hdecl, hwidth⟩ := hfits (Scope.read_of_dest hd)
  obtain ⟨decl', hdecl', rfl, -⟩ := Scope.width_eq_ok hw
  obtain rfl : decl = decl' := by simpa [hdecl] using hdecl'
  exact ⟨htaken, hwidth⟩

/-- A node that is wide enough for the destination drives it. -/
theorem emit_dest {kind : Kind} {fanins : List Fanin} (hw : (n.width d).bits ≤ w.bits)
    (h : (emit site kind fanins w (some d)).run n = .ok (f, n')) :
    f = .plain d ∧ Anew n n' d := by
  rcases emit_run h with ⟨hwide, -⟩ | ⟨id, d', hd', -, rfl, hadd⟩
  · have := hwide d rfl
    omega
  · cases hd'
    exact ⟨rfl, Anew.of_addNode hadd⟩

/-- A signal is driven anew, by what makes its value or by a buffer, unless the value is the signal
itself. -/
theorem drive_anew (hw : (n.width d).bits ≤ w.bits)
    (h : (drive site d f w).run n = .ok ((), n')) :
    f = .plain d ∧ n' = n ∨ f ≠ .plain d ∧ Anew n n' d := by
  rw [drive] at h
  split at h
  · next hself =>
    cases h
    obtain ⟨signal, inverted⟩ := f
    obtain ⟨rfl, hinverted⟩ := hself
    rw [Bool.not_eq_true'] at hinverted
    exact .inl ⟨by rw [Fanin.plain, ← hinverted], rfl⟩
  · next hself =>
    obtain ⟨_, _, hemit, h⟩ := run_of_bind h
    cases h
    exact .inr ⟨fun heq => hself (heq ▸ ⟨rfl, rfl⟩), (emit_dest hw hemit).2⟩

/-- An assignment does nothing if it hands its target on to itself, and drives its target with a new
node otherwise. -/
theorem assign_anew {a : Assign} (hfits : scope.Fits n)
    (h : (assign scope a).run n = .ok ((), n')) :
    scope.Idle a ∧ n' = n ∨
      ¬ scope.Idle a ∧ ∃ d, scope.dest a.target a.pos.line = .ok d ∧ Anew n n' d := by
  rw [assign] at h
  obtain ⟨d, hd, h⟩ := run_of_lift_bind h
  obtain ⟨w, hw, h⟩ := run_of_lift_bind h
  obtain ⟨own, hown, h⟩ := run_of_lift_bind h
  obtain ⟨f, m, hf, h⟩ := run_of_bind h
  obtain ⟨htaken, hwidth⟩ := hfits.target hd hw
  obtain ⟨-, -, -, hbits⟩ := Scope.width_eq_ok hw
  have hready : Ready n (some d) := hfits.drives.ready hd
  have hgrown := Grows.lower _ _ _ _ _ hready hf
  have hdrive := drive_anew (Nat.le_of_eq (by rw [hgrown.width d htaken, hwidth])) h
  have hidle : scope.Idle a ↔
      scope.handed? a.expr (w.max own).bits = some (.plain d) := by
    rw [Scope.Idle, hd, hbits, bits_max, ownBits_of_selfWidth _ hown]
    constructor
    · intro hidle
      obtain ⟨_, hd', hhanded⟩ := hidle
      cases hd'
      exact hhanded
    · exact fun hhanded => ⟨d, rfl, hhanded⟩
  have hhands := lower_hands a.expr hfits hready hf
  rw [hidle]
  cases hecho : a.expr.echo? scope.bits (w.max own).bits with
  | none =>
    rw [hecho] at hhands
    rw [handed?_eq_none hecho]
    refine .inr ⟨Option.some_ne_none _ |>.symm, d, hd, ?_⟩
    rcases hdrive with ⟨rfl, rfl⟩ | ⟨-, hanew⟩
    · exact hhands
    · exact hanew.before hgrown.keeps
  | some read =>
    obtain ⟨name, inverted⟩ := read
    rw [hecho] at hhands
    obtain ⟨rfl, g, hread, rfl⟩ := hhands
    rw [handed?_eq_some hecho hread]
    rcases hdrive with ⟨hself, rfl⟩ | ⟨hother, hanew⟩
    · exact .inl ⟨congrArg some hself, rfl⟩
    · exact .inr ⟨fun hself => hother (Option.some.inj hself), d, hd, hanew⟩

/-- The inputs of a gate, joined, drive its output. -/
theorem joinInputs_anew {gate : Gate} {joined : Fanin} {values : List Fanin} (hvalues : values ≠ [])
    (htaken : n.isTaken d = true) (hw : (n.width d).bits ≤ w.bits)
    (h : (joinInputs site gate w d joined values).run n = .ok (f, n')) :
    f = .plain d ∧ Anew n n' d := by
  have hafter : ∀ {α : Type} {step : Build α} {next : α → Build Fanin} {n : Netlist},
      Grows Computed none step → n.isTaken d = true → (n.width d).bits ≤ w.bits →
      (∀ {a m}, m.isTaken d = true → (m.width d).bits ≤ w.bits → (next a).run m = .ok (f, n') →
        f = .plain d ∧ Anew m n' d) →
      (step >>= next).run n = .ok (f, n') → f = .plain d ∧ Anew n n' d := by
    intro α step next n hstep htaken hw hnext h
    obtain ⟨a, m, ha, h⟩ := run_of_bind h
    have hgrown := hstep (.none n) ha
    obtain ⟨hf, hanew⟩ := hnext (hgrown.taken d htaken) (by rwa [hgrown.width d htaken]) h
    exact ⟨hf, hanew.before hgrown.keeps⟩
  have hchain : Computed (.op gate.chain) := trivial
  fun_induction joinInputs site gate w d joined values generalizing n with
  | case1 joined => exact absurd rfl hvalues
  | case2 joined last =>
    exact hafter (Grows.invert _ _ _ none) htaken hw (fun _ hw h => emit_dest hw h) h
  | case3 joined last => exact hafter (Grows.pure _) htaken hw (fun _ hw h => emit_dest hw h) h
  | case4 joined value rest hrest ih =>
    exact hafter (Grows.emit hchain _ _ _ none) htaken hw (fun htaken hw h =>
      ih _ hrest htaken hw h) h

/-- The node or the last node of a gate drives its output. -/
theorem gateOutput_anew {gate : Gate} {values : List Fanin} (htaken : n.isTaken d = true)
    (hw : (n.width d).bits ≤ w.bits)
    (h : (gateOutput site i gate w d values).run n = .ok (f, n')) :
    f = .plain d ∧ Anew n n' d := by
  unfold gateOutput at h
  split at h
  · split at h
    · exact emit_dest hw h
    · cases h
  · split at h
    · exact joinInputs_anew (List.cons_ne_nil _ _) htaken hw h
    · cases h

/-- A gate, or a module without a definition, drives the signal at its first terminal. -/
def Scope.Terminal (scope : Scope) (i : Instance) (d : String) : Prop :=
  ∃ name pos inputs, positional i = .ok (.ident name pos :: inputs) ∧
    scope.dest name i.pos.line = .ok d

theorem gateInstance_anew {gate : Gate} (hfits : scope.Fits n)
    (h : (gateInstance scope site i gate).run n = .ok ((), n')) :
    ∃ d, scope.Terminal i d ∧ Anew n n' d := by
  rw [gateInstance] at h
  obtain ⟨terminals, hterminals, h⟩ := run_of_lift_bind h
  split at h
  · next name pos inputs =>
    obtain ⟨d, hd, h⟩ := run_of_lift_bind h
    obtain ⟨w, hw, h⟩ := run_of_lift_bind h
    obtain ⟨values, m, hvalues, h⟩ := run_of_bind h
    obtain ⟨f, m', hf, h⟩ := run_of_bind h
    obtain ⟨htaken, hwidth⟩ := hfits.target hd hw
    have hgrown := Grows.lowerAll_list _ _ _ _ (hfits.drives.ready hd) hvalues
    obtain ⟨rfl, hanew⟩ := gateOutput_anew (hgrown.taken d htaken)
      (Nat.le_of_eq (by rw [hgrown.width d htaken, hwidth])) hf
    rw [drive, if_pos ⟨rfl, rfl⟩] at h
    cases h
    exact ⟨d, ⟨name, pos, inputs, hterminals, hd⟩, hanew.before hgrown.keeps⟩
  · cases h

theorem blackBox_anew (hfits : scope.Fits n)
    (h : (blackBox scope site i).run n = .ok ((), n')) :
    ∃ d, scope.Terminal i d ∧ Anew n n' d := by
  rw [blackBox] at h
  obtain ⟨terminals, hterminals, h⟩ := run_of_lift_bind h
  split at h
  · next name pos inputs =>
    obtain ⟨d, hd, h⟩ := run_of_lift_bind h
    obtain ⟨w, hw, h⟩ := run_of_lift_bind h
    obtain ⟨fanins, m, hfanins, h⟩ := run_of_bind h
    obtain ⟨f, m', hf, h⟩ := run_of_bind h
    obtain ⟨htaken, hwidth⟩ := hfits.target hd hw
    have hgrown := Grows.lowerEach _ _ _ (hfits.drives.ready hd) hfanins
    obtain ⟨rfl, hanew⟩ := emit_dest (Nat.le_of_eq (by rw [hgrown.width d htaken, hwidth])) hf
    rw [drive, if_pos ⟨rfl, rfl⟩] at h
    cases h
    exact ⟨d, ⟨name, pos, inputs, hterminals, hd⟩, hanew.before hgrown.keeps⟩
  · cases h

end

end Elaborate

end GateSynth.Verilog
