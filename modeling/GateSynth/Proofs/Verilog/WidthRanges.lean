import GateSynth.Proofs.Verilog.TruthTests

/-!
# Widths in range

Elaboration computes with one bit more than a width, shifts by positions and by widths, and takes
differences of positions. `Hinges` follows its steps: a step hinges on a condition if it leaves the
range of widths only under this condition, and does not end well then. Most steps hinge on nothing;
lowering an expression hinges on its truth tests of 64 bits and on its sums of widths of more than 32
bits (`Hinges.lower`). Comparisons stay in range because wider ones are refused, parts side by side
because there is another part before the one that others are shifted by, and selections because they
end within a declared width.
-/

namespace GateSynth.Verilog

namespace Elaborate

variable {α β : Type} {P Q : Prop}

/-! ## Steps that hinge on a condition -/

/-- The step leaves the range only if the condition holds, and it does not end well then. -/
def Hinges (P : Prop) (step : Build α) : Prop :=
  ∀ n, match step.run n with
    | .ok _ => ¬ P
    | .error e => e = .beyondWord → P

namespace Hinges

theorem congr {step : Build α} (h : Hinges P step) (hPQ : P ↔ Q) : Hinges Q step :=
  propext hPQ ▸ h

theorem pure (a : α) : Hinges False (pure a : Build α) := fun _ => id

theorem throw {e : SourceError} (he : e ≠ .beyondWord) : Hinges P (throw e : Build α) :=
  fun _ heq => absurd heq he

theorem get : Hinges False (get : Build Netlist) := fun _ => id

theorem bind {step : Build α} {next : α → Build β} (h : Hinges P step)
    (hnext : ∀ a, Hinges Q (next a)) : Hinges (P ∨ Q) (step >>= next) := by
  intro n
  have hstep := h n
  rw [StateT.run_bind]
  cases hrun : step.run n with
  | error e =>
    rw [hrun] at hstep
    exact fun heq => .inl (hstep heq)
  | ok r =>
    rw [hrun] at hstep
    have hrest := hnext r.1 r.2
    show match (next r.1).run r.2 with
      | .ok _ => ¬ (P ∨ Q)
      | .error e => e = .beyondWord → P ∨ Q
    split
    · next heq =>
      rw [heq] at hrest
      exact not_or.2 ⟨hstep, hrest⟩
    · next heq =>
      rw [heq] at hrest
      exact fun hbeyond => .inr (hrest hbeyond)

/-- A step that always stays in range, before others. -/
theorem before {step : Build α} {next : α → Build β} (h : Hinges False step)
    (hnext : ∀ a, Hinges Q (next a)) : Hinges Q (step >>= next) :=
  (h.bind hnext).congr (by rw [false_or])

/-- Steps that always stay in range, after another one. -/
theorem after {step : Build α} {next : α → Build β} (h : Hinges P step)
    (hnext : ∀ a, Hinges False (next a)) : Hinges P (step >>= next) :=
  (h.bind hnext).congr (by rw [or_false])

theorem lift_bind_of {x : Except SourceError α} {next : α → Build β}
    (hx : x = .error .beyondWord → P) (hnext : ∀ a, x = .ok a → Hinges P (next a)) :
    Hinges P ((liftM x : Build α) >>= next) := by
  intro n
  cases x with
  | ok a => exact hnext a rfl n
  | error e =>
    show e = .beyondWord → P
    rintro rfl
    exact hx rfl

theorem lift_bind {x : Except SourceError α} {next : α → Build β} (hx : x ≠ .error .beyondWord)
    (hnext : ∀ a, x = .ok a → Hinges P (next a)) : Hinges P ((liftM x : Build α) >>= next) :=
  lift_bind_of (fun h => absurd h hx) hnext

theorem lift {x : Except SourceError α} (hx : x ≠ .error .beyondWord) :
    Hinges False (liftM x : Build α) := by
  intro n
  cases x with
  | ok a => exact id
  | error e =>
    show e = .beyondWord → False
    rintro rfl
    exact hx rfl

/-- A loop hinges on what its rounds hinge on. -/
theorem forM {step : α → Build Unit} {P : α → Prop} {xs : List α}
    (h : ∀ x ∈ xs, Hinges (P x) (step x)) : Hinges (∃ x ∈ xs, P x) (xs.forM step) := by
  induction xs with
  | nil => exact (pure ()).congr (by simp)
  | cons x xs ih =>
    rw [List.forall_mem_cons] at h
    exact (h.1.bind fun _ => ih h.2).congr (by simp)

end Hinges

theorem refusal_ne_beyondWord (site : Site) (e : NetlistError) : refusal site e ≠ .beyondWord := by
  unfold refusal
  split <;> nofun

namespace Hinges

theorem addNode (site : Site) (kind : Kind) (fanins : List Fanin) (output : String) :
    Hinges False (addNode site kind fanins output) := by
  refine get.before fun n => ?_
  split
  · exact fun _ => id
  · exact throw (refusal_ne_beyondWord site _)

theorem newSignal (w : Width) : Hinges False (newSignal w) := fun _ => id

theorem emit (site : Site) (kind : Kind) (fanins : List Fanin) (w : Width)
    (dest : Option String) : Hinges False (emit site kind fanins w dest) := by
  refine get.before fun n => ?_
  dsimp only
  split
  · exact (pure _).before fun output => (addNode _ _ _ _).before fun _ => pure _
  · exact (newSignal w).before fun output => (addNode _ _ _ _).before fun _ => pure _

theorem drive (site : Site) (d : String) (value : Fanin) (w : Width) :
    Hinges False (drive site d value w) := by
  rw [Elaborate.drive]
  split
  · exact pure _
  · exact (emit _ _ _ _ _).before fun _ => pure _

theorem constant (site : Site) (value : Word) (w : Width) :
    Hinges False (constant site value w) := emit _ _ _ _ _

theorem invert (site : Site) (value : Fanin) (w : Width) (dest : Option String) :
    Hinges False (invert site value w dest) := by
  refine get.before fun n => ?_
  split
  · exact pure _
  · exact emit _ _ _ _ _

/-! ## Widths and truth tests -/

theorem maskWidth (bits : Nat) : Hinges (¬ (1 ≤ bits ∧ bits ≤ 64)) (maskWidth bits) := by
  rw [Elaborate.maskWidth, Width.ofNat?]
  by_cases h : 1 ≤ bits ∧ bits ≤ 64
  · rw [dif_pos h]
    exact fun _ => not_not_intro h
  · rw [dif_neg h]
    exact fun _ _ => h

theorem wider (w : Width) : Hinges (w.bits = Width.limit) (wider w) := by
  refine (maskWidth _).congr ?_
  have hle := w.le
  rw [Width.limit]
  omega

theorem powerOfTwo (exponent : Nat) : Hinges (Width.limit ≤ exponent) (powerOfTwo exponent) := by
  rcases Nat.lt_or_ge exponent Width.limit with h | h
  · rw [powerOfTwo_of_lt h]
    exact fun _ => Nat.not_le_of_lt h
  · rw [powerOfTwo_of_le h]
    exact fun _ _ => h

/-- The shift and the mask ask for the same. -/
theorem powerConstant (site : Site) (exponent : Nat) :
    Hinges (Width.limit ≤ exponent) (powerConstant site exponent) := by
  refine ((powerOfTwo exponent).bind fun _ => (maskWidth (exponent + 1)).after fun _ =>
    constant _ _ _).congr ?_
  rw [Width.limit]
  omega

theorem topBit (site : Site) (value : Fanin) (w : Width) (dest : Option String) :
    Hinges (w.bits = Width.limit) (topBit site value w dest) :=
  ((powerConstant site w.bits).after fun _ => emit _ _ _ _ _).congr
    ⟨fun hle => Nat.le_antisymm w.le hle, Nat.le_of_eq ∘ Eq.symm⟩

theorem less (site : Site) (a b : Fanin) (w : Width) (dest : Option String) :
    Hinges (w.bits = Width.limit) (less site a b w dest) :=
  ((wider w).bind fun _ => (emit _ _ _ _ _).before fun _ => topBit _ _ w _).congr or_self_iff

theorem isZero (site : Site) (value : Fanin) (w : Width) (dest : Option String) :
    Hinges (w.bits = Width.limit) (isZero site value w dest) := by
  rw [Elaborate.isZero]
  split
  · next hw =>
    refine (invert _ _ _ _).congr ?_
    rw [hw]
    decide
  · exact ((wider w).bind fun _ => (constant _ _ _).before fun _ => (emit _ _ _ _ _).before fun _ =>
      topBit _ _ w _).congr or_self_iff

theorem equal (site : Site) (a b : Fanin) (w : Width) (dest : Option String) :
    Hinges (w.bits = Width.limit) (equal site a b w dest) :=
  (emit _ _ _ _ _).before fun _ => isZero _ _ _ _

theorem truth (site : Site) (value : Fanin) (w : Width) :
    Hinges (w.bits = Width.limit) (truth site value w) := by
  rw [Elaborate.truth]
  split
  · next hw =>
    refine (pure value).congr ?_
    rw [hw]
    decide
  · exact (isZero _ _ _ _).after fun _ => pure _

theorem compare (site : Site) (op : BinaryOp) (a b : Fanin) (w : Width) (dest : Option String) :
    Hinges (w.bits = Width.limit) (compare site op a b w dest) := by
  unfold Elaborate.compare
  split
  · exact equal _ _ _ _ _
  · exact (equal _ _ _ _ _).after fun _ => pure _
  · exact less _ _ _ _ _
  · exact less _ _ _ _ _
  · exact (less _ _ _ _ _).after fun _ => pure _
  · exact (less _ _ _ _ _).after fun _ => pure _

end Hinges

/-! ## Expressions -/

section
variable {scope : Scope} {site : Site} {name : String} {line : Nat}

theorem Scope.width_ne_beyondWord : scope.width name line ≠ .error .beyondWord := by
  rw [Scope.width]
  split
  · intro h
    cases h
  · intro h
    cases h

theorem Scope.read_ne_beyondWord : scope.read name line ≠ .error .beyondWord := by
  rw [Scope.read]
  split
  · nofun
  · nofun
  · split <;> nofun

theorem Scope.dest_ne_beyondWord : scope.dest name line ≠ .error .beyondWord := by
  unfold Scope.dest
  dsimp only
  split
  · nofun
  · nofun
  · split
    · split <;> nofun
    · nofun

theorem checkedWidth_ne_beyondWord {bits : Nat} : checkedWidth site bits ≠ .error .beyondWord := by
  rw [checkedWidth]
  split
  · intro h
    cases h
  · intro h
    cases h

theorem beyondWord_of_bind {x : Except SourceError α} {f : α → Except SourceError β}
    (h : (x >>= f) = .error .beyondWord) (hx : x ≠ .error .beyondWord) :
    ∃ a, x = .ok a ∧ f a = .error .beyondWord :=
  (error_of_bind h).resolve_left hx

mutual

/-- Finding the width of an expression takes no difference below zero, and leaves the range only over
a sum of widths. -/
theorem sumsBeyond_of_selfWidth (scope : Scope) (site : Site) :
    ∀ e : Expr, e.Ordered → selfWidth scope site e = .error .beyondWord → e.SumsBeyond scope.bits
  | .ident _ _, _, h => by
    rw [selfWidth] at h
    exact absurd h Scope.width_ne_beyondWord
  | .number (some _) _, _, h => by
    rw [selfWidth] at h
    exact absurd h checkedWidth_ne_beyondWord
  | .number none _, _, h => by
    rw [selfWidth] at h
    cases h
  | .select name msb lsb pos, hordered, h => by
    cases hordered with
    | select hle =>
    rw [selfWidth] at h
    obtain ⟨declared, -, h⟩ := beyondWord_of_bind h Scope.width_ne_beyondWord
    split at h
    · cases h
    · rw [if_neg (Nat.not_lt.2 hle)] at h
      exact absurd h checkedWidth_ne_beyondWord
  | .concat parts, hordered, h => by
    cases hordered with
    | concat hparts =>
    rw [selfWidth] at h
    rw [Expr.sumsBeyond_concat]
    obtain h | ⟨bits, -, h⟩ := error_of_bind h
    · exact Nat.zero_add (Expr.partBits _ _) ▸ sumsBeyond_of_selfBits scope site parts hparts h
    · exact absurd h checkedWidth_ne_beyondWord
  | .unary .not inner, hordered, h => by
    cases hordered with
    | unary hinner =>
    rw [selfWidth] at h
    exact sumsBeyond_of_selfWidth scope site inner hinner h
  | .unary .logicNot inner, _, h => by
    rw [selfWidth] at h
    cases h
  | .binary op left right, hordered, h => by
    cases hordered with
    | binary hleft hright =>
    rw [selfWidth] at h
    rw [Expr.sumsBeyond_binary]
    split at h
    · cases h
    · obtain h | ⟨_, -, h⟩ := error_of_bind h
      · exact .inl (sumsBeyond_of_selfWidth scope site left hleft h)
      · obtain h | ⟨_, -, h⟩ := error_of_bind h
        · exact .inr (sumsBeyond_of_selfWidth scope site right hright h)
        · cases h
  | .ternary condition yes no, hordered, h => by
    cases hordered with
    | ternary _ hyes hno =>
    rw [selfWidth] at h
    rw [Expr.sumsBeyond_ternary]
    obtain h | ⟨_, -, h⟩ := error_of_bind h
    · exact .inr (.inl (sumsBeyond_of_selfWidth scope site yes hyes h))
    · obtain h | ⟨_, -, h⟩ := error_of_bind h
      · exact .inr (.inr (sumsBeyond_of_selfWidth scope site no hno h))
      · cases h

/-- The sum itself is too large, or that of a part of a part. -/
theorem sumsBeyond_of_selfBits (scope : Scope) (site : Site) :
    ∀ (parts : List Expr) {before : Nat}, (∀ part ∈ parts, part.Ordered) →
      selfBits scope site before parts = .error .beyondWord →
        UInt32.size ≤ before + Expr.partBits scope.bits parts ∨
          ∃ part ∈ parts, part.SumsBeyond scope.bits
  | [], _, _, h => by
    rw [selfBits] at h
    cases h
  | part :: rest, before, hordered, h => by
    obtain ⟨hpart, hrest⟩ := List.forall_mem_cons.1 hordered
    rw [selfBits] at h
    obtain h | ⟨w, hw, h⟩ := error_of_bind h
    · exact .inr ⟨part, List.mem_cons_self, sumsBeyond_of_selfWidth scope site part hpart h⟩
    rw [Expr.partBits, ← ownBits_of_selfWidth part hw, ← Nat.add_assoc]
    split at h
    · obtain hle | ⟨other, hother, hsums⟩ := sumsBeyond_of_selfBits scope site rest hrest h
      · exact .inl hle
      · exact .inr ⟨other, List.mem_cons_of_mem _ hother, hsums⟩
    · next hle => exact .inl (Nat.le_trans (Nat.le_of_not_lt hle) (Nat.le_add_right _ _))

end

namespace Hinges

/-- What follows the width of an expression. -/
theorem selfWidth_bind {e : Expr} (h : e.Ordered) (hsums : e.Strains scope.bits → P)
    {next : Width → Build β} (hnext : ∀ w, w.bits = e.ownBits scope.bits → Hinges P (next w)) :
    Hinges P ((liftM (selfWidth scope site e) : Build Width) >>= next) :=
  lift_bind_of (fun hw => hsums (.inr (sumsBeyond_of_selfWidth scope site e h hw))) fun w hw =>
    hnext w (ownBits_of_selfWidth e hw)

/-- The expression hinges on its truth tests and on its sums of widths, at any width. -/
def OnStrains (scope : Scope) (site : Site) (e : Expr) : Prop :=
  ∀ w dest, Hinges (e.Strains scope.bits) (Elaborate.lower scope site e w dest)

theorem select {msb lsb : Nat} {pos : Position} (h : lsb ≤ msb) :
    OnStrains scope site (.select name msb lsb pos) := by
  intro w dest
  have hcalmWidth : ¬ (Expr.select name msb lsb pos).Strains scope.bits :=
    Expr.not_strains_of_nil rfl rfl
  have hcalm : Hinges False (Elaborate.lower scope site (.select name msb lsb pos) w dest) := by
    rw [Elaborate.lower]
    refine (lift Scope.read_ne_beyondWord).before fun base =>
      lift_bind_of (fun hw => ?_) fun selected hselected => ?_
    · exact hcalmWidth (.inr (sumsBeyond_of_selfWidth scope site _ (.select h) hw))
    split
    · refine (lift Scope.width_ne_beyondWord).before fun declared => ?_
      split
      · exact pure _
      · exact emit _ _ _ _ _
    · -- The shift is below the declared width, as the higher bit is.
      have hshift : ¬ Width.limit ≤ lsb := by
        rw [selfWidth] at hselected
        obtain ⟨declared, -, hselected⟩ := ok_of_bind hselected
        split at hselected
        · cases hselected
        · have hle := declared.le
          rw [Width.limit]
          omega
      exact Hinges.before ((powerConstant site lsb).congr (iff_of_false hshift id)) fun _ =>
        emit _ _ _ _ _
  exact hcalm.congr (iff_of_false id hcalmWidth)

theorem parts {parts : List Expr} (hparts : ∀ part ∈ parts, part.Ordered)
    (hstrains : ∀ part ∈ parts, OnStrains scope site part) (high : Fanin) {total : Width}
    (htotal : total.bits + Expr.partBits scope.bits parts ≤ 64) (dest : Option String) :
    Hinges (∃ part ∈ parts, part.Strains scope.bits)
      (lowerParts scope site parts high total dest) := by
  induction parts generalizing high total with
  | nil =>
    rw [lowerParts]
    exact (pure _).congr (by simp)
  | cons part rest ih =>
    rw [List.forall_mem_cons] at hparts hstrains
    rw [Expr.partBits] at htotal
    rw [lowerParts]
    refine Hinges.congr (P := part.Strains scope.bits ∨ ∃ part ∈ rest, part.Strains scope.bits) ?_
      (by simp)
    refine selfWidth_bind hparts.1 .inl fun partWidth hpart => ?_
    -- There is a part before this one, so this one does not fill a word.
    have hnarrow : ¬ Width.limit ≤ partWidth.bits := by
      have hpos := total.pos
      rw [Width.limit]
      omega
    refine (hstrains.1 partWidth none).bind fun value => ?_
    refine ((powerConstant site _).congr (iff_of_false hnarrow id)).before fun factor => ?_
    refine lift_bind checkedWidth_ne_beyondWord fun total' htotal' =>
      (emit _ _ _ _ _).before fun shifted => (emit _ _ _ _ _).before fun joined => ?_
    exact ih hparts.2 hstrains.2 joined (by have := checkedWidth_eq_ok htotal'; omega)

theorem concat {parts : List Expr} (hparts : ∀ part ∈ parts, part.Ordered)
    (hstrains : ∀ part ∈ parts, OnStrains scope site part) : OnStrains scope site (.concat parts) := by
  intro w dest
  unfold Elaborate.lower
  refine selfWidth_bind (.concat hparts) id fun total htotal => ?_
  rw [Expr.ownBits] at htotal
  have hsum : ¬ UInt32.size ≤ Expr.partBits scope.bits parts :=
    htotal ▸ Nat.not_le_of_lt (Nat.lt_of_le_of_lt total.le (by decide))
  cases parts with
  | nil => exact throw nofun
  | cons first rest =>
    rw [Expr.partBits] at htotal
    rw [List.forall_mem_cons] at hparts hstrains
    refine Hinges.congr (P := first.Strains scope.bits ∨ ∃ part ∈ rest, part.Strains scope.bits) ?_
      (by rw [Expr.strains_concat, or_iff_right hsum]; simp)
    refine selfWidth_bind hparts.1 .inl fun firstWidth hfirst => (hstrains.1 firstWidth none).bind
      fun high => parts hparts.2 hstrains.2 high ?_ dest
    have hle := total.le
    omega

theorem binary {op : BinaryOp} {left right : Expr} (hleft : left.Ordered) (hright : right.Ordered)
    (hl : OnStrains scope site left) (hr : OnStrains scope site right) :
    OnStrains scope site (.binary op left right) := by
  intro w dest
  cases op using BinaryOp.byClass with
  | logical op hop =>
    rw [lower_logical hop, Expr.strains_logical hop, or_assoc]
    exact selfWidth_bind hleft .inl fun v hv => hv ▸ (hl v none).bind fun _ => (truth _ _ v).bind
      fun _ => selfWidth_bind hright .inl fun u hu => hu ▸ (hr u none).bind fun _ =>
        (truth _ _ u).after fun _ => emit _ _ _ _ _
  | comparison op hop hop' =>
    rw [lower_comparison hop hop', Expr.strains_binary hop']
    refine selfWidth_bind hleft .inl fun v _ => selfWidth_bind hright .inr fun u _ => ?_
    split
    · exact throw nofun
    · next hnarrow =>
      have hlt : ¬ (v.max u).bits = Width.limit := fun heq => hnarrow (Nat.le_of_eq heq.symm)
      exact (hl _ none).bind fun a => (hr _ none).after fun b =>
        (compare _ op a b _ _).congr (iff_of_false hlt id)
  | xnor =>
    rw [lower_xnor, Expr.strains_binary rfl]
    exact (hl w none).bind fun _ => (hr w none).after fun _ =>
      (emit _ _ _ _ _).before fun _ => pure _
  | arithmetic op hop hxnor =>
    rw [lower_arithmetic hop hxnor, Expr.strains_binary (BinaryOp.not_isLogical hop)]
    exact (hl w none).bind fun _ => (hr w none).after fun _ => emit _ _ _ _ _

mutual

/-- Lowering an expression leaves the range exactly over its truth tests and its sums of widths. -/
theorem lower (scope : Scope) (site : Site) : ∀ e : Expr, e.Ordered → OnStrains scope site e
  | .ident name pos, _, w, dest => by
    rw [lower_ident]
    exact (lift Scope.read_ne_beyondWord).congr
      (iff_of_false id (Expr.not_strains_of_nil rfl rfl))
  | .number size value, _, w, dest => by
    rw [lower_number]
    exact (emit _ _ _ _ _).congr (iff_of_false id (Expr.not_strains_of_nil rfl rfl))
  | .select name msb lsb pos, h, w, dest => by
    cases h with
    | select hle => exact select hle w dest
  | .concat parts, h, w, dest => by
    cases h with
    | concat hparts => exact concat hparts (lowerAll scope site parts hparts) w dest
  | .unary .not inner, h, w, dest => by
    cases h with
    | unary hinner =>
    have hstrains := lower scope site inner hinner
    rw [Elaborate.lower]
    exact ((hstrains w none).after fun _ => invert _ _ _ _).congr Expr.strains_not.symm
  | .unary .logicNot inner, h, w, dest => by
    cases h with
    | unary hinner =>
    have hstrains := lower scope site inner hinner
    rw [Elaborate.lower]
    rw [Expr.strains_logicNot]
    exact selfWidth_bind hinner .inl fun v hv => hv ▸ (hstrains v none).bind fun value =>
      isZero _ value v dest
  | .binary op left right, h, w, dest => by
    cases h with
    | binary hleft hright =>
    exact binary hleft hright (lower scope site left hleft) (lower scope site right hright) w dest
  | .ternary condition yes no, h, w, dest => by
    cases h with
    | ternary hcondition hyes hno =>
    have hc := lower scope site condition hcondition
    have hy := lower scope site yes hyes
    have hn := lower scope site no hno
    rw [Elaborate.lower, Expr.strains_ternary]
    exact selfWidth_bind hcondition .inl fun conditionWidth _ => (hc conditionWidth none).bind
      fun _ => (hy w none).bind fun _ => (hn w none).after fun _ => emit _ _ _ _ _

theorem lowerAll (scope : Scope) (site : Site) :
    ∀ parts : List Expr, (∀ part ∈ parts, part.Ordered) → ∀ part ∈ parts, OnStrains scope site part
  | [], _ => List.forall_mem_nil _
  | first :: rest, h => by
    rw [List.forall_mem_cons] at h
    exact List.forall_mem_cons.2 ⟨lower scope site first h.1, lowerAll scope site rest h.2⟩

end

end Hinges

end

end Elaborate

end GateSynth.Verilog
