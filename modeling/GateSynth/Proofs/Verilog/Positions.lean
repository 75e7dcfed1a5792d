import GateSynth.Proofs.Verilog.Parsing
import GateSynth.Proofs.Verilog.Statements

/-!
# Positions in syntax trees

Positions are there for the errors. A file without them elaborates to the same netlist as the file,
or both fail (`elaborate_unplaced`), so two texts with the same tokens in other places elaborate to
the same netlist.
-/

namespace GateSynth.Verilog

/-! ## Trees without positions -/

mutual

/-- The expression without its positions. -/
def Expr.unplaced : Expr → Expr
  | .ident name _ => .ident name .nowhere
  | .number size value => .number size value
  | .select name msb lsb _ => .select name msb lsb .nowhere
  | .concat parts => .concat (Expr.unplacedAll parts)
  | .unary op inner => .unary op inner.unplaced
  | .binary op left right => .binary op left.unplaced right.unplaced
  | .ternary condition yes no => .ternary condition.unplaced yes.unplaced no.unplaced

/-- The expressions without their positions. -/
def Expr.unplacedAll : List Expr → List Expr
  | [] => []
  | e :: rest => e.unplaced :: Expr.unplacedAll rest

end

/-- The connected ports without their positions. -/
def unplacedPorts (ports : List (String × Option Expr)) : List (String × Option Expr) :=
  ports.map (Prod.map id (Option.map Expr.unplaced))

/-- The connections without their positions. -/
def Connections.unplaced : Connections → Connections
  | .positional exprs => .positional (exprs.map Expr.unplaced)
  | .named ports => .named (unplacedPorts ports)

/-- The instance without its positions. -/
def Instance.unplaced (i : Instance) : Instance :=
  { i with connections := i.connections.unplaced, pos := .nowhere }

/-- The assignment without its positions. -/
def Assign.unplaced (a : Assign) : Assign := { a with expr := a.expr.unplaced, pos := .nowhere }

/-- The declaration without its position. -/
def Decl.unplaced (d : Decl) : Decl := { d with pos := .nowhere }

/-- The module without its positions. -/
def Module.unplaced (m : Module) : Module where
  name := m.name
  ports := m.ports
  decls := m.decls.map Decl.unplaced
  assigns := m.assigns.map Assign.unplaced
  instances := m.instances.map Instance.unplaced
  pos := .nowhere

/-- The file without its positions. -/
def SourceFile.unplaced (file : SourceFile) : SourceFile := ⟨file.modules.map Module.unplaced⟩

theorem Module.decl?_unplaced (m : Module) (name : String) :
    m.unplaced.decl? name = (m.decl? name).map Decl.unplaced := by
  rw [decl?, decl?, unplaced, List.find?_map]
  rfl

theorem Module.portDecls_unplaced (m : Module) :
    m.unplaced.portDecls = m.portDecls.map Decl.unplaced := by
  rw [portDecls, portDecls, List.map_filterMap, show m.unplaced.ports = m.ports from rfl]
  exact congrArg (List.filterMap · m.ports) (funext m.decl?_unplaced)

theorem SourceFile.module?_unplaced (file : SourceFile) (name : String) :
    file.unplaced.module? name = (file.module? name).map Module.unplaced := by
  rw [module?, module?, unplaced, List.find?_map]
  rfl

theorem Module.WellFormed.unplaced {m : Module} (h : m.WellFormed) : m.unplaced.WellFormed where
  decls_nodup := by
    rw [Module.unplaced, List.map_map]
    exact h.decls_nodup
  ports_nodup := h.ports_nodup
  directed := List.forall_mem_map.2 h.directed
  flat_decl := List.forall_mem_map.2 h.flat_decl
  flat_instance := List.forall_mem_map.2 h.flat_instance

theorem SourceFile.WellFormed.unplaced {file : SourceFile} (h : file.WellFormed) :
    file.unplaced.WellFormed :=
  List.forall_mem_map.2 fun m hm => (h m hm).unplaced

namespace Elaborate

/-! ## Steps that differ in errors -/

section
variable {α β γ : Type}

/-- Results that correspond, and computations after them that agree on results that do. -/
theorem toOption_bind_map {ε ε' : Type} {x : Except ε α} {y : Except ε' γ} {f : γ → α}
    {next : α → Except ε β} {next' : γ → Except ε' β} (h : x.toOption = y.toOption.map f)
    (hnext : ∀ c, (next (f c)).toOption = (next' c).toOption) :
    (x >>= next).toOption = (y >>= next').toOption := by
  cases x with
  | error e =>
    cases y with
    | error e' => rfl
    | ok c => cases h
  | ok a =>
    cases y with
    | error e' => cases h
    | ok c =>
      cases h
      exact hnext c

theorem toOption_bind_congr {ε ε' : Type} {x : Except ε α} {y : Except ε' α}
    {next : α → Except ε β} {next' : α → Except ε' β} (h : x.toOption = y.toOption)
    (hnext : ∀ a, (next a).toOption = (next' a).toOption) :
    (x >>= next).toOption = (y >>= next').toOption :=
  toOption_bind_map (f := id) (by rw [Option.map_id, h, id]) hnext

/-- Two steps with the same results; one fails if the other does, maybe with another error. -/
def Agrees (x y : Build α) : Prop := ∀ n, (x.run n).toOption = (y.run n).toOption

namespace Agrees

theorem refl (x : Build α) : Agrees x x := fun _ => rfl

theorem throw (e e' : SourceError) : Agrees (throw e : Build α) (MonadExcept.throw e') :=
  fun _ => rfl

theorem bind {x y : Build α} {next next' : α → Build β} (h : Agrees x y)
    (hnext : ∀ a, Agrees (next a) (next' a)) : Agrees (x >>= next) (y >>= next') := by
  intro n
  rw [StateT.run_bind, StateT.run_bind]
  exact toOption_bind_congr (h n) fun r => hnext r.1 r.2

/-- Results that correspond, and steps after them that agree on results that do. -/
theorem lift_bind {x : Except SourceError α} {y : Except SourceError γ} {f : γ → α}
    {next : α → Build β} {next' : γ → Build β} (h : x.toOption = y.toOption.map f)
    (hnext : ∀ c, Agrees (next (f c)) (next' c)) :
    Agrees ((liftM x : Build α) >>= next) ((liftM y : Build γ) >>= next') := by
  intro n
  cases x with
  | error e =>
    cases y with
    | error e' => rfl
    | ok c => cases h
  | ok a =>
    cases y with
    | error e' => cases h
    | ok c =>
      cases h
      exact hnext c n

theorem lift {x y : Except SourceError α} (h : x.toOption = y.toOption) :
    Agrees (liftM x : Build α) (liftM y) :=
  fun _ => toOption_bind_congr h fun _ => rfl

/-- A loop over what corresponds. -/
theorem forM {f : γ → α} {step : α → Build Unit} {step' : γ → Build Unit}
    (h : ∀ c, Agrees (step (f c)) (step' c)) (cs : List γ) :
    Agrees ((cs.map f).forM step) (cs.forM step') := by
  induction cs with
  | nil => exact refl _
  | cons c cs ih => exact (h c).bind fun _ => ih

/-! ## Nodes -/

variable (site site' : Site)

theorem addNode (kind : Kind) (fanins : List Fanin) (output : String) :
    Agrees (addNode site kind fanins output) (Elaborate.addNode site' kind fanins output) := by
  refine (refl get).bind fun n => ?_
  split
  · exact refl _
  · exact throw _ _

theorem emit (kind : Kind) (fanins : List Fanin) (w : Width) (dest : Option String) :
    Agrees (emit site kind fanins w dest) (Elaborate.emit site' kind fanins w dest) := by
  refine (refl get).bind fun n => ?_
  dsimp only
  split
  · exact (refl _).bind fun _ => (addNode site site' _ _ _).bind fun _ => refl _
  · exact (refl _).bind fun _ => (addNode site site' _ _ _).bind fun _ => refl _

theorem drive (dest : String) (value : Fanin) (w : Width) :
    Agrees (drive site dest value w) (Elaborate.drive site' dest value w) := by
  rw [Elaborate.drive, Elaborate.drive]
  split
  · exact refl _
  · exact (emit site site' _ _ _ _).bind fun _ => refl _

theorem constant (value : Word) (w : Width) :
    Agrees (constant site value w) (Elaborate.constant site' value w) := emit _ _ _ _ _ _

theorem powerConstant (exponent : Nat) :
    Agrees (powerConstant site exponent) (Elaborate.powerConstant site' exponent) :=
  (refl _).bind fun _ => (refl _).bind fun _ => constant _ _ _ _

theorem invert (value : Fanin) (w : Width) (dest : Option String) :
    Agrees (invert site value w dest) (Elaborate.invert site' value w dest) := by
  refine (refl get).bind fun n => ?_
  split
  · exact refl _
  · exact emit _ _ _ _ _ _

theorem topBit (value : Fanin) (w : Width) (dest : Option String) :
    Agrees (topBit site value w dest) (Elaborate.topBit site' value w dest) :=
  (powerConstant site site' _).bind fun _ => emit _ _ _ _ _ _

theorem less (a b : Fanin) (w : Width) (dest : Option String) :
    Agrees (less site a b w dest) (Elaborate.less site' a b w dest) :=
  (refl _).bind fun _ => (emit site site' _ _ _ _).bind fun _ => topBit _ _ _ _ _

theorem isZero (value : Fanin) (w : Width) (dest : Option String) :
    Agrees (isZero site value w dest) (Elaborate.isZero site' value w dest) := by
  rw [Elaborate.isZero, Elaborate.isZero]
  split
  · exact invert _ _ _ _ _
  · exact (refl _).bind fun _ => (constant site site' _ _).bind fun _ =>
      (emit site site' _ _ _ _).bind fun _ => topBit _ _ _ _ _

theorem equal (a b : Fanin) (w : Width) (dest : Option String) :
    Agrees (equal site a b w dest) (Elaborate.equal site' a b w dest) :=
  (emit site site' _ _ _ _).bind fun _ => isZero _ _ _ _ _

theorem truth (value : Fanin) (w : Width) :
    Agrees (truth site value w) (Elaborate.truth site' value w) := by
  rw [Elaborate.truth, Elaborate.truth]
  split
  · exact refl _
  · exact (isZero site site' _ _ _).bind fun _ => refl _

theorem compare (op : BinaryOp) (a b : Fanin) (w : Width) (dest : Option String) :
    Agrees (compare site op a b w dest) (Elaborate.compare site' op a b w dest) := by
  have hless : ∀ a b dest, Agrees (Elaborate.less site a b w dest)
      (Elaborate.less site' a b w dest) := fun _ _ _ => less _ _ _ _ _ _
  unfold Elaborate.compare
  cases op
  case eq => exact equal _ _ _ _ _ _
  case ne => exact (equal site site' _ _ _ _).bind fun _ => refl _
  case lt => exact hless _ _ _
  case gt => exact hless _ _ _
  all_goals exact (hless _ _ none).bind fun _ => refl _

end Agrees

end

/-! ## Expressions -/

/-- The scope without the positions of its module. -/
def Scope.unplaced (scope : Scope) : Scope := { scope with module := scope.module.unplaced }

section
variable {scope : Scope}

theorem Scope.width_unplaced (name : String) (line line' : Nat) :
    (scope.unplaced.width name line).toOption = (scope.width name line').toOption := by
  rw [width, width, show scope.unplaced.module = scope.module.unplaced from rfl,
    Module.decl?_unplaced]
  cases scope.module.decl? name <;> rfl

theorem Scope.read_unplaced (name : String) (line line' : Nat) :
    (scope.unplaced.read name line).toOption = (scope.read name line').toOption := by
  rw [read, read, show scope.unplaced.module = scope.module.unplaced from rfl,
    Module.decl?_unplaced, Option.isSome_map,
    show scope.unplaced.bindings = scope.bindings from rfl]
  split
  · rfl
  · rfl
  · split <;> rfl

theorem Scope.dest_unplaced (name : String) (line line' : Nat) :
    (scope.unplaced.dest name line).toOption = (scope.dest name line').toOption := by
  rw [dest, dest, show scope.unplaced.module = scope.module.unplaced from rfl,
    Module.decl?_unplaced, show scope.unplaced.bindings = scope.bindings from rfl]
  split
  · rfl
  · rfl
  · cases scope.module.decl? name with
    | none => rfl
    | some d =>
      show (if d.direction = some .input then Except.error _ else Except.ok _).toOption =
        (if d.direction = some .input then Except.error _ else Except.ok _).toOption
      by_cases hinput : d.direction = some .input
      · rw [if_pos hinput, if_pos hinput]
        rfl
      · rw [if_neg hinput, if_neg hinput]
        rfl

theorem checkedWidth_toOption (site site' : Site) (bits : Nat) :
    (checkedWidth site bits).toOption = (checkedWidth site' bits).toOption := by
  rw [checkedWidth, checkedWidth]
  split <;> rfl

variable (scope) (site site' : Site)

mutual

theorem selfWidth_unplaced :
    ∀ e : Expr, (selfWidth scope.unplaced site e.unplaced).toOption =
      (selfWidth scope site' e).toOption
  | .ident name pos => by
    rw [Expr.unplaced, selfWidth, selfWidth]
    exact Scope.width_unplaced _ _ _
  | .number (some bits) value => by
    rw [Expr.unplaced, selfWidth, selfWidth]
    exact checkedWidth_toOption _ _ _
  | .number none value => by
    rw [Expr.unplaced, selfWidth, selfWidth]
  | .select name msb lsb pos => by
    rw [Expr.unplaced, selfWidth, selfWidth]
    refine toOption_bind_congr (Scope.width_unplaced _ _ _) fun declared => ?_
    split
    · rfl
    · split
      · rfl
      · exact checkedWidth_toOption _ _ _
  | .concat parts => by
    rw [Expr.unplaced, selfWidth, selfWidth]
    exact toOption_bind_congr (selfBits_unplaced parts 0) fun _ => checkedWidth_toOption _ _ _
  | .unary .not inner => by
    rw [Expr.unplaced, selfWidth, selfWidth]
    exact selfWidth_unplaced inner
  | .unary .logicNot inner => by
    rw [Expr.unplaced, selfWidth, selfWidth]
  | .binary op left right => by
    rw [Expr.unplaced, selfWidth, selfWidth]
    split
    · rfl
    · exact toOption_bind_congr (selfWidth_unplaced left) fun _ =>
        toOption_bind_congr (selfWidth_unplaced right) fun _ => rfl
  | .ternary condition yes no => by
    rw [Expr.unplaced, selfWidth, selfWidth]
    exact toOption_bind_congr (selfWidth_unplaced yes) fun _ =>
      toOption_bind_congr (selfWidth_unplaced no) fun _ => rfl

theorem selfBits_unplaced :
    ∀ (parts : List Expr) (before : Nat),
      (selfBits scope.unplaced site before (Expr.unplacedAll parts)).toOption =
        (selfBits scope site' before parts).toOption
  | [], _ => by
    rw [Expr.unplacedAll, selfBits, selfBits]
  | part :: rest, _ => by
    rw [Expr.unplacedAll, selfBits, selfBits]
    refine toOption_bind_congr (selfWidth_unplaced part) fun _ => ?_
    split
    · exact selfBits_unplaced rest _
    · rfl

end

/-- An expression without its positions is lowered to the same nodes. -/
def LowersUnplaced (e : Expr) : Prop :=
  ∀ w dest, Agrees (lower scope.unplaced site e.unplaced w dest) (lower scope site' e w dest)

end

namespace Agrees

section
variable {scope : Scope} {site site' : Site} {left right : Expr}

theorem selfWidth (scope : Scope) (site site' : Site) (e : Expr) :
    Agrees (liftM (selfWidth scope.unplaced site e.unplaced))
      (liftM (Elaborate.selfWidth scope site' e)) :=
  lift (selfWidth_unplaced scope site site' e)

theorem width (scope : Scope) (name : String) (line line' : Nat) :
    Agrees (liftM (scope.unplaced.width name line)) (liftM (scope.width name line')) :=
  lift (Scope.width_unplaced _ _ _)

theorem read (scope : Scope) (name : String) (line line' : Nat) :
    Agrees (liftM (scope.unplaced.read name line)) (liftM (scope.read name line')) :=
  lift (Scope.read_unplaced _ _ _)

theorem dest (scope : Scope) (name : String) (line line' : Nat) :
    Agrees (liftM (scope.unplaced.dest name line)) (liftM (scope.dest name line')) :=
  lift (Scope.dest_unplaced _ _ _)

theorem binary (op : BinaryOp) (hleft : LowersUnplaced scope site site' left)
    (hright : LowersUnplaced scope site site' right) :
    LowersUnplaced scope site site' (.binary op left right) := by
  intro w dest
  have hoperands : ∀ {β : Type} {next next' : Fanin → Fanin → Build β} (w : Width),
      (∀ a b, Agrees (next a b) (next' a b)) →
      Agrees (do
        let a ← lower scope.unplaced site left.unplaced w none
        let b ← lower scope.unplaced site right.unplaced w none
        next a b)
      (do
        let a ← lower scope site' left w none
        let b ← lower scope site' right w none
        next' a b) := fun w hnext =>
    (hleft w none).bind fun _ => (hright w none).bind fun _ => hnext _ _
  rw [Expr.unplaced]
  cases op using BinaryOp.byClass with
  | logical op hop =>
    rw [lower_logical hop, lower_logical hop]
    exact (selfWidth _ _ _ left).bind fun w => (hleft w none).bind fun _ =>
      (truth site site' _ _).bind fun _ => (selfWidth _ _ _ right).bind fun w' =>
      (hright w' none).bind fun _ => (truth site site' _ _).bind fun _ => emit _ _ _ _ _ _
  | comparison op hop hop' =>
    rw [lower_comparison hop hop', lower_comparison hop hop']
    refine (selfWidth _ _ _ left).bind fun _ => (selfWidth _ _ _ right).bind fun _ => ?_
    split
    · exact throw _ _
    · exact hoperands _ fun _ _ => compare _ _ _ _ _ _ _
  | xnor =>
    rw [lower_xnor, lower_xnor]
    exact hoperands w fun _ _ => (emit site site' _ _ _ none).bind fun _ => refl _
  | arithmetic op hop hxnor =>
    rw [lower_arithmetic hop hxnor, lower_arithmetic hop hxnor]
    exact hoperands w fun _ _ => emit _ _ _ _ _ _

theorem parts (scope : Scope) (site site' : Site) {parts : List Expr}
    (hparts : ∀ part ∈ parts, LowersUnplaced scope site site' part) (high : Fanin) (total : Width)
    (dest : Option String) :
    Agrees (lowerParts scope.unplaced site (Expr.unplacedAll parts) high total dest)
      (lowerParts scope site' parts high total dest) := by
  induction parts generalizing high total with
  | nil =>
    rw [Expr.unplacedAll, lowerParts, lowerParts]
    exact refl _
  | cons part rest ih =>
    obtain ⟨hpart, hrest⟩ := List.forall_mem_cons.1 hparts
    have hempty : (Expr.unplacedAll rest).isEmpty = rest.isEmpty := by cases rest <;> rfl
    rw [Expr.unplacedAll, lowerParts, lowerParts, hempty]
    exact (selfWidth _ _ _ part).bind fun w => (hpart w none).bind fun _ =>
      (powerConstant site site' _).bind fun _ => (lift (checkedWidth_toOption _ _ _)).bind fun _ =>
      (emit site site' _ _ _ none).bind fun _ => (emit site site' _ _ _ _).bind fun _ =>
      ih hrest _ _

end

mutual

/-- Lowering an expression does not depend on its positions. -/
theorem lower (scope : Scope) (site site' : Site) :
    ∀ e : Expr, LowersUnplaced scope site site' e
  | .ident name pos => fun w dest => by
    rw [Expr.unplaced, lower_ident, lower_ident]
    exact read _ _ _ _
  | .number size value => fun w dest => by
    rw [Expr.unplaced, lower_number, lower_number]
    exact emit _ _ _ _ _ _
  | .select name msb lsb pos => fun w dest => by
    rw [Expr.unplaced, Elaborate.lower, Elaborate.lower]
    refine (read scope name _ pos.line).bind fun base => ?_
    refine (selfWidth scope site site' (.select name msb lsb pos)).bind fun selected => ?_
    split
    · refine (width scope name _ pos.line).bind fun declared => ?_
      split
      · exact refl _
      · exact emit _ _ _ _ _ _
    · exact (powerConstant site site' _).bind fun _ => emit _ _ _ _ _ _
  | .concat parts => fun w dest => by
    have hparts := lowerAll scope site site' parts
    rw [Expr.unplaced]
    unfold Elaborate.lower
    refine (selfWidth scope site site' (.concat parts)).bind fun _ => ?_
    cases parts with
    | nil => exact throw _ _
    | cons first rest =>
      obtain ⟨hfirst, hrest⟩ := List.forall_mem_cons.1 hparts
      exact (selfWidth _ _ _ first).bind fun w => (hfirst w none).bind fun _ =>
        Agrees.parts scope site site' hrest _ _ _
  | .unary .not inner => fun w dest => by
    have hinner := lower scope site site' inner
    rw [Expr.unplaced, Elaborate.lower, Elaborate.lower]
    exact (hinner w none).bind fun _ => invert _ _ _ _ _
  | .unary .logicNot inner => fun w dest => by
    have hinner := lower scope site site' inner
    rw [Expr.unplaced, Elaborate.lower, Elaborate.lower]
    exact (selfWidth _ _ _ inner).bind fun w => (hinner w none).bind fun _ => isZero _ _ _ _ _
  | .binary op left right =>
    binary op (lower scope site site' left) (lower scope site site' right)
  | .ternary condition yes no => fun w dest => by
    have hcondition := lower scope site site' condition
    have hyes := lower scope site site' yes
    have hno := lower scope site site' no
    rw [Expr.unplaced, Elaborate.lower, Elaborate.lower]
    exact (selfWidth _ _ _ condition).bind fun w' => (hcondition w' none).bind fun _ =>
      (hyes w none).bind fun _ => (hno w none).bind fun _ => emit _ _ _ _ _ _

theorem lowerAll (scope : Scope) (site site' : Site) :
    ∀ parts : List Expr, ∀ part ∈ parts, LowersUnplaced scope site site' part
  | [] => List.forall_mem_nil _
  | first :: rest => List.forall_mem_cons.2
      ⟨lower scope site site' first, lowerAll scope site site' rest⟩

end

/-! ## Statements -/

section
variable {scope : Scope} {site site' : Site}

theorem assign (scope : Scope) (a : Assign) :
    Agrees (assign scope.unplaced a.unplaced) (Elaborate.assign scope a) :=
  (dest scope a.target _ _).bind fun d => (width scope a.target _ _).bind fun w =>
    (selfWidth scope _ _ a.expr).bind fun own =>
    (lower scope _ _ a.expr (w.max own) (some d)).bind fun _ => drive _ _ _ _ _

theorem lowerAll_list (w : Width) (exprs : List Expr) :
    Agrees (Elaborate.lowerAll scope.unplaced site w (exprs.map Expr.unplaced))
      (Elaborate.lowerAll scope site' w exprs) := by
  induction exprs with
  | nil => exact refl _
  | cons e rest ih => exact (lower scope site site' e w none).bind fun _ => ih.bind fun _ => refl _

theorem lowerEach (exprs : List Expr) :
    Agrees (lowerEach scope.unplaced site (exprs.map Expr.unplaced))
      (Elaborate.lowerEach scope site' exprs) := by
  induction exprs with
  | nil => exact refl _
  | cons e rest ih =>
    exact (selfWidth scope site site' e).bind fun w => (lower scope site site' e w none).bind
      fun _ => ih.bind fun _ => refl _

theorem joinInputs (gate : Gate) (w : Width) (dest : String) (joined : Fanin)
    (values : List Fanin) :
    Agrees (joinInputs site gate w dest joined values)
      (Elaborate.joinInputs site' gate w dest joined values) := by
  fun_induction Elaborate.joinInputs site gate w dest joined values with
  | case1 joined => exact refl _
  | case2 joined last _ hgate =>
    rw [Elaborate.joinInputs, if_pos hgate]
    exact (invert site site' _ _ none).bind fun _ => emit _ _ _ _ _ _
  | case3 joined last _ hgate =>
    rw [Elaborate.joinInputs, if_neg hgate]
    exact (refl _).bind fun _ => emit _ _ _ _ _ _
  | case4 joined value rest hrest ih =>
    rw [Elaborate.joinInputs.eq_3 _ _ _ _ _ _ _ hrest]
    exact (emit site site' _ _ _ none).bind fun joined => ih joined

theorem gateOutput (i : Instance) (gate : Gate) (w : Width) (dest : String)
    (values : List Fanin) :
    Agrees (gateOutput site i.unplaced gate w dest values)
      (Elaborate.gateOutput site' i gate w dest values) := by
  unfold Elaborate.gateOutput
  split
  · split
    · exact emit _ _ _ _ _ _
    · exact throw _ _
  · split
    · exact joinInputs _ _ _ _ _
    · exact throw _ _

end

end Agrees

section
variable {i : Instance} {child : Module}

theorem positional_unplaced (i : Instance) :
    (positional i.unplaced).toOption = (positional i).toOption.map (List.map Expr.unplaced) := by
  rw [positional, positional, show i.unplaced.connections = i.connections.unplaced from rfl]
  cases i.connections <;> rfl

theorem namedPorts_unplaced (ports before : List (String × Option Expr)) :
    (namedPorts i.unplaced child.unplaced (unplacedPorts ports) (unplacedPorts before)).toOption =
      (namedPorts i child ports before).toOption.map unplacedPorts := by
  induction ports generalizing before with
  | nil => rfl
  | cons p rest ih =>
    obtain ⟨port, expr⟩ := p
    have hbefore : ((unplacedPorts before).any fun earlier => earlier.1 = port) =
        before.any fun earlier => earlier.1 = port := by
      rw [unplacedPorts, List.any_map]
      rfl
    rw [show unplacedPorts ((port, expr) :: rest) =
      (port, expr.map Expr.unplaced) :: unplacedPorts rest from rfl, namedPorts, namedPorts,
      show child.unplaced.ports = child.ports from rfl, hbefore]
    split
    · rfl
    · split
      · rfl
      · rw [← ih (before ++ [(port, expr)]), unplacedPorts, unplacedPorts, unplacedPorts,
          List.map_append]
        rfl

theorem connectedPorts_unplaced (i : Instance) (child : Module) :
    (connectedPorts i.unplaced child.unplaced).toOption =
      (connectedPorts i child).toOption.map unplacedPorts := by
  rw [connectedPorts, connectedPorts,
    show i.unplaced.connections = i.connections.unplaced from rfl]
  cases i.connections with
  | positional exprs =>
    show (if (exprs.map Expr.unplaced).length > child.ports.length then Except.error _
      else Except.ok (child.ports.zip ((exprs.map Expr.unplaced).map some))).toOption =
      (if exprs.length > child.ports.length then Except.error _
        else Except.ok (child.ports.zip (exprs.map some))).toOption.map unplacedPorts
    rw [List.length_map]
    by_cases hlength : exprs.length > child.ports.length
    · rw [if_pos hlength, if_pos hlength]
      rfl
    · rw [if_neg hlength, if_neg hlength]
      refine congrArg some ?_
      rw [unplacedPorts, ← List.zip_map, List.map_id, List.map_map, List.map_map]
      rfl
  | named ports => exact namedPorts_unplaced ports []

theorem findEntry_unplacedPorts (port : String) (ports : List (String × Option Expr)) :
    (Table.findEntry port (unplacedPorts ports)).join =
      (Table.findEntry port ports).join.map Expr.unplaced := by
  induction ports with
  | nil => rfl
  | cons p rest ih =>
    obtain ⟨key, expr⟩ := p
    rw [show unplacedPorts ((key, expr) :: rest) =
      (key, expr.map Expr.unplaced) :: unplacedPorts rest from rfl, Table.findEntry,
      Table.findEntry]
    split
    · rfl
    · exact ih

end

namespace Agrees

section
variable {scope : Scope} {site site' : Site}

theorem gateInstance (i : Instance) (gate : Gate) :
    Agrees (gateInstance scope.unplaced site i.unplaced gate)
      (Elaborate.gateInstance scope site' i gate) := by
  refine lift_bind (positional_unplaced i) fun terminals => ?_
  cases terminals with
  | nil => exact throw _ _
  | cons first inputs =>
    cases first with
    | ident name pos =>
      exact (dest scope name _ _).bind fun d => (width scope name _ _).bind fun w =>
        (lowerAll_list w inputs).bind fun values => (gateOutput i gate w d values).bind fun _ =>
        drive _ _ _ _ _
    | _ => exact throw _ _

theorem blackBox (i : Instance) :
    Agrees (blackBox scope.unplaced site i.unplaced) (Elaborate.blackBox scope site' i) := by
  refine lift_bind (positional_unplaced i) fun terminals => ?_
  cases terminals with
  | nil => exact throw _ _
  | cons first inputs =>
    cases first with
    | ident name pos =>
      exact (dest scope name _ _).bind fun d => (width scope name _ _).bind fun w =>
        (lowerEach inputs).bind fun values => (emit site site' _ _ _ _).bind fun _ =>
        drive _ _ _ _ _
    | _ => exact throw _ _

/-! ## Instances -/

theorem connectPort (i : Instance) (path : String) (connected : List (String × Option Expr))
    (wiring : Wiring) (port : Decl) :
    Agrees (connectPort scope.unplaced site i.unplaced path (unplacedPorts connected) wiring
        port.unplaced)
      (Elaborate.connectPort scope site' i path connected wiring port) := by
  unfold Elaborate.connectPort
  dsimp only
  rw [show port.unplaced.name = port.name from rfl, findEntry_unplacedPorts,
    show port.unplaced.direction = port.direction from rfl]
  cases (Table.findEntry port.name connected).join with
  | none =>
    rcases port.direction with _ | _ | _
    case some.input => exact throw _ _
    all_goals exact refl _
  | some e =>
    rcases port.direction with _ | _ | _
    case some.input =>
      refine (selfWidth scope site site' e).bind fun own =>
        (lower scope site site' e _ none).bind fun value => (refl get).bind fun n => ?_
      rw [show port.unplaced.width = port.width from rfl]
      split
      · exact refl _
      · exact (emit site site' _ _ _ _).bind fun _ => refl _
    all_goals
      cases e with
      | ident name pos => exact (dest scope name _ _).bind fun _ => refl _
      | _ => exact throw _ _

theorem connectPorts (i : Instance) (path : String) (connected : List (String × Option Expr))
    (ports : List Decl) (wiring : Wiring) :
    Agrees (connectPorts scope.unplaced site i.unplaced path (unplacedPorts connected)
        (ports.map Decl.unplaced) wiring)
      (Elaborate.connectPorts scope site' i path connected ports wiring) := by
  induction ports generalizing wiring with
  | nil => exact refl _
  | cons port rest ih =>
    exact (connectPort i path connected wiring port).bind fun wiring => ih wiring

theorem declareOwn (path : String) (bindings : Table String Binding) (decls : List Decl) :
    Agrees (declareOwn path bindings (decls.map Decl.unplaced))
      (Elaborate.declareOwn path bindings decls) := by
  induction decls with
  | nil => exact refl _
  | cons d rest ih =>
    rw [List.map_cons, Elaborate.declareOwn, Elaborate.declareOwn,
      show d.unplaced.name = d.name from rfl]
    dsimp only
    split
    · exact ih
    · exact (refl _).bind fun _ => ih

theorem driveOuter (site site' : Site) (buffers : List (String × String)) :
    Agrees (driveOuter site buffers) (Elaborate.driveOuter site' buffers) := by
  induction buffers with
  | nil => exact refl _
  | cons b rest ih => exact (refl get).bind fun n => (drive site site' _ _ _).bind fun _ => ih

theorem inline {body body' : Scope → Build Unit} {child : Module}
    (hbody : ∀ inner : Scope, inner.module = child → Agrees (body inner.unplaced) (body' inner))
    (i : Instance) :
    Agrees (inline body scope.unplaced site i.unplaced child.unplaced)
      (Elaborate.inline body' scope site' i child) := by
  unfold Elaborate.inline
  rw [show i.unplaced.name = i.name from rfl]
  split
  · exact throw _ _
  · next name hname =>
    refine lift_bind (connectedPorts_unplaced i child) fun connected => ?_
    dsimp only
    rw [Module.portDecls_unplaced]
    exact (connectPorts i _ connected _ _).bind fun wiring => (declareOwn _ _ _).bind fun _ =>
      (hbody ⟨child, _, _⟩ rfl).bind fun _ => driveOuter _ _ _

theorem instantiate {file : SourceFile} {body body' : List String → Scope → Build Unit}
    (hbody : ∀ stack inner, Agrees (body stack inner.unplaced) (body' stack inner))
    (stack : List String) (i : Instance) :
    Agrees (instantiate file.unplaced body stack scope.unplaced i.unplaced)
      (Elaborate.instantiate file body' stack scope i) := by
  unfold Elaborate.instantiate
  dsimp only
  rw [show i.unplaced.module = i.module from rfl, SourceFile.module?_unplaced]
  cases Gate.ofName? i.module with
  | some gate => exact gateInstance i gate
  | none =>
    cases file.module? i.module with
    | none => exact blackBox i
    | some child =>
      dsimp only [Option.map_some]
      rw [show child.unplaced.name = child.name from rfl]
      split
      · exact throw _ _
      · exact inline (fun inner _ => hbody _ inner) i

/-- By induction on the depth: the statements of a module do not depend on positions. -/
theorem moduleBody (file : SourceFile) (depth : Nat) (stack : List String) (scope : Scope) :
    Agrees (moduleBody file.unplaced depth stack scope.unplaced)
      (Elaborate.moduleBody file depth stack scope) := by
  induction depth generalizing stack scope with
  | zero => exact throw _ _
  | succ depth ih =>
    exact (forM (assign scope) _).bind fun _ => forM (instantiate ih stack) _

end

end Agrees

/-! ## Files -/

theorem declarePorts_unplaced (ports : List Decl) (n : Netlist) :
    declarePorts (ports.map Decl.unplaced) n = declarePorts ports n := by
  induction ports generalizing n with
  | nil => rfl
  | cons port rest ih =>
    rw [List.map_cons, declarePorts, declarePorts]
    simp only [ih]
    rfl

theorem start_unplaced (m : Module) : start m.unplaced = start m := by
  rw [start, start, Module.portDecls_unplaced, declarePorts_unplaced,
    show m.unplaced.decls = m.decls.map Decl.unplaced from rfl, List.filter_map, List.foldl_map]
  rfl

end Elaborate

open Elaborate

/-- The module of a given name is looked up. -/
theorem SourceFile.top_some {f : SourceFile} (h : f.modules ≠ []) (name : String) :
    f.top (some name) = (f.module? name).elim (.error (.unknownTop name)) .ok := by
  obtain ⟨_ | ⟨first, rest⟩⟩ := f
  · exact absurd rfl h
  · unfold top
    dsimp only
    cases module? ⟨first :: rest⟩ name <;> rfl

theorem SourceFile.top_unplaced (file : SourceFile) (top : Option String) :
    (file.unplaced.top top).toOption = (file.top top).toOption.map Module.unplaced := by
  have hmodule := file.module?_unplaced
  have hnames : file.unplaced.modules.flatMap (fun m => m.instances.map Instance.module) =
      file.modules.flatMap fun m => m.instances.map Instance.module := by
    rw [unplaced, List.flatMap_map]
    refine congrArg (List.flatMap · file.modules) (funext fun m => ?_)
    rw [Module.unplaced, List.map_map]
    rfl
  obtain ⟨modules⟩ := file
  cases modules with
  | nil => rfl
  | cons first rest =>
    cases top with
    | some name =>
      have hsome : (unplaced ⟨first :: rest⟩).modules ≠ [] := List.cons_ne_nil _ _
      rw [top_some hsome, top_some (List.cons_ne_nil first rest), hmodule name]
      cases module? ⟨first :: rest⟩ name <;> rfl
    | none =>
      have hcandidates (used : List String) :
          (unplaced ⟨first :: rest⟩).modules.filter (fun m => !used.contains m.name) =
            ((first :: rest).filter fun m => !used.contains m.name).map Module.unplaced := by
        rw [unplaced, List.filter_map]
        rfl
      unfold SourceFile.top
      dsimp only [unplaced, List.map_cons] at *
      rw [hnames, hcandidates]
      rcases (first :: rest).filter _ with _ | ⟨only, _ | ⟨second, others⟩⟩ <;> rfl

/-- Positions make no difference to the netlist of a file. -/
theorem elaborate_unplaced (file : SourceFile) (top : Option String) :
    (elaborate file.unplaced top).toOption = (elaborate file top).toOption := by
  refine toOption_bind_map (file.top_unplaced top) fun m => ?_
  have hlength : file.unplaced.modules.length = file.modules.length := List.length_map _
  rw [start_unplaced, hlength]
  exact toOption_bind_congr rfl fun n₀ =>
    toOption_bind_congr (Agrees.moduleBody file _ _ ⟨m, "", .empty⟩ n₀) fun _ => rfl

theorem elaborate_unplaced_eq_ok_iff {file : SourceFile} {top : Option String} {n : Netlist} :
    elaborate file.unplaced top = .ok n ↔ elaborate file top = .ok n := by
  have h := elaborate_unplaced file top
  constructor
  · intro hn
    exact ok_of_toOption (h ▸ congrArg Except.toOption hn)
  · intro hn
    exact ok_of_toOption (h ▸ congrArg Except.toOption hn)

end GateSynth.Verilog
