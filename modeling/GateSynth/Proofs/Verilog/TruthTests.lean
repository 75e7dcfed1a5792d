import GateSynth.Proofs.Verilog.Meaning
import GateSynth.Proofs.Verilog.Parsing

/-!
# Truth tests and sums of widths

The operands of `!`, `&&` and `||` are asked whether they are zero, which takes one bit more than
they have. `Expr.TestsWord` says that an expression asks this of an operand of 64 bits. The widths of
the parts of a concatenation are added up before their sum is checked, and `Expr.SumsBeyond` says that
an expression has a concatenation whose sum takes more than 32 bits. `Expr.Strains` is one or the
other.

`SourceFile.Computes` says that an expression is lowered for a module: in the module itself or, at
any depth, in the module of an instance (`SourceFile.computes_iff`).
-/

namespace GateSynth.Verilog

/-! ## Truth tests -/

mutual

/-- The operands whose truth an expression asks for, at any depth. -/
@[simp]
def Expr.tested : Expr → List Expr
  | .ident .. | .number .. | .select .. => []
  | .concat parts => Expr.testedParts parts
  | .unary .not inner => inner.tested
  | .unary .logicNot inner => inner :: inner.tested
  | .binary op left right =>
    if op.isLogical then left :: right :: (left.tested ++ right.tested)
    else left.tested ++ right.tested
  | .ternary condition yes no => condition.tested ++ yes.tested ++ no.tested

/-- The operands whose truth some expressions ask for. -/
@[simp]
def Expr.testedParts : List Expr → List Expr
  | [] => []
  | part :: rest => part.tested ++ Expr.testedParts rest

end

/-- The expression asks for the truth of a value that fills a word. -/
def Expr.TestsWord (bits : String → Nat) (e : Expr) : Prop :=
  ∃ x ∈ e.tested, x.ownBits bits = Width.limit

mutual

/-- The concatenations in an expression, at any depth. -/
@[simp]
def Expr.concats : Expr → List (List Expr)
  | .ident .. | .number .. | .select .. => []
  | .concat parts => parts :: Expr.concatsParts parts
  | .unary _ inner => inner.concats
  | .binary _ left right => left.concats ++ right.concats
  | .ternary condition yes no => condition.concats ++ yes.concats ++ no.concats

/-- The concatenations in some expressions. -/
@[simp]
def Expr.concatsParts : List Expr → List (List Expr)
  | [] => []
  | part :: rest => part.concats ++ Expr.concatsParts rest

end

/-- The widths of the parts of some concatenation have a sum of more than 32 bits. -/
def Expr.SumsBeyond (bits : String → Nat) (e : Expr) : Prop :=
  ∃ parts ∈ e.concats, UInt32.size ≤ Expr.partBits bits parts

/-- Lowering the expression cannot stay in the range of widths. -/
def Expr.Strains (bits : String → Nat) (e : Expr) : Prop := e.TestsWord bits ∨ e.SumsBeyond bits

/-- The expressions that are computed for an instance: those at the inputs of a module of the file,
and all of them otherwise. -/
def SourceFile.operands (file : SourceFile) (i : Instance) : List Expr :=
  match Elaborate.Gate.ofName? i.module, file.module? i.module with
  | none, some child =>
    match Elaborate.connectedPorts i child with
    | .ok connected =>
      (child.portDecls.filter fun port => port.direction = some .input).filterMap fun port =>
        (Table.findEntry port.name connected).join
    | .error _ => []
  | _, _ => i.connections.exprs

/-- Elaborating a module elaborates another one for an instance, at any depth. -/
inductive SourceFile.Contains (file : SourceFile) : Module → Module → Prop
  | self (m : Module) : Contains file m m
  | inside {m child k : Module} {i : Instance} (mem : i ∈ m.instances)
    (gate : Elaborate.Gate.ofName? i.module = none) (module : file.module? i.module = some child)
    (contains : Contains file child k) : Contains file m k

/-- Some module that is elaborated for a module has an expression like this computed, with the widths
of its signals. -/
def SourceFile.Computes (file : SourceFile) (m : Module) (P : (String → Nat) → Expr → Prop) : Prop :=
  ∃ k, file.Contains m k ∧
    ((∃ a ∈ k.assigns, P k.bits a.expr) ∨
      ∃ i ∈ k.instances, ∃ e ∈ file.operands i, P k.bits e)

/-- Some module that is elaborated for a module asks for the truth of a value that fills a word. -/
def SourceFile.TestsWord (file : SourceFile) (m : Module) : Prop := file.Computes m Expr.TestsWord

/-- Some module that is elaborated for a module has a concatenation whose widths do not add up in 32
bits. -/
def SourceFile.SumsBeyond (file : SourceFile) (m : Module) : Prop := file.Computes m Expr.SumsBeyond

section
variable {bits : String → Nat} {file : SourceFile} {m : Module} {P Q : (String → Nat) → Expr → Prop}

theorem Expr.not_strains_of_nil {e : Expr} (htested : e.tested = []) (hconcats : e.concats = []) :
    ¬ e.Strains bits := by
  rintro (⟨x, hx, -⟩ | ⟨parts, hparts, -⟩)
  · rw [htested] at hx
    cases hx
  · rw [hconcats] at hparts
    cases hparts

theorem Expr.testsWord_concat {parts : List Expr} :
    (Expr.concat parts).TestsWord bits ↔ ∃ part ∈ parts, part.TestsWord bits := by
  have hparts : (∃ x ∈ testedParts parts, x.ownBits bits = Width.limit) ↔
      ∃ part ∈ parts, part.TestsWord bits := by
    induction parts with
    | nil => simp
    | cons part rest ih => simp [or_and_right, exists_or, ih, TestsWord]
  rw [TestsWord, tested]
  exact hparts

theorem Expr.sumsBeyond_concat {parts : List Expr} :
    (Expr.concat parts).SumsBeyond bits ↔
      UInt32.size ≤ partBits bits parts ∨ ∃ part ∈ parts, part.SumsBeyond bits := by
  have hparts : (∃ x ∈ concatsParts parts, UInt32.size ≤ partBits bits x) ↔
      ∃ part ∈ parts, part.SumsBeyond bits := by
    induction parts with
    | nil => simp
    | cons part rest ih => simp [or_and_right, exists_or, ih, SumsBeyond]
  rw [← hparts]
  simp [SumsBeyond]

theorem Expr.sumsBeyond_binary {op : BinaryOp} {left right : Expr} :
    (Expr.binary op left right).SumsBeyond bits ↔ left.SumsBeyond bits ∨ right.SumsBeyond bits := by
  simp [SumsBeyond, or_and_right, exists_or]

theorem Expr.sumsBeyond_ternary {condition yes no : Expr} :
    (Expr.ternary condition yes no).SumsBeyond bits ↔
      condition.SumsBeyond bits ∨ yes.SumsBeyond bits ∨ no.SumsBeyond bits := by
  simp [SumsBeyond, or_and_right, exists_or]

theorem Expr.strains_concat {parts : List Expr} : (Expr.concat parts).Strains bits ↔
    UInt32.size ≤ partBits bits parts ∨ ∃ part ∈ parts, part.Strains bits := by
  simp only [Strains, testsWord_concat, sumsBeyond_concat, and_or_left, exists_or]
  exact or_left_comm

theorem Expr.strains_not {inner : Expr} :
    (Expr.unary .not inner).Strains bits ↔ inner.Strains bits := by
  simp [Strains, TestsWord, SumsBeyond]

theorem Expr.strains_logicNot {inner : Expr} : (Expr.unary .logicNot inner).Strains bits ↔
    inner.Strains bits ∨ inner.ownBits bits = Width.limit := by
  simp only [Strains, TestsWord, SumsBeyond, tested, concats, List.mem_cons, or_and_right, exists_or,
    exists_eq_left]
  simp only [or_assoc, or_comm]

theorem Expr.strains_logical {op : BinaryOp} (hop : op.isLogical = true) {left right : Expr} :
    (Expr.binary op left right).Strains bits ↔
      (left.Strains bits ∨ left.ownBits bits = Width.limit) ∨
        right.Strains bits ∨ right.ownBits bits = Width.limit := by
  simp only [Strains, TestsWord, SumsBeyond, tested, concats, hop, if_true, List.mem_cons,
    List.mem_append, or_and_right, exists_or, exists_eq_left]
  simp only [or_assoc, or_comm, or_left_comm]

theorem Expr.strains_binary {op : BinaryOp} (hop : op.isLogical = false) {left right : Expr} :
    (Expr.binary op left right).Strains bits ↔ left.Strains bits ∨ right.Strains bits := by
  simp only [Strains, TestsWord, SumsBeyond, tested, concats, hop, Bool.false_eq_true, if_false,
    List.mem_append, or_and_right, exists_or]
  exact or_or_or_comm

theorem Expr.strains_ternary {condition yes no : Expr} :
    (Expr.ternary condition yes no).Strains bits ↔
      condition.Strains bits ∨ yes.Strains bits ∨ no.Strains bits := by
  simp only [Strains, TestsWord, SumsBeyond, tested, concats, List.mem_append, or_and_right,
    exists_or]
  simp only [or_assoc, or_left_comm]

/-- What is computed for a module is computed in it or for the modules of its instances. -/
theorem SourceFile.computes_iff : file.Computes m P ↔
    (∃ a ∈ m.assigns, P m.bits a.expr) ∨
      ∃ i ∈ m.instances, (∃ e ∈ file.operands i, P m.bits e) ∨
        ∃ child, Elaborate.Gate.ofName? i.module = none ∧ file.module? i.module = some child ∧
          file.Computes child P := by
  constructor
  · rintro ⟨k, hcontains, hcomputes⟩
    cases hcontains with
    | self =>
      rcases hcomputes with ha | ⟨i, hi, he⟩
      · exact .inl ha
      · exact .inr ⟨i, hi, .inl he⟩
    | inside hi hgate hchild hbelow =>
      exact .inr ⟨_, hi, .inr ⟨_, hgate, hchild, k, hbelow, hcomputes⟩⟩
  · rintro (ha | ⟨i, hi, he | ⟨child, hgate, hchild, k, hbelow, hcomputes⟩⟩)
    · exact ⟨m, .self m, .inl ha⟩
    · exact ⟨m, .self m, .inr ⟨i, hi, he⟩⟩
    · exact ⟨k, .inside hi hgate hchild hbelow, hcomputes⟩

theorem SourceFile.Computes.mono (h : file.Computes m P) (hPQ : ∀ bits e, P bits e → Q bits e) :
    file.Computes m Q := by
  obtain ⟨k, hcontains, ⟨a, ha, he⟩ | ⟨i, hi, e, hmem, he⟩⟩ := h
  · exact ⟨k, hcontains, .inl ⟨a, ha, hPQ _ _ he⟩⟩
  · exact ⟨k, hcontains, .inr ⟨i, hi, e, hmem, hPQ _ _ he⟩⟩

theorem SourceFile.computes_strains :
    file.Computes m Expr.Strains ↔ file.TestsWord m ∨ file.SumsBeyond m := by
  constructor
  · rintro ⟨k, hcontains, ⟨a, ha, htests | hsums⟩ | ⟨i, hi, e, he, htests | hsums⟩⟩
    · exact .inl ⟨k, hcontains, .inl ⟨a, ha, htests⟩⟩
    · exact .inr ⟨k, hcontains, .inl ⟨a, ha, hsums⟩⟩
    · exact .inl ⟨k, hcontains, .inr ⟨i, hi, e, he, htests⟩⟩
    · exact .inr ⟨k, hcontains, .inr ⟨i, hi, e, he, hsums⟩⟩
  · rintro (htests | hsums)
    · exact htests.mono fun _ _ => .inl
    · exact hsums.mono fun _ _ => .inr

end

end GateSynth.Verilog
