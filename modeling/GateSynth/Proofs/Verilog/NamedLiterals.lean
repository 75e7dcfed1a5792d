import GateSynth.Proofs.Verilog.Counterparts
import GateSynth.Proofs.Verilog.LineIndex

/-!
# Literals with names

A literal of a declared width in an assignment of some module, and an internal wire of this width
that is assigned the literal and stands in its place. The two files have the same behaviours, and so
netlists that put out the same on every input, if the value of the literal fits the width, or the
context respects it: taken at the width of its place, the literal has no bits above its own
(`elaborate_namedLiteral`). Elsewhere the bits above the width are still there, and the wire loses
them (`elaborate_wideLiteral`).
-/

namespace GateSynth.Verilog

open Elaborate Netlist

/-! ## A literal and its name -/

/-- A literal with its width. -/
def Expr.sized (w : Width) (value : Word) : Expr := .number (some w.bits) value

/-- Taken at the width of its place in an expression of some width, the literal has no bits above
its own width. -/
def Expr.Context.Respects (c : Expr.Context) (bits : String → Nat) (w : Width) (value : Word)
    (outer : Nat) : Prop :=
  value.toNat % span (c.width bits (.sized w value) outer) = value.toNat % span w.bits

/-- The names that a module declares or mentions. -/
def Module.names (m : Module) : List String :=
  m.ports ++ m.decls.map Decl.name ++ m.assigns.flatMap (fun a => a.target :: a.expr.names) ++
    m.instances.flatMap Instance.names

/-- The second module is the first with a name for a literal in an assignment to a target: a new
wire of the width of the literal is assigned the literal and stands in its place. -/
structure Module.NamesLiteral (m m' : Module) (wire : Decl) (value : Word) (target : String)
    (c : Expr.Context) : Prop where
  name : m'.name = m.name
  ports : m'.ports = m.ports
  instances : m'.instances = m.instances
  internal : wire.direction = none
  new : wire.name ∉ m.names
  decls : m'.decls.Perm (wire :: m.decls)
  assigns : ∃ pos pos₁ pos₂ pos₃ others,
    m.assigns.Perm (⟨target, c.fill (.sized wire.width value), pos⟩ :: others) ∧
      m'.assigns.Perm (⟨wire.name, .sized wire.width value, pos₁⟩ ::
        ⟨target, c.fill (.ident wire.name pos₂), pos₃⟩ :: others)

/-- A value that fits its width is the same at every width where a context takes it. -/
theorem Expr.Context.respects_of_lt {c : Expr.Context} {bits : String → Nat} {w : Width}
    {value : Word} {outer : Nat} (h : value.toNat < span w.bits)
    (hown : (c.fill (.sized w value)).ownBits bits ≤ outer) : c.Respects bits w value outer := by
  have hle : w.bits ≤ c.width bits (.sized w value) outer := by
    have hwidth := c.ownBits_le_width hown
    rwa [Expr.sized, Expr.ownBits] at hwidth
  rw [Respects, Nat.mod_eq_of_lt h, Nat.mod_eq_of_lt (Nat.lt_of_lt_of_le h (span_le hle))]

theorem Module.names_assign {m : Module} {a : Assign} (ha : a ∈ m.assigns) :
    a.target :: a.expr.names ⊆ m.names := fun _ hs =>
  List.mem_append_left _ (List.mem_append_right _ (List.mem_flatMap.2 ⟨a, ha, hs⟩))

theorem Module.names_instance {m : Module} {i : Instance} (hi : i ∈ m.instances) :
    i.names ⊆ m.names := fun _ hs =>
  List.mem_append_right _ (List.mem_flatMap.2 ⟨i, hi, hs⟩)

theorem Module.decl?_eq_some_iff {m : Module} (hm : m.WellFormed) {name : String} {d : Decl} :
    m.decl? name = some d ↔ d ∈ m.decls ∧ d.name = name := by
  refine ⟨fun h => ⟨List.mem_of_find?_eq_some h, by simpa using List.find?_some h⟩, ?_⟩
  rintro ⟨hd, rfl⟩
  exact decl?_of_mem hm hd

/-- An assignment of other declarations and values that are the same for its names. -/
theorem Module.Assigned.congr {m m' : Module} {env env' : String → Nat} {a : Assign}
    (h : Module.Shared (a.target :: a.expr.names) m m' env env') (ha : m.Assigned env a) :
    m'.Assigned env' a := by
  obtain ⟨d, hd, hvalue⟩ := ha
  obtain ⟨hdecl, htarget⟩ := h a.target (.head _)
  have hexpr : Module.Shared a.expr.names m m' env env' := fun s hs => h s (.tail _ hs)
  refine ⟨d, hdecl ▸ hd, ?_⟩
  rw [← htarget, hvalue, a.expr.ownBits_congr hexpr.sameOn, a.expr.value_congr _ hexpr.sameOn]

/-! ## The values of the wire -/

/-- The values with the wire and those without it. -/
structure WithWire (wire : Decl) (value : Word) (env env' : String → Nat) : Prop where
  others : ∀ s, s ≠ wire.name → env s = env' s
  without : env wire.name = 0
  wire : env' wire.name = value.toNat % span wire.width.bits

namespace Module.NamesLiteral

variable {m m' : Module} {wire : Decl} {value : Word} {target : String} {c : Expr.Context}
  {env env' : String → Nat} {names : List String}

section
variable (h : m.NamesLiteral m' wire value target c) (hm : m.WellFormed) (hm' : m'.WellFormed)

include h

theorem decl?_wire_eq_none : m.decl? wire.name = none := by
  rw [decl?, List.find?_eq_none]
  intro d hd heq
  refine h.new (List.mem_append_left _ (List.mem_append_left _ (List.mem_append_right _ ?_)))
  exact (show d.name = wire.name by simpa using heq) ▸ List.mem_map_of_mem hd

include hm'

theorem decl?_wire : m'.decl? wire.name = some wire :=
  decl?_of_mem hm' (h.decls.mem_iff.2 (.head _))

include hm

/-- The other names are declared as before. -/
theorem decl?_other {s : String} (hs : s ≠ wire.name) : m.decl? s = m'.decl? s := by
  ext d
  rw [Module.decl?_eq_some_iff hm, Module.decl?_eq_some_iff hm', h.decls.mem_iff, List.mem_cons]
  refine and_congr_left fun hname => ⟨.inr, fun hd => hd.resolve_left ?_⟩
  rintro rfl
  exact hs hname.symm

theorem sameShape : m.SameShape m' := by
  refine ⟨h.name, h.ports, ?_, h.instances⟩
  rw [portDecls, portDecls, h.ports]
  refine List.filterMap_congr fun s hs => (h.decl?_other hm hm' ?_).symm
  rintro rfl
  exact h.new (List.mem_append_left _ (List.mem_append_left _ (List.mem_append_left _ hs)))

/-- What the module mentions has the same declarations and values. -/
theorem shared (henv : WithWire wire value env env') (hnames : names ⊆ m.names) :
    Module.Shared names m m' env env' := by
  intro s hs
  have hother : s ≠ wire.name := fun heq => h.new (heq ▸ hnames hs)
  exact ⟨h.decl?_other hm hm' hother, henv.others s hother⟩

theorem fits_iff (henv : WithWire wire value env env') :
    (∀ s, env s < span (m.bits s)) ↔ ∀ s, env' s < span (m'.bits s) := by
  have hother : ∀ s, s ≠ wire.name → (env s < span (m.bits s) ↔ env' s < span (m'.bits s)) := by
    intro s hs
    rw [henv.others s hs, Module.bits, Module.bits, h.decl?_other hm hm' hs]
  refine ⟨fun hfits s => ?_, fun hfits s => ?_⟩
  · by_cases hs : s = wire.name
    · rw [hs, henv.wire, Module.bits_of_decl? (h.decl?_wire hm')]
      exact Nat.mod_lt _ (span_pos _)
    · exact (hother s hs).1 (hfits s)
  · by_cases hs : s = wire.name
    · rw [hs, henv.without]
      exact span_pos _
    · exact (hother s hs).2 (hfits s)

/-- The literal and the wire make the same of their context if this respects the width. -/
theorem assigned_fill_iff (henv : WithWire wire value env env') (pos pos₂ pos₃ : Position)
    (hmem : target :: (c.fill (.sized wire.width value)).names ⊆ m.names)
    (hrespects : c.Respects m.bits wire.width value
      (max (m.bits target) ((c.fill (.sized wire.width value)).ownBits m.bits))) :
    m.Assigned env ⟨target, c.fill (.sized wire.width value), pos⟩ ↔
      m'.Assigned env' ⟨target, c.fill (.ident wire.name pos₂), pos₃⟩ := by
  have hshared := h.shared hm hm' henv hmem
  obtain ⟨hdecl, htarget⟩ := hshared target (.head _)
  have hnames : SameOn (c.fill (.sized wire.width value)).names m.bits env m'.bits env' :=
    Module.Shared.sameOn fun s hs => hshared s (.tail _ hs)
  have hown : (Expr.sized wire.width value).ownBits m.bits =
      (Expr.ident wire.name pos₂).ownBits m'.bits := by
    rw [Expr.sized, Expr.ownBits, Expr.ownBits, Module.bits_of_decl? (h.decl?_wire hm')]
  have hfill := c.ownBits_fill hown hnames
  have hvalue : ∀ d, m.decl? target = some d →
      (c.fill (.sized wire.width value)).value m.bits env
          (max d.width.bits ((c.fill (.sized wire.width value)).ownBits m.bits)) =
        (c.fill (.ident wire.name pos₂)).value m'.bits env'
          (max d.width.bits ((c.fill (.ident wire.name pos₂)).ownBits m'.bits)) := by
    intro d hd
    rw [← hfill]
    refine c.value_fill hown hnames ?_
    rw [Module.bits_of_decl? hd] at hrespects
    rw [Expr.value, henv.wire]
    exact hrespects
  constructor
  · rintro ⟨d, hd, heq⟩
    exact ⟨d, hdecl ▸ hd, htarget.symm.trans (heq.trans (by rw [hvalue d hd]))⟩
  · rintro ⟨d, hd, heq⟩
    have hd' : m.decl? target = some d := hdecl.trans hd
    exact ⟨d, hd', htarget.trans (heq.trans (by rw [hvalue d hd']))⟩

/-- The assignments of both modules ask for the same. -/
theorem assigns_iff (henv : WithWire wire value env env')
    (hrespects : c.Respects m.bits wire.width value
      (max (m.bits target) ((c.fill (.sized wire.width value)).ownBits m.bits))) :
    (∀ a ∈ m.assigns, m.Assigned env a) ↔ ∀ a ∈ m'.assigns, m'.Assigned env' a := by
  obtain ⟨pos, pos₁, pos₂, pos₃, others, hassigns, hassigns'⟩ := h.assigns
  have hothers : ∀ a ∈ others, m.Assigned env a ↔ m'.Assigned env' a := by
    intro a ha
    have hshared := h.shared hm hm' henv (names_assign (hassigns.mem_iff.2 (.tail _ ha)))
    exact ⟨fun hassigned => hassigned.congr hshared,
      fun hassigned => hassigned.congr fun s hs => (hshared s hs).imp Eq.symm Eq.symm⟩
  have hfill := h.assigned_fill_iff hm hm' henv pos pos₂ pos₃
    (names_assign (hassigns.mem_iff.2 (.head _))) hrespects
  have hwire : m'.Assigned env' ⟨wire.name, .sized wire.width value, pos₁⟩ := by
    refine ⟨wire, h.decl?_wire hm', ?_⟩
    rw [henv.wire, Expr.sized, Expr.ownBits, Nat.max_self, Expr.value, Nat.mod_mod]
  constructor
  · intro hall a ha
    rcases List.mem_cons.1 (hassigns'.mem_iff.1 ha) with rfl | ha
    · exact hwire
    rcases List.mem_cons.1 ha with rfl | ha
    · exact hfill.1 (hall _ (hassigns.mem_iff.2 (.head _)))
    · exact (hothers a ha).1 (hall a (hassigns.mem_iff.2 (.tail _ ha)))
  · intro hall a ha
    rcases List.mem_cons.1 (hassigns.mem_iff.1 ha) with rfl | ha
    · exact hfill.2 (hall _ (hassigns'.mem_iff.2 (.tail _ (.head _))))
    · exact (hothers a ha).2 (hall a (hassigns'.mem_iff.2 (.tail _ (.tail _ ha))))

end

/-! ## The behaviours of both modules -/

section
variable {file file' : SourceFile} {inside inside' : Module → (String → Nat) → Prop}
  (h : m.NamesLiteral m' wire value target c) (hm : m.WellFormed) (hm' : m'.WellFormed)
  (hrespects : c.Respects m.bits wire.width value
    (max (m.bits target) ((c.fill (.sized wire.width value)).ownBits m.bits)))

include h hm hm' hrespects

/-- The wire gets its value. -/
theorem exists_holds_named (hinstances : ∀ {i : Instance} {env env'},
      Module.Shared i.names m m' env env' → i.Holds file inside m env →
        i.Holds file' inside' m' env')
    (hholds : m.Holds file inside env) :
    ∃ env', m'.Holds file' inside' env' ∧ m.Agree m' env env' := by
  have hzero : env wire.name = 0 := by
    have hlt := hholds.fits wire.name
    rw [Module.bits, h.decl?_wire_eq_none] at hlt
    exact Nat.lt_one_iff.1 hlt
  have henv : WithWire wire value env
      (Function.update env wire.name (value.toNat % span wire.width.bits)) :=
    ⟨fun s hs => (Function.update_of_ne hs _ _).symm, hzero, Function.update_self ..⟩
  refine ⟨_, ⟨(h.fits_iff hm hm' henv).1 hholds.fits,
    (h.assigns_iff hm hm' henv hrespects).1 hholds.assigns, fun i hi => ?_⟩,
    fun s hs _ => (henv.others s ?_).symm⟩
  · rw [h.instances] at hi
    exact hinstances (h.shared hm hm' henv (names_instance hi)) (hholds.instances i hi)
  · rintro rfl
    rw [h.decl?_wire_eq_none] at hs
    cases hs

/-- The wire is forgotten. -/
theorem exists_holds_unnamed (hinstances : ∀ {i : Instance} {env env'},
      Module.Shared i.names m' m env env' → i.Holds file' inside' m' env →
        i.Holds file inside m env')
    (hholds : m'.Holds file' inside' env') :
    ∃ env, m.Holds file inside env ∧ m'.Agree m env' env := by
  have hwire : env' wire.name = value.toNat % span wire.width.bits := by
    obtain ⟨pos, pos₁, pos₂, pos₃, others, -, hassigns'⟩ := h.assigns
    obtain ⟨d, hd, hvalue⟩ := hholds.assigns _ (hassigns'.mem_iff.2 (.head _))
    obtain rfl : wire = d := Option.some.inj ((h.decl?_wire hm').symm.trans hd)
    rw [Expr.sized, Expr.ownBits, Nat.max_self, Expr.value, Nat.mod_mod] at hvalue
    exact hvalue
  have henv : WithWire wire value (Function.update env' wire.name 0) env' :=
    ⟨fun s hs => Function.update_of_ne hs _ _, Function.update_self .., hwire⟩
  refine ⟨_, ⟨(h.fits_iff hm hm' henv).2 hholds.fits,
    (h.assigns_iff hm hm' henv hrespects).2 hholds.assigns, fun i hi => ?_⟩,
    fun s _ hs => henv.others s ?_⟩
  · have hshared := h.shared hm hm' henv (names_instance hi)
    exact hinstances (fun s hs => (hshared s hs).imp Eq.symm Eq.symm)
      (hholds.instances i (h.instances ▸ hi))
  · rintro rfl
    rw [h.decl?_wire_eq_none] at hs
    cases hs

end

end Module.NamesLiteral

/-! ## The netlists of both files -/

/-- A literal and a wire of its width that is assigned the literal, in the same place of an
assignment of files that differ in nothing else but positions: if the value fits the width, or the
context respects it, both netlists have the same ports and put out the same on every input. -/
theorem elaborate_namedLiteral {file file' : SourceFile} {before after : List Module}
    {m m' : Module} {wire : Decl} {value : Word} {target : String} {c : Expr.Context}
    {top : Option String} {n n' : Netlist} (hwf : file.WellFormed) (hwf' : file'.WellFormed)
    (hdistinct : file.DistinctInstances) (hfile : file.unplaced = ⟨before ++ m :: after⟩)
    (hfile' : file'.unplaced = ⟨before ++ m' :: after⟩)
    (hnamed : m.NamesLiteral m' wire value target c)
    (hwidth : value.toNat < span wire.width.bits ∨ c.Respects m.bits wire.width value
      (max (m.bits target) ((c.fill (.sized wire.width value)).ownBits m.bits)))
    (h : elaborate file top = .ok n) (h' : elaborate file' top = .ok n') (cells : CellFunctions) :
    n'.inputs = n.inputs ∧ n'.outputs = n.outputs ∧
      ∃ e e', Evaluator.ofNetlist n cells = .ok e ∧ Evaluator.ofNetlist n' cells = .ok e' ∧
        ∀ given outputs, e.evaluate given = .ok outputs ↔ e'.evaluate given = .ok outputs := by
  -- the netlists are those of the files without positions
  rw [← elaborate_unplaced_eq_ok_iff, hfile] at h
  rw [← elaborate_unplaced_eq_ok_iff, hfile'] at h'
  have hwf := hwf.unplaced
  have hwf' := hwf'.unplaced
  have hdistinct := SourceFile.distinctInstances_unplaced.2 hdistinct
  rw [hfile] at hwf hdistinct
  rw [hfile'] at hwf'
  have hm := hwf m (List.mem_append_right _ (.head _))
  have hm' := hwf' m' (List.mem_append_right _ (.head _))
  have hshape := hnamed.sameShape hm hm'
  have hrespects := hwidth.elim (Expr.Context.respects_of_lt · (Nat.le_max_right _ _)) id
  have hfiles := replaces_of_split m m' before after
  have himplements : Implements cells n n' :=
    implements_of_replaces hfiles hshape hwf hwf' hdistinct h h' fun hinstances hholds =>
      hnamed.exists_holds_named hm hm' hrespects hinstances hholds
  have himplements' : Implements cells n' n :=
    implements_of_replaces hfiles.flip hshape.symm hwf' hwf
      (hfiles.distinctInstances hshape hdistinct) h' h fun hinstances hholds =>
        hnamed.exists_holds_unnamed hm hm' hrespects hinstances hholds
  obtain ⟨order, horder⟩ := himplements'.legal.topoOrder himplements'.coherent
  obtain ⟨order', horder'⟩ := himplements.legal.topoOrder himplements.coherent
  have he : Evaluator.ofNetlist n cells = .ok ⟨n, order, cells⟩ := by
    rw [Evaluator.ofNetlist, horder]
  have he' : Evaluator.ofNetlist n' cells = .ok ⟨n', order', cells⟩ := by
    rw [Evaluator.ofNetlist, horder']
  refine ⟨himplements.inputs, himplements.outputs, _, _, he, he', fun given outputs => ⟨?_, ?_⟩⟩
  · exact himplements.evaluate himplements'.coherent himplements'.legal he he'
  · exact himplements'.evaluate himplements.coherent himplements.legal he' he

/-- A file whose second module has an instance of the first, which adds a number to its input. -/
def adding (decls : List Decl) (assigns : List Assign) : SourceFile where
  modules := [
    { name := "c"
      ports := ["a", "y"]
      decls := [⟨"a", some .input, .one, .nowhere⟩,
        ⟨"y", some .output, (Width.ofNat? 8).getD .one, .nowhere⟩] ++ decls
      assigns := assigns
      instances := []
      pos := .nowhere },
    { name := "t"
      ports := ["b", "z"]
      decls := [⟨"b", some .input, .one, .nowhere⟩,
        ⟨"z", some .output, (Width.ofNat? 8).getD .one, .nowhere⟩]
      assigns := []
      instances := [⟨"c", some "u",
        .positional [.ident "b" .nowhere, .ident "z" .nowhere], .nowhere⟩]
      pos := .nowhere }]

/-- A name of four bits. -/
def four : Decl := ⟨"l", none, (Width.ofNat? 4).getD .one, .nowhere⟩

/-- The number is a part of its own. -/
def addend : Expr.Context := .rightOperand .add (.ident "a" .nowhere) (.part [] .hole [])

/-- The number with its width. -/
def literalAdded : SourceFile :=
  adding [] [⟨"y", addend.fill (.sized four.width 0xFA), .nowhere⟩]

/-- The name of the number. -/
def nameAdded : SourceFile :=
  adding [four] [⟨"l", .sized four.width 0xFA, .nowhere⟩,
    ⟨"y", addend.fill (.ident "l" .nowhere), .nowhere⟩]

/-- A literal with bits above its width, in a place that is as wide as it says. -/
theorem elaborate_namedLiteral_part : ∃ n n',
    elaborate literalAdded none = .ok n ∧ elaborate nameAdded none = .ok n' ∧
    ∀ cells, ∃ e e', Evaluator.ofNetlist n cells = .ok e ∧ Evaluator.ofNetlist n' cells = .ok e' ∧
      ∀ given outputs, e.evaluate given = .ok outputs ↔ e'.evaluate given = .ok outputs := by
  have hok : (elaborate literalAdded none).isOk = true := by
    rw [elaborate_eq]
    decide +kernel
  have hok' : (elaborate nameAdded none).isOk = true := by
    rw [elaborate_eq]
    decide +kernel
  obtain ⟨n, hn⟩ := exists_ok_of_isOk hok
  obtain ⟨n', hn'⟩ := exists_ok_of_isOk hok'
  refine ⟨n, n', hn, hn', fun cells => ?_⟩
  exact (@elaborate_namedLiteral literalAdded nameAdded [] _ _ _ four 0xFA "y" addend none n n'
    (by decide) (by decide) (by decide) rfl rfl
    ⟨rfl, rfl, rfl, rfl, by decide, by decide,
      ⟨.nowhere, .nowhere, .nowhere, .nowhere, [], .refl _, .refl _⟩⟩ (.inr rfl) hn hn' cells).2.2

/-- A literal with bits above its width, in a place that is wider. -/
theorem elaborate_wideLiteral : (do
      let file ← (parse "module t(output [7:0] y); assign y = 4'hFF; endmodule").toOption
      let file' ← (parse ("module t(output [7:0] y); wire [3:0] l; assign l = 4'hFF; " ++
        "assign y = l; endmodule")).toOption
      let n ← (elaborate file none).toOption
      let n' ← (elaborate file' none).toOption
      let e ← (Evaluator.ofNetlist n .none).toOption
      let e' ← (Evaluator.ofNetlist n' .none).toOption
      return ((e.evaluate .empty).toOption, (e'.evaluate .empty).toOption)) =
    some (some [("y", 255)], some [("y", 15)]) := by
  rw [parse, parse, ← String.ofList_append, tokenize_ofList, tokenize_ofList]
  decide +kernel

end GateSynth.Verilog
