import GateSynth.Proofs.Verilog.Connections

/-!
# Flattening the hierarchy

The statements of a module are elaborated in a scope, and those of the instances in it below that
scope (`Inlines`). New names are temporary ones, which have no slash in them, or stand below an
instance, so no instance meets a name of another one, as long as the instances of a module have
different names. `moduleBody_spec` draws from this, by induction on the depth, that every assignment
holds in its scope and that every instance is connected as it says (`Inlining.Sound`).
-/

namespace GateSynth.Verilog.Elaborate

open Netlist

/-! ## Names below a path -/

/-- The name starts with the path. -/
def Beneath (path name : String) : Prop := path.toList <+: name.toList

theorem Beneath.of_append {path rest name : String} (h : Beneath (path ++ rest) name) :
    Beneath path name := by
  rw [Beneath, String.toList_append] at h
  exact (List.prefix_append _ _).trans h

theorem beneath_append (path rest : String) : Beneath path (path ++ rest) := by
  rw [Beneath, String.toList_append]
  exact List.prefix_append _ _

theorem beneath_append_iff {path a b : String} : Beneath (path ++ a) (path ++ b) ↔ Beneath a b := by
  rw [Beneath, Beneath, String.toList_append, String.toList_append, List.prefix_append_right_inj]

theorem not_flat_of_beneath {path name : String} (h : Beneath (path ++ "/") name) : ¬ Flat name := by
  intro hflat
  rw [Beneath, String.toList_append] at h
  exact hflat (h.subset (List.mem_append_right _ (.head _)))

theorem takeWhile_slash {name rest : List Char} (h : '/' ∉ name) :
    (name ++ '/' :: rest).takeWhile (· ≠ '/') = name := by
  rw [List.takeWhile_append_of_pos]
  · simp
  · intro c hc
    simpa using fun heq : c = '/' => h (heq ▸ hc)

/-- Instances of different names have no name below them in common. -/
theorem eq_of_beneath {path a b name : String} (ha : Flat a) (hb : Flat b)
    (h : Beneath (path ++ a ++ "/") name) (h' : Beneath (path ++ b ++ "/") name) : a = b := by
  obtain ⟨rest, hrest⟩ := h
  obtain ⟨rest', hrest'⟩ := h'
  have heq := hrest.trans hrest'.symm
  simp only [String.toList_append, List.append_assoc, List.append_cancel_left_eq] at heq
  have htake := congrArg (List.takeWhile (· ≠ '/')) heq
  rw [show "/".toList = ['/'] from rfl, List.singleton_append, List.singleton_append,
    takeWhile_slash ha, takeWhile_slash hb] at htake
  exact String.toList_inj.1 htake

section
variable {kinds : Kind → Prop} {scope : Scope} {n n' : Netlist} {i : Instance}
  {is : List Instance}

/-- The name is a temporary one or stands below one of the instances. -/
def Inside (scope : Scope) (is : List Instance) (s : String) : Prop :=
  Flat s ∨ ∃ i ∈ is, ∃ name, i.name = some name ∧ Beneath (scope.path ++ name ++ "/") s

/-- No name below the instances is taken. -/
def Free (scope : Scope) (is : List Instance) (n : Netlist) : Prop :=
  ∀ i ∈ is, ∀ name, i.name = some name → ∀ s, Beneath (scope.path ++ name ++ "/") s →
    n.isTaken s = false

/-- Temporary names are not below instances. -/
theorem Free.flat (h : Free scope is n) (hn : Extends kinds Flat n n') : Free scope is n' := by
  intro i hi name hname s hs
  by_contra htaken
  rw [Bool.not_eq_false] at htaken
  rcases hn.newNames s htaken with hold | hflat
  · rw [h i hi name hname s hs] at hold
    cases hold
  · exact not_flat_of_beneath hs hflat

/-- An instance that is elaborated leaves the names below others free. -/
theorem Free.step (h : Free scope (i :: is) n) (hn : Extends kinds (Inside scope [i]) n n')
    (hflat : ∀ j ∈ i :: is, ∀ name, j.name = some name → Flat name)
    (hnames : ((i :: is).filterMap Instance.name).Nodup) : Free scope is n' := by
  intro j hj b hb s hs
  by_contra htaken
  rw [Bool.not_eq_false] at htaken
  rcases hn.newNames s htaken with hold | hflatName | ⟨i', hi', a, ha, hbelow⟩
  · rw [h j (.tail _ hj) b hb s hs] at hold
    cases hold
  · exact not_flat_of_beneath hs hflatName
  · cases List.mem_singleton.1 hi'
    have hab := eq_of_beneath (hflat i (.head _) a ha) (hflat j (.tail _ hj) b hb) hbelow hs
    rw [List.filterMap_cons, ha, List.nodup_cons] at hnames
    exact hnames.1 (hab ▸ List.mem_filterMap.2 ⟨j, hj, hb⟩)

theorem Inside.mono {is' : List Instance} (h : is ⊆ is') {s : String} (hs : Inside scope is s) :
    Inside scope is' s :=
  hs.imp_right fun ⟨i, hi, hname⟩ => ⟨i, h hi, hname⟩

end

/-! ## Instances that are inlined -/

/-- An instance that is inlined: the scope around it, its statement, what its ports are connected to
and the scope inside. -/
structure Inlining where
  outer : Scope
  statement : Instance
  connected : List (String × Option Expr)
  inner : Scope

/-- Elaborating the statements of a scope comes to an instance of a module of the file, connects its
ports and declares its signals. -/
inductive Enters (file : SourceFile) (depth : Nat) (stack : List String) (scope : Scope)
    (n : Netlist) : Inlining → Netlist → Prop
  | intro {before after : List Instance} {i : Instance} {child : Module} {name : String}
    {connected : List (String × Option Expr)} {wiring : Wiring} {n₁ n₂ n₃ n₄ : Netlist}
    (instances : scope.module.instances = before ++ i :: after)
    (gate : Gate.ofName? i.module = none) (module : file.module? i.module = some child)
    (named : i.name = some name) (connections : connectedPorts i child = .ok connected)
    (assigns : (scope.module.assigns.forM (assign scope)).run n = .ok ((), n₁))
    (earlier : (before.forM (instantiate file (moduleBody file depth) stack scope)).run n₁ =
      .ok ((), n₂))
    (ports : (connectPorts scope ⟨scope.module.name, i.pos.line⟩ i (scope.path ++ name ++ "/")
      connected child.portDecls ⟨.empty, []⟩).run n₂ = .ok (wiring, n₃))
    (own : (declareOwn (scope.path ++ name ++ "/") wiring.bindings child.decls).run n₃ =
      .ok ((), n₄)) :
    Enters file depth stack scope n
      ⟨scope, i, connected, ⟨child, scope.path ++ name ++ "/", wiring.bindings⟩⟩ n₄

/-- The instances that elaborating the statements of a scope inlines, at any depth. -/
inductive Inlines (file : SourceFile) : (depth : Nat) → (stack : List String) → Scope → Netlist →
    Inlining → Prop
  | here {depth : Nat} {stack : List String} {scope : Scope} {n n' : Netlist} {x : Inlining}
    (enters : Enters file depth stack scope n x n') : Inlines file (depth + 1) stack scope n x
  | deeper {depth : Nat} {stack : List String} {scope : Scope} {n n' : Netlist} {x y : Inlining}
    (enters : Enters file depth stack scope n x n')
    (inlines : Inlines file depth (stack ++ [x.inner.module.name]) x.inner n' y) :
    Inlines file (depth + 1) stack scope n y

/-- The ports of an instance carry what they are connected to, and its assignments hold. -/
structure Inlining.Sound (x : Inlining) (N : Netlist) (v : Valuation) : Prop where
  input : ∀ port ∈ x.inner.module.portDecls, port.direction = some .input →
    ∀ e, Table.findEntry port.name x.connected = some (some e) →
      x.inner.value N v port.name =
        e.value x.outer.bits (x.outer.value N v)
            (max port.width.bits (e.ownBits x.outer.bits)) % span port.width.bits
  output : ∀ port ∈ x.inner.module.portDecls, port.direction = some .output →
    ∀ name pos, Table.findEntry port.name x.connected = some (some (.ident name pos)) →
      x.outer.value N v name = x.inner.value N v port.name % span (x.outer.bits name)
  assigns : ∀ a ∈ x.inner.module.assigns, x.inner.Holds N v a

/-! ## One instance -/

/-- What elaborating the statements of a scope does, where instances nest no deeper than `depth`. -/
def BodySpec (file : SourceFile) (depth : Nat) : Prop :=
  ∀ ⦃stack scope n n'⦄, scope.module ∈ file.modules → scope.Fits n →
    Free scope scope.module.instances n →
    (moduleBody file depth stack scope).run n = .ok ((), n') →
    Extends Elaborated (Inside scope scope.module.instances) n n' ∧
      ∀ {N cells v}, Later n' N → Satisfies N cells v →
        (∀ a ∈ scope.module.assigns, scope.Holds N v a) ∧
          ∀ x, Inlines file depth stack scope n x → x.Sound N v

section
variable {file : SourceFile} {depth : Nat} {stack : List String} {scope : Scope} {site : Site}
  {i : Instance} {n n' : Netlist} {child : Module} {name : String}
  {connected : List (String × Option Expr)} {wiring : Wiring} {m : Netlist}

/-- A bound name has the value of what it stands for. -/
theorem value_of_bound {inner : Scope} {port : String} {binding : Binding}
    (h : inner.bindings.find? port = some binding) (N : Netlist) (v : Valuation) :
    inner.value N v port = (v.seen N binding.fanin).toNat :=
  Scope.value_of_read (read_of_bound h 0) N v

/-- An input that is connected carries what it is connected to. -/
theorem input_of_connects {path : String}
    (hconnects : Connects scope path connected child.portDecls n m ⟨.empty, []⟩ wiring)
    {N : Netlist} {cells : CellFunctions} {v : Valuation} (hN : Later m N) (hv : Satisfies N cells v)
    {port : Decl} (hport : port ∈ child.portDecls) (hdirection : port.direction = some .input)
    {e : Expr} (he : Table.findEntry port.name connected = some (some e)) :
    Scope.value ⟨child, path, wiring.bindings⟩ N v port.name =
      e.value scope.bits (scope.value N v) (max port.width.bits (e.ownBits scope.bits)) %
        span port.width.bits := by
  cases hconnects.wired port hport with
  | input _ expr bound _ _ carries =>
    cases he.symm.trans expr
    rw [value_of_bound bound]
    exact carries hN hv
  | direct direction => exact absurd hdirection direction
  | buffered direction => exact absurd hdirection direction
  | unconnected direction => exact absurd hdirection direction

/-- A signal that an output is connected to carries the output, once the buffers are driven. -/
theorem output_of_connects {path : String} (hfits : scope.Fits n)
    (hconnects : Connects scope path connected child.portDecls n m ⟨.empty, []⟩ wiring)
    {N : Netlist} {cells : CellFunctions} {v : Valuation} (hN : Later m N) (hv : Satisfies N cells v)
    (hbuffers : ∀ b ∈ wiring.buffers, (v b.1).toNat = (v b.2).toNat % (N.width b.1).values)
    {port : Decl} (hport : port ∈ child.portDecls) (hdirection : port.direction ≠ some .input)
    {y : String} {pos : Position}
    (hy : Table.findEntry port.name connected = some (some (.ident y pos))) :
    scope.value N v y =
      Scope.value ⟨child, path, wiring.bindings⟩ N v port.name % span (scope.bits y) := by
  have hN' := hconnects.grows.later.trans hN
  cases hconnects.wired port hport with
  | input direction => exact absurd direction hdirection
  | direct _ expr dest bound _ =>
    cases hy.symm.trans expr
    have hlt := Scope.value_lt hfits hN' hv y
    rw [Scope.value_of_read (Scope.read_of_dest dest)] at hlt ⊢
    rw [value_of_bound bound]
    exact (Nat.mod_eq_of_lt hlt).symm
  | @buffered y outer pos line _ expr dest free buffer =>
    cases hy.symm.trans expr
    have hread := Scope.read_of_dest dest
    obtain ⟨htaken, d, hd, hwidth⟩ := hfits hread
    have hfree : Scope.read ⟨child, path, wiring.bindings⟩ port.name 0 = _ :=
      read_of_free free (decl?_of_mem_portDecls hport) 0
    have hwidth' : N.width outer = d.width := (hN'.width _ htaken).trans hwidth
    have hbuffer := hbuffers _ buffer
    rw [hwidth'] at hbuffer
    rw [Scope.value_of_read hread, Scope.value_of_read hfree, Scope.bits,
      Module.bits_of_decl? hd]
    exact hbuffer
  | unconnected _ expr =>
    rw [hy] at expr
    cases expr

/-- Ports that are connected carry what they are connected to. -/
theorem sound_of_connects (hfits : scope.Fits n)
    (hconnects : Connects scope (scope.path ++ name ++ "/") connected child.portDecls n m
      ⟨.empty, []⟩ wiring) {N : Netlist} {cells : CellFunctions} {v : Valuation}
    (hN : Later m N) (hv : Satisfies N cells v)
    (hbuffers : ∀ b ∈ wiring.buffers, (v b.1).toNat = (v b.2).toNat % (N.width b.1).values)
    (hassigns : ∀ a ∈ child.assigns,
      Scope.Holds ⟨child, scope.path ++ name ++ "/", wiring.bindings⟩ N v a) :
    Inlining.Sound ⟨scope, i, connected, ⟨child, scope.path ++ name ++ "/", wiring.bindings⟩⟩
      N v where
  input _ hport hdirection _ he := input_of_connects hconnects hN hv hport hdirection he
  output _ hport hdirection _ _ hy :=
    output_of_connects hfits hconnects hN hv hbuffers hport (by rw [hdirection]; decide) hy
  assigns := hassigns

/-- The names that an instance declares are new, and none of them is below its own instances. -/
theorem declareOwn_inside (hchild : child.WellFormed) (hname : i.name = some name)
    (hfree : Free scope [i] n) (hgrows : Extends Computed Flat n m)
    (h : (declareOwn (scope.path ++ name ++ "/") wiring.bindings child.decls).run m = .ok ((), n')) :
    Later m n' ∧ Extends Elaborated (Inside scope [i]) n n' ∧
      Free ⟨child, scope.path ++ name ++ "/", wiring.bindings⟩ child.instances n' ∧
      ∀ d ∈ child.decls, wiring.bindings.find? d.name = none →
        n'.isTaken (scope.path ++ name ++ "/" ++ d.name) = true ∧
          n'.width (scope.path ++ name ++ "/" ++ d.name) = d.width := by
  have hfree' : ∀ s, Beneath (scope.path ++ name ++ "/") s → m.isTaken s = false :=
    hfree.flat hgrows i (.head _) name hname
  obtain ⟨hown, hwidths⟩ := declareOwn_spec hchild.decls_nodup (fun d _ => hfree' _ (beneath_append _ _)) h
  refine ⟨hown.later, ?_, ?_, hwidths⟩
  · refine (hgrows.mono Computed.elaborated fun s hs => .inl hs).trans
      (hown.mono (fun _ hk => hk.elim) ?_)
    rintro s ⟨d, -, rfl⟩
    exact .inr ⟨i, .head _, name, hname, beneath_append _ _⟩
  · intro j hj b hb s hs
    by_contra htaken
    rw [Bool.not_eq_false] at htaken
    have hs' : Beneath (scope.path ++ name ++ "/") s := by
      rw [String.append_assoc] at hs
      exact hs.of_append
    rcases hown.newNames s htaken with hold | ⟨d, hd, rfl⟩
    · rw [hfree' s hs'] at hold
      cases hold
    · rw [String.append_assoc, beneath_append_iff] at hs
      exact not_flat_of_beneath hs (hchild.flat_decl d hd)

/-- What inlining an instance goes through: its ports are connected and its own signals declared, its
statements are elaborated, and buffers drive the signals around it. -/
structure Inlined (scope : Scope) (site : Site) (i : Instance) (child : Module)
    (body : Scope → Build Unit) (n n' : Netlist) (name : String)
    (connected : List (String × Option Expr)) (wiring : Wiring) (n₃ n₄ n₅ : Netlist) : Prop where
  named : i.name = some name
  connections : connectedPorts i child = .ok connected
  ports : (connectPorts scope site i (scope.path ++ name ++ "/") connected child.portDecls
    ⟨.empty, []⟩).run n = .ok (wiring, n₃)
  own : (declareOwn (scope.path ++ name ++ "/") wiring.bindings child.decls).run n₃ = .ok ((), n₄)
  body : (body ⟨child, scope.path ++ name ++ "/", wiring.bindings⟩).run n₄ = .ok ((), n₅)
  outer : (driveOuter site wiring.buffers).run n₅ = .ok ((), n')

theorem inlined_of_inline {body : Scope → Build Unit}
    (h : (inline body scope site i child).run n = .ok ((), n')) :
    ∃ name connected wiring n₃ n₄ n₅,
      Inlined scope site i child body n n' name connected wiring n₃ n₄ n₅ := by
  rw [inline] at h
  split at h
  · cases h
  next name hname =>
  obtain ⟨connected, hconnected, h⟩ := run_of_lift_bind h
  obtain ⟨wiring, n₃, hports, h⟩ := run_of_bind h
  obtain ⟨_, n₄, hown, h⟩ := run_of_bind h
  obtain ⟨_, n₅, hbody, houter⟩ := run_of_bind h
  exact ⟨name, connected, wiring, n₃, n₄, n₅, hname, hconnected, hports, hown, hbody, houter⟩

/-- What is known before the statements of an instance. -/
structure Entered (scope : Scope) (i : Instance) (child : Module) (n : Netlist) (name : String)
    (connected : List (String × Option Expr)) (wiring : Wiring) (n₃ n₄ : Netlist) : Prop where
  connects : Connects scope (scope.path ++ name ++ "/") connected child.portDecls n n₃
    ⟨.empty, []⟩ wiring
  later : Later n₃ n₄
  grows : Extends Elaborated (Inside scope [i]) n n₄
  free : Free ⟨child, scope.path ++ name ++ "/", wiring.bindings⟩ child.instances n₄
  fits : Scope.Fits ⟨child, scope.path ++ name ++ "/", wiring.bindings⟩ n₄
  widths : ∀ d ∈ child.decls, wiring.bindings.find? d.name = none →
    n₄.isTaken (scope.path ++ name ++ "/" ++ d.name) = true ∧
      n₄.width (scope.path ++ name ++ "/" ++ d.name) = d.width

theorem Inlined.entered {body : Scope → Build Unit} {n₃ n₄ n₅ : Netlist}
    (h : Inlined scope site i child body n n' name connected wiring n₃ n₄ n₅)
    (hchild : child.WellFormed) (hfits : scope.Fits n) (hfree : Free scope [i] n) :
    Entered scope i child n name connected wiring n₃ n₄ := by
  have hconnects :=
    connectPorts_spec (portDecls_nodup hchild.ports_nodup) hfits (fun _ _ => rfl) h.ports
  obtain ⟨hlater, hgrows, hinner, hwidths⟩ :=
    declareOwn_inside hchild h.named hfree hconnects.grows h.own
  have hinnerFits := inner_fits hfits hconnects
    (fun _ _ _ htaken => ⟨hlater.taken _ htaken, hlater.width _ htaken⟩) hwidths
  exact ⟨hconnects, hlater, hgrows, hinner, hinnerFits, hwidths⟩

/-- Inlining an instance. -/
theorem inline_spec (ih : BodySpec file depth) (hfile : file.WellFormed)
    (hchild : file.module? i.module = some child) (hfits : scope.Fits n) (hfree : Free scope [i] n)
    (h : (inline (moduleBody file depth (stack ++ [child.name])) scope site i child).run n =
      .ok ((), n')) :
    ∃ name connected wiring n₃ n₄, i.name = some name ∧ connectedPorts i child = .ok connected ∧
      (connectPorts scope site i (scope.path ++ name ++ "/") connected child.portDecls
        ⟨.empty, []⟩).run n = .ok (wiring, n₃) ∧
      (declareOwn (scope.path ++ name ++ "/") wiring.bindings child.decls).run n₃ = .ok ((), n₄) ∧
      Extends Elaborated (Inside scope [i]) n n' ∧
      ∀ {N cells v}, Later n' N → Satisfies N cells v →
        Inlining.Sound ⟨scope, i, connected,
            ⟨child, scope.path ++ name ++ "/", wiring.bindings⟩⟩ N v ∧
          ∀ x, Inlines file depth (stack ++ [child.name])
            ⟨child, scope.path ++ name ++ "/", wiring.bindings⟩ n₄ x → x.Sound N v := by
  obtain ⟨name, connected, wiring, n₃, n₄, n₅, hrun⟩ := inlined_of_inline h
  have hmem := List.mem_of_find?_eq_some hchild
  have hentered := hrun.entered (hfile child hmem) hfits hfree
  obtain ⟨hgrowsBody, hspec⟩ := ih hmem hentered.fits hentered.free hrun.body
  have hlater₅ := hentered.later.trans hgrowsBody.later
  obtain ⟨hgrowsOuter, hbuffers⟩ := driveOuter_spec (fun b hb => by
    rcases hentered.connects.newBuffers b hb with hb | htaken
    · cases hb
    · exact hlater₅.taken _ htaken) hrun.outer
  refine ⟨name, connected, wiring, n₃, n₄, hrun.named, hrun.connections, hrun.ports, hrun.own, ?_,
    fun {N cells v} hN hv => ?_⟩
  · refine (hentered.grows.trans (hgrowsBody.mono (fun _ hk => hk) fun s hs => ?_)).trans
      (hgrowsOuter.mono Computed.elaborated fun s hs => .inl hs)
    rcases hs with hflat | ⟨j, -, b, -, hbelow⟩
    · exact .inl hflat
    · rw [String.append_assoc] at hbelow
      exact .inr ⟨i, .head _, name, hrun.named, hbelow.of_append⟩
  · obtain ⟨hassigns, hinlines⟩ := hspec (hgrowsOuter.later.trans hN) hv
    refine ⟨?_, hinlines⟩
    exact sound_of_connects hfits hentered.connects (hlater₅.trans (hgrowsOuter.later.trans hN)) hv
      (hbuffers hN hv) hassigns

theorem inline_of_instantiate {body : List String → Scope → Build Unit}
    (hgate : Gate.ofName? i.module = none) (hchild : file.module? i.module = some child)
    (h : (instantiate file body stack scope i).run n = .ok ((), n')) :
    (inline (body (stack ++ [child.name])) scope ⟨scope.module.name, i.pos.line⟩ i child).run n =
      .ok ((), n') := by
  rw [instantiate, hgate, hchild] at h
  dsimp only at h
  split at h
  · cases h
  · exact h

/-- Every instance of a module of the file is entered, and its statements are elaborated. -/
theorem exists_enters (hi : i ∈ scope.module.instances) (hgate : Gate.ofName? i.module = none)
    (hchild : file.module? i.module = some child)
    (h : (moduleBody file (depth + 1) stack scope).run n = .ok ((), n')) :
    ∃ x n₄ n₅, x.statement = i ∧ x.inner.module = child ∧ Enters file depth stack scope n x n₄ ∧
      (moduleBody file depth (stack ++ [child.name]) x.inner).run n₄ = .ok ((), n₅) := by
  obtain ⟨before, after, hinstances⟩ := List.append_of_mem hi
  rw [moduleBody] at h
  obtain ⟨_, n₁, hassigns, h⟩ := run_of_bind h
  rw [hinstances] at h
  obtain ⟨n₂, n₆, hearlier, hi, -⟩ := run_of_forM h
  obtain ⟨name, connected, wiring, n₃, n₄, n₅, hrun⟩ :=
    inlined_of_inline (inline_of_instantiate hgate hchild hi)
  exact ⟨_, n₄, n₅, rfl, rfl, .intro hinstances hgate hchild hrun.named hrun.connections hassigns
    hearlier hrun.ports hrun.own, hrun.body⟩

/-- An instance of any kind only adds names of its own. -/
theorem instantiate_grows (ih : BodySpec file depth) (hfile : file.WellFormed)
    (hfits : scope.Fits n) (hfree : Free scope [i] n)
    (h : (instantiate file (moduleBody file depth) stack scope i).run n = .ok ((), n')) :
    Extends Elaborated (Inside scope [i]) n n' := by
  cases hgate : Gate.ofName? i.module with
  | some gate =>
    rw [instantiate, hgate] at h
    obtain ⟨_, _, _, _, _, _, hgrown⟩ := gateInstance_grown hfits.drives h
    exact hgrown.mono Computed.elaborated fun s hs => .inl hs
  | none =>
    cases hchild : file.module? i.module with
    | none =>
      rw [instantiate, hgate, hchild] at h
      obtain ⟨_, _, hgrown⟩ := blackBox_grown hfits.drives h
      exact hgrown.mono (fun _ hk => hk) fun s hs => .inl hs
    | some child =>
      have hinline := inline_of_instantiate hgate hchild h
      obtain ⟨-, -, -, -, -, -, -, -, -, hgrows, -⟩ := inline_spec ih hfile hchild hfits hfree hinline
      exact hgrows

/-! ## All statements of a scope -/

/-- The names below the instances that are still to come stay free. -/
theorem instances_spec (ih : BodySpec file depth) (hfile : file.WellFormed)
    {before after : List Instance} (hfits : scope.Fits n) (hfree : Free scope (before ++ after) n)
    (hflat : ∀ i ∈ before ++ after, ∀ name, i.name = some name → Flat name)
    (hnames : ((before ++ after).filterMap Instance.name).Nodup)
    (h : (before.forM (instantiate file (moduleBody file depth) stack scope)).run n =
      .ok ((), n')) :
    Extends Elaborated (Inside scope before) n n' ∧ Free scope after n' := by
  induction before generalizing n with
  | nil =>
    cases h
    exact ⟨.refl _, hfree⟩
  | cons i before ihBefore =>
    obtain ⟨_, m, hi, h⟩ := run_of_bind h
    have hfreeFirst : Free scope [i] n := fun j hj => hfree j (by
      cases List.mem_singleton.1 hj
      exact .head _)
    have hgrows := instantiate_grows ih hfile hfits hfreeFirst hi
    have hfreeRest : Free scope (before ++ after) m := Free.step hfree hgrows hflat hnames
    have hnamesRest : ((before ++ after).filterMap Instance.name).Nodup :=
      hnames.sublist (List.Sublist.filterMap _ (List.sublist_cons_self _ _))
    obtain ⟨hgrows', hfree'⟩ := ihBefore (hfits.mono hgrows.later) hfreeRest
      (fun j hj => hflat j (.tail _ hj)) hnamesRest h
    refine ⟨(hgrows.mono (fun _ hk => hk) fun s hs => hs.mono ?_).trans
      (hgrows'.mono (fun _ hk => hk) fun s hs => hs.mono (List.subset_cons_self _ _)), hfree'⟩
    exact List.cons_subset_cons _ (List.nil_subset _)

theorem instances_grow (ih : BodySpec file depth) (hfile : file.WellFormed) {is : List Instance}
    (hfits : scope.Fits n) (hfree : Free scope is n)
    (hflat : ∀ i ∈ is, ∀ name, i.name = some name → Flat name)
    (hnames : (is.filterMap Instance.name).Nodup)
    (h : (is.forM (instantiate file (moduleBody file depth) stack scope)).run n = .ok ((), n')) :
    Extends Elaborated (Inside scope is) n n' := by
  rw [← List.append_nil is] at hfree hflat hnames
  exact (instances_spec ih hfile hfits hfree hflat hnames h).1

theorem assigns_spec {assigns : List Assign} (hfits : scope.Fits n)
    (h : (assigns.forM (assign scope)).run n = .ok ((), n')) :
    Extends Computed Flat n n' ∧ ∀ {N cells v}, Later n' N → Satisfies N cells v →
      ∀ a ∈ assigns, scope.Holds N v a := by
  induction assigns generalizing n with
  | nil =>
    cases h
    exact ⟨.refl _, fun _ _ => List.forall_mem_nil _⟩
  | cons a rest ih =>
    obtain ⟨_, m, ha, h⟩ := run_of_bind h
    obtain ⟨hgrows, hholds⟩ := assign_spec hfits ha
    obtain ⟨hgrows', hrest⟩ := ih (hfits.mono hgrows.later) h
    refine ⟨hgrows.trans hgrows', fun hN hv => List.forall_mem_cons.2 ⟨?_, hrest hN hv⟩⟩
    exact hholds (hgrows'.later.trans hN) hv

/-- An instance is elaborated after others in a netlist that fits its scope, with the names below it
free, and what it makes of the netlist is kept. -/
theorem instance_run (ih : BodySpec file depth) (hfile : file.WellFormed)
    (hnames : ∀ m ∈ file.modules, (m.instances.filterMap Instance.name).Nodup)
    (hmem : scope.module ∈ file.modules) (hfits : scope.Fits n)
    (hfree : Free scope scope.module.instances n) {before after : List Instance}
    (hinstances : scope.module.instances = before ++ i :: after)
    (h : (moduleBody file (depth + 1) stack scope).run n = .ok ((), n')) :
    ∃ n₁ n₂ n₃, (scope.module.assigns.forM (assign scope)).run n = .ok ((), n₁) ∧
      (before.forM (instantiate file (moduleBody file depth) stack scope)).run n₁ = .ok ((), n₂) ∧
      (instantiate file (moduleBody file depth) stack scope i).run n₂ = .ok ((), n₃) ∧
      scope.Fits n₂ ∧ Free scope [i] n₂ ∧ Later n₃ n' := by
  rw [moduleBody] at h
  obtain ⟨_, n₁, hassigns, h⟩ := run_of_bind h
  rw [hinstances] at h
  obtain ⟨n₂, n₃, hearlier, hi, hlate⟩ := run_of_forM h
  have hflat := (hfile _ hmem).flat_instance
  have hdistinct := hnames _ hmem
  rw [hinstances] at hflat hdistinct hfree
  -- the names below this instance and the later ones are free until their turn
  obtain ⟨hgrows₁, -⟩ := assigns_spec hfits hassigns
  have hfits₁ := hfits.mono hgrows₁.later
  obtain ⟨hgrows₂, hfree₂⟩ := instances_spec ih hfile hfits₁ (hfree.flat hgrows₁) hflat hdistinct
    hearlier
  have hfits₂ := hfits₁.mono hgrows₂.later
  have hfreeI : Free scope [i] n₂ := fun j hj => hfree₂ j (by
    cases List.mem_singleton.1 hj
    exact .head _)
  have hgrows₃ := instantiate_grows ih hfile hfits₂ hfreeI hi
  have hnamesAfter : ((i :: after).filterMap Instance.name).Nodup :=
    hdistinct.sublist (List.Sublist.filterMap _ (List.sublist_append_right _ _))
  have hflatAfter : ∀ j ∈ i :: after, ∀ name, j.name = some name → Flat name :=
    fun j hj => hflat j (List.mem_append_right _ hj)
  have hfree₃ : Free scope after n₃ := Free.step hfree₂ hgrows₃ hflatAfter hnamesAfter
  have hgrows₄ := instances_grow ih hfile (hfits₂.mono hgrows₃.later) hfree₃
    (fun j hj => hflatAfter j (.tail _ hj))
    (hnamesAfter.sublist (List.Sublist.filterMap _ (List.sublist_cons_self _ _))) hlate
  exact ⟨n₁, n₂, n₃, hassigns, hearlier, hi, hfits₂, hfreeI, hgrows₄.later⟩

/-- What a scope inlines at an instance, and below it, is sound. -/
theorem Enters.sound (ih : BodySpec file depth) (hfile : file.WellFormed)
    (hnames : ∀ m ∈ file.modules, (m.instances.filterMap Instance.name).Nodup)
    (hmem : scope.module ∈ file.modules) (hfits : scope.Fits n)
    (hfree : Free scope scope.module.instances n)
    (h : (moduleBody file (depth + 1) stack scope).run n = .ok ((), n')) {x : Inlining}
    (hx : Enters file depth stack scope n x m) :
    ∀ {N cells v}, Later n' N → Satisfies N cells v → x.Sound N v ∧
      ∀ y, Inlines file depth (stack ++ [x.inner.module.name]) x.inner m y → y.Sound N v := by
  intro N cells v hN hv
  obtain @⟨before, after, i, child, name, connected, wiring, n₁, n₂, n₃, n₄, hinstances, hgate,
    hchild, hname, hconnected, hassigns, hearlier, hports, hown⟩ := hx
  obtain ⟨m₁, m₂, m₃, hassigns', hearlier', hi, hfits₂, hfree₂, hlate⟩ :=
    instance_run ih hfile hnames hmem hfits hfree hinstances h
  cases hassigns.symm.trans hassigns'
  cases hearlier.symm.trans hearlier'
  have hinline := inline_of_instantiate hgate hchild hi
  obtain ⟨name', connected', wiring', k₃, k₄, hname', hconnected', hports', hown', -, hsound⟩ :=
    inline_spec ih hfile hchild hfits₂ hfree₂ hinline
  cases hname.symm.trans hname'
  cases hconnected.symm.trans hconnected'
  cases hports.symm.trans hports'
  cases hown.symm.trans hown'
  exact hsound (hlate.trans hN) hv

/-- By induction on the depth: the statements of a scope hold, and so do those of the instances
below it. -/
theorem moduleBody_spec (hfile : file.WellFormed)
    (hnames : ∀ m ∈ file.modules, (m.instances.filterMap Instance.name).Nodup) (depth : Nat) :
    BodySpec file depth := by
  induction depth with
  | zero =>
    intro stack scope n n' _ _ _ h
    cases h
  | succ depth ih =>
    intro stack scope n n' hmem hfits hfree h
    have hrun := h
    rw [moduleBody] at h
    obtain ⟨_, m, hassigns, h⟩ := run_of_bind h
    obtain ⟨hgrows, hholds⟩ := assigns_spec hfits hassigns
    have hgrows' := instances_grow ih hfile (hfits.mono hgrows.later) (hfree.flat hgrows)
      (hfile _ hmem).flat_instance (hnames _ hmem) h
    refine ⟨(hgrows.mono Computed.elaborated fun s hs => .inl hs).trans hgrows',
      fun {N cells v} hN hv => ⟨hholds (hgrows'.later.trans hN) hv, fun x hx => ?_⟩⟩
    cases hx with
    | here enters => exact (enters.sound ih hfile hnames hmem hfits hfree hrun hN hv).1
    | deeper enters inlines =>
      exact (enters.sound ih hfile hnames hmem hfits hfree hrun hN hv).2 x inlines

end

end GateSynth.Verilog.Elaborate
