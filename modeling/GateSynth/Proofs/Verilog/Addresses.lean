import GateSynth.Proofs.Verilog.Integrity

/-!
# Where instances are inlined

An instance that is inlined has an address: its place in the module around it, after the places of
the instances around that. Elaboration comes to every address at most once (`Visits`, `InlinesAt`),
and the instances that have one are those that are inlined (`inlines_iff`). Where the instances of
every module have different names, the path of an instance is below that of another one exactly if
it is inside it (`InlinesAt.prefix_of_beneath`, `InlinesAt.beneath_of_prefix`).
-/

namespace GateSynth.Verilog

namespace Elaborate

open Netlist

/-! ## Paths -/

/-- Below a slash, a path and a name are told apart. -/
theorem path_inj {p q a b : String} (ha : Flat a) (hb : Flat b)
    (h : p ++ "/" ++ a = q ++ "/" ++ b) : p ++ "/" = q ++ "/" ∧ a = b := by
  have hchars : a.toList.reverse ++ '/' :: p.toList.reverse =
      b.toList.reverse ++ '/' :: q.toList.reverse := by
    have heq := congrArg (fun s : String => s.toList.reverse) h
    simpa using heq
  have htake := congrArg (List.takeWhile (· ≠ '/')) hchars
  rw [takeWhile_slash (mt List.mem_reverse.1 ha), takeWhile_slash (mt List.mem_reverse.1 hb),
    List.reverse_inj] at htake
  obtain rfl := String.toList_inj.1 htake
  exact ⟨(String.append_left_inj a).1 h, rfl⟩

theorem Beneath.trans {a b c : String} (h : Beneath a b) (h' : Beneath b c) : Beneath a c :=
  List.IsPrefix.trans h h'

/-- A path above a name is above the path of the name. -/
theorem Beneath.of_flat {p q d : String} (hd : Flat d)
    (h : Beneath (p ++ "/") (q ++ "/" ++ d)) : Beneath (p ++ "/") (q ++ "/") := by
  obtain ⟨rest, hrest⟩ := h
  rw [String.toList_append, String.toList_append, List.append_assoc] at hrest
  rcases List.append_eq_append_iff.1 hrest with ⟨between, hq, htail⟩ | ⟨between, -, htail⟩
  · cases between with
    | nil =>
      have hslash : '/' ∈ [] ++ d.toList := htail ▸ List.mem_cons_self
      exact absurd hslash hd
    | cons c between =>
      cases htail
      exact ⟨between, by rw [hq, String.toList_append, List.append_assoc]; rfl⟩
  · exact absurd (htail ▸ List.mem_append_right _ List.mem_cons_self) hd

/-- The signal is a name of the top module or a temporary one, or stands right below a path around
the given one. -/
def Above (path s : String) : Prop :=
  Flat s ∨ ∃ p d, p ++ "/" ++ d = s ∧ Flat d ∧ Beneath (p ++ "/") path

/-- What stands above a path is not below an instance there. -/
theorem Above.not_beneath {path name s : String} (h : Above path s) :
    ¬ Beneath (path ++ name ++ "/") s := by
  intro hbelow
  rcases h with hflat | ⟨p, d, rfl, hflat, r, hr⟩
  · exact not_flat_of_beneath hbelow hflat
  · obtain ⟨rest, hrest⟩ := hbelow
    simp only [String.toList_append, ← hr, List.append_assoc, List.append_cancel_left_eq] at hrest
    refine hflat ?_
    rw [← hrest]
    simp

theorem Above.not_below {scope : Scope} {is : List Instance} {s : String}
    (h : Above scope.path s) : ¬ Below scope is s :=
  fun ⟨_, _, _, _, hbelow⟩ => h.not_beneath hbelow

/-- What can be driven in the scope is a name of the top module, or right below a path around the
scope. -/
def Scope.Rooted (scope : Scope) : Prop :=
  ∀ s, scope.Target s → Flat s ∨
    ∃ p d, p ++ "/" ++ d = s ∧ Flat d ∧ Beneath (p ++ "/") scope.path

theorem rooted_topScope {m : Module} (hm : m.WellFormed) : (topScope m).Rooted := by
  rintro s ⟨y, line, hd⟩
  obtain ⟨heq, d, hd⟩ := topScope_read (Scope.read_of_dest hd)
  obtain rfl : s = y := congrArg Fanin.signal heq
  obtain rfl : d.name = s := by simpa using List.find?_some hd
  exact .inl (hm.flat_decl d (List.mem_of_find?_eq_some hd))

/-- What can be driven in a scope is not below its instances. -/
theorem Scope.Rooted.not_below {scope : Scope} (h : scope.Rooted) {is : List Instance} {s : String}
    (hs : scope.Target s) : ¬ Below scope is s :=
  Above.not_below (h s hs)

theorem rooted_inner {scope : Scope} {child : Module} {bindings : Table String Binding}
    {name : String} {outside : String → Prop} (hscope : scope.Rooted) (hchild : child.WellFormed)
    (hinner : ∀ s, Scope.Target ⟨child, scope.path ++ name ++ "/", bindings⟩ s →
      (∃ d ∈ child.decls, bindings.find? d.name = none ∧ scope.path ++ name ++ "/" ++ d.name = s) ∨
        outside s)
    (houtside : ∀ s, outside s → scope.Target s) :
    Scope.Rooted ⟨child, scope.path ++ name ++ "/", bindings⟩ := by
  intro s hs
  rcases hinner s hs with ⟨d, hd, -, rfl⟩ | hout
  · exact .inr ⟨scope.path ++ name, d.name, rfl, hchild.flat_decl d hd, List.prefix_rfl⟩
  · refine (hscope s (houtside s hout)).imp_right fun ⟨p, d, hs, hd, hp⟩ => ⟨p, d, hs, hd, ?_⟩
    rw [String.append_assoc]
    exact hp.trans (beneath_append _ _)

/-! ## Where instances are inlined -/

/-- Elaborating the statements of a scope inlines the instance at a place: `begun` is the netlist
before it, `entered` the one with its ports connected and its signals declared, and `done` the one
after it. -/
inductive Visits (file : SourceFile) (depth : Nat) (stack : List String) (scope : Scope)
    (n : Netlist) : (place : Nat) → Inlining → (begun entered done : Netlist) → Prop
  | intro {before after : List Instance} {i : Instance} {child : Module} {name : String}
    {connected : List (String × Option Expr)} {wiring : Wiring} {n₁ n₂ n₃ n₄ n₅ n₆ : Netlist}
    (instances : scope.module.instances = before ++ i :: after)
    (gate : Gate.ofName? i.module = none) (module : file.module? i.module = some child)
    (named : i.name = some name) (connections : connectedPorts i child = .ok connected)
    (assigns : (scope.module.assigns.forM (assign scope)).run n = .ok ((), n₁))
    (earlier : (before.forM (instantiate file (moduleBody file depth) stack scope)).run n₁ =
      .ok ((), n₂))
    (ports : (connectPorts scope ⟨scope.module.name, i.pos.line⟩ i (scope.path ++ name ++ "/")
      connected child.portDecls ⟨.empty, []⟩).run n₂ = .ok (wiring, n₃))
    (own : (declareOwn (scope.path ++ name ++ "/") wiring.bindings child.decls).run n₃ =
      .ok ((), n₄))
    (body : (moduleBody file depth (stack ++ [child.name])
      ⟨child, scope.path ++ name ++ "/", wiring.bindings⟩).run n₄ = .ok ((), n₅))
    (outer : (driveOuter ⟨scope.module.name, i.pos.line⟩ wiring.buffers).run n₅ = .ok ((), n₆)) :
    Visits file depth stack scope n before.length
      ⟨scope, i, connected, ⟨child, scope.path ++ name ++ "/", wiring.bindings⟩⟩ n₂ n₄ n₆

/-- The instance at an address, which lists the places of the instances around it and its own, with
the netlists before and after it. -/
inductive InlinesAt (file : SourceFile) : (depth : Nat) → (stack : List String) → Scope → Netlist →
    (address : List Nat) → Inlining → (begun done : Netlist) → Prop
  | here {depth place : Nat} {stack : List String} {scope : Scope} {n begun entered done : Netlist}
    {x : Inlining} (visits : Visits file depth stack scope n place x begun entered done) :
    InlinesAt file (depth + 1) stack scope n [place] x begun done
  | deeper {depth place : Nat} {stack : List String} {scope : Scope}
    {n begun entered done begun' done' : Netlist} {address : List Nat} {x y : Inlining}
    (visits : Visits file depth stack scope n place x begun entered done)
    (inlines : InlinesAt file depth (stack ++ [x.inner.module.name]) x.inner entered address y begun'
      done') :
    InlinesAt file (depth + 1) stack scope n (place :: address) y begun' done'

section
variable {file : SourceFile} {depth place : Nat} {stack : List String} {scope : Scope}
  {n n' begun entered done begun' entered' done' : Netlist} {x y : Inlining}

theorem Visits.unique {place' : Nat} (h : Visits file depth stack scope n place x begun entered done)
    (h' : Visits file depth stack scope n place' y begun' entered' done') (hplace : place = place') :
    x = y ∧ begun = begun' ∧ entered = entered' ∧ done = done' := by
  obtain @⟨before, after, i, child, name, connected, wiring, n₁, n₂, n₃, n₄, n₅, n₆, hinstances,
    hgate, hchild, hname, hconnected, hassigns, hearlier, hports, hown, hbody, houter⟩ := h
  obtain @⟨before', after', i', child', name', connected', wiring', k₁, k₂, k₃, k₄, k₅, k₆,
    hinstances', hgate', hchild', hname', hconnected', hassigns', hearlier', hports', hown', hbody',
    houter'⟩ := h'
  obtain ⟨rfl, hcons⟩ := List.append_inj (hinstances.symm.trans hinstances') hplace
  cases hcons
  cases hchild.symm.trans hchild'
  cases hname.symm.trans hname'
  cases hconnected.symm.trans hconnected'
  cases hassigns.symm.trans hassigns'
  cases hearlier.symm.trans hearlier'
  cases hports.symm.trans hports'
  cases hown.symm.trans hown'
  cases hbody.symm.trans hbody'
  cases houter.symm.trans houter'
  exact ⟨rfl, rfl, rfl, rfl⟩

/-- Elaborating the statements of a scope visits every instance of a module of the file. -/
theorem exists_visits {before after : List Instance} {i : Instance} {child : Module}
    (hinstances : scope.module.instances = before ++ i :: after)
    (hgate : Gate.ofName? i.module = none) (hchild : file.module? i.module = some child)
    (hrun : (moduleBody file (depth + 1) stack scope).run n = .ok ((), n')) :
    ∃ x n₁ begun entered done, x.statement = i ∧ x.inner.module = child ∧
      Visits file depth stack scope n before.length x begun entered done ∧
      (scope.module.assigns.forM (assign scope)).run n = .ok ((), n₁) ∧
      (before.forM (instantiate file (moduleBody file depth) stack scope)).run n₁ =
        .ok ((), begun) ∧
      (after.forM (instantiate file (moduleBody file depth) stack scope)).run done =
        .ok ((), n') := by
  rw [moduleBody] at hrun
  obtain ⟨_, n₁, hassigns, hrun⟩ := run_of_bind hrun
  rw [hinstances] at hrun
  obtain ⟨begun, done, hearlier, hi, hlate⟩ := run_of_forM hrun
  have hinline := inline_of_instantiate hgate hchild hi
  rw [inline] at hinline
  split at hinline
  · cases hinline
  next name hname =>
  obtain ⟨connected, hconnected, hinline⟩ := run_of_lift_bind hinline
  obtain ⟨wiring, n₃, hports, hinline⟩ := run_of_bind hinline
  obtain ⟨_, entered, hown, hinline⟩ := run_of_bind hinline
  obtain ⟨_, n₅, hbody, houter⟩ := run_of_bind hinline
  exact ⟨_, n₁, begun, entered, done, rfl, rfl, .intro hinstances hgate hchild hname hconnected
    hassigns hearlier hports hown hbody houter, hassigns, hearlier, hlate⟩

/-- Visiting an instance is a part of elaborating the statements around it. -/
theorem Visits.rest (h : Visits file depth stack scope n place x begun entered done)
    (hrun : (moduleBody file (depth + 1) stack scope).run n = .ok ((), n')) :
    ∃ before after n₁, scope.module.instances = before ++ x.statement :: after ∧
      (scope.module.assigns.forM (assign scope)).run n = .ok ((), n₁) ∧
      (before.forM (instantiate file (moduleBody file depth) stack scope)).run n₁ =
        .ok ((), begun) ∧
      (after.forM (instantiate file (moduleBody file depth) stack scope)).run done =
        .ok ((), n') := by
  have hvisits := h
  obtain @⟨before, after, i, child, _, _, _, _, _, _, _, _, _, hinstances, hgate, hchild, -⟩ := h
  obtain ⟨y, n₁, begun', entered', done', -, -, hvisits', hassigns, hearlier, hlate⟩ :=
    exists_visits hinstances hgate hchild hrun
  obtain ⟨-, rfl, -, rfl⟩ := hvisits.unique hvisits' rfl
  exact ⟨before, after, n₁, hinstances, hassigns, hearlier, hlate⟩

/-- Entering an instance is a part of visiting it. -/
theorem Enters.visits (h : Enters file depth stack scope n x entered)
    (hrun : (moduleBody file (depth + 1) stack scope).run n = .ok ((), n')) :
    ∃ place begun done, Visits file depth stack scope n place x begun entered done := by
  obtain @⟨before, after, i, child, name, connected, wiring, n₁, begun, n₃, entered, hinstances,
    hgate, hchild, hname, hconnected, hassigns, hearlier, hports, hown⟩ := h
  rw [moduleBody] at hrun
  obtain ⟨_, m₁, hassigns', hrun⟩ := run_of_bind hrun
  cases hassigns.symm.trans hassigns'
  rw [hinstances] at hrun
  obtain ⟨m₂, done, hearlier', hi, -⟩ := run_of_forM hrun
  cases hearlier.symm.trans hearlier'
  have hinline := inline_of_instantiate hgate hchild hi
  rw [inline, hname] at hinline
  obtain ⟨connected', hconnected', hinline⟩ := run_of_lift_bind hinline
  cases hconnected.symm.trans hconnected'
  obtain ⟨wiring', k₃, hports', hinline⟩ := run_of_bind hinline
  cases hports.symm.trans hports'
  obtain ⟨_, k₄, hown', hinline⟩ := run_of_bind hinline
  cases hown.symm.trans hown'
  obtain ⟨_, n₅, hbody, houter⟩ := run_of_bind hinline
  exact ⟨before.length, begun, done, .intro hinstances hgate hchild hname hconnected hassigns
    hearlier hports hown hbody houter⟩

theorem Visits.enters (h : Visits file depth stack scope n place x begun entered done) :
    Enters file depth stack scope n x entered ∧
      ∃ m, (moduleBody file depth (stack ++ [x.inner.module.name]) x.inner).run entered =
        .ok ((), m) := by
  obtain ⟨hinstances, hgate, hchild, hname, hconnected, hassigns, hearlier, hports, hown, hbody, -⟩ :=
    h
  exact ⟨.intro hinstances hgate hchild hname hconnected hassigns hearlier hports hown, _, hbody⟩

/-- The instances that are inlined are those that have an address. -/
theorem inlines_iff (hrun : (moduleBody file depth stack scope).run n = .ok ((), n')) :
    Inlines file depth stack scope n x ↔
      ∃ address begun done, InlinesAt file depth stack scope n address x begun done := by
  constructor
  · intro h
    induction h generalizing n' with
    | here enters =>
      obtain ⟨place, begun, done, hvisits⟩ := enters.visits hrun
      exact ⟨[place], begun, done, .here hvisits⟩
    | deeper enters _ ih =>
      obtain ⟨place, begun, done, hvisits⟩ := enters.visits hrun
      obtain ⟨-, m, hbody⟩ := hvisits.enters
      obtain ⟨address, begun', done', hinside⟩ := ih hbody
      exact ⟨place :: address, begun', done', .deeper hvisits hinside⟩
  · rintro ⟨address, begun, done, h⟩
    clear hrun
    induction h with
    | here visits => exact .here visits.enters.1
    | deeper visits _ ih => exact .deeper visits.enters.1 ih

/-- A signal outside the instance to which one of its outputs is connected. -/
def Inlining.Outward (x : Inlining) (s : String) : Prop :=
  Elaborate.Outward x.outer x.statement x.connected x.inner.module.portDecls s

/-- What visiting an instance does, to the netlist and for the scope inside. -/
structure Visited (file : SourceFile) (depth : Nat) (stack : List String) (scope : Scope)
    (x : Inlining) (begun entered done : Netlist) : Prop where
  outer : x.outer = scope
  member : x.statement ∈ scope.module.instances
  path : ∃ name, x.statement.name = some name ∧ x.inner.path = scope.path ++ name ++ "/"
  module : x.inner.module ∈ file.modules
  bound : ∀ name binding, x.inner.bindings.find? name = some binding →
    ∃ port ∈ x.inner.module.portDecls, port.name = name
  begins : scope.Drives begun
  drives : x.inner.Drives entered
  rooted : x.inner.Rooted
  enters : Confined (fun s => ∃ d ∈ x.inner.module.decls, x.inner.path ++ d.name = s)
    (fun _ => False) begun entered
  body : ∃ m, (moduleBody file depth (stack ++ [x.inner.module.name]) x.inner).run entered =
    .ok ((), m) ∧ Confined (fun _ => False) x.Outward m done
  confined : Confined (Beneath x.inner.path) x.Outward begun done

theorem Visits.spec (h : Visits file depth stack scope n place x begun entered done)
    (hfile : file.WellFormed) (hdrives : scope.Drives n) (hrooted : scope.Rooted) :
    Visited file depth stack scope x begun entered done := by
  obtain @⟨before, after, i, child, name, connected, wiring, n₁, n₂, n₃, n₄, n₅, n₆, hinstances,
    hgate, hchild, hname, hconnected, hassigns, hearlier, hports, hown, hbody, houter⟩ := h
  have hchild := List.mem_of_find?_eq_some hchild
  have hn₁ : Confined (Beneath scope.path) scope.Target n n₁ :=
    forM_confined (fun _ _ _ _ => assign_confined) hdrives hassigns
  have hn₂ := instances_confined (fun _ _ _ _ => moduleBody_confined) (hdrives.mono hn₁) hearlier
  have hbegun := (hdrives.mono hn₁).mono hn₂
  obtain ⟨hinner, hwiring, henters, hleaves, hall⟩ := inlined_confined hbegun hports hown
    (fun hdrives => (moduleBody_confined hdrives hbody :)) houter
  exact
    { outer := rfl
      member := hinstances ▸ List.mem_append_right _ (.head _)
      path := ⟨name, hname, rfl⟩
      module := hchild
      bound := hwiring.bound
      begins := hbegun
      drives := hinner
      rooted := rooted_inner hrooted (hfile child hchild) (fun _ => inner_target hwiring)
        fun _ hs => hs.target
      enters := henters
      body := ⟨n₅, hbody, hleaves⟩
      confined := hall }

/-- What is known of an instance wherever it is inlined. -/
structure Inlining.Located (x : Inlining) (file : SourceFile) (begun done : Netlist) : Prop where
  module : x.inner.module ∈ file.modules
  path : ∃ p, x.inner.path = p ++ "/"
  around : Beneath x.outer.path x.inner.path
  rooted : x.outer.Rooted
  confined : Confined (Beneath x.inner.path) x.Outward begun done

theorem InlinesAt.located {address : List Nat}
    (h : InlinesAt file depth stack scope n address x begun done) (hfile : file.WellFormed)
    (hdrives : scope.Drives n) (hrooted : scope.Rooted) : x.Located file begun done := by
  induction h with
  | here visits =>
    have hx := visits.spec hfile hdrives hrooted
    obtain ⟨name, -, hpath⟩ := hx.path
    refine ⟨hx.module, ⟨_, hpath⟩, ?_, hx.outer ▸ hrooted, hx.confined⟩
    rw [hx.outer, hpath, String.append_assoc]
    exact beneath_append _ _
  | deeper visits _ ih =>
    have hx := visits.spec hfile hdrives hrooted
    exact ih hx.drives hx.rooted

/-- An instance stands strictly below the scope around it. -/
theorem InlinesAt.inside {address : List Nat}
    (h : InlinesAt file depth stack scope n address x begun done) (hfile : file.WellFormed)
    (hdrives : scope.Drives n) (hrooted : scope.Rooted) :
    Beneath scope.path x.inner.path ∧ ¬ Beneath x.inner.path scope.path := by
  have hstep : ∀ {depth place stack} {scope : Scope} {n begun entered done : Netlist} {x : Inlining},
      Visits file depth stack scope n place x begun entered done → scope.Drives n → scope.Rooted →
      Beneath scope.path x.inner.path ∧ ¬ Beneath x.inner.path scope.path := by
    intro depth place stack scope n begun entered done x visits hdrives hrooted
    obtain ⟨name, -, hpath⟩ := (visits.spec hfile hdrives hrooted).path
    rw [hpath, String.append_assoc]
    refine ⟨beneath_append _ _, fun hback => ?_⟩
    have hlength := hback.length_le
    simp at hlength
  induction h with
  | here visits => exact hstep visits hdrives hrooted
  | deeper visits _ ih =>
    have hx := visits.spec hfile hdrives hrooted
    obtain ⟨habove, hstrict⟩ := hstep visits hdrives hrooted
    obtain ⟨hbelow, -⟩ := ih hx.drives hx.rooted
    exact ⟨habove.trans hbelow, fun hback => hstrict (hbelow.trans hback)⟩

/-! ## Addresses and paths -/

/-- Instances of one name are at one place. -/
theorem Visits.place_eq {place' : Nat} {name : String}
    (hnames : (scope.module.instances.filterMap Instance.name).Nodup)
    (h : Visits file depth stack scope n place x begun entered done)
    (h' : Visits file depth stack scope n place' y begun' entered' done')
    (hx : x.statement.name = some name) (hy : y.statement.name = some name) : place = place' := by
  have hdiffer : ∀ {before between after : List Instance} {i j : Instance},
      scope.module.instances = before ++ i :: (between ++ j :: after) → i.name = some name →
      j.name ≠ some name := by
    intro before between after i j hinstances hi hj
    rw [hinstances, List.Nodup, List.pairwise_filterMap, List.pairwise_append,
      List.pairwise_cons] at hnames
    exact hnames.2.1.1 j (List.mem_append_right _ (.head _)) name hi name hj rfl
  obtain @⟨before, after, i, _, _, _, _, _, _, _, _, _, _, hinstances, _⟩ := h
  obtain @⟨before', after', j, _, _, _, _, _, _, _, _, _, _, hinstances', _⟩ := h'
  rcases List.append_eq_append_iff.1 (hinstances.symm.trans hinstances') with
    ⟨between, rfl, hrest⟩ | ⟨between, rfl, hrest⟩
  · cases between with
    | nil => simp
    | cons k between =>
      cases hrest
      exact absurd hy (hdiffer hinstances hx)
  · cases between with
    | nil => simp
    | cons k between =>
      cases hrest
      exact absurd hx (hdiffer hinstances' hy)

/-- A path stands below that of an instance around it. -/
theorem InlinesAt.beneath_of_prefix {a b : List Nat} (hfile : file.WellFormed)
    (hdrives : scope.Drives n) (hrooted : scope.Rooted)
    (hx : InlinesAt file depth stack scope n a x begun done)
    (hy : InlinesAt file depth stack scope n b y begun' done') (h : a <+: b) :
    Beneath x.inner.path y.inner.path := by
  induction hx generalizing b y begun' done' with
  | here visits =>
    cases hy with
    | here visits' =>
      obtain ⟨rfl, -⟩ := visits.unique visits' (List.cons_prefix_cons.1 h).1
      exact List.prefix_rfl
    | deeper visits' inlines' =>
      obtain ⟨rfl, rfl, rfl, rfl⟩ := visits.unique visits' (List.cons_prefix_cons.1 h).1
      have hv := visits.spec hfile hdrives hrooted
      exact (inlines'.inside hfile hv.drives hv.rooted).1
  | deeper visits inlines ih =>
    have hu := visits.spec hfile hdrives hrooted
    cases hy with
    | here visits' =>
      have hempty := List.prefix_nil.1 (List.cons_prefix_cons.1 h).2
      cases inlines <;> cases hempty
    | deeper visits' inlines' =>
      obtain ⟨hplace, hrest⟩ := List.cons_prefix_cons.1 h
      obtain ⟨rfl, rfl, rfl, rfl⟩ := visits.unique visits' hplace
      exact ih hu.drives hu.rooted inlines' hrest

section
variable (hfile : file.WellFormed)
  (hnames : ∀ m ∈ file.modules, (m.instances.filterMap Instance.name).Nodup)

include hfile hnames

/-- Visits with a name below both are at one place. -/
theorem Visits.place_of_beneath {place' : Nat} {s : String} (hmem : scope.module ∈ file.modules)
    (hdrives : scope.Drives n) (hrooted : scope.Rooted)
    (h : Visits file depth stack scope n place x begun entered done)
    (h' : Visits file depth stack scope n place' y begun' entered' done')
    (hx : Beneath x.inner.path s) (hy : Beneath y.inner.path s) : place = place' := by
  have hvisited := h.spec hfile hdrives hrooted
  have hvisited' := h'.spec hfile hdrives hrooted
  obtain ⟨a, ha, hpath⟩ := hvisited.path
  obtain ⟨b, hb, hpath'⟩ := hvisited'.path
  have hflat := (hfile _ hmem).flat_instance
  rw [hpath] at hx
  rw [hpath'] at hy
  obtain rfl := eq_of_beneath (hflat _ hvisited.member a ha) (hflat _ hvisited'.member b hb) hx hy
  exact h.place_eq (hnames _ hmem) h' ha hb

/-- A path below another one belongs to an instance inside the other one. -/
theorem InlinesAt.prefix_of_beneath {a b : List Nat} (hmem : scope.module ∈ file.modules)
    (hdrives : scope.Drives n) (hrooted : scope.Rooted)
    (hx : InlinesAt file depth stack scope n a x begun done)
    (hy : InlinesAt file depth stack scope n b y begun' done')
    (h : Beneath x.inner.path y.inner.path) : a <+: b := by
  induction hx generalizing b y begun' done' with
  | here visits =>
    cases hy with
    | here visits' =>
      rw [visits.place_of_beneath hfile hnames hmem hdrives hrooted visits' h List.prefix_rfl]
    | deeper visits' inlines' =>
      have hv := visits'.spec hfile hdrives hrooted
      have hinside := (inlines'.inside hfile hv.drives hv.rooted).1
      rw [visits.place_of_beneath hfile hnames hmem hdrives hrooted visits' h hinside]
      exact List.prefix_append [_] _
  | deeper visits inlines ih =>
    have hu := visits.spec hfile hdrives hrooted
    obtain ⟨hinside, hstrict⟩ := inlines.inside hfile hu.drives hu.rooted
    cases hy with
    | here visits' =>
      have hplace := visits.place_of_beneath hfile hnames hmem hdrives hrooted visits'
        (hinside.trans h) List.prefix_rfl
      obtain ⟨rfl, -⟩ := visits.unique visits' hplace
      exact absurd h hstrict
    | deeper visits' inlines' =>
      have hv := visits'.spec hfile hdrives hrooted
      have hplace := visits.place_of_beneath hfile hnames hmem hdrives hrooted visits'
        (hinside.trans h) (inlines'.inside hfile hv.drives hv.rooted).1
      obtain ⟨rfl, rfl, rfl, rfl⟩ := visits.unique visits' hplace
      rw [hplace, List.cons_prefix_cons]
      exact ⟨rfl, ih hu.module hu.drives hu.rooted inlines' h⟩

end

end

end Elaborate

end GateSynth.Verilog
