import GateSynth.Proofs.Verilog.Addresses
import GateSynth.Proofs.Verilog.LineIndex

/-!
# Instances are isolated by their paths

The signals of an instance that are its own stand below its path. Two instances have one of them in
common exactly if their paths are the same and a name is unbound in both, and elaborating an
instance leaves the signals of another one alone unless one path is below the other. Paths come from
the names of instances, and nothing asks that those of a module are different: where they are,
different instances have different paths, and the signals of an instance are declared and driven
while it is elaborated and at no other time (`elaborate_isolates`). Where they are not, the second
declaration of a signal replaces the first one (`elaborate_sharedName`).
-/

namespace GateSynth.Verilog

namespace Elaborate

open Netlist

section
variable {file : SourceFile} {depth place : Nat} {stack : List String} {scope : Scope}
  {n n' begun entered done begun' done' : Netlist} {x y : Inlining}

/-! ## What is left alone -/

/-- A name means the same in the second netlist: it is taken as before, has its width and no more
drivers. -/
structure Spared (s : String) (n n' : Netlist) : Prop where
  taken : n'.isTaken s = n.isTaken s
  width : n'.width s = n.width s
  drivers : ∀ node ∈ n'.nodes, node.output = s → node ∈ n.nodes

theorem Spared.trans {n'' : Netlist} {s : String} (h : Spared s n n') (h' : Spared s n' n'') :
    Spared s n n'' :=
  ⟨h'.taken.trans h.taken, h'.width.trans h.width,
    fun node hnode hs => h.drivers node (h'.drivers node hnode hs) hs⟩

section
variable {below outside : String → Prop} {s : String}

theorem Confined.taken_eq (h : Confined below outside n n') (hflat : ¬ Flat s)
    (hbelow : ¬ below s) : n'.isTaken s = n.isTaken s := by
  cases hs : n.isTaken s with
  | true => exact h.taken s hs
  | false =>
    refine Bool.eq_false_iff.2 fun hs' => ?_
    rcases h.newNames s hs' with hold | hnew
    · rw [hs] at hold
      cases hold
    · exact hnew.elim hflat hbelow

theorem Confined.width_eq (h : Confined below outside n n') (hflat : ¬ Flat s)
    (hbelow : ¬ below s) : n'.width s = n.width s := by
  cases hs : n.isTaken s with
  | true => exact h.width s hs hbelow
  | false =>
    have hs' := h.taken_eq hflat hbelow
    rw [width_of_not_taken hs, width_of_not_taken (hs'.trans hs)]

theorem Confined.spared (h : Confined below outside n n') (hflat : ¬ Flat s) (hbelow : ¬ below s)
    (houtside : ¬ outside s) : Spared s n n' := by
  refine ⟨h.taken_eq hflat hbelow, h.width_eq hflat hbelow, ?_⟩
  rintro node hnode rfl
  rcases h.drivers node hnode with hold | hnew | hbelow' | houtside'
  · exact hold
  · have htaken := isTaken_of_isDefined (isDefined_of_node hnode)
    rw [h.taken_eq hflat hbelow, hnew] at htaken
    cases htaken
  · exact absurd hbelow' hbelow
  · exact absurd houtside' houtside

end

section
variable (hfile : file.WellFormed)
  (hnames : ∀ m ∈ file.modules, (m.instances.filterMap Instance.name).Nodup)

include hfile hnames

/-- Before an instance is visited, nothing below it is taken, and afterwards it is spared. -/
theorem Visits.apart {s : String} (hmem : scope.module ∈ file.modules) (hdrives : scope.Drives n)
    (hrooted : scope.Rooted)
    (hfree : ∀ s, Below scope scope.module.instances s → n.isTaken s = false)
    (h : Visits file depth stack scope n place x begun entered done)
    (hrun : (moduleBody file (depth + 1) stack scope).run n = .ok ((), n'))
    (hs : Beneath x.inner.path s) : begun.isTaken s = false ∧ Spared s done n' := by
  have hx := h.spec hfile hdrives hrooted
  obtain ⟨before, after, n₁, hinstances, hassigns, hearlier, hlate⟩ := h.rest hrun
  obtain ⟨a, ha, hpath⟩ := hx.path
  rw [hpath] at hs
  have hself : Below scope [x.statement] s := ⟨x.statement, .head _, a, ha, hs⟩
  -- no other instance has the name of this one
  have hother : ∀ {is}, is ⊆ scope.module.instances → (∀ j ∈ is, j.name ≠ some a) →
      ¬ Below scope is s := by
    rintro is his hdiffer ⟨j, hj, b, hb, hbelow⟩
    have hflat := (hfile _ hmem).flat_instance
    obtain rfl := eq_of_beneath (hflat _ hx.member a ha) (hflat j (his hj) b hb) hs hbelow
    exact hdiffer j hj hb
  have hdistinct := hnames _ hmem
  rw [hinstances, List.Nodup, List.pairwise_filterMap, List.pairwise_append,
    List.pairwise_cons] at hdistinct
  have hbefore : ¬ Below scope before s := hother
    (hinstances ▸ List.subset_append_left _ _)
    fun j hj hb => hdistinct.2.2 j hj x.statement (.head _) a hb a ha rfl
  have hafter : ¬ Below scope after s := hother
    (hinstances ▸ fun j hj => List.mem_append_right _ (.tail _ hj))
    fun j hj hb => hdistinct.2.1.1 j hj a ha a hb rfl
  have hflat := not_flat_of_beneath hs
  have htarget : ¬ scope.Target s := fun htarget => hrooted.not_below htarget hself
  have hn₁ : Confined (fun _ => False) scope.Target n n₁ :=
    forM_confined (fun _ _ _ _ => assign_confined) hdrives hassigns
  have hbegun := instances_confined (fun _ _ _ _ => moduleBody_confined) (hdrives.mono hn₁) hearlier
  have hdone := instances_confined (fun _ _ _ _ => moduleBody_confined)
    (hx.begins.mono hx.confined) hlate
  refine ⟨?_, hdone.spared hflat hafter htarget⟩
  rw [hbegun.taken_eq hflat hbefore, hn₁.taken_eq hflat id]
  exact hfree s (hself.mono (List.cons_subset.2 ⟨hx.member, List.nil_subset _⟩))

/-- Below an instance, names are declared and driven while it is elaborated and at no other time. -/
theorem InlinesAt.apart {a : List Nat} {s : String} (hmem : scope.module ∈ file.modules)
    (hdrives : scope.Drives n) (hrooted : scope.Rooted)
    (hfree : ∀ s, Below scope scope.module.instances s → n.isTaken s = false)
    (h : InlinesAt file depth stack scope n a x begun done)
    (hrun : (moduleBody file depth stack scope).run n = .ok ((), n'))
    (hs : Beneath x.inner.path s) : begun.isTaken s = false ∧ Spared s done n' := by
  induction h generalizing n' with
  | here visits => exact visits.apart hfile hnames hmem hdrives hrooted hfree hrun hs
  | @deeper _ _ _ scope n begun entered done begun' done' _ u y visits inlines ih =>
    have hu := visits.spec hfile hdrives hrooted
    obtain ⟨m, hbody, hleaves⟩ := hu.body
    have hbelow : Beneath u.inner.path s := (inlines.inside hfile hu.drives hu.rooted).1.trans hs
    obtain ⟨a, ha, hpath⟩ := hu.path
    have hfreeInner : ∀ s, Below u.inner u.inner.module.instances s → entered.isTaken s = false := by
      intro s hs
      have hbegun := (visits.apart hfile hnames hmem hdrives hrooted hfree hrun hs.beneath).1
      obtain ⟨i, -, name, -, hbeneath⟩ := hs
      rw [hu.enters.taken_eq (not_flat_of_beneath hbeneath), hbegun]
      rintro ⟨d, hd, rfl⟩
      rw [String.append_assoc, beneath_append_iff] at hbeneath
      exact not_flat_of_beneath hbeneath ((hfile _ hu.module).flat_decl d hd)
    obtain ⟨hbegun, hspared⟩ := ih hu.module hu.drives hu.rooted hfreeInner hbody hs
    have hself : Below scope [u.statement] s := ⟨u.statement, .head _, a, ha, hpath ▸ hbelow⟩
    have htarget : ¬ u.Outward s := fun hout => by
      have htarget := Outward.target hout
      rw [hu.outer] at htarget
      exact hrooted.not_below htarget hself
    refine ⟨hbegun, (hspared.trans (hleaves.spared ?_ id htarget)).trans
      (visits.apart hfile hnames hmem hdrives hrooted hfree hrun hbelow).2⟩
    rw [hpath] at hbelow
    exact not_flat_of_beneath hbelow

end

end

/-! ## Own signals -/

/-- A name of the module to which nothing is bound. -/
def Scope.Unbound (scope : Scope) (name : String) : Prop :=
  ∃ d ∈ scope.module.decls, d.name = name ∧ scope.bindings.find? name = none

/-- A signal of the instance that is its own. -/
def Inlining.Owns (x : Inlining) (s : String) : Prop :=
  ∃ name, x.inner.Unbound name ∧ x.inner.path ++ name = s

section
variable {file : SourceFile} {x y : Inlining} {begun done begun' done' : Netlist} {s : String}

theorem Inlining.Owns.beneath (h : x.Owns s) : Beneath x.inner.path s := by
  obtain ⟨name, -, rfl⟩ := h
  exact beneath_append _ _

/-- An own signal stands right below the path of its instance. -/
theorem Inlining.Owns.right_below (h : x.Owns s) (hfile : file.WellFormed)
    (hx : x.Located file begun done) :
    ∃ p name, x.inner.path = p ++ "/" ∧ Flat name ∧ x.inner.Unbound name ∧ p ++ "/" ++ name = s := by
  obtain ⟨name, hname, rfl⟩ := h
  obtain ⟨p, hp⟩ := hx.path
  have ⟨d, hd, hdname, _⟩ := hname
  exact ⟨p, name, hp, hdname ▸ (hfile _ hx.module).flat_decl d hd, hname, by rw [hp]⟩

theorem Inlining.Owns.not_flat (h : x.Owns s) (hfile : file.WellFormed)
    (hx : x.Located file begun done) : ¬ Flat s := by
  obtain ⟨p, name, hp, -, -, rfl⟩ := h.right_below hfile hx
  exact not_flat_of_beneath (beneath_append _ name)

/-- Two instances share an own signal exactly if they share their path and an unbound name. -/
theorem Inlining.owns_iff (hfile : file.WellFormed) (hx : x.Located file begun done)
    (hy : y.Located file begun' done') :
    (∃ s, x.Owns s ∧ y.Owns s) ↔
      x.inner.path = y.inner.path ∧ ∃ name, x.inner.Unbound name ∧ y.inner.Unbound name := by
  constructor
  · rintro ⟨s, hxs, hys⟩
    obtain ⟨p, a, hp, ha, hxa, rfl⟩ := hxs.right_below hfile hx
    obtain ⟨q, b, hq, hb, hyb, heq⟩ := hys.right_below hfile hy
    obtain ⟨hpath, rfl⟩ := path_inj ha hb heq.symm
    exact ⟨hp.trans (hpath.trans hq.symm), a, hxa, hyb⟩
  · rintro ⟨hpath, name, hxn, hyn⟩
    exact ⟨x.inner.path ++ name, ⟨name, hxn, rfl⟩, name, hyn, by rw [hpath]⟩

/-- An instance whose path is not above that of another one leaves the own signals of the other
alone. Only of an instance around it may it drive one, to which an output is connected. -/
theorem Inlining.spares (hfile : file.WellFormed) (hx : x.Located file begun done)
    (hy : y.Located file begun' done') (hpath : ¬ Beneath x.inner.path y.inner.path)
    (hs : y.Owns s) :
    done.width s = begun.width s ∧
      (Spared s begun done ∨ x.Outward s ∧ Beneath y.inner.path x.inner.path) := by
  have hflat := hs.not_flat hfile hy
  obtain ⟨q, b, hq, hb, -, rfl⟩ := hs.right_below hfile hy
  have hbelow : ¬ Beneath x.inner.path (q ++ "/" ++ b) := by
    obtain ⟨p, hp⟩ := hx.path
    rw [hp, hq] at hpath
    rw [hp]
    exact fun hbelow => hpath (hbelow.of_flat hb)
  refine ⟨hx.confined.width_eq hflat hbelow, ?_⟩
  by_cases hout : x.Outward (q ++ "/" ++ b)
  · refine .inr ⟨hout, ?_⟩
    rcases hx.rooted _ (Outward.target hout) with hflat' | ⟨p, d, heq, hd, hp⟩
    · exact absurd hflat' hflat
    · obtain ⟨hpq, -⟩ := path_inj hd hb heq
      rw [hq, ← hpq]
      exact hp.trans hx.around
  · exact .inl (hx.confined.spared hflat hbelow hout)

end

end Elaborate

open Elaborate

/-- The instance at an address below the top module, with the netlists before and after it. -/
def SourceFile.InlinesAt (file : SourceFile) (top : Option String) (address : List Nat)
    (x : Inlining) (begun done : Netlist) : Prop :=
  ∃ m n₀, file.top top = .ok m ∧ start m = .ok n₀ ∧
    Elaborate.InlinesAt file file.modules.length [m.name] (topScope m) n₀ address x begun done

/-- The instances that are inlined are those that have an address. -/
theorem SourceFile.inlines_iff {file : SourceFile} {top : Option String} {n : Netlist} {x : Inlining}
    (h : elaborate file top = .ok n) :
    file.Inlines top x ↔ ∃ address begun done, file.InlinesAt top address x begun done := by
  obtain ⟨m, n₀, n₁, hm, hstart, hbody, -, -⟩ := elaborate_eq_ok h
  have hiff := Elaborate.inlines_iff (x := x) hbody
  constructor
  · rintro ⟨m', n₀', hm', hstart', hx⟩
    cases hm.symm.trans hm'
    cases hstart.symm.trans hstart'
    obtain ⟨address, begun, done, hx⟩ := hiff.1 hx
    exact ⟨address, begun, done, m, n₀, hm, hstart, hx⟩
  · rintro ⟨address, begun, done, m', n₀', hm', hstart', hx⟩
    cases hm.symm.trans hm'
    cases hstart.symm.trans hstart'
    exact ⟨m, n₀, hm, hstart, hiff.2 ⟨address, begun, done, hx⟩⟩

/-- Every instance of the top module has an address, and its wires are its own. -/
theorem exists_inlinesAt {file : SourceFile} {top : Option String} {n : Netlist} {m child : Module}
    {after : List Instance} {i : Instance} (hfile : file.WellFormed)
    (h : elaborate file top = .ok n) (htop : file.top top = .ok m) (before : List Instance)
    (hinstances : m.instances = before ++ i :: after) (hgate : Gate.ofName? i.module = none)
    (hchild : file.module? i.module = some child) :
    ∃ x begun done name, file.InlinesAt top [before.length] x begun done ∧ i.name = some name ∧
      ∀ d ∈ child.decls, d.name ∉ child.portDecls.map Decl.name → x.Owns (name ++ "/" ++ d.name) := by
  obtain ⟨m', n₀, n₁, hm, hstart, hbody, -, -⟩ := elaborate_eq_ok h
  cases htop.symm.trans hm
  have hmem := mem_of_top htop
  have hdeclared := declared_of_start (hfile m hmem) hstart
  obtain ⟨depth, hdepth⟩ := Nat.exists_eq_add_one_of_ne_zero (List.length_pos_of_mem hmem).ne'
  rw [hdepth] at hbody
  obtain ⟨x, _, begun, entered, done, rfl, rfl, hvisits, -⟩ :=
    exists_visits hinstances hgate hchild hbody
  have hx := hvisits.spec hfile hdeclared.fits.drives (rooted_topScope (hfile m hmem))
  obtain ⟨name, hname, hpath⟩ := hx.path
  refine ⟨x, begun, done, name, ⟨m, n₀, htop, hstart, hdepth ▸ .here hvisits⟩, hname,
    fun d hd hwire => ⟨d.name, ⟨d, hd, rfl, ?_⟩, ?_⟩⟩
  · cases hfind : x.inner.bindings.find? d.name with
    | none => rfl
    | some binding =>
      obtain ⟨port, hport, heq⟩ := hx.bound _ _ hfind
      exact absurd (List.mem_map.2 ⟨port, hport, heq⟩) hwire
  · rw [hpath, show (topScope m).path = "" from rfl, String.empty_append]

/-- Two instances that are inlined have an own signal in common exactly if their paths are the same
and a name is unbound in both. An instance whose path is not above the path of another one never
changes the width of an own signal of the other, and drives one only where an output is connected
to it, which takes an instance around. Where the instances of every module have different names,
paths are below each other exactly as instances are inside each other, different instances have no
own signal in common, and an own signal is not taken before its instance is elaborated and spared
afterwards. -/
theorem elaborate_isolates {source : String} {file : SourceFile} {top : Option String} {n : Netlist}
    (hparse : parse source = .ok file) (h : elaborate file top = .ok n) {a b : List Nat}
    {x y : Inlining} {begun done begun' done' : Netlist}
    (hx : file.InlinesAt top a x begun done) (hy : file.InlinesAt top b y begun' done') :
    ((∃ s, x.Owns s ∧ y.Owns s) ↔
        x.inner.path = y.inner.path ∧ ∃ name, x.inner.Unbound name ∧ y.inner.Unbound name) ∧
      (¬ Beneath x.inner.path y.inner.path → ∀ s, y.Owns s → done.width s = begun.width s ∧
        (Spared s begun done ∨ x.Outward s ∧ Beneath y.inner.path x.inner.path)) ∧
      ((∀ m ∈ file.modules, (m.instances.filterMap Instance.name).Nodup) →
        (Beneath x.inner.path y.inner.path ↔ a <+: b) ∧
          (a ≠ b → ∀ s, x.Owns s → ¬ y.Owns s) ∧
          ∀ s, y.Owns s → begun'.isTaken s = false ∧ Spared s done' n) := by
  obtain ⟨m, n₀, hm, hstart, hx⟩ := hx
  obtain ⟨m', n₀', hm', hstart', hy⟩ := hy
  cases hm.symm.trans hm'
  cases hstart.symm.trans hstart'
  have hfile := parse_wellFormed hparse
  have hmem := mem_of_top hm
  have hdeclared := declared_of_start (hfile m hmem) hstart
  have hdrives := hdeclared.fits.drives
  have hrooted := rooted_topScope (hfile m hmem)
  have hlocated := hx.located hfile hdrives hrooted
  have hlocated' := hy.located hfile hdrives hrooted
  have hshared := Inlining.owns_iff hfile hlocated hlocated'
  refine ⟨hshared, fun hpath s hs => Inlining.spares hfile hlocated hlocated' hpath hs,
    fun hnames => ?_⟩
  have hinside : Beneath x.inner.path y.inner.path → a <+: b :=
    hx.prefix_of_beneath hfile hnames hmem hdrives hrooted hy
  refine ⟨⟨hinside, hx.beneath_of_prefix hfile hdrives hrooted hy⟩, fun hab s hxs hys => hab ?_,
    fun s hs => ?_⟩
  · have hpath := (hshared.1 ⟨s, hxs, hys⟩).1
    have hback := hy.prefix_of_beneath hfile hnames hmem hdrives hrooted hx (hpath ▸ List.prefix_rfl)
    exact (hinside (hpath ▸ List.prefix_rfl)).eq_of_length_le hback.length_le
  · obtain ⟨m', n₀', n₁, hm', hstart', hbody, rfl, -⟩ := elaborate_eq_ok h
    cases hm.symm.trans hm'
    cases hstart.symm.trans hstart'
    have hfree : ∀ s, Below (topScope m) m.instances s → n₀.isTaken s = false := by
      rintro s ⟨i, hi, name, hname, hs⟩
      exact hdeclared.free (hfile m hmem) i hi name hname s hs
    obtain ⟨hbegun, hspared⟩ := hy.apart hfile hnames hmem hdrives hrooted hfree hbody hs.beneath
    exact ⟨hbegun, hspared.trans ⟨rfl, rfl, fun _ hnode _ => hnode⟩⟩

/-- A file with an instance named `u` that has a wire of eight bits, and an instance of any name that
has a wire of one bit. -/
def neighbours (second : String) : SourceFile where
  modules := [
    { name := "wide"
      ports := ["a", "y"]
      decls := [⟨"a", some .input, (Width.ofNat? 8).getD .one, ⟨1, 25⟩⟩,
        ⟨"y", some .output, (Width.ofNat? 8).getD .one, ⟨1, 41⟩⟩,
        ⟨"x", none, (Width.ofNat? 8).getD .one, ⟨1, 56⟩⟩]
      assigns := [⟨"x", .ident "a" ⟨1, 70⟩, ⟨1, 66⟩⟩, ⟨"y", .ident "x" ⟨1, 84⟩, ⟨1, 80⟩⟩]
      instances := []
      pos := ⟨1, 1⟩ },
    { name := "narrow"
      ports := ["b", "z"]
      decls := [⟨"b", some .input, .one, ⟨1, 117⟩⟩, ⟨"z", some .output, .one, ⟨1, 127⟩⟩,
        ⟨"x", none, .one, ⟨1, 136⟩⟩]
      assigns := [⟨"z", .ident "b" ⟨1, 150⟩, ⟨1, 146⟩⟩]
      instances := []
      pos := ⟨1, 97⟩ },
    { name := "t"
      ports := ["a", "b", "y", "z"]
      decls := [⟨"a", some .input, (Width.ofNat? 8).getD .one, ⟨1, 184⟩⟩,
        ⟨"b", some .input, .one, ⟨1, 193⟩⟩,
        ⟨"y", some .output, (Width.ofNat? 8).getD .one, ⟨1, 209⟩⟩,
        ⟨"z", some .output, .one, ⟨1, 219⟩⟩]
      assigns := []
      instances := [
        ⟨"wide", some "u", .positional [.ident "a" ⟨1, 230⟩, .ident "y" ⟨1, 233⟩], ⟨1, 223⟩⟩,
        ⟨"narrow", some second, .positional [.ident "b" ⟨1, 246⟩, .ident "z" ⟨1, 249⟩], ⟨1, 237⟩⟩]
      pos := ⟨1, 163⟩ }]

theorem inlinesAt_neighbours {source : String} {n : Netlist} (second : String)
    (hparse : parse source = .ok (neighbours second))
    (h : elaborate (neighbours second) none = .ok n) :
    ∃ x y begun done begun' done', (neighbours second).InlinesAt none [0] x begun done ∧
      (neighbours second).InlinesAt none [1] y begun' done' ∧
      x.Owns "u/x" ∧ y.Owns (second ++ "/x") := by
  have hfile := parse_wellFormed hparse
  obtain ⟨x, begun, done, name, hx, hname, hwires⟩ :=
    exists_inlinesAt hfile h rfl [] rfl rfl rfl
  obtain ⟨y, begun', done', name', hy, hname', hwires'⟩ :=
    exists_inlinesAt hfile h rfl [_] rfl rfl rfl
  cases hname
  cases hname'
  refine ⟨x, y, begun, done, begun', done', hx, hy, ?_, ?_⟩
  · exact hwires _ (.tail _ (.tail _ (.head _))) (by decide)
  · rw [show second ++ "/x" = second ++ "/" ++ "x" by rw [String.append_assoc]; rfl]
    exact hwires' _ (.tail _ (.tail _ (.head _))) (by decide)

theorem elaborate_isolates_neighbours : ∃ n x y begun done begun' done',
    parse ("module wide(input [7:0] a, output [7:0] y); wire [7:0] x; " ++
      "assign x = a; assign y = x; endmodule " ++
      "module narrow(input b, output z); wire x; assign z = b; endmodule " ++
      "module t(input [7:0] a, input b, output [7:0] y, output z); " ++
      "wide u(a, y); narrow v(b, z); endmodule") = .ok (neighbours "v") ∧
    elaborate (neighbours "v") none = .ok n ∧
    (neighbours "v").InlinesAt none [0] x begun done ∧
    (neighbours "v").InlinesAt none [1] y begun' done' ∧
    x.Owns "u/x" ∧ y.Owns "v/x" ∧ ¬ y.Owns "u/x" ∧ Spared "v/x" begun done := by
  have hparse : parse ("module wide(input [7:0] a, output [7:0] y); wire [7:0] x; " ++
      "assign x = a; assign y = x; endmodule " ++
      "module narrow(input b, output z); wire x; assign z = b; endmodule " ++
      "module t(input [7:0] a, input b, output [7:0] y, output z); " ++
      "wide u(a, y); narrow v(b, z); endmodule") = .ok (neighbours "v") := by
    rw [parse, ← String.ofList_append, ← String.ofList_append, ← String.ofList_append,
      ← String.ofList_append, tokenize_ofList]
    decide +kernel
  have hok : (elaborate (neighbours "v") none).isOk = true := by
    rw [elaborate_eq]
    decide +kernel
  have hnames : ∀ m ∈ (neighbours "v").modules, (m.instances.filterMap Instance.name).Nodup := by
    decide
  obtain ⟨n, hn⟩ := exists_ok_of_isOk hok
  obtain ⟨x, y, begun, done, begun', done', hx, hy, hxs, hys⟩ := inlinesAt_neighbours "v" hparse hn
  obtain ⟨-, hspares, hdistinct⟩ := elaborate_isolates hparse hn hx hy
  obtain ⟨hpath, hshared, -⟩ := hdistinct hnames
  obtain ⟨-, -, hdistinct'⟩ := elaborate_isolates hparse hn hy hx
  have hapart : ¬ [0] <+: [1] ∧ ¬ [1] <+: [0] := by decide
  refine ⟨n, x, y, begun, done, begun', done', hparse, hn, hx, hy, hxs, hys,
    hshared (by decide) _ hxs, ?_⟩
  refine (hspares (fun h => hapart.1 (hpath.1 h)) _ hys).2.resolve_right fun hout => ?_
  exact hapart.2 ((hdistinct' hnames).1.1 hout.2)

/-- Two instances of one name: the second one narrows a wire of the first one. -/
theorem elaborate_sharedName : ∃ n e x y begun done begun' done',
    parse ("module wide(input [7:0] a, output [7:0] y); wire [7:0] x; " ++
      "assign x = a; assign y = x; endmodule " ++
      "module narrow(input b, output z); wire x; assign z = b; endmodule " ++
      "module t(input [7:0] a, input b, output [7:0] y, output z); " ++
      "wide u(a, y); narrow u(b, z); endmodule") = .ok (neighbours "u") ∧
    elaborate (neighbours "u") none = .ok n ∧
    (neighbours "u").InlinesAt none [0] x begun done ∧
    (neighbours "u").InlinesAt none [1] y begun' done' ∧
    x.Owns "u/x" ∧ y.Owns "u/x" ∧ (n.width "u/x").bits = 1 ∧
    Evaluator.ofNetlist n .none = .ok e ∧
    e.evaluate (.ofList [("a", 255), ("b", 0)]) = .ok [("y", 1), ("z", 0)] := by
  have hparse : parse ("module wide(input [7:0] a, output [7:0] y); wire [7:0] x; " ++
      "assign x = a; assign y = x; endmodule " ++
      "module narrow(input b, output z); wire x; assign z = b; endmodule " ++
      "module t(input [7:0] a, input b, output [7:0] y, output z); " ++
      "wide u(a, y); narrow u(b, z); endmodule") = .ok (neighbours "u") := by
    rw [parse, ← String.ofList_append, ← String.ofList_append, ← String.ofList_append,
      ← String.ofList_append, tokenize_ofList]
    decide +kernel
  have hrun : (do
      let n ← (elaborate (neighbours "u") none).toOption
      let e ← (Evaluator.ofNetlist n .none).toOption
      let values ← (e.evaluate (.ofList [("a", 255), ("b", 0)])).toOption
      return ((n.width "u/x").bits, values)) = some (1, [("y", 1), ("z", 0)]) := by
    rw [elaborate_eq]
    decide +kernel
  obtain ⟨n, hn, hrun⟩ := Option.bind_eq_some_iff.1 hrun
  obtain ⟨e, he, hrun⟩ := Option.bind_eq_some_iff.1 hrun
  obtain ⟨values, hvalues, hrun⟩ := Option.bind_eq_some_iff.1 hrun
  obtain ⟨hwidth, rfl⟩ := Prod.mk.inj (Option.some.inj hrun)
  obtain ⟨x, y, begun, done, begun', done', hx, hy, hxs, hys⟩ :=
    inlinesAt_neighbours "u" hparse (ok_of_toOption hn)
  exact ⟨n, e, x, y, begun, done, begun', done', hparse, ok_of_toOption hn, hx, hy, hxs, hys, hwidth,
    ok_of_toOption he, ok_of_toOption hvalues⟩

end GateSynth.Verilog
