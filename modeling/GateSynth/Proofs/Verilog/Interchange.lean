import GateSynth.Proofs.Verilog.Insertion
import GateSynth.Proofs.Verilog.LineIndex
import GateSynth.Proofs.Verilog.Positions
import GateSynth.Proofs.Verilog.Terminals

/-!
# Buffers in place of assignments

A buffer and an assignment of the same expression to the same signal, in the same place of a module,
give two netlists that agree on every signal of the module exactly if they agree on this one. They
compute the expression at different widths: the buffer at the width of the signal only, the
assignment at the wider of this and the expression's own. The values are the same where the width
holds the expression or no division sees what the buffer cuts off (`elaborate_buffer`), and may differ
elsewhere (`elaborate_buffer_division`).
-/

namespace GateSynth.Verilog

namespace Elaborate

open Netlist

/-! ## Simulation of elaborated netlists -/

/-- The netlist can be simulated: the inputs are given, and every node has a function. -/
def Simulable (n : Netlist) (given : Values) : Prop :=
  (∀ i ∈ n.inputs, (given.find? i).isSome = true) ∧
    ∀ node ∈ n.nodes, ∀ name, node.kind ≠ .module name

theorem computed_of_elaborated {kind : Kind} (h : Elaborated kind)
    (hmodule : ∀ name, kind ≠ .module name) : Computed kind := by
  cases kind with
  | op | const => trivial
  | module name => exact absurd rfl (hmodule name)
  | cell => cases h

section
variable {n : Netlist} {cells : CellFunctions}

theorem exists_simulate_iff (hl : n.Legal) (hc : n.Coherent)
    (hkinds : ∀ node ∈ n.nodes, Elaborated node.kind) (cells : CellFunctions) :
    ∃ e, Evaluator.ofNetlist n cells = .ok e ∧
      ∀ given : Values, (∃ s, e.simulate given = .ok s) ↔ Simulable n given := by
  obtain ⟨order, horder⟩ := hl.topoOrder hc
  have he : Evaluator.ofNetlist n cells = .ok ⟨n, order, cells⟩ := by
    rw [Evaluator.ofNetlist, horder]
  refine ⟨_, he, fun given => ⟨?_, ?_⟩⟩
  · rintro ⟨s, hs⟩
    have hsolution := hl.solution_of_simulate hc he hs
    refine ⟨fun i hi => ?_, fun node hnode name hkind => ?_⟩
    · obtain ⟨x, hx, -⟩ := hsolution.input i hi
      rw [hx]
      rfl
    · have hresult := hsolution.node node hnode
      rw [Valuation.result, hkind] at hresult
      cases hresult
  · rintro ⟨hgiven, hmodules⟩
    obtain ⟨e, he', hsimulates⟩ := simulates hl hc (fun node hnode =>
      computed_of_elaborated (hkinds node hnode) (hmodules node hnode)) cells
    cases he.symm.trans he'
    exact (hsimulates given).1 hgiven

end

/-! ## The two modules -/

section
variable {m : Module} {r : Pairing} {v v' : Valuation}

theorem reading_congr (h : ∀ d ∈ m.decls, v d.name = v' d.name) : m.reading v = m.reading v' := by
  funext name
  rw [Module.reading, Module.reading]
  split
  · next hd =>
    obtain ⟨d, hd⟩ := Option.isSome_iff_exists.1 hd
    obtain rfl : d.name = name := by simpa using List.find?_some hd
    rw [h d (List.mem_of_find?_eq_some hd)]
  · rfl

theorem reading_of_decl? {name : String} {d : Decl} (h : m.decl? name = some d) (v : Valuation) :
    m.reading v name = (v name).toNat := by
  rw [Module.reading, h]
  rfl

theorem topScope_dest {name d : String} {line : Nat} (h : (topScope m).dest name line = .ok d) :
    d = name := by
  have hread := (topScope_read (Scope.read_of_dest h)).1
  injection hread

/-- Top scopes with the same declarations have the same names. -/
theorem topScope_pairs {m' : Module} (hname : m.name = m'.name) (hdecls : m.decls = m'.decls)
    (hr : ∀ d ∈ m'.decls, r d.name d.name) : Scope.Pairs r (topScope m) (topScope m') := by
  have hdecl : m.decl? = m'.decl? := by
    funext name
    rw [Module.decl?, Module.decl?, hdecls]
  have hfixed : ∀ {name line g}, (topScope m').read name line = .ok g →
      g = .plain name ∧ r name name := by
    intro name line g hg
    obtain ⟨rfl, d, hd⟩ := topScope_read hg
    obtain rfl : d.name = name := by simpa using List.find?_some hd
    exact ⟨rfl, hr d (List.mem_of_find?_eq_some hd)⟩
  refine ⟨hname, rfl, ?_, fun name line g hg => ⟨g, ?_, ?_⟩, fun name line d hd => ⟨?_, ?_⟩⟩
  · funext name line
    simp only [Scope.width, Scope.undeclared, topScope, hdecl, hname]
  · obtain ⟨rfl, d, hd⟩ := topScope_read hg
    rw [← hdecl] at hd
    have hread := read_of_free (show (topScope m).bindings.find? name = none from rfl) hd line
    rwa [show (topScope m).path ++ name = name from String.empty_append] at hread
  · obtain ⟨rfl, hname'⟩ := hfixed hg
    exact Pairing.reads_plain hname'
  · simpa only [Scope.dest, Scope.flatName, Scope.undeclared, topScope, hdecl, hname] using hd
  · obtain ⟨-, hname'⟩ := hfixed (Scope.read_of_dest hd)
    rwa [topScope_dest hd]

/-! ## What one statement builds alone -/

variable {n₀ c : Netlist} {i : Instance} {a : Assign} {pos : Position}

/-- A netlist before the statements of a module, and what one of them with the target `y` builds
alone. -/
structure Alone (m : Module) (y : String) (n₀ c : Netlist) : Prop where
  declared : Declared m n₀ fun _ => True
  target : ∃ d, m.decl? y = some d ∧ n₀.isTaken y = true
  computed : ∀ a ∈ c.nodes, Computed a.kind
  drives : ∀ a ∈ c.nodes, n₀.isTaken a.output = true → a.output = y

theorem Alone.of_grown {y : String} {line : Nat} (hdeclared : Declared m n₀ fun _ => True)
    (hdest : (topScope m).dest y line = .ok y) (h : Grown Computed (some y) n₀ c) :
    Alone m y n₀ c := by
  obtain ⟨-, d, hd⟩ := topScope_read (Scope.read_of_dest hdest)
  have hold : ∀ {node}, node ∉ n₀.nodes := fun hnode => by
    rw [hdeclared.nodes] at hnode
    cases hnode
  refine ⟨hdeclared, ⟨d, hd, hdeclared.fits.drives hdest⟩, fun node hnode => ?_,
    fun node hnode htaken => ?_⟩
  · exact (h.newNodes node hnode).resolve_left hold
  · rcases (h.drivers node hnode).resolve_left hold with hfree | hy
    · rw [htaken] at hfree
      cases hfree
    · exact (Option.some.inj hy).symm

theorem alone_of_assign (hdeclared : Declared m n₀ fun _ => True)
    (h : (assign (topScope m) a).run n₀ = .ok ((), c)) : Alone m a.target n₀ c := by
  obtain ⟨d, hd, hgrown⟩ := assign_grown hdeclared.fits.drives h
  obtain rfl := topScope_dest hd
  exact .of_grown hdeclared hd hgrown

theorem alone_of_buf {site : Site} {y : String} {e : Expr} (hdeclared : Declared m n₀ fun _ => True)
    (hconnections : i.connections = .positional [.ident y pos, e])
    (h : (gateInstance (topScope m) site i .buf).run n₀ = .ok ((), c)) : Alone m y n₀ c := by
  obtain ⟨name, pos', inputs, d, hpositional, hd, hgrown⟩ :=
    gateInstance_grown hdeclared.fits.drives h
  rw [positional, hconnections] at hpositional
  cases hpositional
  obtain rfl := topScope_dest hd
  exact .of_grown hdeclared hd hgrown

theorem buf_drives {site : Site} {y : String} {e : Expr} (hdeclared : Declared m n₀ fun _ => True)
    (hconnections : i.connections = .positional [.ident y pos, e])
    (h : (gateInstance (topScope m) site i .buf).run n₀ = .ok ((), c)) :
    ∃ node ∈ c.nodes, node.output = y := by
  obtain ⟨d, decl, f, l, id, hd, -, -, -, hadd⟩ := buf_run hdeclared.fits hconnections h
  obtain rfl := topScope_dest hd
  refine ⟨⟨id, .op .buf, [f], d⟩, ?_, rfl⟩
  rw [nodes_of_addNode hadd]
  exact List.mem_append_right _ (.head _)

/-- The declared names have the same values alone as among others. -/
theorem Alone.exists_satisfies {y : String} {q : Pairing} {k n : Netlist} {cells : CellFunctions}
    (h : Alone m y n₀ c) (hjoins : Joins (fun s => n₀.isTaken s = true) r q k c n)
    (hv : Satisfies n cells v) : ∃ x, Satisfies c cells x ∧ m.reading x = m.reading v := by
  obtain ⟨around, hhosts, hfixed⟩ := hjoins.exists_hosts'
  obtain ⟨x, hx, hsatisfies⟩ := hhosts.exists_satisfies hv
  refine ⟨x, hsatisfies, reading_congr fun d hd => ?_⟩
  exact hx (hhosts.fixed (hfixed _ (h.declared.declared d hd trivial).1))

/-- Values that obey all that a buffer builds but the buffer itself obey this too if its output has
the value of the input, computed at its width. -/
theorem obeys_of_cut {site : Site} {y : String} {e : Expr} {d : Decl} {cells : CellFunctions}
    (hdeclared : Declared m n₀ fun _ => True) (hd : m.decl? y = some d)
    (hconnections : i.connections = .positional [.ident y pos, e])
    (h : (gateInstance (topScope m) site i .buf).run n₀ = .ok ((), c))
    (hfits : ∀ s, (c.width s).truncate (v s) = v s) (hobeys : c.Obeys cells (fun s => s = y) v)
    (hvalue : (v y).toNat = e.cut m.bits (m.reading v) d.width.bits % span d.width.bits) :
    ∀ node ∈ c.nodes, v.result c cells node = some (v node.output) := by
  obtain ⟨y', d', f, l, id, hdest, hdecl, hwidth, hlower, hadd⟩ :=
    buf_run hdeclared.fits hconnections h
  obtain rfl := topScope_dest hdest
  obtain rfl : d' = d := Option.some.inj (hdecl.symm.trans hd)
  have hl : Grown Computed none n₀ l := Grows.lower _ _ _ _ _ (.none n₀) hlower
  have htaken := hdeclared.fits.drives hdest
  have hnodes := nodes_of_addNode hadd
  have hsame : c.width = l.width := by
    obtain ⟨-, -, -, rfl⟩ := addNode_eq_ok hadd
    rfl
  -- the nodes of the input drive temporary signals only
  have hinput : ∀ node ∈ l.nodes, v.result c cells node = some (v node.output) := by
    intro node hnode
    refine hobeys node (by rw [hnodes]; exact List.mem_append_left _ hnode) ?_
    rintro rfl
    rcases hl.drivers node hnode with hold | hfree | hdest'
    · rw [hdeclared.nodes] at hold
      cases hold
    · rw [htaken] at hfree
      cases hfree
    · cases hdest'
  have hresult : ∀ node, v.result c cells node = v.result l cells node := fun node =>
    Valuation.result_congr rfl (congrFun hsame _)
      (List.map_congr_left fun _ _ => Valuation.seen_congr rfl (congrFun hsame _))
  have hsatisfies : Satisfies l cells v :=
    ⟨fun node hnode => (hresult node).symm.trans (hinput node hnode), fun s => hsame ▸ hfits s⟩
  have hseen := ((cuts (topScope m) site e hdeclared.fits hlower).carries (.refl l) hsatisfies).exact
  rw [topScope_value] at hseen
  intro node hnode
  rw [hnodes, List.mem_append, List.mem_singleton] at hnode
  rcases hnode with hnode | rfl
  · exact hinput node hnode
  · have hbits : l.width y' = d'.width := (hl.width y' htaken).trans hwidth
    rw [hresult]
    refine congrArg some (UInt64.toNat_inj.1 ?_)
    rw [hvalue]
    simp only [List.map_cons, List.map_nil, Operator.toNat_value_buf, hbits, hseen,
      Width.values_eq_span]
    rfl

section
variable {q : Pairing} {k n : Netlist} {cells : CellFunctions} {d : Decl}
  (hdeclared : Declared m n₀ fun _ => True)
  (hjoins : Joins (fun s => n₀.isTaken s = true) r q k c n) (hv : Satisfies n cells v)

include hdeclared hjoins hv

/-- A buffer among other statements gives its output the value computed at its width. -/
theorem buf_value {site : Site} {y : String} {e : Expr} (hd : m.decl? y = some d)
    (hconnections : i.connections = .positional [.ident y pos, e])
    (h : (gateInstance (topScope m) site i .buf).run n₀ = .ok ((), c)) :
    (v y).toNat = e.cut m.bits (m.reading v) d.width.bits % span d.width.bits := by
  obtain ⟨x, hx, hreading⟩ := (alone_of_buf hdeclared hconnections h).exists_satisfies hjoins hv
  obtain ⟨d', hd', hvalue⟩ := buf_spec hdeclared.fits hconnections h
  obtain rfl : d' = d := Option.some.inj (hd'.symm.trans hd)
  have hvalue := hvalue (.refl c) hx
  rw [topScope_value, hreading, reading_of_decl? hd] at hvalue
  exact hvalue

/-- An assignment among other statements gives its target the value of the expression. -/
theorem assign_value (hd : m.decl? a.target = some d)
    (h : (assign (topScope m) a).run n₀ = .ok ((), c)) :
    (v a.target).toNat = a.expr.value m.bits (m.reading v)
        (max d.width.bits (a.expr.ownBits m.bits)) % span d.width.bits := by
  obtain ⟨x, hx, hreading⟩ := (alone_of_assign hdeclared h).exists_satisfies hjoins hv
  obtain ⟨d', hd', hvalue⟩ := (assign_spec hdeclared.fits h).2 (.refl c) hx
  obtain rfl : d' = d := Option.some.inj (hd'.symm.trans hd)
  rw [topScope_value, hreading, reading_of_decl? hd] at hvalue
  exact hvalue

theorem reading_lt (h : (assign (topScope m) a).run n₀ = .ok ((), c)) (name : String) :
    m.reading v name < span (m.bits name) := by
  obtain ⟨x, hx, hreading⟩ := (alone_of_assign hdeclared h).exists_satisfies hjoins hv
  have hlt := Scope.value_lt hdeclared.fits (assign_spec hdeclared.fits h).1.later hx name
  rwa [topScope_value, hreading] at hlt

end

end

/-! ## Statements of the top module -/

/-- Assignments and instances of the top module. -/
def topStatements (file : SourceFile) (depth : Nat) (m : Module) (as : List Assign)
    (is : List Instance) : Build Unit := do
  as.forM (assign (topScope m))
  is.forM (instantiate file (moduleBody file depth) [m.name] (topScope m))

section
variable {file file' : SourceFile} {depth : Nat} {m m' : Module} {as as' : List Assign}
  {is is' : List Instance} {n n' : Netlist}

theorem topStatements_append :
    (topStatements file depth m as [] >>= fun _ => topStatements file depth m as' is) =
      topStatements file depth m (as ++ as') is := by
  simp only [topStatements, List.forM_eq_forM, List.forM_append, List.forM_nil, bind_assoc, pure_bind]

theorem append_topStatements :
    (topStatements file depth m as is >>= fun _ => topStatements file depth m [] is') =
      topStatements file depth m as (is ++ is') := by
  simp only [topStatements, List.forM_eq_forM, List.forM_append, List.forM_nil, bind_assoc, pure_bind]

theorem topStatements_confined (hdrives : (topScope m).Drives n)
    (h : (topStatements file depth m as is).run n = .ok ((), n')) :
    Confined (fun s => ¬ Flat s) (topScope m).Target n n' := by
  obtain ⟨_, k, hassigns, h⟩ := run_of_bind h
  have hk : Confined (fun s => ¬ Flat s) (topScope m).Target n k :=
    forM_confined (fun _ _ _ _ => assign_confined) hdrives hassigns
  have hn' := instances_confined (fun _ _ _ _ => moduleBody_confined) (hdrives.mono hk) h
  refine hk.trans (hn'.mono ?_ fun _ hs => .inr hs)
  rintro s ⟨_, -, _, -, hs⟩
  exact not_flat_of_beneath hs

theorem topStatements_portable {declared : String → Prop} (hfiles : AgreeOutside [m'.name] file file')
    (hname : m.name = m'.name) (hdecls : m.decls = m'.decls)
    (hdeclared : ∀ d ∈ m'.decls, declared d.name) :
    Portable declared (topStatements file depth m as is) (topStatements file' depth m' as is) := by
  intro around r hslash hr
  have hscope : ∀ {r₁ : Pairing}, r ≤ r₁ → Scope.Pairs r₁ (topScope m) (topScope m') := fun hr₁ =>
    topScope_pairs hname hdecls fun d hd => hr₁ _ _ (hr _ (hdeclared d hd))
  rw [topStatements, topStatements, hname]
  refine (Parallel.forM fun a _ r₁ hr₁ => Parallel.assign (hscope hr₁) a).bind fun r₁ _ _ hr₁ _ => ?_
  refine Parallel.forM fun i _ r₂ hr₂ =>
    Parallel.instantiate hslash hfiles (hscope (hr₁.trans hr₂)) ?_ i
  exact fun r₃ inner inner' name _ hmodule hinner =>
    Parallel.moduleBody hslash depth (hfiles.push name) hinner hmodule

/-- A statement of the top module and the other statements, elaborated by themselves. -/
theorem joins_of_topStatements {n₀ n₁ n₂ n₃ : Netlist} {statement : Build Unit}
    (hm : m'.WellFormed) (hdeclared : Declared m' n₀ fun _ => True)
    (hfiles : AgreeOutside [m'.name] file file') (hname : m.name = m'.name)
    (hdecls : m.decls = m'.decls)
    (hparallel : ∀ ⦃around r⦄, Scope.Pairs r (topScope m') (topScope m') →
      Parallel around r statement statement Pairing.Done)
    (hconfined : ∀ ⦃n n'⦄, (topScope m').Drives n → statement.run n = .ok ((), n') →
      Confined (fun _ => False) (topScope m').Target n n')
    (h₁ : (topStatements file' depth m' as is).run n₀ = .ok ((), n₁))
    (h₂ : statement.run n₁ = .ok ((), n₂))
    (h₃ : (topStatements file' depth m' as' is').run n₂ = .ok ((), n₃)) :
    ∃ k c r q, (topStatements file depth m as is >>= fun _ =>
          topStatements file depth m as' is').run n₀ = .ok ((), k) ∧
      statement.run n₀ = .ok ((), c) ∧ Joins (fun s => n₀.isTaken s = true) r q k c n₃ ∧
      Confined (fun s => ¬ Flat s) (topScope m').Target n₀ n₃ := by
  have hdrives := hdeclared.fits.drives
  have htaken : ∀ d ∈ m'.decls, n₀.isTaken d.name = true := fun d hd =>
    (hdeclared.declared d hd trivial).1
  have hn₁ := topStatements_confined hdrives h₁
  have hn₂ := hconfined (hdrives.mono hn₁) h₂
  have hn₃ := topStatements_confined ((hdrives.mono hn₁).mono hn₂) h₃
  obtain ⟨k, c, r, q, hk, hc, hjoins⟩ := exists_joins hdeclared.nodes (fun s hs => by
      obtain ⟨d, hd, rfl⟩ := hdeclared.names s hs
      exact hm.flat_decl d hd)
    (topStatements_portable hfiles hname hdecls htaken)
    (topStatements_portable hfiles hname hdecls htaken)
    (fun around r hr => hparallel (topScope_pairs rfl rfl fun d hd => hr _ (htaken d hd)))
    h₁ h₂ h₃ hn₁ hn₂ hn₃ (fun _ hs => hs) fun _ hs => hs
  have hn₂' : Confined (fun s => ¬ Flat s) (topScope m').Target n₁ n₂ :=
    hn₂.mono (fun _ hs => hs.elim) fun _ hs => .inr hs
  exact ⟨k, c, r, q, hk, hc, hjoins, hn₁.trans (hn₂'.trans hn₃)⟩

/-- An instance of a buffer among the statements of the top module. -/
theorem joins_of_buf {n₀ n : Netlist} {i : Instance} (hm : m'.WellFormed)
    (hdeclared : Declared m' n₀ fun _ => True) (hfiles : AgreeOutside [m'.name] file file')
    (hname : m.name = m'.name) (hdecls : m.decls = m'.decls) (hbuf : i.module = "buf")
    (h : (topStatements file' depth m' as (is ++ i :: is')).run n₀ = .ok ((), n)) :
    ∃ k c r q, (topStatements file depth m as (is ++ is')).run n₀ = .ok ((), k) ∧
      (gateInstance (topScope m') ⟨m'.name, i.pos.line⟩ i .buf).run n₀ = .ok ((), c) ∧
      Joins (fun s => n₀.isTaken s = true) r q k c n ∧
      Confined (fun s => ¬ Flat s) (topScope m').Target n₀ n := by
  have hgate : Gate.ofName? i.module = some .buf := by
    rw [hbuf]
    decide
  obtain ⟨_, n', hassigns, h⟩ := run_of_bind h
  obtain ⟨n₁, n₂, h₁, h₂, h₃⟩ := run_of_forM h
  rw [instantiate, hgate] at h₂
  obtain ⟨k, c, r, q, hk, hresult⟩ := joins_of_topStatements hm hdeclared hfiles hname hdecls
    (fun _ _ hscope => Parallel.gateInstance hscope i .buf)
    (fun _ _ hdrives hrun => by
      obtain ⟨_, _, _, d, _, hd, hgrown⟩ := gateInstance_grown hdrives hrun
      refine hgrown.confined Computed.elaborated fun d' hd' => .inr ?_
      cases hd'
      exact ⟨_, _, hd⟩)
    ((run_bind_of_run hassigns).trans h₁) h₂
    ((run_bind_of_run (show ([].forM (assign (topScope m'))).run n₂ = .ok ((), n₂) from rfl)).trans h₃)
  rw [append_topStatements] at hk
  exact ⟨k, c, r, q, hk, hresult⟩

/-- An assignment among the statements of the top module. -/
theorem joins_of_assign {n₀ n : Netlist} {a : Assign} (hm : m.WellFormed)
    (hdeclared : Declared m n₀ fun _ => True)
    (h : (topStatements file depth m (as ++ a :: as') is).run n₀ = .ok ((), n)) :
    ∃ k c r q, (topStatements file depth m (as ++ as') is).run n₀ = .ok ((), k) ∧
      (assign (topScope m) a).run n₀ = .ok ((), c) ∧
      Joins (fun s => n₀.isTaken s = true) r q k c n ∧
      Confined (fun s => ¬ Flat s) (topScope m).Target n₀ n := by
  obtain ⟨_, n', hassigns, h⟩ := run_of_bind h
  obtain ⟨n₁, n₂, h₁, h₂, h₃⟩ := run_of_forM hassigns
  have hbefore : ∀ {n₁}, (as.forM (assign (topScope m))).run n₀ = .ok ((), n₁) →
      (topStatements file depth m as []).run n₀ = .ok ((), n₁) := fun hrun => run_bind_of_run hrun
  obtain ⟨k, c, r, q, hk, hresult⟩ := joins_of_topStatements hm hdeclared (fun _ => .inl rfl) rfl rfl
    (fun _ _ hscope => Parallel.assign hscope a)
    (fun _ _ hdrives hrun => assign_confined hdrives hrun)
    (hbefore h₁) h₂ ((run_bind_of_run h₃).trans h)
  rw [topStatements_append] at hk
  exact ⟨k, c, r, q, hk, hresult⟩

end

/-! ## Both statements in one place -/

theorem Hosts.rebuildWires {around : Surroundings} {r : Pairing} {k n : Netlist}
    (h : Hosts around r k n) : Hosts around r k n.rebuildWires :=
  ⟨h.inputs, h.fixed, h.fixed_taken, h.temporary, h.left, h.right, h.unique, h.injective, h.width,
    h.apart, h.copied, h.node⟩

theorem Joins.rebuildWires {declared : String → Prop} {r q : Pairing} {k c n : Netlist}
    (h : Joins declared r q k c n) : Joins declared r q k c n.rebuildWires :=
  let ⟨⟨around, hhosts, hrest⟩, around', hhosts', hfixed'⟩ := h
  ⟨⟨around, hhosts.rebuildWires, hrest⟩, around', hhosts'.rebuildWires, hfixed'⟩

/-- Statements that compute their values themselves make no difference to whether a netlist can be
simulated. -/
theorem Joins.simulable_iff {declared : String → Prop} {r q : Pairing} {k c n : Netlist}
    (h : Joins declared r q k c n) (hc : ∀ a ∈ c.nodes, Computed a.kind) (given : Values) :
    Simulable n given ↔ Simulable k given := by
  obtain ⟨around, hhosts, -⟩ := h.exists_hosts
  rw [Simulable, Simulable, h.inputs]
  refine and_congr_right fun _ => ⟨fun hn a ha => ?_, fun hk b hb => ?_⟩
  · obtain ⟨b, hb, hcopies⟩ := hhosts.copied a ha
    rw [hcopies.kind]
    exact hn b hb
  · rcases h.copies hb with ⟨a, ha, hcopies⟩ | ⟨a, ha, hcopies⟩
    · rw [← hcopies.kind]
      exact hk a ha
    · intro name hname
      have hkind := hc a ha
      rw [hcopies.kind, hname] at hkind
      cases hkind

/-- A netlist that is elaborated from one statement with the target `y` among others, which build
`k`. -/
structure Among (m : Module) (y : String) (n₀ k c n : Netlist) : Prop where
  alone : Alone m y n₀ c
  joins : ∃ r q, Joins (fun s => n₀.isTaken s = true) r q k c n
  inputs : n.inputs = n₀.inputs
  legal : n.Legal
  coherent : n.Coherent
  kinds : ∀ node ∈ n.nodes, Elaborated node.kind

theorem Among.of_joins {m : Module} {y : String} {r q : Pairing} {n₀ k c n : Netlist}
    {outside : String → Prop} (halone : Alone m y n₀ c)
    (hjoins : Joins (fun s => n₀.isTaken s = true) r q k c n)
    (hn : Confined (fun s => ¬ Flat s) outside n₀ n) (hvalidate : n.rebuildWires.validate = .ok ()) :
    Among m y n₀ k c n.rebuildWires := by
  have hcoherent := (hn.coherent halone.declared.coherent).rebuildWires
  refine ⟨halone, ⟨r, q, hjoins.rebuildWires⟩, hn.inputs, hcoherent.legal_of_validate hvalidate,
    hcoherent, fun node hnode => (hn.kinds node hnode).resolve_left fun hold => ?_⟩
  rw [halone.declared.nodes] at hold
  cases hold

section
variable {file file' : SourceFile} {m m' : Module} {top : Option String} {n : Netlist}
  {as as' : List Assign} {is is' : List Instance}

theorem topStatements_of_elaborate (hfile : file.WellFormed) (htop : file.top top = .ok m)
    (h : elaborate file top = .ok n) :
    ∃ n₀ n₁, start m = .ok n₀ ∧ Declared m n₀ (fun _ => True) ∧
      (topStatements file (file.modules.length - 1) m m.assigns m.instances).run n₀ =
        .ok ((), n₁) ∧ n = n₁.rebuildWires ∧ n.validate = .ok () := by
  obtain ⟨m', n₀, n₁, hm, hstart, hbody, hn, hvalidate⟩ := elaborate_eq_ok h
  cases htop.symm.trans hm
  have hmem := mem_of_top htop
  refine ⟨n₀, n₁, hstart, declared_of_start (hfile m hmem) hstart, ?_, hn, hvalidate⟩
  obtain ⟨depth, hdepth⟩ := Nat.exists_eq_add_one_of_ne_zero (List.length_pos_of_mem hmem).ne'
  rw [hdepth, moduleBody] at hbody
  rw [hdepth]
  exact hbody

/-- A file with a buffer in its top module. The other statements may be taken from a file and a
module without it. -/
theorem among_of_elaborate_buf {i : Instance} {y : String} {pos : Position} {e : Expr}
    (hfile : file'.WellFormed) (htop : file'.top top = .ok m') (h : elaborate file' top = .ok n)
    (hfiles : AgreeOutside [m'.name] file file')
    (hlength : file.modules.length = file'.modules.length) (hname : m.name = m'.name)
    (hdecls : m.decls = m'.decls) (hassigns : m'.assigns = as)
    (hinstances : m'.instances = is ++ i :: is') (hbuf : i.module = "buf")
    (hterminals : i.connections = .positional [.ident y pos, e]) :
    ∃ n₀ k c, start m' = .ok n₀ ∧
      (topStatements file (file.modules.length - 1) m as (is ++ is')).run n₀ = .ok ((), k) ∧
      (gateInstance (topScope m') ⟨m'.name, i.pos.line⟩ i .buf).run n₀ = .ok ((), c) ∧
      Among m' y n₀ k c n := by
  obtain ⟨n₀, n₁, hstart, hdeclared, hrun, rfl, hvalidate⟩ := topStatements_of_elaborate hfile htop h
  rw [hassigns, hinstances, ← hlength] at hrun
  obtain ⟨k, c, r, q, hk, hc, hjoins, hconfined⟩ := joins_of_buf (hfile m' (mem_of_top htop))
    hdeclared hfiles hname hdecls hbuf hrun
  exact ⟨n₀, k, c, hstart, hk, hc, .of_joins (alone_of_buf hdeclared hterminals hc) hjoins
    hconfined hvalidate⟩

/-- A file with an assignment in its top module. -/
theorem among_of_elaborate_assign {a : Assign} (hfile : file.WellFormed)
    (htop : file.top top = .ok m) (h : elaborate file top = .ok n)
    (hassigns : m.assigns = as ++ a :: as') (hinstances : m.instances = is) :
    ∃ n₀ k c, start m = .ok n₀ ∧
      (topStatements file (file.modules.length - 1) m (as ++ as') is).run n₀ = .ok ((), k) ∧
      (assign (topScope m) a).run n₀ = .ok ((), c) ∧ Among m a.target n₀ k c n := by
  obtain ⟨n₀, n₁, hstart, hdeclared, hrun, rfl, hvalidate⟩ := topStatements_of_elaborate hfile htop h
  rw [hassigns, hinstances] at hrun
  obtain ⟨k, c, r, q, hk, hc, hjoins, hconfined⟩ := joins_of_assign (hfile m (mem_of_top htop))
    hdeclared hrun
  exact ⟨n₀, k, c, hstart, hk, hc, .of_joins (alone_of_assign hdeclared hc) hjoins hconfined
    hvalidate⟩

end

/-- What simulation finds. -/
structure Found (n : Netlist) (cells : CellFunctions) (given : Values) (v : Valuation) : Prop where
  satisfies : Satisfies n cells v
  zero : ∀ s, n.isDefined s = false → v s = 0
  input : ∀ i ∈ n.inputs, ∃ x, given.find? i = some x ∧ v i = (n.width i).truncate x

theorem found_of_simulate {n : Netlist} {cells : CellFunctions} {given s : Values} {e : Evaluator}
    (hl : n.Legal) (hc : n.Coherent) (he : Evaluator.ofNetlist n cells = .ok e)
    (hs : e.simulate given = .ok s) : Found n cells given (.ofValues s) := by
  refine ⟨satisfies_of_simulate hl hc he hs, fun signal hsignal => ?_,
    (hl.solution_of_simulate hc he hs).input⟩
  rw [Valuation.ofValues, undefined_of_simulate hc he hs hsignal]
  rfl

section
variable {m₁ m₂ : Module} {y : String} {n₀ k c₁ c₂ n₁ n₂ : Netlist} {cells : CellFunctions}
  {given : Values} {v₁ v₂ : Valuation}

theorem Among.input_taken (h₁ : Among m₁ y n₀ k c₁ n₁) {i : String} (hi : i ∈ k.inputs) :
    n₀.isTaken i = true := by
  obtain ⟨_, _, hjoins₁⟩ := h₁.joins
  rw [hjoins₁.inputs, h₁.inputs] at hi
  exact isTaken_of_isDefined (isDefined_of_input hi)

/-- Two statements among the same others are simulated under the same condition. -/
theorem Among.simulable_iff (h₁ : Among m₁ y n₀ k c₁ n₁) (h₂ : Among m₂ y n₀ k c₂ n₂)
    (given : Values) : Simulable n₁ given ↔ Simulable n₂ given := by
  obtain ⟨_, _, hjoins₁⟩ := h₁.joins
  obtain ⟨_, _, hjoins₂⟩ := h₂.joins
  rw [hjoins₁.simulable_iff h₁.alone.computed, hjoins₂.simulable_iff h₂.alone.computed]

variable (h₁ : Among m₁ y n₀ k c₁ n₁) (h₂ : Among m₂ y n₀ k c₂ n₂)
  (hv₁ : Found n₁ cells given v₁) (hv₂ : Found n₂ cells given v₂)

include h₁ h₂ hv₁ hv₂

theorem Among.input_eq {i : String} (hi : i ∈ k.inputs) : v₁ i = v₂ i := by
  obtain ⟨_, _, hjoins₁⟩ := h₁.joins
  obtain ⟨_, _, hjoins₂⟩ := h₂.joins
  obtain ⟨x₁, hx₁, hvalue₁⟩ := hv₁.input i (hjoins₁.inputs ▸ hi)
  obtain ⟨x₂, hx₂, hvalue₂⟩ := hv₂.input i (hjoins₂.inputs ▸ hi)
  cases hx₁.symm.trans hx₂
  have htaken := h₁.input_taken hi
  rw [hvalue₁, hvalue₂, ← hjoins₁.width htaken, ← hjoins₂.width htaken]

/-- The target of two statements among the same others has the same value if the values of the
second netlist satisfy what the first statement builds. -/
theorem Among.target_eq (hdrives : ∃ node ∈ c₁.nodes, node.output = y)
    (hstatement : ∀ x : Valuation, (∀ s, n₀.isTaken s = true → x s = v₂ s) →
      (∀ s, (c₁.width s).truncate (x s) = x s) → c₁.Obeys cells (fun s => s = y) x →
      ∀ node ∈ c₁.nodes, x.result c₁ cells node = some (x node.output)) : v₁ y = v₂ y := by
  obtain ⟨_, _, hjoins₁⟩ := h₁.joins
  obtain ⟨_, _, hjoins₂⟩ := h₂.joins
  obtain ⟨d, -, htaken⟩ := h₁.alone.target
  exact hjoins₁.target_eq hjoins₂ h₁.legal h₁.alone.computed h₁.alone.drives htaken
    (fun _ hi => h₁.input_taken hi) hv₁.satisfies hv₂.satisfies
    (fun i hi => h₁.input_eq h₂ hv₁ hv₂ hi) hdrives hstatement

/-- Two statements among the same others give all signals of the module the same values once they
give their target the same value. -/
theorem Among.reading_eq (hy : v₁ y = v₂ y) : m₁.reading v₁ = m₁.reading v₂ := by
  obtain ⟨_, _, hjoins₁⟩ := h₁.joins
  obtain ⟨_, _, hjoins₂⟩ := h₂.joins
  obtain ⟨d, -, htaken⟩ := h₁.alone.target
  have hvalues := hjoins₁.values_eq hjoins₂ h₁.legal h₁.alone.computed h₁.alone.drives htaken
    (fun _ hi => h₁.input_taken hi)
    hv₁.satisfies hv₂.satisfies (fun i hi => h₁.input_eq h₂ hv₁ hv₂ hi) h₂.alone.drives hv₁.zero
    hv₂.zero hy
  exact reading_congr fun d hd => hvalues d.name (h₁.alone.declared.declared d hd trivial).1

end

/-- Two files differ in one module only. -/
theorem agreeOutside_of_replace (m m' : Module) (hname : m.name = m'.name)
    (before after : List Module) :
    AgreeOutside [m'.name] ⟨before ++ m :: after⟩ ⟨before ++ m' :: after⟩ := by
  intro name
  rw [SourceFile.module?, SourceFile.module?, List.find?_append, List.find?_append]
  cases hfirst : before.find? fun m => m.name = name with
  | some child => exact .inl rfl
  | none =>
    by_cases hname' : m'.name = name
    · refine .inr ⟨m', ?_, by rw [List.contains_iff_mem]; exact .head _⟩
      rw [Option.none_or, List.find?_cons_of_pos (by simpa using hname')]
    · rw [Option.none_or, Option.none_or, List.find?_cons_of_neg (by simpa [hname] using hname'),
        List.find?_cons_of_neg (by simpa using hname')]
      exact .inl rfl

end Elaborate

open Elaborate Netlist

/-- The module with one more instance. -/
def Module.withInstance (m : Module) (is : List Instance) (i : Instance) (is' : List Instance) :
    Module := { m with instances := is ++ i :: is' }

/-- The module with one more assignment. -/
def Module.withAssign (m : Module) (as : List Assign) (a : Assign) (as' : List Assign) : Module :=
  { m with assigns := as ++ a :: as' }

/-- What a buffer gives a signal of some width. -/
def Module.bufferedValue (m : Module) (w : Width) (e : Expr) (v : Valuation) : Nat :=
  e.cut m.bits (m.reading v) w.bits % span w.bits

/-- What an assignment gives a signal of some width. -/
def Module.assignedValue (m : Module) (w : Width) (e : Expr) (v : Valuation) : Nat :=
  e.value m.bits (m.reading v) (max w.bits (e.ownBits m.bits)) % span w.bits

theorem Module.bufferedValue_eq {m : Module} {w : Width} {e : Expr} {v : Valuation}
    (henv : ∀ name, m.reading v name < span (m.bits name))
    (h : e.ownBits m.bits ≤ w.bits ∨ e.truncates w.bits = true) :
    m.bufferedValue w e v = m.assignedValue w e v := by
  rw [bufferedValue, assignedValue]
  rcases h with hown | htruncates
  · rw [Expr.cut_eq_value henv e hown, Nat.max_eq_left hown]
  · exact Expr.cut_mod (Nat.le_max_left _ _) htruncates

/-- A buffer and an assignment of the same expression to the same signal, among the same other
statements of the top module of files that differ in nothing else but positions: both netlists can be
simulated or neither can, the signal has the same value exactly if computing the expression at its
width makes no difference, and it makes none to any signal of the module if the width holds the
expression or no division depends on it. -/
theorem elaborate_buffer {file₁ file₂ : SourceFile} {before after : List Module} {m : Module}
    {as as' : List Assign} {is is' : List Instance} {i : Instance} {a : Assign} {pos : Position}
    {top : Option String} {n₁ n₂ : Netlist} (hassigns : m.assigns = as ++ as')
    (hinstances : m.instances = is ++ is') (hbuf : i.module = "buf")
    (hterminals : i.connections = .positional [.ident a.target pos, a.expr])
    (hwf₁ : file₁.WellFormed) (hwf₂ : file₂.WellFormed)
    (hfile₁ : file₁.unplaced = ⟨before ++ m.withInstance is i is' :: after⟩)
    (hfile₂ : file₂.unplaced = ⟨before ++ m.withAssign as a as' :: after⟩)
    (htop₁ : file₁.unplaced.top top = .ok (m.withInstance is i is'))
    (htop₂ : file₂.unplaced.top top = .ok (m.withAssign as a as'))
    (h₁ : elaborate file₁ top = .ok n₁) (h₂ : elaborate file₂ top = .ok n₂)
    (cells : CellFunctions) :
    ∃ d e₁ e₂, m.decl? a.target = some d ∧ Evaluator.ofNetlist n₁ cells = .ok e₁ ∧
      Evaluator.ofNetlist n₂ cells = .ok e₂ ∧ ∀ given : Values,
        ((∃ s, e₁.simulate given = .ok s) ↔ Simulable n₁ given) ∧
        ((∃ s, e₂.simulate given = .ok s) ↔ Simulable n₁ given) ∧
        ∀ s₁ s₂, e₁.simulate given = .ok s₁ → e₂.simulate given = .ok s₂ →
          (Valuation.ofValues s₁ a.target).toNat =
              m.bufferedValue d.width a.expr (.ofValues s₁) ∧
            (Valuation.ofValues s₂ a.target).toNat =
              m.assignedValue d.width a.expr (.ofValues s₂) ∧
            (Valuation.ofValues s₁ a.target = Valuation.ofValues s₂ a.target ↔
              m.bufferedValue d.width a.expr (.ofValues s₂) =
                m.assignedValue d.width a.expr (.ofValues s₂)) ∧
            (a.expr.ownBits m.bits ≤ d.width.bits ∨ a.expr.truncates d.width.bits = true →
              m.reading (.ofValues s₁) = m.reading (.ofValues s₂)) := by
  -- the netlists are those of the files without positions
  rw [← elaborate_unplaced_eq_ok_iff, hfile₁] at h₁
  rw [← elaborate_unplaced_eq_ok_iff, hfile₂] at h₂
  rw [hfile₁] at htop₁
  rw [hfile₂] at htop₂
  have hwf₁ := hwf₁.unplaced
  have hwf₂ := hwf₂.unplaced
  rw [hfile₁] at hwf₁
  rw [hfile₂] at hwf₂
  have hfiles : AgreeOutside [(m.withInstance is i is').name]
      ⟨before ++ m.withAssign as a as' :: after⟩ ⟨before ++ m.withInstance is i is' :: after⟩ :=
    agreeOutside_of_replace (m.withAssign as a as') (m.withInstance is i is') rfl before after
  have hlength : (before ++ m.withAssign as a as' :: after).length =
      (before ++ m.withInstance is i is' :: after).length := by
    simp only [List.length_append, List.length_cons]
  obtain ⟨n₀, k, c₁, hstart₁, hk₁, hc₁, hamong₁⟩ := among_of_elaborate_buf
    (m := m.withAssign as a as') hwf₁ htop₁ h₁ hfiles hlength rfl rfl hassigns rfl hbuf hterminals
  obtain ⟨n₀', k', c₂, hstart₂, hk₂, hc₂, hamong₂⟩ :=
    among_of_elaborate_assign hwf₂ htop₂ h₂ rfl hinstances
  obtain rfl : n₀ = n₀' := Except.ok.inj (hstart₁.symm.trans hstart₂)
  obtain rfl : k = k' := congrArg Prod.snd (Except.ok.inj (hk₁.symm.trans hk₂))
  obtain ⟨d, hd, htaken⟩ := hamong₁.alone.target
  obtain ⟨e₁, he₁, hsimulate₁⟩ :=
    exists_simulate_iff hamong₁.legal hamong₁.coherent hamong₁.kinds cells
  obtain ⟨e₂, he₂, hsimulate₂⟩ :=
    exists_simulate_iff hamong₂.legal hamong₂.coherent hamong₂.kinds cells
  refine ⟨d, e₁, e₂, hd, he₁, he₂, fun given => ⟨hsimulate₁ given,
    (hsimulate₂ given).trans (hamong₁.simulable_iff hamong₂ given).symm, fun s₁ s₂ hs₁ hs₂ => ?_⟩⟩
  have hv₁ := found_of_simulate hamong₁.legal hamong₁.coherent he₁ hs₁
  have hv₂ := found_of_simulate hamong₂.legal hamong₂.coherent he₂ hs₂
  obtain ⟨r₁, q₁, hjoins₁⟩ := hamong₁.joins
  obtain ⟨r₂, q₂, hjoins₂⟩ := hamong₂.joins
  have hvalue₁ := buf_value hamong₁.alone.declared hjoins₁ hv₁.satisfies hd hterminals hc₁
  have hvalue₂ := assign_value hamong₂.alone.declared hjoins₂ hv₂.satisfies hd hc₂
  have hall := hamong₁.reading_eq hamong₂ hv₁ hv₂
  -- where cutting makes no difference, the values of the second netlist satisfy the buffer
  have htarget : m.bufferedValue d.width a.expr (.ofValues s₂) =
      m.assignedValue d.width a.expr (.ofValues s₂) →
      Valuation.ofValues s₁ a.target = Valuation.ofValues s₂ a.target := by
    intro hsame
    refine hamong₁.target_eq hamong₂ hv₁ hv₂ (buf_drives hamong₁.alone.declared hterminals hc₁) ?_
    intro x hx hfits hobeys
    have hreading : m.reading x = m.reading (.ofValues s₂) := reading_congr fun d hd =>
      hx d.name (hamong₂.alone.declared.declared d hd trivial).1
    refine obeys_of_cut hamong₁.alone.declared hd hterminals hc₁ hfits hobeys ?_
    rw [hx a.target htaken, show (m.withInstance is i is').reading x = _ from hreading]
    exact hvalue₂.trans hsame.symm
  refine ⟨hvalue₁, hvalue₂, ⟨fun hsame => ?_, htarget⟩, fun hwidth => hall (htarget ?_)⟩
  · have hreading : m.reading (.ofValues s₁) = m.reading (.ofValues s₂) := hall hsame
    rw [Module.bufferedValue, ← hreading]
    exact hvalue₁.symm.trans ((congrArg UInt64.toNat hsame).trans hvalue₂)
  · have hlt := reading_lt hamong₂.alone.declared hjoins₂ hv₂.satisfies hc₂
    exact Module.bufferedValue_eq (m := m) hlt hwidth

/-- A module with one statement to come. -/
def sums : Module where
  name := "t"
  ports := ["a", "b", "y"]
  decls := [⟨"a", some .input, (Width.ofNat? 4).getD .one, .nowhere⟩,
    ⟨"b", some .input, (Width.ofNat? 4).getD .one, .nowhere⟩,
    ⟨"y", some .output, (Width.ofNat? 2).getD .one, .nowhere⟩]
  assigns := []
  instances := []
  pos := .nowhere

/-- A sum, assigned. -/
def sumAssign : Assign :=
  ⟨"y", .binary .add (.ident "a" .nowhere) (.ident "b" .nowhere), .nowhere⟩

/-- The sum, buffered. -/
def sumBuffer : Instance :=
  ⟨"buf", none, .positional [.ident "y" .nowhere, sumAssign.expr], .nowhere⟩

theorem elaborate_buffer_sum : ∃ file₁ file₂ n₁ n₂,
    parse "module t(input [3:0] a, input [3:0] b, output [1:0] y); buf (y, a + b); endmodule" =
      .ok file₁ ∧
    parse "module t(input [3:0] a, input [3:0] b, output [1:0] y); assign y = a + b; endmodule" =
      .ok file₂ ∧
    elaborate file₁ none = .ok n₁ ∧ elaborate file₂ none = .ok n₂ ∧
    ∀ cells, ∃ e₁ e₂, Evaluator.ofNetlist n₁ cells = .ok e₁ ∧
      Evaluator.ofNetlist n₂ cells = .ok e₂ ∧ ∀ given s₁ s₂,
        e₁.simulate given = .ok s₁ → e₂.simulate given = .ok s₂ →
          sums.reading (.ofValues s₁) = sums.reading (.ofValues s₂) := by
  have hparse₁ : (parse
      "module t(input [3:0] a, input [3:0] b, output [1:0] y); buf (y, a + b); endmodule"
        ).toOption.map SourceFile.unplaced =
      some ⟨[sums.withInstance [] sumBuffer []]⟩ := by
    rw [parse, tokenize_ofList]
    decide +kernel
  have hparse₂ : (parse
      "module t(input [3:0] a, input [3:0] b, output [1:0] y); assign y = a + b; endmodule"
        ).toOption.map SourceFile.unplaced =
      some ⟨[sums.withAssign [] sumAssign []]⟩ := by
    rw [parse, tokenize_ofList]
    decide +kernel
  have hok₁ : (elaborate ⟨[sums.withInstance [] sumBuffer []]⟩ none).isOk = true := by
    rw [elaborate_eq]
    decide +kernel
  have hok₂ : (elaborate ⟨[sums.withAssign [] sumAssign []]⟩ none).isOk = true := by
    rw [elaborate_eq]
    decide
  obtain ⟨file₁, hparsed₁, hfile₁⟩ := Option.map_eq_some_iff.1 hparse₁
  obtain ⟨file₂, hparsed₂, hfile₂⟩ := Option.map_eq_some_iff.1 hparse₂
  obtain ⟨n₁, hn₁⟩ := exists_ok_of_isOk hok₁
  obtain ⟨n₂, hn₂⟩ := exists_ok_of_isOk hok₂
  rw [← hfile₁, elaborate_unplaced_eq_ok_iff] at hn₁
  rw [← hfile₂, elaborate_unplaced_eq_ok_iff] at hn₂
  have hparsed₁ := ok_of_toOption hparsed₁
  have hparsed₂ := ok_of_toOption hparsed₂
  refine ⟨file₁, file₂, n₁, n₂, hparsed₁, hparsed₂, hn₁, hn₂, fun cells => ?_⟩
  obtain ⟨d, e₁, e₂, hd, he₁, he₂, hsimulate⟩ := @elaborate_buffer file₁ file₂ [] [] sums [] [] []
    [] sumBuffer sumAssign .nowhere none n₁ n₂ rfl rfl rfl rfl (parse_wellFormed hparsed₁)
    (parse_wellFormed hparsed₂) hfile₁ hfile₂ (hfile₁ ▸ rfl) (hfile₂ ▸ rfl) hn₁ hn₂ cells
  refine ⟨e₁, e₂, he₁, he₂, fun given s₁ s₂ hs₁ hs₂ => ?_⟩
  exact ((hsimulate given).2.2 s₁ s₂ hs₁ hs₂).2.2.2 (.inr rfl)

/-- The quotient of a sum, written from a column on. -/
def quotient (column : Nat) : Expr :=
  .binary .div (.binary .add (.ident "a" ⟨1, column⟩) (.ident "b" ⟨1, column + 4⟩))
    (.ident "c" ⟨1, column + 9⟩)

/-- A file whose module has statements for one bit of the quotient. -/
def quotients (assigns : List Assign) (instances : List Instance) : SourceFile where
  modules := [{
    name := "t"
    ports := ["a", "b", "c", "y"]
    decls := [⟨"a", some .input, (Width.ofNat? 4).getD .one, ⟨1, 22⟩⟩,
      ⟨"b", some .input, (Width.ofNat? 4).getD .one, ⟨1, 37⟩⟩,
      ⟨"c", some .input, (Width.ofNat? 4).getD .one, ⟨1, 52⟩⟩, ⟨"y", some .output, .one, ⟨1, 62⟩⟩]
    assigns := assigns
    instances := instances
    pos := ⟨1, 1⟩ }]

/-- A buffer of a quotient is not an assignment of it: one bit of the sum is not enough. -/
theorem elaborate_buffer_division : (do
      let file₁ ← (parse ("module t(input [3:0] a, input [3:0] b, input [3:0] c, output y); " ++
        "buf (y, (a + b) / c); endmodule")).toOption
      let file₂ ← (parse ("module t(input [3:0] a, input [3:0] b, input [3:0] c, output y); " ++
        "assign y = (a + b) / c; endmodule")).toOption
      let n₁ ← (elaborate file₁ none).toOption
      let n₂ ← (elaborate file₂ none).toOption
      let e₁ ← (Evaluator.ofNetlist n₁ .none).toOption
      let e₂ ← (Evaluator.ofNetlist n₂ .none).toOption
      return ((e₁.evaluate (.ofList [("a", 2), ("b", 2), ("c", 4)])).toOption,
        (e₂.evaluate (.ofList [("a", 2), ("b", 2), ("c", 4)])).toOption)) =
    some (some [("y", 0)], some [("y", 1)]) := by
  have hparse₁ : parse ("module t(input [3:0] a, input [3:0] b, input [3:0] c, output y); " ++
      "buf (y, (a + b) / c); endmodule") =
      .ok (quotients [] [⟨"buf", none, .positional [.ident "y" ⟨1, 71⟩, quotient 75], ⟨1, 66⟩⟩]) := by
    rw [parse, ← String.ofList_append, tokenize_ofList]
    decide +kernel
  have hparse₂ : parse ("module t(input [3:0] a, input [3:0] b, input [3:0] c, output y); " ++
      "assign y = (a + b) / c; endmodule") =
      .ok (quotients [⟨"y", quotient 78, ⟨1, 73⟩⟩] []) := by
    rw [parse, ← String.ofList_append, tokenize_ofList]
    decide +kernel
  simp only [hparse₁, hparse₂, elaborate_eq]
  decide +kernel

end GateSynth.Verilog
