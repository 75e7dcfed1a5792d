import GateSynth.Proofs.Verilog.Positions

/-!
# What declarations leave of a module

The outline of a module is its name, its ports, and what is declared under each name, without
positions and without an order. Declaring a signal changes the outline by the outline alone
(`toOption_declare`), and signals of different names may be declared in either order
(`declareAll_swap`).

A port joins a wire of any width, a wire joins a port of its own width or as one bit, and a wire
joins no wire. So a wire and a port of one name that are both declared leave the width and the
direction of the port in either order. If the wire may come first, then the port may come first
just if the wire has the width of the port or one bit (`declareAll_of_wire_first`); if the port may
come first, then the wire may come first just if it is the only wire of the name so far
(`declareAll_of_port_first`).
-/

namespace GateSynth.Verilog

/-- The name and the ports of a module, and what is declared under each name. -/
structure Outline where
  /-- The name of the module. -/
  name : String
  /-- The ports in order. -/
  ports : List String
  /-- The declaration of a name, without its position. -/
  decl? : String → Option Decl

/-- The outline of a module. -/
def Module.outline (m : Module) : Outline :=
  ⟨m.name, m.ports, fun x => (m.decl? x).map Decl.unplaced⟩

namespace Outline

/-- The outline with a declaration under a name. -/
def put (o : Outline) (x : String) (d : Decl) : Outline :=
  { o with decl? := Function.update o.decl? x (some d) }

/-- What is declared under a name behind one more declaration of it. A wire joins a port of its
width or as one bit; a port takes the place of a wire. -/
def settle (d : Decl) : Option Decl → Option Decl
  | none => some d
  | some existing =>
    match existing.direction, d.direction with
    | some _, none => if d.width = existing.width ∨ d.width = Width.one then some existing else none
    | none, some _ => some d
    | _, _ => none

/-- The outline with one more declaration; a port has to be listed. -/
def declare (o : Outline) (d : Decl) : Option Outline :=
  if d.direction.isSome ∧ d.name ∉ o.ports then none
  else (settle d (o.decl? d.name)).map (o.put d.name)

/-- The outline with more declarations, in order. -/
def declareAll (o : Outline) (ds : List Decl) : Option Outline := ds.foldlM declare o

/-- No wire is declared that is no port. -/
def Directed (o : Outline) : Prop := ∀ x d, o.decl? x = some d → d.direction.isSome = true

theorem put_self {o : Outline} {x : String} {d : Decl} (h : o.decl? x = some d) :
    o.put x d = o := by
  rw [put, ← h, Function.update_eq_self]

end Outline

/-- The declaration of a wire, without a position. -/
def Decl.wire (x : String) (width : Width) : Decl := ⟨x, none, width, .nowhere⟩

/-- The declaration of a port, without a position. -/
def Decl.port (x : String) (direction : Direction) (width : Width) : Decl :=
  ⟨x, some direction, width, .nowhere⟩

/-! ## Outlines of modules -/

theorem find?_replaceDecl {d existing : Decl} {decls : List Decl} (x : String)
    (h : decls.find? (fun e => e.name = d.name) = some existing) :
    (Parser.replaceDecl d decls).find? (fun e => e.name = x) =
      if x = d.name then some d else decls.find? fun e => e.name = x := by
  induction decls with
  | nil => cases h
  | cons first rest ih =>
    rw [Parser.replaceDecl]
    by_cases hfirst : first.name = d.name
    · rw [if_pos hfirst, List.find?_cons, List.find?_cons, hfirst]
      by_cases hx : x = d.name
      · simp [hx]
      · simp [hx, Ne.symm hx]
    · rw [List.find?_cons_of_neg (by simpa using hfirst)] at h
      rw [if_neg hfirst, List.find?_cons, List.find?_cons, ih h]
      by_cases hx : first.name = x
      · simp [hx, hx ▸ hfirst]
      · simp [hx]

theorem outline_append {m : Module} {d : Decl} (h : m.decl? d.name = none) :
    ({ m with decls := m.decls ++ [d] } : Module).outline = m.outline.put d.name d.unplaced := by
  rw [Module.outline, Outline.put, Outline.mk.injEq]
  refine ⟨rfl, rfl, funext fun x => ?_⟩
  rw [Function.update_apply]
  show ((m.decls ++ [d]).find? fun e => e.name = x).map Decl.unplaced =
    if x = d.name then some d.unplaced else (m.decl? x).map Decl.unplaced
  rw [List.find?_append]
  by_cases hx : x = d.name
  · subst hx
    rw [show (m.decls.find? fun e => e.name = d.name) = none from h]
    simp
  · have hd : [d].find? (fun e => e.name = x) = none := by simp [Ne.symm hx]
    rw [hd, Option.or_none, if_neg hx]
    rfl

theorem outline_replaceDecl {m : Module} {d existing : Decl}
    (h : m.decl? d.name = some existing) :
    ({ m with decls := Parser.replaceDecl d m.decls } : Module).outline =
      m.outline.put d.name d.unplaced := by
  rw [Module.outline, Outline.put, Outline.mk.injEq]
  refine ⟨rfl, rfl, funext fun x => ?_⟩
  rw [Function.update_apply]
  show ((Parser.replaceDecl d m.decls).find? fun e => e.name = x).map Decl.unplaced =
    if x = d.name then some d.unplaced else (m.decl? x).map Decl.unplaced
  rw [find?_replaceDecl x h]
  by_cases hx : x = d.name
  · rw [if_pos hx, if_pos hx]
    rfl
  · rw [if_neg hx, if_neg hx]
    rfl

/-- Declaring a signal changes the outline by the outline alone. -/
theorem toOption_declare {m : Module} {d : Decl}
    (h : d.direction.isSome = true → d.name ∈ m.ports) :
    (Parser.declare m d).toOption.map Module.outline = m.outline.declare d.unplaced := by
  have hlisted : ¬ (d.unplaced.direction.isSome = true ∧ d.unplaced.name ∉ m.outline.ports) :=
    fun hd => hd.2 (h hd.1)
  rw [Outline.declare, if_neg hlisted, Parser.declare,
    show m.outline.decl? d.unplaced.name = (m.decl? d.name).map Decl.unplaced from rfl]
  cases hdecl : m.decl? d.name with
  | none => exact congrArg some (outline_append hdecl)
  | some existing =>
    have hput := outline_replaceDecl hdecl
    have hself : m.outline.put d.name existing.unplaced = m.outline :=
      Outline.put_self (show (m.decl? d.name).map Decl.unplaced = _ by rw [hdecl, Option.map_some])
    obtain ⟨name, direction, width, pos⟩ := d
    obtain ⟨name', direction', width', pos'⟩ := existing
    cases direction' with
    | none =>
      cases direction with
      | none => rfl
      | some direction =>
        have hmem : m.ports.contains name = true := List.contains_iff_mem.2 (h rfl)
        simp only [Parser.mayJoin, hmem, if_true]
        exact congrArg some hput
    | some direction' =>
      cases direction with
      | none =>
        by_cases hwidth : width = width' ∨ width = Width.one
        · simp only [Parser.mayJoin, hwidth, decide_true, if_true]
          simpa [Outline.settle, Decl.unplaced, hwidth, Except.toOption] using hself.symm
        · simp [Parser.mayJoin, Outline.settle, Decl.unplaced, hwidth, Except.toOption]
      | some direction => rfl

namespace Outline

variable {o o' : Outline} {d e : Decl} {ds : List Decl} {x : String}

theorem declareAll_cons : o.declareAll (d :: ds) = (o.declare d).bind (declareAll · ds) :=
  List.foldlM_cons

theorem declareAll_append {ds es : List Decl} :
    o.declareAll (ds ++ es) = (o.declareAll ds).bind (declareAll · es) :=
  List.foldlM_append

theorem declareAll_cons_eq_some :
    o.declareAll (d :: ds) = some o' ↔
      ∃ o₁, o.declare d = some o₁ ∧ o₁.declareAll ds = some o' := by
  rw [declareAll_cons, Option.bind_eq_some_iff]

theorem declareAll_append_eq_some {ds es : List Decl} :
    o.declareAll (ds ++ es) = some o' ↔
      ∃ o₁, o.declareAll ds = some o₁ ∧ o₁.declareAll es = some o' := by
  rw [declareAll_append, Option.bind_eq_some_iff]

theorem declareAll_singleton : o.declareAll [d] = o.declare d := by
  rw [declareAll_cons]
  exact Option.bind_fun_some _

/-- What a declaration makes of an outline. -/
theorem declare_eq_some_iff : o.declare d = some o' ↔
    (d.direction.isSome = true → d.name ∈ o.ports) ∧
      ∃ settled, settle d (o.decl? d.name) = some settled ∧ o.put d.name settled = o' := by
  rw [declare, Option.ite_none_left_eq_some, Option.map_eq_some_iff]
  refine and_congr_left fun _ => ?_
  rw [not_and, not_not]

theorem declare_decl? (h : o.declare d = some o') (hx : x ≠ d.name) :
    o'.decl? x = o.decl? x := by
  obtain ⟨-, settled, -, rfl⟩ := declare_eq_some_iff.1 h
  exact Function.update_of_ne hx _ _

theorem declare_ports (h : o.declare d = some o') : o'.ports = o.ports := by
  obtain ⟨-, settled, -, rfl⟩ := declare_eq_some_iff.1 h
  rfl

/-- A declared name stays declared, and a port stays as it is. -/
theorem declare_decl?_of_some (h : o.declare d = some o') (he : o.decl? x = some e) :
    (o'.decl? x).isSome = true ∧ (e.direction.isSome = true → o'.decl? x = some e ∧
      (d.name = x → d.direction = none)) := by
  by_cases hx : x = d.name
  · obtain ⟨-, settled, hsettled, rfl⟩ := declare_eq_some_iff.1 h
    subst hx
    have hput : (o.put d.name settled).decl? d.name = some settled := Function.update_self _ _ _
    rw [hput]
    refine ⟨rfl, fun hport => ?_⟩
    obtain ⟨direction, hdirection⟩ := Option.isSome_iff_exists.1 hport
    rw [he, settle, hdirection] at hsettled
    cases hd : d.direction with
    | none =>
      rw [hd] at hsettled
      exact ⟨(Option.ite_none_right_eq_some.1 hsettled).2.symm, fun _ => rfl⟩
    | some =>
      rw [hd] at hsettled
      cases hsettled
  · rw [declare_decl? h hx]
    exact ⟨by rw [he]; rfl, fun _ => ⟨he, fun hname => absurd hname.symm hx⟩⟩

/-- Signals of different names may be declared in either order. -/
theorem declare_comm (h : d.name ≠ e.name) :
    (o.declare d).bind (declare · e) = (o.declare e).bind (declare · d) := by
  have hforth : ∀ {d e : Decl}, d.name ≠ e.name → ∀ o',
      (o.declare d).bind (declare · e) = some o' → (o.declare e).bind (declare · d) = some o' := by
    intro d e h o' ho'
    obtain ⟨o₁, hd, he⟩ := Option.bind_eq_some_iff.1 ho'
    obtain ⟨hdports, ds, hds, rfl⟩ := declare_eq_some_iff.1 hd
    obtain ⟨heports, es, hes, rfl⟩ := declare_eq_some_iff.1 he
    have hes' : settle e (o.decl? e.name) = some es := by
      rw [← hes]
      exact congrArg (settle e) (Function.update_of_ne h.symm _ _).symm
    refine Option.bind_eq_some_iff.2
      ⟨o.put e.name es, declare_eq_some_iff.2 ⟨heports, es, hes', rfl⟩, ?_⟩
    refine declare_eq_some_iff.2 ⟨hdports, ds, ?_, ?_⟩
    · rw [← hds]
      exact congrArg (settle d) (Function.update_of_ne h _ _)
    · rw [put, put, put, put, Function.update_comm h]
  exact Option.ext fun o' => ⟨hforth h o', hforth h.symm o'⟩

theorem declareAll_swap (h : ∀ e ∈ ds, e.name ≠ d.name) :
    o.declareAll (d :: ds) = o.declareAll (ds ++ [d]) := by
  induction ds generalizing o with
  | nil => rfl
  | cons e ds ih =>
    obtain ⟨he, hds⟩ := List.forall_mem_cons.1 h
    have hrest : ∀ o : Outline, (o.declare d).bind (declareAll · ds) = o.declareAll (ds ++ [d]) :=
      fun o => declareAll_cons.symm.trans (ih hds)
    calc o.declareAll (d :: e :: ds)
        = ((o.declare d).bind (declare · e)).bind (declareAll · ds) := by
          rw [declareAll_cons, Option.bind_assoc]
          exact congrArg _ (funext fun _ => declareAll_cons)
      _ = ((o.declare e).bind (declare · d)).bind (declareAll · ds) := by rw [declare_comm he.symm]
      _ = o.declareAll (e :: ds ++ [d]) := by
          rw [Option.bind_assoc, List.cons_append, declareAll_cons]
          exact congrArg _ (funext hrest)

/-! ### What many declarations keep -/

theorem declareAll_ports (h : o.declareAll ds = some o') : o'.ports = o.ports := by
  induction ds generalizing o with
  | nil =>
    cases h
    rfl
  | cons d ds ih =>
    obtain ⟨o₁, hd, h⟩ := declareAll_cons_eq_some.1 h
    exact (ih h).trans (declare_ports hd)

theorem declareAll_decl? (h : o.declareAll ds = some o') (hx : ∀ d ∈ ds, d.name ≠ x) :
    o'.decl? x = o.decl? x := by
  induction ds generalizing o with
  | nil =>
    cases h
    rfl
  | cons d ds ih =>
    obtain ⟨o₁, hd, h⟩ := declareAll_cons_eq_some.1 h
    obtain ⟨hd', hds⟩ := List.forall_mem_cons.1 hx
    exact (ih h hds).trans (declare_decl? hd hd'.symm)

theorem declareAll_isSome (h : o.declareAll ds = some o') (hx : (o.decl? x).isSome = true) :
    (o'.decl? x).isSome = true := by
  induction ds generalizing o with
  | nil =>
    cases h
    exact hx
  | cons d ds ih =>
    obtain ⟨o₁, hd, h⟩ := declareAll_cons_eq_some.1 h
    obtain ⟨e, he⟩ := Option.isSome_iff_exists.1 hx
    exact ih h (declare_decl?_of_some hd he).1

theorem declareAll_isSome_of_mem (h : o.declareAll ds = some o') (hd : d ∈ ds) :
    (o'.decl? d.name).isSome = true := by
  obtain ⟨before, after, rfl⟩ := List.append_of_mem hd
  obtain ⟨o₁, -, h⟩ := declareAll_append_eq_some.1 h
  obtain ⟨o₂, hdeclare, h⟩ := declareAll_cons_eq_some.1 h
  obtain ⟨-, settled, -, rfl⟩ := declare_eq_some_iff.1 hdeclare
  refine declareAll_isSome h ?_
  rw [show (o₁.put d.name settled).decl? d.name = some settled from Function.update_self _ _ _]
  rfl

/-- A port stays as it is, and no other port of its name is declared. -/
theorem declareAll_port (h : o.declareAll ds = some o') (he : o.decl? x = some e)
    (hport : e.direction.isSome = true) :
    o'.decl? x = some e ∧ ∀ d ∈ ds, d.name = x → d.direction = none := by
  induction ds generalizing o with
  | nil =>
    cases h
    exact ⟨he, List.forall_mem_nil _⟩
  | cons d ds ih =>
    obtain ⟨o₁, hd, h⟩ := declareAll_cons_eq_some.1 h
    obtain ⟨hstay, hfirst⟩ := (declare_decl?_of_some hd he).2 hport
    obtain ⟨hend, hrest⟩ := ih h hstay
    exact ⟨hend, List.forall_mem_cons.2 ⟨hfirst, hrest⟩⟩

/-- A wire stays a wire just if its name is not declared again. -/
theorem declareAll_wire (h : o.declareAll ds = some o') (he : o.decl? x = some e)
    (hwire : e.direction = none) (hend : ∀ e', o'.decl? x = some e' → e'.direction = none) :
    ∀ d ∈ ds, d.name ≠ x := by
  induction ds generalizing o with
  | nil => exact List.forall_mem_nil _
  | cons d ds ih =>
    obtain ⟨o₁, hd, h⟩ := declareAll_cons_eq_some.1 h
    have hne : d.name ≠ x := by
      rintro rfl
      obtain ⟨-, settled, hsettled, rfl⟩ := declare_eq_some_iff.1 hd
      rw [he, settle, hwire] at hsettled
      cases hdirection : d.direction with
      | none =>
        rw [hdirection] at hsettled
        cases hsettled
      | some direction =>
        rw [hdirection] at hsettled
        cases hsettled
        have hport : d.direction.isSome = true := by rw [hdirection]; rfl
        have hstay := (declareAll_port h (Function.update_self _ _ _) hport).1
        cases hdirection.symm.trans (hend d hstay)
    exact List.forall_mem_cons.2
      ⟨hne, ih h ((declare_decl? hd hne.symm).trans he)⟩

/-- If no wire is declared under a name, then what is declared under it is a port. -/
theorem declareAll_directed (h : o.declareAll ds = some o')
    (hfirst : ∀ e, o.decl? x = some e → e.direction.isSome = true)
    (hds : ∀ d ∈ ds, d.name = x → d.direction.isSome = true) :
    ∀ e, o'.decl? x = some e → e.direction.isSome = true := by
  induction ds generalizing o with
  | nil =>
    cases h
    exact hfirst
  | cons d ds ih =>
    obtain ⟨o₁, hd, h⟩ := declareAll_cons_eq_some.1 h
    obtain ⟨hdirected, hrest⟩ := List.forall_mem_cons.1 hds
    refine ih h (fun e he => ?_) hrest
    by_cases hx : x = d.name
    · obtain ⟨-, settled, hsettled, rfl⟩ := declare_eq_some_iff.1 hd
      subst hx
      have hself : (o.put d.name settled).decl? d.name = some settled := Function.update_self _ _ _
      cases hself.symm.trans he
      cases hexisting : o.decl? d.name with
      | none =>
        rw [hexisting] at hsettled
        cases hsettled
        exact hdirected rfl
      | some existing =>
        have hport := hfirst existing hexisting
        cases hself.symm.trans ((declare_decl?_of_some hd hexisting).2 hport).1
        exact hport
    · exact hfirst e ((declare_decl? hd hx).symm.trans he)

/-! ### A wire and a port of one name -/

section
variable {before between : List Decl} {direction : Direction} {a b : Width}

theorem declare_port (hlisted : x ∈ o.ports) (h : o.decl? x = none) :
    o.declare (.port x direction b) = some (o.put x (.port x direction b)) :=
  declare_eq_some_iff.2 ⟨fun _ => hlisted, _, by rw [Decl.port, h]; rfl, rfl⟩

theorem declare_wire (h : o.decl? x = none) :
    o.declare (.wire x a) = some (o.put x (.wire x a)) :=
  declare_eq_some_iff.2 ⟨nofun, _, by rw [Decl.wire, h]; rfl, rfl⟩

/-- A port takes the place of a wire of any width. -/
theorem declare_port_of_wire (hlisted : x ∈ o.ports) :
    (o.put x (.wire x a)).declare (.port x direction b) = some (o.put x (.port x direction b)) := by
  refine declare_eq_some_iff.2 ⟨fun _ => hlisted, .port x direction b, ?_, ?_⟩
  · rw [show (o.put x (.wire x a)).decl? (Decl.port x direction b).name = some (.wire x a) from
      Function.update_self _ _ _]
    rfl
  · exact congrArg (Outline.mk o.name o.ports) (Function.update_idem _ _ _)

/-- A wire joins a port of its width, or as one bit. -/
theorem declare_wire_of_port (h : o.decl? x = some (.port x direction b)) :
    o.declare (.wire x a) = if a = b ∨ a = Width.one then some o else none := by
  have hsettle : settle (.wire x a) (o.decl? x) =
      if a = b ∨ a = Width.one then some (.port x direction b) else none := by
    rw [h]
    rfl
  rw [declare, if_neg (by rintro ⟨⟨⟩, -⟩), show (Decl.wire x a).name = x from rfl, hsettle]
  split
  · rw [Option.map_some, put_self h]
  · rfl

theorem declareAll_pair (h : ∀ e ∈ between, e.name ≠ d.name) :
    o.declareAll (before ++ d :: (between ++ [e])) =
      (o.declareAll (before ++ between)).bind fun o => (o.declare d).bind (declare · e) := by
  have hswap : ∀ o : Outline, o.declareAll (d :: (between ++ [e])) =
      (o.declareAll between).bind fun o => (o.declare d).bind (declare · e) := fun o => by
    rw [← List.cons_append, declareAll_append, declareAll_swap h, declareAll_append,
      Option.bind_assoc]
    simp only [declareAll_singleton]
  rw [declareAll_append, declareAll_append, Option.bind_assoc]
  exact congrArg _ (funext hswap)

theorem settle_port {existing? : Option Decl} {settled : Decl}
    (h : settle (.port x direction b) existing? = some settled) :
    settled = .port x direction b ∧ ∀ e, existing? = some e → e.direction = none := by
  cases existing? with
  | none =>
    cases h
    exact ⟨rfl, nofun⟩
  | some e =>
    obtain ⟨name, existing, width, pos⟩ := e
    cases existing with
    | none =>
      cases h
      exact ⟨rfl, fun _ he => Option.some.inj he ▸ rfl⟩
    | some => cases h

theorem settle_wire {existing? : Option Decl} {settled : Decl}
    (h : settle (.wire x a) existing? = some settled) (hwire : settled.direction = none) :
    existing? = none := by
  cases existing? with
  | none => rfl
  | some e =>
    obtain ⟨name, existing, width, pos⟩ := e
    cases existing with
    | none => cases h
    | some existing =>
      obtain ⟨-, heq⟩ := Option.ite_none_right_eq_some.1 h
      cases heq
      cases hwire

/-- Where the wire may be declared first, the port may be just if the wire has its width or one bit,
and the outline is the same. -/
theorem declareAll_of_wire_first
    (h : o.declareAll (before ++ .wire x a :: (between ++ [.port x direction b])) = some o') :
    (∀ d ∈ before ++ between, d.name ≠ x) ∧ o'.decl? x = some (.port x direction b) ∧
      o.declareAll (before ++ .port x direction b :: (between ++ [.wire x a])) =
        if a = b ∨ a = Width.one then some o' else none := by
  obtain ⟨o₁, hbefore, hrest⟩ := declareAll_append_eq_some.1 h
  obtain ⟨o₂, hfirst, hrest⟩ := declareAll_cons_eq_some.1 hrest
  obtain ⟨o₃, hbetween, hlast⟩ := declareAll_append_eq_some.1 hrest
  rw [declareAll_singleton] at hlast
  obtain ⟨hlisted, p, hp, -⟩ := declare_eq_some_iff.1 hlast
  obtain ⟨-, w, hw, rfl⟩ := declare_eq_some_iff.1 hfirst
  -- the name is still a wire when the port comes, so nothing else declares it
  have hopen : ∀ e, o₃.decl? x = some e → e.direction = none := (settle_port hp).2
  have hx : (o₁.put (Decl.wire x a).name w).decl? x = some w := Function.update_self _ _ _
  have hwire : w.direction = none := by
    by_contra hne
    have hdirected : w.direction.isSome = true := Option.isSome_iff_ne_none.2 hne
    have hstay := (declareAll_port hbetween hx hdirected).1
    rw [hopen w hstay] at hdirected
    cases hdirected
  have hnone : o₁.decl? x = none := settle_wire hw hwire
  have hfresh : ∀ d ∈ between, d.name ≠ x := declareAll_wire hbetween hx hwire hopen
  have hfresh' : ∀ d ∈ before, d.name ≠ x := by
    rintro d hd rfl
    have hsome := declareAll_isSome_of_mem hbefore hd
    rw [hnone] at hsome
    cases hsome
  rw [declareAll_pair hfresh] at h ⊢
  obtain ⟨o₄, ho₄, hpair⟩ := Option.bind_eq_some_iff.1 h
  have hlisted : x ∈ o₄.ports := by
    rw [declareAll_ports ho₄, ← declareAll_ports hbefore]
    exact declareAll_ports hbetween ▸ hlisted rfl
  have hnone' : o₄.decl? x = none := by
    rw [declareAll_append, hbefore, Option.bind_some] at ho₄
    exact (declareAll_decl? ho₄ hfresh).trans hnone
  rw [declare_wire hnone', Option.bind_some, declare_port_of_wire hlisted] at hpair
  cases hpair
  have hself : (o₄.put x (.port x direction b)).decl? x = some (.port x direction b) :=
    Function.update_self _ _ _
  refine ⟨List.forall_mem_append.2 ⟨hfresh', hfresh⟩, hself, ?_⟩
  rw [ho₄, Option.bind_some, declare_port hlisted hnone', Option.bind_some,
    declare_wire_of_port hself]

/-- Where the port may be declared first, the wire has its width or one bit. If it is the only wire
of the name so far, then it may be declared first as well, and the outline is the same. -/
theorem declareAll_of_port_first (ho : o.Directed)
    (h : o.declareAll (before ++ .port x direction b :: (between ++ [.wire x a])) = some o') :
    (a = b ∨ a = Width.one) ∧ o'.decl? x = some (.port x direction b) ∧
      ((∀ d ∈ before ++ between, d.name = x → d.direction.isSome = true) →
        o.declareAll (before ++ .wire x a :: (between ++ [.port x direction b])) = some o') := by
  obtain ⟨o₁, hbefore, hrest⟩ := declareAll_append_eq_some.1 h
  obtain ⟨o₂, hfirst, hrest⟩ := declareAll_cons_eq_some.1 hrest
  obtain ⟨o₃, hbetween, hlast⟩ := declareAll_append_eq_some.1 hrest
  obtain ⟨hlisted, p, hp, rfl⟩ := declare_eq_some_iff.1 hfirst
  obtain ⟨rfl, hopen⟩ := settle_port hp
  have hx : (o₁.put x (.port x direction b)).decl? x = some (.port x direction b) :=
    Function.update_self _ _ _
  obtain ⟨hstay, hwires⟩ := declareAll_port hbetween hx rfl
  rw [declareAll_singleton, declare_wire_of_port hstay] at hlast
  obtain ⟨hwidth, heq⟩ := Option.ite_none_right_eq_some.1 hlast
  cases heq
  refine ⟨hwidth, hstay, fun hsingle => ?_⟩
  obtain ⟨hports, hports'⟩ := List.forall_mem_append.1 hsingle
  have hfresh : ∀ d ∈ between, d.name ≠ x := fun d hd hname => by
    have hport := hports' d hd hname
    rw [hwires d hd hname] at hport
    cases hport
  have hnone : o₁.decl? x = none := by
    refine Option.eq_none_iff_forall_ne_some.2 fun e he => ?_
    have hport := declareAll_directed hbefore (ho x) hports e he
    rw [hopen e he] at hport
    cases hport
  rw [declareAll_pair hfresh] at h ⊢
  obtain ⟨o₄, ho₄, hpair⟩ := Option.bind_eq_some_iff.1 h
  have hlisted : x ∈ o₄.ports := by
    rw [declareAll_ports ho₄, ← declareAll_ports hbefore]
    exact hlisted rfl
  have hnone' : o₄.decl? x = none := by
    rw [declareAll_append, hbefore, Option.bind_some] at ho₄
    exact (declareAll_decl? ho₄ hfresh).trans hnone
  have hself : (o₄.put x (.port x direction b)).decl? x = some (.port x direction b) :=
    Function.update_self _ _ _
  rw [declare_port hlisted hnone', Option.bind_some, declare_wire_of_port hself,
    if_pos hwidth] at hpair
  cases hpair
  rw [ho₄, Option.bind_some, declare_wire hnone', Option.bind_some, declare_port_of_wire hlisted]

end

end Outline

end GateSynth.Verilog
