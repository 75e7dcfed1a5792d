import GateSynth.Proofs.Verilog.Copies

/-!
# Statements beside others

Statements run in parallel with themselves: what they add to a netlist does not depend on what else
is there, up to the names of temporary signals. The scopes may be of different modules as long as
their names stand for each other, and the files may differ in modules that are being inlined
already, since an instance of one of those is an error (`Parallel.instantiate`).
-/

namespace GateSynth.Verilog.Elaborate

open Netlist

/-- No result to compare. -/
abbrev Pairing.Done (_ : Pairing) (_ _ : Unit) : Prop := True

namespace Parallel

variable {around : Surroundings} {r : Pairing} {α : Type} {scope scope' : Scope} {site : Site}
  {i : Instance} {w : Width} {post : Pairing → α → α → Prop}

/-! ## Assignments and gates -/

theorem forM {β : Type} {xs : List β} {f g : β → Build Unit}
    (h : ∀ x ∈ xs, ∀ ⦃r₁⦄, r ≤ r₁ → Parallel around r₁ (f x) (g x) Pairing.Done) :
    Parallel around r (xs.forM f) (xs.forM g) Pairing.Done := by
  induction xs generalizing r with
  | nil => exact pure fun _ _ => trivial
  | cons x rest ih =>
    obtain ⟨hx, hrest⟩ := List.forall_mem_cons.1 h
    exact (hx (le_refl r)).bind fun r₁ _ _ hr _ =>
      ih fun y hy r₂ hr₂ => hrest y hy (hr.trans hr₂)

theorem assign (hscope : Scope.Pairs r scope scope') (a : Assign) :
    Parallel around r (assign scope a) (assign scope' a) Pairing.Done := by
  rw [Elaborate.assign, Elaborate.assign, hscope.name]
  refine (dest hscope _ _).bind fun r₁ d d' hr₁ hd => ?_
  obtain ⟨rfl, hfixed⟩ := hd
  refine (width (hscope.mono hr₁) _ _).bind_same fun r₂ _ hr₂ => ?_
  refine (selfWidth (hscope.mono (hr₁.trans hr₂)) _).bind_same fun r₃ _ hr₃ => ?_
  have hr := hr₁.trans (hr₂.trans hr₃)
  have hfixed₃ := hr₃ _ _ (hr₂ _ _ hfixed)
  refine (lower _ _ _ _ _ (hscope.mono hr) (Pairing.fixes_some hfixed₃)).bind ?_
  exact fun _ _ _ hr₄ hvalue => drive hvalue (hr₄ _ _ hfixed₃)

theorem lowerAll_list (hscope : Scope.Pairs r scope scope') (w : Width) (exprs : List Expr) :
    Parallel around r (Elaborate.lowerAll scope site w exprs)
      (Elaborate.lowerAll scope' site w exprs) Pairing.ReadsAll := by
  induction exprs generalizing r with
  | nil => exact pure fun _ _ => .nil
  | cons e rest ih =>
    refine (lower _ _ _ _ e hscope (Pairing.fixes_none _)).bind fun r₁ _ _ hr₁ hf => ?_
    refine (ih (hscope.mono hr₁)).bind fun r₂ _ _ hr₂ hfs => pure fun _ hr₃ => ?_
    exact .cons (hf.mono (hr₂.trans hr₃)) (Pairing.ReadsAll.mono hfs hr₃)

theorem lowerEach (hscope : Scope.Pairs r scope scope') (exprs : List Expr) :
    Parallel around r (lowerEach scope site exprs) (lowerEach scope' site exprs)
      Pairing.ReadsAll := by
  induction exprs generalizing r with
  | nil => exact pure fun _ _ => .nil
  | cons e rest ih =>
    refine (selfWidth hscope e).bind_same fun r₁ _ hr₁ => ?_
    refine (lower _ _ _ _ e (hscope.mono hr₁) (Pairing.fixes_none _)).bind fun r₂ _ _ hr₂ hf => ?_
    refine (ih (hscope.mono (hr₁.trans hr₂))).bind fun r₃ _ _ hr₃ hfs => pure fun _ hr₄ => ?_
    exact .cons (hf.mono (hr₃.trans hr₄)) (Pairing.ReadsAll.mono hfs hr₄)

theorem joinInputs (gate : Gate) {d : String} {joined joined' : Fanin} {values values' : List Fanin}
    (hd : r d d) (hjoined : r.Reads joined joined') (hvalues : r.ReadsAll values values') :
    Parallel around r (joinInputs site gate w d joined values)
      (joinInputs site gate w d joined' values') Pairing.Reads := by
  induction values generalizing r joined joined' values' with
  | nil =>
    cases hvalues
    exact pure fun _ hr => hjoined.mono hr
  | cons value rest ih =>
    cases hvalues with
    | cons hvalue hrest =>
      cases hrest with
      | nil =>
        have hlast : ∀ {last last' : Build Fanin}, Parallel around r last last' Pairing.Reads →
            Parallel around r
              (do Elaborate.emit site (.op gate.final) [joined, ← last] w (some d))
              (do Elaborate.emit site (.op gate.final) [joined', ← last'] w (some d))
              Pairing.Reads :=
          fun h => h.bind fun r₁ _ _ hr hf =>
            emit (Pairing.readsAll_pair (hjoined.mono hr) hf) (Pairing.fixes_some (hr _ _ hd))
        rw [Elaborate.joinInputs, Elaborate.joinInputs]
        split
        · exact hlast (invert hvalue (Pairing.fixes_none _))
        · exact hlast (pure fun _ hr => hvalue.mono hr)
      | cons hnext hrest =>
        refine (emit (Pairing.readsAll_pair hjoined hvalue) (Pairing.fixes_none _)).bind ?_
        intro r₁ _ _ hr hjoined'
        exact ih (hr _ _ hd) hjoined' (Pairing.ReadsAll.mono (.cons hnext hrest) hr)

theorem gateOutput (gate : Gate) {d : String} {values values' : List Fanin} (hd : r d d)
    (hvalues : r.ReadsAll values values') :
    Parallel around r (gateOutput site i gate w d values) (gateOutput site i gate w d values')
      Pairing.Reads := by
  unfold Elaborate.gateOutput
  split
  · cases hvalues with
    | nil => exact throw _ _
    | cons hvalue hrest =>
      cases hrest with
      | nil => exact emit (.cons hvalue .nil) (Pairing.fixes_some hd)
      | cons => exact throw _ _
  · cases hvalues with
    | nil => exact throw _ _
    | cons hfirst hrest =>
      cases hrest with
      | nil => exact throw _ _
      | cons hsecond hrest => exact joinInputs gate hd hfirst (.cons hsecond hrest)

theorem gateInstance (hscope : Scope.Pairs r scope scope') (i : Instance) (gate : Gate) :
    Parallel around r (gateInstance scope site i gate) (gateInstance scope' site i gate)
      Pairing.Done := by
  unfold Elaborate.gateInstance
  refine (lift_same _).bind_same fun r₁ terminals hr₁ => ?_
  split
  · refine (dest (hscope.mono hr₁) _ _).bind fun r₂ d d' hr₂ hd => ?_
    obtain ⟨rfl, hfixed⟩ := hd
    refine (width (hscope.mono (hr₁.trans hr₂)) _ _).bind_same fun r₃ _ hr₃ => ?_
    have hr := hr₁.trans (hr₂.trans hr₃)
    refine (lowerAll_list (hscope.mono hr) _ _).bind fun r₄ _ _ hr₄ hvalues => ?_
    have hfixed₄ := hr₄ _ _ (hr₃ _ _ hfixed)
    exact (gateOutput gate hfixed₄ hvalues).bind fun _ _ _ hr₅ hvalue =>
      drive hvalue (hr₅ _ _ hfixed₄)
  · exact throw _ _

theorem blackBox (hscope : Scope.Pairs r scope scope') (i : Instance) :
    Parallel around r (blackBox scope site i) (blackBox scope' site i) Pairing.Done := by
  unfold Elaborate.blackBox
  refine (lift_same _).bind_same fun r₁ terminals hr₁ => ?_
  split
  · refine (dest (hscope.mono hr₁) _ _).bind fun r₂ d d' hr₂ hd => ?_
    obtain ⟨rfl, hfixed⟩ := hd
    refine (width (hscope.mono (hr₁.trans hr₂)) _ _).bind_same fun r₃ _ hr₃ => ?_
    have hr := hr₁.trans (hr₂.trans hr₃)
    refine (lowerEach (hscope.mono hr) _).bind fun r₄ _ _ hr₄ hfanins => ?_
    have hfixed₄ := hr₄ _ _ (hr₃ _ _ hfixed)
    exact (emit hfanins (Pairing.fixes_some hfixed₄)).bind fun _ _ _ hr₅ hvalue =>
      drive hvalue (hr₅ _ _ hfixed₄)
  · exact throw _ _

end Parallel

/-! ## Connections of instances -/

/-- The same ports are bound, and what they are bound to stands for each other. -/
structure Wiring.Pairs (r : Pairing) (wiring wiring' : Wiring) : Prop where
  free : ∀ ⦃name⦄, wiring'.bindings.find? name = none → wiring.bindings.find? name = none
  read : ∀ ⦃name g⦄, wiring'.bindings.find? name = some (.read g) →
    ∃ f, wiring.bindings.find? name = some (.read f) ∧ r.Reads f g
  direct : ∀ ⦃name s⦄, wiring'.bindings.find? name = some (.alias s) →
    wiring.bindings.find? name = some (.alias s) ∧ r s s
  buffers : wiring.buffers = wiring'.buffers
  buffered : ∀ b ∈ wiring.buffers, r b.1 b.1 ∧ r b.2 b.2

namespace Wiring.Pairs

variable {r r' : Pairing} {wiring wiring' : Wiring}

/-- Nothing is bound yet. -/
theorem empty (r : Pairing) : Wiring.Pairs r ⟨.empty, []⟩ ⟨.empty, []⟩ :=
  ⟨fun _ h => h, fun _ _ h => (by cases h), fun _ _ h => (by cases h), rfl, List.forall_mem_nil _⟩

theorem mono (h : Wiring.Pairs r wiring wiring') (hr : r ≤ r') :
    Wiring.Pairs r' wiring wiring' where
  free := h.free
  read _ _ hg := (h.read hg).imp fun _ hf => hf.imp_right fun hread => hread.mono hr
  direct _ s hs := (h.direct hs).imp_right (hr s s)
  buffers := h.buffers
  buffered b hb := (h.buffered b hb).imp (hr _ _) (hr _ _)

theorem contains (h : Wiring.Pairs r wiring wiring') (name : String) :
    wiring.bindings.contains name = wiring'.bindings.contains name := by
  rw [Table.contains, Table.contains]
  cases hb : wiring'.bindings.find? name with
  | none => rw [h.free hb]
  | some b =>
    cases b with
    | read g =>
      obtain ⟨f, hf, -⟩ := h.read hb
      rw [hf]
      rfl
    | «alias» s =>
      rw [(h.direct hb).1]

theorem bindRead (h : Wiring.Pairs r wiring wiring') (port : String) {f g : Fanin}
    (hread : r.Reads f g) :
    Wiring.Pairs r { wiring with bindings := wiring.bindings.insert port (.read f) }
      { wiring' with bindings := wiring'.bindings.insert port (.read g) } := by
  refine ⟨fun name hname => ?_, fun name g' hname => ?_, fun name s hname => ?_, h.buffers,
    h.buffered⟩
  all_goals
    rw [Table.find?_insert] at hname
    rw [Table.find?_insert]
    split at hname
  · cases hname
  · next hne => rw [if_neg hne, h.free hname]
  · next heq =>
    cases hname
    exact ⟨f, if_pos heq, hread⟩
  · next hne =>
    rw [if_neg hne]
    exact h.read hname
  · cases hname
  · next hne =>
    rw [if_neg hne]
    exact h.direct hname

theorem bindAlias (h : Wiring.Pairs r wiring wiring') (port : String) {s : String} (hs : r s s) :
    Wiring.Pairs r { wiring with bindings := wiring.bindings.insert port (.alias s) }
      { wiring' with bindings := wiring'.bindings.insert port (.alias s) } := by
  refine ⟨fun name hname => ?_, fun name g' hname => ?_, fun name s' hname => ?_, h.buffers,
    h.buffered⟩
  all_goals
    rw [Table.find?_insert] at hname
    rw [Table.find?_insert]
    split at hname
  · cases hname
  · next hne => rw [if_neg hne, h.free hname]
  · cases hname
  · next hne =>
    rw [if_neg hne]
    exact h.read hname
  · next heq =>
    cases hname
    exact ⟨if_pos heq, hs⟩
  · next hne =>
    rw [if_neg hne]
    exact h.direct hname

theorem buffer (h : Wiring.Pairs r wiring wiring') {outer own : String} (houter : r outer outer)
    (hown : r own own) :
    Wiring.Pairs r { wiring with buffers := wiring.buffers ++ [(outer, own)] }
      { wiring' with buffers := wiring'.buffers ++ [(outer, own)] } := by
  refine ⟨h.free, h.read, h.direct, congrArg (· ++ _) h.buffers, fun b hb => ?_⟩
  rcases List.mem_append.1 hb with hb | hb
  · exact h.buffered b hb
  · rw [List.mem_singleton.1 hb]
    exact ⟨houter, hown⟩

/-- The names inside an instance stand for each other if those of its own do. -/
theorem scope (h : Wiring.Pairs r wiring wiring') (child : Module) {path : String}
    (hown : ∀ name, r (path ++ name) (path ++ name)) :
    Scope.Pairs r ⟨child, path, wiring.bindings⟩ ⟨child, path, wiring'.bindings⟩ := by
  refine ⟨rfl, rfl, rfl, fun name line g hg => ?_, fun name line d hd => ?_⟩
  · rw [Scope.read] at hg ⊢
    split at hg
    · next hb =>
      cases hg
      obtain ⟨f, hf, hread⟩ := h.read hb
      exact ⟨f, by rw [hf], hread⟩
    · next hb =>
      cases hg
      obtain ⟨hs, hfixed⟩ := h.direct hb
      exact ⟨_, by rw [hs], Pairing.reads_plain hfixed⟩
    · next hb =>
      split at hg
      · next hdecl =>
        cases hg
        rw [h.free hb]
        exact ⟨_, if_pos hdecl, Pairing.reads_plain (hown name)⟩
      · cases hg
  · rw [Scope.dest] at hd ⊢
    split at hd
    · cases hd
    · next hb =>
      cases hd
      obtain ⟨hs, hfixed⟩ := h.direct hb
      exact ⟨by rw [hs], hfixed⟩
    · next hb =>
      rw [h.free hb]
      split at hd
      · next decl hdecl =>
        split at hd
        · cases hd
        · next hdirection =>
          cases hd
          refine ⟨?_, hown name⟩
          dsimp only
          rw [show (Module.decl? child name) = some decl from hdecl]
          exact if_neg hdirection
      · cases hd

end Wiring.Pairs

/-! ## Instances -/

/-- The files have the same modules, as far as they can still be inlined. -/
def AgreeOutside (stack : List String) (file file' : SourceFile) : Prop :=
  ∀ name, file.module? name = file'.module? name ∨
    ∃ child, file'.module? name = some child ∧ stack.contains child.name = true

theorem AgreeOutside.push {stack : List String} {file file' : SourceFile}
    (h : AgreeOutside stack file file') (name : String) :
    AgreeOutside (stack ++ [name]) file file' := by
  intro other
  refine (h other).imp_right fun ⟨child, hchild, hstack⟩ => ⟨child, hchild, ?_⟩
  rw [List.contains_iff_mem] at hstack ⊢
  exact List.mem_append_left _ hstack

namespace Parallel

variable {around : Surroundings} {r : Pairing} {α : Type} {post : Pairing → α → α → Prop}
  {scope scope' : Scope} {site : Site} {i : Instance} {wiring wiring' : Wiring} {path : String}
  {connected : List (String × Option Expr)} {file file' : SourceFile} {stack : List String}

/-- Fixed names stand for themselves all along. -/
theorem of_fixed {x y : Build α}
    (h : ∀ r₁, r ≤ r₁ → (∀ s, around.fixed s → r₁ s s) → Parallel around r₁ x y post) :
    Parallel around r x y post :=
  fun r₁ hr _ _ hhosts => h r₁ hr (fun _ hs => hhosts.fixed hs) (le_refl r₁) hhosts

theorem connectPort (hscope : Scope.Pairs r scope scope') (hwiring : Wiring.Pairs r wiring wiring')
    (hpath : ∀ name, r (path ++ name) (path ++ name)) (port : Decl) :
    Parallel around r (connectPort scope site i path connected wiring port)
      (connectPort scope' site i path connected wiring' port) Wiring.Pairs := by
  unfold Elaborate.connectPort
  dsimp only
  split
  · next e _ _ =>
    refine (selfWidth hscope e).bind_same fun r₁ _ hr₁ => ?_
    refine (lower _ _ _ _ e (hscope.mono hr₁) (Pairing.fixes_none _)).bind ?_
    intro r₂ f g hr₂ hvalue
    have hbound : ∀ r₃ f g, r₂ ≤ r₃ → r₃.Reads f g → Parallel around r₃
        (Pure.pure { wiring with bindings := wiring.bindings.insert port.name (.read f) })
        (Pure.pure { wiring' with bindings := wiring'.bindings.insert port.name (.read g) })
        Wiring.Pairs := fun r₃ f g hr₃ hread => pure fun r₄ hr₄ =>
      ((hwiring.mono (hr₁.trans (hr₂.trans hr₃))).bindRead _ hread).mono hr₄
    refine get.bind fun r₃ _ _ hr₃ hhosts => ?_
    rw [hhosts.width (hr₃ _ _ hvalue.1)]
    split
    · exact (pure fun _ hr => hvalue.mono (hr₃.trans hr)).bind fun r₄ f g hr₄ hread =>
        hbound r₄ f g (hr₃.trans hr₄) hread
    · exact (emit (.cons (hvalue.mono hr₃) .nil) (Pairing.fixes_none _)).bind
        fun r₄ f g hr₄ hread => hbound r₄ f g (hr₃.trans hr₄) hread
  · exact throw _ _
  · refine (dest hscope _ _).bind fun r₁ d d' hr₁ hd => ?_
    obtain ⟨rfl, hfixed⟩ := hd
    refine get.bind fun r₂ _ _ hr₂ hhosts => ?_
    have hwiring₂ := hwiring.mono (hr₁.trans hr₂)
    have hfixed₂ := hr₂ _ _ hfixed
    rw [hhosts.width hfixed₂]
    split
    · exact pure fun _ hr => (hwiring₂.bindAlias _ hfixed₂).mono hr
    · have hown := (hr₁.trans hr₂) _ _ (hpath port.name)
      exact pure fun _ hr => (hwiring₂.buffer hfixed₂ hown).mono hr
  · exact throw _ _
  · exact pure fun _ hr => hwiring.mono hr

theorem connectPorts (hscope : Scope.Pairs r scope scope')
    (hwiring : Wiring.Pairs r wiring wiring') (hpath : ∀ name, r (path ++ name) (path ++ name))
    (ports : List Decl) :
    Parallel around r (connectPorts scope site i path connected ports wiring)
      (connectPorts scope' site i path connected ports wiring') Wiring.Pairs := by
  induction ports generalizing r wiring wiring' with
  | nil => exact pure fun _ hr => hwiring.mono hr
  | cons port rest ih =>
    refine (connectPort hscope hwiring hpath port).bind fun r₁ _ _ hr hwiring₁ => ?_
    exact ih (hscope.mono hr) hwiring₁ fun name => hr _ _ (hpath name)

theorem setWidth {s : String} (hs : around.fixed s) (w : Width) :
    Parallel around r (modify fun n => n.setWidth s w) (modify fun n => n.setWidth s w)
      Pairing.Done := by
  intro r₁ hr k n hhosts b n' hrun
  cases hrun
  exact ⟨r₁, (), _, le_refl r₁, rfl, hhosts.setWidth hs w, trivial⟩

theorem declareOwn (hwiring : Wiring.Pairs r wiring wiring')
    (hpath : ∀ name, around.fixed (path ++ name)) (decls : List Decl) :
    Parallel around r (declareOwn path wiring.bindings decls)
      (declareOwn path wiring'.bindings decls) Pairing.Done := by
  induction decls generalizing r with
  | nil => exact pure fun _ _ => trivial
  | cons d rest ih =>
    rw [Elaborate.declareOwn, Elaborate.declareOwn]
    simp only [hwiring.contains]
    split
    · exact ih hwiring
    · exact (setWidth (hpath _) _).bind fun _ _ _ hr _ => ih (hwiring.mono hr)

theorem driveOuter {buffers : List (String × String)}
    (hbuffers : ∀ b ∈ buffers, r b.1 b.1 ∧ r b.2 b.2) :
    Parallel around r (driveOuter site buffers) (driveOuter site buffers) Pairing.Done := by
  induction buffers generalizing r with
  | nil => exact pure fun _ _ => trivial
  | cons b rest ih =>
    obtain ⟨⟨houter, hown⟩, hrest⟩ := List.forall_mem_cons.1 hbuffers
    refine get.bind fun r₁ _ _ hr₁ hhosts => ?_
    have houter₁ := hr₁ _ _ houter
    rw [hhosts.width houter₁]
    refine (drive (Pairing.reads_plain (hr₁ _ _ hown)) houter₁).bind fun r₂ _ _ hr₂ _ => ?_
    have hr := hr₁.trans hr₂
    exact ih fun b hb => (hrest b hb).imp (hr _ _) (hr _ _)

/-- An instance, where the statements inside run in parallel in every two scopes whose names stand for
each other. -/
theorem inline {body body' : Scope → Build Unit} {child : Module}
    (hslash : ∀ s, ¬ Flat s → around.fixed s) (hscope : Scope.Pairs r scope scope')
    (hbody : ∀ r₁ inner inner', r ≤ r₁ → inner.module = child → inner'.module = child →
      Scope.Pairs r₁ inner inner' → Parallel around r₁ (body inner) (body' inner') Pairing.Done) :
    Parallel around r (inline body scope site i child) (inline body' scope' site i child)
      Pairing.Done := by
  unfold Elaborate.inline
  rw [hscope.path]
  split
  · exact throw _ _
  next name _ =>
  have hpath : ∀ s, around.fixed (scope'.path ++ name ++ "/" ++ s) := fun s =>
    hslash _ (not_flat_of_beneath (beneath_append _ s))
  refine of_fixed fun r₀ hr₀ hfixed => (lift_same _).bind_same fun r₁ connected hr₁ => ?_
  have hown₁ : ∀ s, r₁ _ _ := fun s => hr₁ _ _ (hfixed _ (hpath s))
  refine (connectPorts (hscope.mono (hr₀.trans hr₁)) (.empty r₁) hown₁ _).bind ?_
  intro r₂ wiring wiring' hr₂ hwiring
  refine (declareOwn hwiring hpath _).bind fun r₃ _ _ hr₃ _ => ?_
  have hwiring₃ := hwiring.mono hr₃
  have hinner := hwiring₃.scope child fun s => (hr₂.trans hr₃) _ _ (hown₁ s)
  have hr := hr₀.trans (hr₁.trans (hr₂.trans hr₃))
  refine (hbody r₃ _ _ hr rfl rfl hinner).bind fun r₄ _ _ hr₄ _ => ?_
  rw [← hwiring.buffers]
  exact driveOuter fun b hb => ((hwiring₃.mono hr₄).buffered b hb)

theorem instantiate {body body' : List String → Scope → Build Unit}
    (hslash : ∀ s, ¬ Flat s → around.fixed s) (hfiles : AgreeOutside stack file file')
    (hscope : Scope.Pairs r scope scope')
    (hbody : ∀ r₁ inner inner' name, r ≤ r₁ → inner.module = inner'.module →
      Scope.Pairs r₁ inner inner' →
      Parallel around r₁ (body (stack ++ [name]) inner) (body' (stack ++ [name]) inner')
        Pairing.Done)
    (i : Instance) :
    Parallel around r (instantiate file body stack scope i)
      (instantiate file' body' stack scope' i) Pairing.Done := by
  unfold Elaborate.instantiate
  rw [hscope.name]
  rcases hfiles i.module with hsame | ⟨child, hchild, hstack⟩
  · rw [hsame]
    dsimp only
    split
    · exact gateInstance hscope i _
    · exact blackBox hscope i
    · split
      · exact throw _ _
      · exact inline hslash hscope fun r₁ inner inner' hr hmodule hmodule' hinner =>
          hbody r₁ inner inner' _ hr (hmodule.trans hmodule'.symm) hinner
  · rw [hchild]
    dsimp only
    cases Gate.ofName? i.module with
    | some gate => exact gateInstance hscope i gate
    | none =>
      dsimp only
      rw [if_pos hstack]
      exact throw _ _

/-- By induction on the depth: the statements of a module run in parallel. -/
theorem moduleBody (hslash : ∀ s, ¬ Flat s → around.fixed s) (depth : Nat)
    (hfiles : AgreeOutside stack file file') (hscope : Scope.Pairs r scope scope')
    (hmodule : scope.module = scope'.module) :
    Parallel around r (moduleBody file depth stack scope) (moduleBody file' depth stack scope')
      Pairing.Done := by
  induction depth generalizing r stack scope scope' with
  | zero => exact throw _ _
  | succ depth ih =>
    rw [Elaborate.moduleBody, Elaborate.moduleBody, hmodule]
    refine (forM fun a _ r₁ hr₁ => assign (hscope.mono hr₁) a).bind fun r₁ _ _ hr₁ _ => ?_
    refine forM fun i _ r₂ hr₂ => instantiate hslash hfiles (hscope.mono (hr₁.trans hr₂)) ?_ i
    exact fun r₃ inner inner' name _ hmodule' hinner => ih (hfiles.push name) hinner hmodule'

end Parallel

end GateSynth.Verilog.Elaborate
