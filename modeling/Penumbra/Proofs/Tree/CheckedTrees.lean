/-
Conditions that can be checked on a given tree.

Builders add every node after its children, except the root, which is there
first. In a tree put together like that child lists lead in no circle
(`BuiltUp.acyclic`). If all indices and links are right, the tree is owned
(`Linked.owned`). The sample is such a tree, with a visitor that has shadow arms
in both phases, one of them beside an arm for the concrete type and one beside
a wildcard.
-/
import Penumbra.Erase.Basic
import Penumbra.Proofs.Tree.Owned
import Penumbra.Proofs.Tree.ReadAfterWrite
import Penumbra.Ty.Statement

namespace Penumbra

namespace Tree

variable {t : Tree}

/-- Every node but the root comes after its children. -/
def BuiltUp (t : Tree) : Prop :=
  0 < t.size ∧ ∀ x : Nat, x < t.size → ∀ c ∈ (t.children x : List Nat), 0 < c ∧ c < t.size ∧ (x = root ∨ c < x)

instance : Decidable t.BuiltUp :=
  inferInstanceAs (Decidable (0 < t.size ∧ ∀ x : Nat, x < t.size →
    ∀ c ∈ (t.children x : List Nat), 0 < c ∧ c < t.size ∧ (x = root ∨ c < x)))

theorem BuiltUp.acyclic (h : t.BuiltUp) : t.Acyclic := by
  obtain ⟨hroot, h⟩ := h
  have hlt : ∀ x : Nat, t.Reachable x → x < t.size := by
    intro x hx
    induction hx with
    | refl => exact hroot
    | tail _ hc ih => exact (h _ ih _ hc).2.1
  have hdown : ∀ x y : Nat, x < t.size → Relation.TransGen t.Child x y → 0 < y ∧ y < t.size ∧ (x = root ∨ y < x) := by
    intro x y hx hxy
    induction hxy with
    | single hc => exact h x hx _ hc
    | @tail y z _ hc ih =>
      obtain ⟨hy, hys, hxy⟩ := ih
      obtain ⟨hz, hzs, hyz⟩ := h y hys z hc
      have hyroot : y ≠ root := Nat.pos_iff_ne_zero.mp hy
      have hzy : z < y := hyz.resolve_left hyroot
      exact ⟨hz, hzs, hxy.imp_right hzy.trans⟩
  refine ⟨hlt, fun x hx hcircle => ?_⟩
  obtain ⟨hpos, -, hself⟩ := hdown x x (hlt x hx) hcircle
  rcases hself with rfl | hself
  · exact Nat.lt_irrefl 0 hpos
  · exact Nat.lt_irrefl x hself

/-- All indices lead to what is there, and every node, reachable or not, is the
parent of its children. -/
def Linked (t : Tree) : Prop :=
  0 < t.size ∧ t.parent root = .none ∧ (∀ x : Nat, x < t.size → (t.children x).Nodup ∧ t.scope x < t.env.size ∧
    ∀ c ∈ (t.children x : List Nat), c < t.size ∧ t.parent c = .some x) ∧
  ∀ s : Nat, s < t.env.size → ∀ p ∈ (t.env.parent s : Option Nat), p < s

instance : Decidable t.Linked :=
  inferInstanceAs (Decidable (0 < t.size ∧ t.parent root = .none ∧
    (∀ x : Nat, x < t.size → (t.children x).Nodup ∧ t.scope x < t.env.size ∧
      ∀ c ∈ (t.children x : List Nat), c < t.size ∧ t.parent c = .some x) ∧
    ∀ s : Nat, s < t.env.size → ∀ p ∈ (t.env.parent s : Option Nat), p < s))

theorem Linked.formed (h : t.Linked) : t.Formed := by
  obtain ⟨hroot, -, hnode, hscope⟩ := h
  refine ⟨hroot, fun x hx c hc => ((hnode x hx).2.2 c hc).1, fun x hx => (hnode x hx).2.1, fun s p hp => ?_⟩
  rcases Nat.lt_or_ge s t.env.size with hs | hs
  · exact hscope s hs p hp
  · rw [Env.parent_of_size_le hs] at hp
    cases hp

theorem Linked.owned (h : t.Linked) : t.Owned := by
  have hlt : ∀ x : Nat, t.Reachable x → x < t.size := fun _ hx => h.formed.bounded hx
  obtain ⟨-, hparent, hnode, -⟩ := h
  refine ⟨fun x hx hmem => ?_, fun x hx => (hnode x (hlt x hx)).1, fun x hx c hc => ((hnode x (hlt x hx)).2.2 c hc).2⟩
  rw [((hnode x (hlt x hx)).2.2 root hmem).2] at hparent
  cases hparent

end Tree

theorem Outcome.ok_of_isOk {o : Outcome} (h : o.result.isOk = true) : o.result = .ok () := by
  cases hr : o.result with
  | ok => rfl
  | error => simp [hr, Except.isOk, Except.toBool] at h

/-! ## A sample program -/

namespace Sample

/-- An arm whose body is made in the scope of its binder. -/
def arm (phase : Phase) (name ascription : String) (ty : Ty) (body : ScopeId → Build (List NodeId)) :
    Build NodeId := do
  let scope ← Build.childScope Env.global
  modify (·.modifyEnv (·.declare scope name ty))
  let component ← Build.component name ascription scope
  let stmts ← body scope
  let block ← Build.block stmts scope
  Build.arm phase (.some component) block Env.global

/-- The statement `name.field;`. -/
def access (name field : String) (ty : Ty) (scope : ScopeId) : Build NodeId := do
  let var ← Build.typed ty (Build.ident name scope)
  let step ← Build.selector field scope
  let chain ← Build.factor var [step] scope
  Build.exprStmt chain scope

/-- Makes the node a statement of the program. -/
def attach (stmt : NodeId) : Build Unit :=
  modify fun t => (t.pushStmt? Tree.root stmt).getD t

/-- The tree that a builder makes of an empty program. -/
def built (b : Build Unit) : Tree := (b.run { uri := "inmemory:///sample.shade" }).2

def program : Build Unit := do
  modify (·.modifyEnv (Statement.declare · Env.global))
  let first ← arm .before "s" "ExprStmt" (.shadow Statement.exprStmt) fun scope =>
    return [← access "s" "expression" (.shadow Statement.exprStmt) scope]
  let second ← arm .before "t" "Statement" Statement.ty fun _ => return []
  let third ← arm .after "r" "ReturnStatement" (.shadow Statement.returnStatement) fun scope =>
    return [← access "r" "value" (.shadow Statement.returnStatement) scope]
  let call ← Build.call "done" [] Env.global
  let stmt ← Build.exprStmt call Env.global
  let body ← Build.block [stmt] Env.global
  let wildcard ← Build.arm .after .none body Env.global
  let visitor ← Build.visitor [first, second, third] (.some wildcard) Env.global
  attach (← Build.exprStmt visitor Env.global)

def tree : Tree := built program

theorem builtUp_tree : tree.BuiltUp := by decide +kernel

theorem linked_tree : tree.Linked := by decide +kernel

theorem lower_tree : tree.lower.result = .ok () := Outcome.ok_of_isOk (by decide +kernel)

theorem erase_tree : tree.erase.result = .ok () := Outcome.ok_of_isOk (by decide +kernel)

end Sample

end Penumbra
