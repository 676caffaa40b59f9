/-
The second pass comes to an end.

Its loop goes on with the children that a node has after its own turn, and the
turn of an access adds nodes, so there is no saying beforehand how many nodes are
to come. But what is added is four levels deep at the most and is left alone when
its turn comes (`Quiet`), and apart from that no node gets a child that it did not
have (`Patched`). So the loop never goes more than four levels deeper than the
program did at first, also where nodes are named by several child lists, and ends
if child lists lead in no circle (`concretize_terminates`).
-/
import Penumbra.Proofs.Concrete.WorkList
import Penumbra.Proofs.Concrete.NodeTurns
import Penumbra.Proofs.Tree.CheckedTrees

namespace Penumbra

open Tree

/-! ## New parts of a tree -/

namespace Tree

variable {t u u' : Tree} {S : Set Nat} {x y z c : Nat}

/-- All below `c` has been added to `t` and is left alone when its turn comes. -/
structure Quiet (t u : Tree) (c : NodeId) : Prop where
  new : ∀ y, u.Reaches c y → y ∈ fresh t u
  plain : ∀ y, u.Reaches c y → u.Plain y
  ends : u.EndsWithin 4 c
  size : 4 ≤ u.size

/-- What stands in the place of an access is such a part. -/
theorem Spliced.quiet {rest : List NodeId} {p : NodeId} (h : Spliced x rest p u u') : Quiet u u' p :=
  ⟨h.new, h.plain, h.ends, h.size⟩

theorem Quiet.earlier (h : Quiet u u' c) (hle : t.size ≤ u.size) : Quiet t u' c :=
  ⟨fun y hy => ⟨hle.trans (h.new y hy).1, (h.new y hy).2⟩, h.plain, h.ends, h.size⟩

theorem Quiet.same (h : Quiet t u c) (hsame : SameBelow c u u') (hle : u.size ≤ u'.size)
    (htypes : u'.env.getType? = u.env.getType?) : Quiet t u' c where
  new y hy :=
    have hnew := h.new y (hsame.reaches_iff.mp hy)
    ⟨hnew.1, hnew.2.trans_le hle⟩
  plain y hy := (hsame.resembles htypes).plain (hsame.reaches_iff.mp hy) (h.plain y (hsame.reaches_iff.mp hy))
  ends := hsame.endsWithin (.refl u c) h.ends
  size := h.size.trans hle

/-- The nodes in `S` name what they named in `t`, and new parts. -/
structure Patched (S : Set Nat) (t u : Tree) : Prop where
  evolves : t.Evolves u
  child : ∀ x ∈ S, ∀ c ∈ u.children x, c ∈ t.children x ∨ Quiet t u c

theorem Patched.refl (S : Set Nat) (t : Tree) : Patched S t t :=
  ⟨.refl t, fun _ _ _ hc => .inl hc⟩

end Tree

/-! ## One node -/

section Node

variable {t u u' : Tree} {S : Set Nat} {x y z c : Nat}

/-- The turn of a node gives no node a child that it did not have, but for what
takes the place of an access. -/
theorem NodeConcrete.child_cases (h : NodeConcrete x u u') (hz : z < u.size) (hc : c ∈ u'.children z) :
    c ∈ u.children z ∨ Quiet u u' c := by
  cases h with
  | plain => exact .inl hc
  | @access operand first rest s fieldId field var vf kind shadow selector token root known =>
    have hx : x < u.size := lt_size_of_kind kind (by simp)
    rw [Tree.children, kind_accessed u x s vf var rest z hx] at hc
    split at hc
    next hzx =>
      rcases List.mem_cons.mp hc with rfl | hc
      · exact .inr (spliced_accessed s vf kind selector root).quiet
      · exact .inl (by simp [Tree.children, hzx, kind, Kind.children, hc])
    next => exact .inl ((Extends.addAll ..).children hz ▸ hc)
  | declaration decl written => exact .inl (children_redeclared written ▸ hc)
  | identifier =>
    rw [Tree.children, setTy, kind_setTy?] at hc
    exact .inl hc

namespace Tree.Patched

variable (hu : Patched S t u) (hS : t.Closed S) (hx : x ∈ S) (h : NodeConcrete x u u')
include hu hS hx h

/-- An old node changes nothing that was added. -/
theorem node_eq (hy : y ∈ fresh t u) : u'.node y = u.node y := by
  have hold : ∀ z ∈ S, y ≠ z := fun z hz he => absurd (hS.bounded z hz) (by have := hy.1; omega)
  cases h with
  | plain => rfl
  | access => exact node_accessed hy.2 (hold x hx)
  | @declaration name ascription s token decl written named =>
    -- a declaration has the same children as at first, and these are old
    have hkind : u.kind x = t.kind x := by
      have hrecast := hu.evolves.kind x (hS.bounded x hx)
      obtain ⟨a, hk⟩ | ⟨a, init, hk⟩ := kind_of_shadowDecl decl <;> rw [hk] at hrecast ⊢ <;>
        generalize t.kind x = k at hrecast <;> cases hrecast <;> rfl
    have hchild : ∀ c ∈ u.children x, c ∈ S := fun c hc => hS.child x hx c (by rwa [Tree.children, hkind] at hc)
    obtain ⟨hname, hasc⟩ := children_shadowDecl decl
    exact node_redeclared (hold x hx) (hold name (hchild name hname)) fun hmem => hold y (hchild y (hasc y hmem)) rfl
  | identifier => rw [setTy, setTy?, node_update, if_neg fun he => hold x hx he.1]

theorem quiet (hc : Quiet t u c) : Quiet t u' c :=
  hc.same (fun y hy => hu.node_eq hS hx h (hc.new y hy)) h.evolves.size_le h.getType?_eq

theorem turn : Patched S t u' := by
  refine ⟨hu.evolves.trans h.evolves, fun z hz c hc => ?_⟩
  rcases h.child_cases ((hS.bounded z hz).trans_le hu.evolves.size_le) hc with hc | hnew
  · exact (hu.child z hz c hc).imp_right (hu.quiet hS hx h)
  · exact .inr (hnew.earlier hu.evolves.size_le)

end Tree.Patched

/-- No node is a circle by itself. -/
theorem Tree.Faulty.cause_ne {e : Fault} (h : t.Faulty x e) : e.cause ≠ .circle := by
  cases h <;> exact Cause.noConfusion

end Node

/-! ## All below a node -/

section Walk

variable {t u u' : Tree} {S : Set Nat} {m n x c : Nat} {l : List NodeId} {r : Except Fault (List Visit)}

/-- A run of the pass does not give up: where it stops there is a fault, and where
it ends it has only patched the tree. -/
structure Goes (S : Set Nat) (t u : Tree) (r : Except Fault (List Visit)) (u' : Tree) : Prop where
  stops : ∀ e, r = .error e → e.cause ≠ .circle
  patched : ∀ visits, r = .ok visits → Patched S t u'
  quiet : ∀ visits, r = .ok visits → ∀ c, Quiet t u c → Quiet t u' c

namespace Goes

theorem refl {visits : List Visit} (hu : Patched S t u) : Goes S t u (.ok visits) u :=
  ⟨nofun, fun _ _ => hu, fun _ _ _ hc => hc⟩

theorem of_error {e : Fault} (he : e.cause ≠ .circle) : Goes S t u (.error e) u' :=
  ⟨fun _ h => Except.error.inj h ▸ he, nofun, nofun⟩

theorem map (f : List Visit → List Visit) (h : Goes S t u r u') : Goes S t u (r.map f) u' := by
  cases r with
  | ok visits => exact ⟨nofun, fun _ _ => h.patched visits rfl, fun _ _ => h.quiet visits rfl⟩
  | error e => exact of_error (h.stops e rfl)

theorem after {u₁ : Tree} (h : Goes S t u₁ r u') (hquiet : ∀ c, Quiet t u c → Quiet t u₁ c) : Goes S t u r u' :=
  ⟨h.stops, h.patched, fun visits hr c hc => h.quiet visits hr c (hquiet c hc)⟩

end Goes

/-- What the pass has before it: an old node that ends within `m` levels, or a new part. -/
def Ahead (S : Set Nat) (t : Tree) (m : Nat) (u : Tree) (c : NodeId) : Prop :=
  c ∈ S ∧ t.EndsWithin m c ∨ Quiet t u c

/-- Nothing happens in a new part. -/
theorem Walked.goes_of_quiet (h : Walked n c u r u') (hu : Patched S t u) (hn : 4 ≤ n) (hc : Quiet t u c) :
    Goes S t u r u' := by
  obtain ⟨rfl, rfl⟩ := h.of_plain hc.plain (hc.ends.mono hn) (hc.ends.mono hc.size)
  exact .refl hu

theorem Along.goes (h : Along (Walked n) l u r u') (hu : Patched S t u) (hl : ∀ c ∈ l, Ahead S t m u c)
    (hgoes : ∀ c u r u', Ahead S t m u c → Patched S t u → Walked n c u r u' → Goes S t u r u') :
    Goes S t u r u' := by
  induction h with
  | nil => exact .refl hu
  | @cons c l u u₁ u' visits r first rest ih =>
    have hfirst := hgoes c u _ u₁ (hl c List.mem_cons_self) hu first
    have hquiet := hfirst.quiet visits rfl
    have hl₁ : ∀ d ∈ l, Ahead S t m u₁ d := fun d hd => (hl d (List.mem_cons_of_mem c hd)).imp_right (hquiet d)
    exact ((ih (hfirst.patched visits rfl) hl₁).after hquiet).map _
  | @stop c l u u' e first => exact hgoes c u _ u' (hl c List.mem_cons_self) hu first

/-- The pass gets through what was there at first with four levels to spare. -/
theorem Walked.goes (hS : t.Closed S) (hx : x ∈ S) (hm : t.EndsWithin m x) (hn : m + 4 ≤ n) (hu : Patched S t u)
    (h : Walked n x u r u') : Goes S t u r u' := by
  -- on the levels left below `x` in the tree at first; the tree has been patched since
  induction m generalizing n x u r u' with
  | zero => exact hm.elim
  | succ m ih =>
    obtain ⟨n, rfl⟩ : ∃ k, n = k + 1 := ⟨n - 1, by omega⟩
    rcases h with ⟨e, rfl, hfault⟩ | ⟨u₁, r₁, hnode, hbelow, rfl⟩
    · exact .of_error hfault.faulty.cause_ne
    · have hu₁ := hu.turn hS hx hnode
      have hahead : ∀ c ∈ u₁.children x, Ahead S t m u₁ c := fun c hc =>
        (hu₁.child x hx c hc).imp_left fun hold => ⟨hS.child x hx c hold, hm c hold⟩
      have hrest : Goes S t u₁ r₁ u' := hbelow.goes hu₁ hahead fun c v r v' hc hv hw => by
        rcases hc with ⟨hcS, hends⟩ | hquiet
        · exact ih hcS hends (by omega) hv hw
        · exact hw.goes_of_quiet hv (by omega) hquiet
      exact (hrest.after fun c => hu.quiet hS hx hnode).map _

end Walk

/-! ## The whole program -/

namespace Tree

variable {t : Tree}

theorem EndsWithin.grounded {n x : Nat} (h : t.EndsWithin n x) : t.Grounded x := by
  induction n generalizing x with
  | zero => exact h.elim
  | succ n ih => exact .intro fun c hc => ih (h c hc)

/-- If child lists lead in no circle, the loop of the second pass cannot go on for ever.
It takes turn after turn until it ends with what the pass answers, and child lists
lead in no circle then. -/
theorem concretize_terminates (h : t.Acyclic) :
    Acc (fun after before => Pass.Loop.Turn before after) ⟨[root], { tree := t }, []⟩ ∧
    (∀ l, Pass.Loop.Turns ⟨[root], { tree := t }, []⟩ l →
      (∃ l', Pass.Loop.Turn l l') ∨ l.Ends t.uri t.concretize) ∧
    t.concretize.tree.Acyclic := by
  have hroot : t.Reachable root := .refl t root
  have hends := h.endsWithin hroot
  have hclosed : t.Closed { x | t.Reachable x } := .below h.bounded
  -- however the pass ends, it has walked the tree
  have hacyclic : ∀ r u, Walked (Pass.depthBound t) root t r u → u.Acyclic := fun r u hw =>
    have hev := hw.worked.evolves
    .of_closed (hev.closed hclosed) (.inl hroot) (hev.keepsGrounded hends.grounded)
  obtain ⟨l, hturns, hlast, htree⟩ : ∃ l, Pass.Loop.Turns ⟨[root], { tree := t }, []⟩ l ∧
      l.Ends t.uri t.concretize ∧ t.concretize.tree.Acyclic := by
    rcases t.concretize_cases with ⟨visits, w, hyields, heq⟩ | ⟨e, w, hstops, heq⟩
    · have hturns := Pass.turns_of_yields hyields [] []
      exact ⟨_, hturns, heq ▸ .done, heq ▸ hacyclic _ _ (Pass.walked_of_yields hyields)⟩
    · have hwalk := Pass.walked_of_stops hstops
      have hcause := (hwalk.goes hclosed hroot hends le_rfl (.refl _ t)).stops e rfl
      obtain ⟨l, hturns, hlast⟩ := Pass.turns_of_stops t.uri hstops hcause [] []
      exact ⟨l, hturns, heq ▸ hlast, heq ▸ hacyclic _ _ hwalk⟩
  exact ⟨hlast.acc hturns, fun l' hturns' => hlast.turn_or_ends hturns hturns', htree⟩

end Tree

namespace Sample

/-- A shadow type over another one, with a field of a third whose expression carries
no type. -/
def layered : Shadow Ty where
  name := "Layered"
  shadowedName := "Statement"
  discriminant := "LAYERED"
  discriminantTy := Statement.kindTy
  fields := [⟨"inner", Statement.entry "statements" 0, .shadow Statement.exprStmt⟩]
  shadowedTy? := .some (.shadow Statement.returnStatement)
  typesFields := false

/-- An access that stands twice in the program, and a declaration with a chain
that has no step. -/
def layers : Tree := built do
  let stmt ← access "s" "inner" (.shadow layered) Env.global
  attach stmt
  attach stmt
  let var ← Build.typed (.shadow Statement.exprStmt) (Build.ident "s" Env.global)
  let chain ← Build.factor var [] Env.global
  attach (← Build.typed (.shadow layered) (Build.varDecl "d" .none (.some chain) Env.global))

/-- The loop comes to the access twice, then to the chain, where it stops. -/
theorem layers_terminates :
    layers.Acyclic ∧ ¬ (layers.preOrder Tree.root).Nodup ∧ layers.size < layers.concretize.tree.size ∧
    layers.concretize.result = .error ⟨.emptyChain "ExprStmt", .none⟩ ∧
    Acc (fun after before => Pass.Loop.Turn before after) ⟨[Tree.root], { tree := layers }, []⟩ ∧
    (∀ l, Pass.Loop.Turns ⟨[Tree.root], { tree := layers }, []⟩ l →
      (∃ l', Pass.Loop.Turn l l') ∨ l.Ends layers.uri layers.concretize) ∧
    layers.concretize.tree.Acyclic := by
  have hbuilt : layers.BuiltUp := by decide +kernel
  exact ⟨hbuilt.acyclic, by decide +kernel, by decide +kernel, by decide +kernel,
    Tree.concretize_terminates hbuilt.acyclic⟩

end Sample

end Penumbra
