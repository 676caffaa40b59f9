/-
What the two passes leave as it was.

Nodes are added behind those there are, and no pass touches the scope or the span
of a node that was there. Lowering works on visitors, on the bodies of their arms
and on the parents of the bodies of their shadow arms (`LoweringFrame`); the
second pass works on accesses and on the written types of declarations
(`ConcretizingFrame`). Both hold for every turn of a pass, also for one that
stops, so they hold however far a pass comes.
-/
import Penumbra.Proofs.Lower.ParentLinks
import Penumbra.Proofs.Lower.MalformedVisitors
import Penumbra.Proofs.Concrete.NodeTurns

namespace Penumbra

open Tree

variable {t u u' : Tree} {V x : Nat} {l : List Nat} {e : Fault}

/-! ## Lowering -/

/-- `t'` is `t` with nodes added and with other kinds at visitors and at bodies of
their arms that take statements. The bodies of shadow arms have new parents, and
no other node has. -/
structure Tree.LoweringFrame (t t' : Tree) : Prop extends Grows t t' where
  changed : ∀ y : Nat, y < t.size → t'.kind y ≠ t.kind y →
    t.Reachable y ∧ t.isVisitor y = true ∨ ∃ V, t.Reachable V ∧ t.BodyOf V y
  parent : Relinked { y | ∃ V, t.Reachable V ∧ t.ShadowBody V y } t t'

theorem VisitorHalted.grows (h : VisitorHalted V u e u') : u.Grows u' := by
  cases h with
  | arm | wildcard => exact .refl u
  | family _ _ _ families =>
    obtain ⟨before, f, after, m, v, -, merged, halted⟩ := families.split
    exact merged.grows.trans halted.extends.grows

theorem VisitorHalted.kind_eq (h : VisitorHalted V u e u') (hx : x < u.size) (hbody : ¬ u.BodyOf V x) :
    u'.kind x = u.kind x := by
  cases h with
  | arm | wildcard => rfl
  | @family arms wildcard s w e v kind sorted wild families =>
    have hs := sorts sorted
    obtain ⟨before, f, after, m, v₁, -, merged, halted⟩ := families.split
    rw [halted.extends.kind x (hx.trans_le merged.grows.size_le)]
    refine merged.kind_eq hx hs.kept_lt fun arm harm p c hk => ?_
    by_contra hstmts
    exact hbody ⟨hstmts, arms, wildcard, arm, p, c, kind, (hs.mem_kept harm).1, hk⟩

theorem Pending.shadowBody {b : Nat} (h : Pending t u l) (hf : t.Formed) (hV : V ∈ l) (hb : u.ShadowBody V b) :
    t.ShadowBody V b := by
  obtain ⟨arms, wildcard, arm, p, a, kind, harm, hr, hbody⟩ := hb
  rw [h.kind V hV] at kind
  have hlt := hf.child V (lt_size_of_kind kind (by simp)) arm (arm_mem_children kind harm)
  exact ⟨arms, wildcard, arm, p, a, kind, harm, (h.later.shadowArm? hf hlt).mp hr, hbody⟩

/-- A run on the rooted tree `t` has come to `u`, with the visitors of `l` still to
be lowered. -/
structure Midway (t u : Tree) (l : List Nat) : Prop where
  pending : Pending t u l
  rooted : u.Rooted
  queued : Queued u l
  reachable : ∀ W ∈ l, t.Reachable W
  frame : t.LoweringFrame u

namespace Midway

theorem start (hf : t.Formed) (hr : t.Rooted) : Midway t t ((t.postOrder root).filter t.isVisitor) where
  pending := hr.pending hf
  rooted := hr
  queued := hr.queued
  reachable _ hW := reaches_of_mem_postOrder (List.mem_of_mem_filter hW)
  frame := ⟨.refl t, fun _ _ hne => absurd rfl hne, .refl _ t⟩

variable (hf : t.Formed)
include hf

/-- What the turn of a visitor may change is within what the run may change. -/
theorem frame_turn (h : Midway t u (V :: l)) (hg : u.Grows u')
    (hkind : ∀ y : Nat, y < u.size → y ≠ V → ¬ u.BodyOf V y → u'.kind y = u.kind y)
    (hparent : Relinked { b | u.ShadowBody V b } u u') : t.LoweringFrame u' := by
  have hV : V ∈ V :: l := List.mem_cons_self
  refine ⟨h.frame.toGrows.trans hg, fun y hy hne => ?_, ?_⟩
  · by_cases hyV : y = V
    · subst hyV
      exact .inl ⟨h.reachable y hV, h.pending.visitor y hV⟩
    by_cases hb : u.BodyOf V y
    · exact .inr ⟨V, h.reachable V hV, h.pending.bodyOf hf hV hb⟩
    rw [hkind y (hy.trans_le h.frame.size_le) hyV hb] at hne
    exact h.frame.changed y hy hne
  · refine h.frame.parent.trans h.frame.size_le (hparent.mono fun b hb => ?_) hg
    exact ⟨V, h.reachable V hV, h.pending.shadowBody hf hV hb⟩

theorem next (h : Midway t u (V :: l)) (hV : VisitorLowered V u u') : Midway t u' l := by
  have hfu := h.pending.formed
  have hVu := h.queued.reachable V List.mem_cons_self
  exact ⟨h.pending.next hf hV, hV.rooted hfu h.rooted hVu, h.queued.next hfu (hV.confined hfu hVu),
    fun W hW => h.reachable W (List.mem_cons_of_mem _ hW),
    h.frame_turn hf hV.grows (fun _ hy => hV.kind_eq hy) (hV.relinked hfu h.rooted hVu)⟩

theorem halt (h : Midway t u (V :: l)) (hV : VisitorHalted V u e u') : t.LoweringFrame u' :=
  h.frame_turn hf hV.grows (fun _ hy _ => hV.kind_eq hy)
    (hV.relinked h.pending.formed h.rooted (h.queued.reachable V List.mem_cons_self))

theorem run {before after : List Nat} (h : Midway t u (before ++ after)) (hc : Chain VisitorLowered before u u') :
    Midway t u' after := by
  induction hc with
  | nil => exact h
  | cons first _ ih => exact ih (h.next hf first)

end Midway

/-- However far the first pass comes. -/
theorem Tree.lower_frame (hf : t.Formed) (hr : t.Rooted) : t.LoweringFrame t.lower.tree := by
  have hstart := Midway.start hf hr
  cases hresult : t.lower.result with
  | ok _ =>
    rw [← List.append_nil ((t.postOrder root).filter t.isVisitor)] at hstart
    exact (hstart.run hf (t.lowering_chain hresult)).frame
  | error e =>
    obtain ⟨w', hstops, htree⟩ := Pass.outcome_error.mp hresult
    obtain ⟨before, V, after, bs, w, hsplit, hbefore, hV⟩ := Pass.stops_lower.mp hstops
    rw [hsplit] at hstart
    have hhalt := (hstart.run hf (Pass.chain_of_yields hbefore)).halt hf (Pass.stops_lowerVisitor hV)
    rwa [htree] at hhalt

/-! ## The second pass -/

/-- `x` is an access to a variable of a shadow type. It has a new operand, and its
first step is gone. -/
def Tree.Shortened (t t' : Tree) (x : NodeId) : Prop :=
  t.Reachable x ∧ ∃ operand first rest s p, t.kind x = .factor operand (first :: rest) ∧
    t.shadow? operand = .some s ∧ t.size ≤ p ∧ t'.kind x = .factor p rest

/-- `a` is the type that is written at a declaration of a shadow type. It says the
concrete type's name. -/
def Tree.Renamed (t t' : Tree) (a : NodeId) : Prop :=
  ∃ x name s old, t.Reachable x ∧ t.shadowDecl? x = .some (name, .some a, s) ∧ t.kind a = .ident old ∧
    t'.kind a = .ident s.shadowedName

/-- `t'` is `t` with nodes added and with other kinds at accesses and at written
types. No node has another parent. -/
structure Tree.ConcretizingFrame (t t' : Tree) : Prop where
  size_le : t.size ≤ t'.size
  scope : ∀ y < t.size, t'.scope y = t.scope y
  span : ∀ y < t.size, t'.span y = t.span y
  parent : ∀ y < t.size, t'.parent y = t.parent y
  kind : ∀ y < t.size, t'.kind y = t.kind y ∨ t.Shortened t' y ∨ t.Renamed t' y

namespace Tree.ConcretizingFrame

theorem refl (t : Tree) : t.ConcretizingFrame t :=
  ⟨le_rfl, fun _ _ => rfl, fun _ _ => rfl, fun _ _ => rfl, fun _ _ => .inl rfl⟩

/-- Work below some nodes changes neither scopes nor spans nor parents, so only
kinds are to be looked at. -/
theorem turn (h : t.ConcretizingFrame u) (hw : Worked l u u')
    (hkind : ∀ y < t.size, u'.kind y = u.kind y ∨ u'.kind y = t.kind y ∨ t.Shortened u' y ∨ t.Renamed u' y) :
    t.ConcretizingFrame u' := by
  have hframe := fun y (hy : y < t.size) => hw.frame y (hy.trans_le h.size_le)
  refine ⟨h.size_le.trans hw.evolves.size_le, fun y hy => (hframe y hy).1.trans (h.scope y hy),
    fun y hy => (hframe y hy).2.1.trans (h.span y hy), fun y hy => (hframe y hy).2.2.trans (h.parent y hy), fun y hy => ?_⟩
  rcases hkind y hy with hsame | hnew
  · unfold Shortened Renamed
    rw [hsame]
    exact h.kind y hy
  · exact hnew

end Tree.ConcretizingFrame

section Walk

variable {m n : Nat} {done kept : List NodeId} {quiet : List Visit} {r : Except Fault (List Visit)}

theorem NodeWalked.frame (h : NodeWalked x t u u' done kept quiet) (hx : t.Reachable x) (hu : t.ConcretizingFrame u) :
    t.ConcretizingFrame u' := by
  refine hu.turn h.worked fun y hy => ?_
  by_cases hyx : y = x
  · subst hyx
    refine .inr (h.chain.imp_right fun hchain => .inl ?_)
    obtain ⟨operand, first, rest, s, p, kind, shadow, hp, hk⟩ := hchain
    exact ⟨hx, operand, first, rest, s, p, kind, shadow, hu.size_le.trans hp, hk⟩
  by_cases hdone : y ∈ done
  · refine .inr ((h.written y hdone).imp_right fun hwritten => .inr ?_)
    obtain ⟨name, s, old, decl, hold, hk⟩ := hwritten
    exact ⟨x, name, s, old, hx, decl, hold, hk⟩
  · exact .inl (congrArg Node.kind (h.others y (hy.trans_le hu.size_le) hyx hdone))

theorem NodeHalted.frame (h : NodeHalted x u e u') (hx : t.Reachable x) (hxu : Intact x t u)
    (hu : t.ConcretizingFrame u) : t.ConcretizingFrame u' := by
  have hw := h.worked
  cases h with
  | untouched => exact hu
  | @retyped name ascription s decl written =>
    have decl' := (hxu.below.shadowDecl? hxu.types).symm.trans decl
    refine hu.turn hw fun y hy => ?_
    have hkind : (((u.reascribed ascription s).setTy x s.shadowedTy).setTy name s.shadowedTy).kind y =
        (u.reascribed ascription s).kind y := by simp [setTy]
    by_cases ha : y ∈ ascription
    · obtain rfl : ascription = .some y := ha
      obtain ⟨old, hold⟩ := written y rfl
      have hxy : t.Reaches x y := Reaches.tail (.refl t x) ((children_shadowDecl decl').2 y rfl)
      refine .inr (.inr (.inr ⟨x, name, s, old, hx, decl', (hxu.below.kind hxy).symm.trans hold, ?_⟩))
      rw [hkind, kind_reascribed, if_pos ⟨rfl, hy.trans_le hxu.size_le⟩]
    · rw [hkind, kind_reascribed, if_neg fun h => ha h.1]
      exact .inl rfl

theorem Along.frame {R : NodeId → Tree → Except Fault (List Visit) → Tree → Prop}
    (hR : ∀ c ∈ l, ∀ u r u', R c u r u' → t.ConcretizingFrame u → t.ConcretizingFrame u')
    (h : Along R l u r u') (hu : t.ConcretizingFrame u) : t.ConcretizingFrame u' := by
  induction h with
  | nil => exact hu
  | @cons c l u u₁ u' visits r first _ ih =>
    exact ih (fun d hd => hR d (List.mem_cons_of_mem _ hd)) (hR c List.mem_cons_self _ _ _ first hu)
  | @stop c l u u' e first => exact hR c List.mem_cons_self _ _ _ first hu

theorem Walked.frame (hr : t.Rooted) (hx : t.Reachable x) (hxu : Intact x t u) (hm : t.EndsWithin m x) (hn : m + 4 ≤ n)
    (h : Walked n x u r u') (hu : t.ConcretizingFrame u) : t.ConcretizingFrame u' := by
  -- one level of `t` for each level of the walk, as where the first fault is sought
  induction m generalizing n x u r u' with
  | zero => exact hm.elim
  | succ m ih =>
    obtain ⟨n, rfl⟩ : ∃ n', n = n' + 1 := ⟨n - 1, by omega⟩
    rcases h.turn hr hx hxu (by omega) with ⟨e, -, hhalt⟩ | ⟨v, done, kept, quiet, r₁, -, hturn, hrest, -⟩
    · exact hhalt.frame hx hxu hu
    · refine hrest.frame (fun c hc v r v' hcv hv => ?_) (hturn.frame hx hu)
      have hmem : c ∈ t.children x := by
        rw [hturn.children]
        exact List.mem_append_right _ hc
      exact ih (Reaches.tail hx hmem) hcv.1 (hm c hmem) (by omega) hcv.2 hv

end Walk

/-- However far the second pass comes. -/
theorem Tree.concretize_frame (hr : t.Rooted) : t.ConcretizingFrame t.concretize.tree := by
  have hroot : t.Reachable root := .refl t root
  have hwalk : ∀ {r t'}, Walked (Pass.depthBound t) root t r t' → t.ConcretizingFrame t' := fun h =>
    h.frame hr hroot (.refl root t) (hr.endsWithin hroot) (Nat.le_refl _) (.refl t)
  rcases t.concretize_cases with ⟨visits, w, h, heq⟩ | ⟨e, w, h, heq⟩
  · rw [heq]
    exact hwalk (Pass.walked_of_yields h)
  · rw [heq]
    exact hwalk (Pass.walked_of_stops h)

/-- Both passes leave the nodes of a program as they were, except for what they
are about, whether they come to an end or stop. -/
theorem Tree.passes_frame (hf : t.Formed) (hr : t.Rooted) :
    t.LoweringFrame t.lower.tree ∧ t.ConcretizingFrame t.concretize.tree :=
  ⟨lower_frame hf hr, concretize_frame hr⟩

namespace Sample

/-- An access, then a visitor in an arm of a visitor whose wildcard is not an arm,
then an access to a field that the type does not have. -/
def interrupted : Tree := built do
  modify (·.modifyEnv (Statement.declare · Env.global))
  attach (← access "s" "expression" (.shadow Statement.exprStmt) Env.global)
  let inner ← around (← Build.exprStmt (← Build.call "done" [] Env.global) Env.global)
  let shadow ← arm .before "s" "ExprStmt" (.shadow Statement.exprStmt) fun _ => return [inner]
  let visitor ← Build.visitor [shadow] (.some (← Build.block [] Env.global)) Env.global
  attach (← Build.exprStmt visitor Env.global)
  attach (← access "s" "value" (.shadow Statement.exprStmt) Env.global)

/-- Both passes stop halfway. By then the first has moved the body of the inner
shadow arm, and the second has replaced the first access. -/
theorem interrupted_frames :
    interrupted.Formed ∧ interrupted.Rooted ∧
    interrupted.lower.result = .error ⟨.expected .wildcardArm "block", .none⟩ ∧
    interrupted.concretize.result = .error ⟨.lookup (.unknownField "value" "ExprStmt"), .none⟩ ∧
    interrupted.lower.tree.parent 12 ≠ interrupted.parent 12 ∧
    interrupted.concretize.tree.kind 4 ≠ interrupted.kind 4 ∧
    interrupted.LoweringFrame interrupted.lower.tree ∧
    interrupted.ConcretizingFrame interrupted.concretize.tree := by
  have hlinked : interrupted.Linked := by decide +kernel
  have hr := hlinked.owned.rooted hlinked.formed
  obtain ⟨hlower, hconcretize⟩ := Tree.passes_frame hlinked.formed hr
  exact ⟨hlinked.formed, hr, by decide +kernel, by decide +kernel, by decide +kernel, by decide +kernel, hlower, hconcretize⟩

end Sample

end Penumbra
