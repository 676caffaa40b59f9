/-
Lowering leaves no shadow arm.

A run goes through the visitors that the program has at first. Visitors that
come in with copies of wildcard bodies are not gone through, but what they are
copied from lies below a visitor, so the visitors in there had been lowered.
That the binder of an arm has no shadow type can be told from the types found
and from what type names meant at first (`ConcreteArm`), and both go along
with copies. A second run has nothing to do.
-/
import Penumbra.Proofs.Lower.Dispatch
import Penumbra.Proofs.Erase.FitNodes
import Penumbra.Proofs.Erase.Idempotence

namespace Penumbra

open Tree

variable {t t' u u' v : Tree} {e : Env} {V : Nat} {arms : List NodeId} {wildcard : Option NodeId} {f : Family}

namespace Tree

/-- The arm's binder has no shadow type, if type names mean what they mean in
`e`. -/
def ConcreteArm (e : Env) (t : Tree) (arm : NodeId) : Prop :=
  ∃ p c body name ascription, t.kind arm = .arm p (.some c) body ∧ t.kind c = .component name ascription ∧
    (t.ty c = .none → t.scope ascription < e.size) ∧ (t.under e).declaredShadow? c ascription = .none

/-- None of the node's arms, if it has any, has a binder of a shadow type. -/
def Spent (e : Env) (t : Tree) (x : NodeId) : Prop :=
  ∀ arms wildcard, t.kind x = .visitor arms wildcard → ∀ a ∈ arms, t.ConcreteArm e a

namespace ConcreteArm

variable {arm : Nat}

theorem grows (h : t.ConcreteArm e arm) (hg : t.Grows t') (hlt : ∀ y : Nat, t.Reaches arm y → y < t.size) :
    t'.ConcreteArm e arm := by
  obtain ⟨p, c, body, name, ascription, hk, hkc, hscope, hd⟩ := h
  have hc : t.Reaches arm c := .single (binder_mem_children hk)
  have ha := hlt ascription (hc.tail (ascription_mem_children hkc))
  refine ⟨p, c, body, name, ascription, (hg.kind_iff (hlt arm (.refl t arm)) rfl (by simp)).mpr hk,
    (hg.kind_iff (hlt c hc) rfl (by simp)).mpr hkc, ?_, ?_⟩
  · rw [hg.ty c (hlt c hc), hg.scope ascription ha]
    exact hscope
  · rw [declaredShadow?, hg.declaredTy?_under (hlt c hc) ha]
    exact hd

theorem copies {φ : Nat → Nat} {D : Set Nat} (h : t.Folds φ D) (harm : arm ∈ D) (hφ : t.ConcreteArm e (φ arm)) :
    t.ConcreteArm e arm := by
  obtain ⟨p, c', body', name', ascription', hk', hkc', hscope, hd⟩ := hφ
  obtain ⟨c, body, hk, rfl, -⟩ := Kind.map_eq_arm ((h.kind arm harm).trans hk')
  have hc : c ∈ D := h.child arm harm c (binder_mem_children hk)
  obtain ⟨name, ascription, hkc, -, rfl⟩ := Kind.map_eq_component ((h.kind c hc).trans hkc')
  have ha : ascription ∈ D := h.child c hc ascription (ascription_mem_children hkc)
  refine ⟨p, c, body, name, ascription, hk, hkc, ?_, ?_⟩
  · rw [h.ty c hc, h.scope ascription ha]
    exact hscope
  · rw [declaredShadow?, (h.under e).resembles.declaredTy? hc ha]
    exact hd

theorem shadowArm? (h : t.ConcreteArm e arm) (he : e.SameTypes t.env) (hn : e.Nested) : t.shadowArm? arm = .ok .none := by
  obtain ⟨p, c, body, name, ascription, hk, hkc, hscope, hd⟩ := h
  rw [declaredShadow?, declaredTy?_under he hn hscope] at hd
  exact shadowArm?_ok.mpr ⟨p, c, body, name, ascription, hk, hkc, .inl ⟨hd, rfl⟩⟩

theorem of_read (hf : t.Formed) (hr : t.shadowArm? arm = .ok .none) : t.ConcreteArm t.env arm := by
  obtain ⟨p, c, body, name, ascription, hk, hkc, hcase⟩ := shadowArm?_ok.mp hr
  have hd := (hcase.resolve_right (by simp)).1
  have hc := hf.child arm (shadowArm?_lt hr) c (binder_mem_children hk)
  have hscope := hf.scope ascription (hf.child c hc ascription (ascription_mem_children hkc))
  refine ⟨p, c, body, name, ascription, hk, hkc, fun _ => hscope, ?_⟩
  rw [declaredShadow?, declaredTy?_under (.refl _) hf.nested fun _ => hscope]
  exact hd

end ConcreteArm

theorem lasting_spent (e : Env) : Lasting (Spent e) fun _ => True :=
  .of_arms (fun _ _ _ hg hlt h => h.grows hg hlt) fun _ _ _ _ h ha => .copies h ha

end Tree

theorem MadeArm.concreteArm {n : Nat} (h : MadeArm f n v) (hty : f.first.shadow.shadowedTy.isShadow = false) :
    v.ConcreteArm e (n + 4) := by
  refine ⟨f.phase, n + 2, n + 3, n, n + 1, h.arm, h.component, fun hnone => ?_, ?_⟩
  · rw [h.ty] at hnone
    cases hnone
  · rw [declaredShadow?, declaredTy?, ty_under, h.ty]
    simpa [Ty.isShadow] using hty

/-- A lowered visitor is spent: what it has left are arms without a shadow type,
and arms made for its families. -/
theorem VisitorLowered.spent (h : VisitorLowered V u u') (hf : u.Formed) (hV : u.kind V = .visitor arms wildcard)
    (hty : ∀ a ∈ arms, ∀ q b, u.shadowArm? a = .ok (.some (q, b)) → b.shadow.shadowedTy.isShadow = false)
    (hconcrete : ∀ a ∈ arms, u.shadowArm? a = .ok .none → u.ConcreteArm e a) : u'.Spent e V := by
  have hgrows := h.grows
  have hlt : ∀ a : Nat, a ∈ arms → ∀ y : Nat, u.Reaches a y → y < u.size := fun a ha y hy =>
    hf.closed.reaches (hf.child V (lt_size_of_kind hV (by simp)) a (arm_mem_children hV ha)) hy
  cases h with
  | other hv => simp [isVisitor, hV] at hv
  | plain kind sorted none =>
    intro arms' wildcard' hk a ha
    obtain ⟨rfl, -⟩ := Kind.visitor.inj (hV.symm.trans kind)
    obtain ⟨rfl, -⟩ := Kind.visitor.inj (hV.symm.trans hk)
    exact hconcrete a ha ((sorts sorted).families_eq_nil.mp none a ha)
  | @merged _ _ s w m v kind sorted some wild families =>
    intro arms' wildcard' hk a ha
    obtain ⟨rfl, -⟩ := Kind.visitor.inj (hV.symm.trans kind)
    have hs := sorts sorted
    have hVv := (lt_size_of_kind kind (by simp)).trans_le families.grows.size_le
    rw [kind_withArms, if_pos ⟨rfl, hVv⟩] at hk
    obtain ⟨rfl, -⟩ := Kind.visitor.inj hk
    rcases families.madeArm_cases ha with ha | ⟨f, hmem, n, rfl, hmade⟩
    · obtain ⟨ha, hr⟩ := hs.mem_kept ha
      exact (hconcrete a ha hr).grows hgrows (hlt a ha)
    · obtain ⟨a, ha, hr, -⟩ := hs.mem_family hmem (List.mem_cons_self : f.first ∈ f.arms)
      exact (hmade.mono (.withArms v V m.arms _ (families.isVisitor kind))).concreteArm (hty a ha _ _ hr)

/-! ## The whole run -/

/-- A run on `t` has come to `u`, with the nodes of `rest` still to be gone
through; those of `S` are the nodes gone through and all that were added. -/
structure Spending (t : Tree) (rest : List Nat) (u : Tree) (S : Set Nat) : Prop where
  reachable : ∀ W ∈ rest, t.Reachable W
  pending : Pending t u (rest.filter t.isVisitor)
  spent : NodesIn (Spent t.env) u S

theorem VisitorLowered.eq_of_not_visitor (h : VisitorLowered V u u') (hV : u.isVisitor V = false) : u' = u := by
  cases h with
  | other | plain => rfl
  | merged kind => simp [isVisitor, kind] at hV

section Run

variable {S : Set Nat} {rest : List Nat} (hf : t.Formed)
  (hty : ∀ V p s, t.Reachable V → t.HasShadowArm V p s → s.shadowedTy.isShadow = false)
include hf hty

/-- A visitor is spent once the run has come to it. -/
theorem Pending.spent (h : Pending t u (V :: rest)) (hV : t.Reachable V) (hVu : VisitorLowered V u u') :
    u'.Spent t.env V := by
  obtain ⟨arms, wildcard, hk⟩ := isVisitor_iff.mp (h.visitor V List.mem_cons_self)
  have harm : ∀ a : Nat, a ∈ arms → a < t.size := fun a ha => hf.child V (hf.bounded hV) a (arm_mem_children hk ha)
  refine hVu.spent h.formed ((h.kind V List.mem_cons_self).trans hk) (fun a ha q b hr => ?_) fun a ha hr => ?_
  · rw [h.later.shadowArm? hf (harm a ha)] at hr
    exact hty V q b.shadow hV (.of_read hk ha hr)
  · rw [h.later.shadowArm? hf (harm a ha)] at hr
    exact (ConcreteArm.of_read hf hr).grows h.later.grows fun y hy => hf.closed.reaches (harm a ha) hy

theorem Spending.next (h : Spending t (V :: rest) u S) (hS : u.Closed S) (hbelow : ∀ c ∈ u.children V, c ∈ S)
    (hVu : VisitorLowered V u u') : Spending t rest u' (S ∪ {V} ∪ fresh u u') := by
  have hV := h.reachable V List.mem_cons_self
  have hpend := h.pending
  obtain ⟨hnext, hself⟩ : Pending t u' (rest.filter t.isVisitor) ∧ u'.Spent t.env V := by
    cases hv : t.isVisitor V with
    | true =>
      rw [List.filter_cons_of_pos hv] at hpend
      exact ⟨hpend.next hf hVu, hpend.spent hf hty hV hVu⟩
    | false =>
      rw [List.filter_cons_of_neg (by simp [hv])] at hpend
      have hvu : u.isVisitor V = false := (hpend.later.grows.isVisitor (hf.bounded hV)).trans hv
      obtain rfl := hVu.eq_of_not_visitor hvu
      exact ⟨hpend, fun arms wildcard hk => by simp [isVisitor, hk] at hvu⟩
  refine ⟨fun W hW => h.reachable W (List.mem_cons_of_mem _ hW), hnext, fun x hx => ?_⟩
  by_cases hxV : x = V
  · exact hxV ▸ hself
  · exact hVu.lasting (lasting_spent _) (fun _ _ _ _ _ _ _ _ => trivial) hS hbelow h.spent
      (hx.imp_left fun hx => hx.resolve_right hxV) hxV

/-- After the run no arm of a visitor of the program can be read as a shadow arm,
in copies neither. -/
theorem shadowArm?_of_lowered (ho : t.Owned) (h : Chain VisitorLowered ((t.postOrder root).filter t.isVisitor) t t')
    (hV : t'.Reachable V) (hk : t'.kind V = .visitor arms wildcard) : ∀ a ∈ arms, t'.shadowArm? a = .ok .none := by
  have hstart : Spending t (t.postOrder root) t ∅ :=
    ⟨fun W hW => reaches_of_mem_postOrder hW, ⟨.refl t, hf, ho.nodup_postOrder.filter _,
      fun W hW => (List.mem_filter.mp hW).2, fun _ _ => rfl⟩, fun x hx => hx.elim⟩
  obtain ⟨S, hS, hend, hroot⟩ := exists_closed (fun V rest u u' S hS _ hbelow hVu hu => hu.next hf hty hS hbelow hVu)
    (ho.acyclic hf) h hstart
  intro a ha
  exact (hend.spent V (hS.reaches hroot hV) arms wildcard hk a ha).shadowArm? hend.pending.later.types hf.nested

end Run

/-- Lowering is complete: where it ends without a fault, no visitor of the program
has an arm of a shadow type left, be it an old one or one in a copy. Lowering
again changes nothing. -/
theorem Tree.lower_leaves_no_shadow_arm (hf : t.Formed) (ho : t.Owned)
    (hty : ∀ V p s, t.Reachable V → t.HasShadowArm V p s → s.shadowedTy.isShadow = false)
    (hok : t.lower.result = .ok ()) :
    (∀ V p s, t.lower.tree.Reachable V → ¬ t.lower.tree.HasShadowArm V p s) ∧
      t.lower.tree.lower.result = .ok () ∧ t.lower.tree.lower.tree = t.lower.tree := by
  have hchain := t.lowering_chain hok
  refine ⟨fun V p s hV hs => ?_, Pass.outcome_of_leads (Pass.leads_lower.mpr (.const fun x hx => ?_))⟩
  · obtain ⟨arms, wildcard, hk, -⟩ := id hs
    have hnone := shadowArm?_of_lowered hf hty ho hchain hV hk
    obtain ⟨arm, harm, a, hr, -⟩ := hs.mem hk fun a ha => ⟨_, hnone a ha⟩
    rw [hnone arm harm] at hr
    cases hr
  · exact lowered_self fun arms wildcard => shadowArm?_of_lowered hf hty ho hchain
      (reaches_of_mem_postOrder (List.mem_of_mem_filter hx))

namespace Sample

/-- A visitor with one shadow arm, and the statement in its wildcard. -/
def around (stmt : NodeId) : Build NodeId := do
  let shadow ← arm .after "r" "ReturnStatement" (.shadow Statement.returnStatement) fun _ => return []
  let body ← Build.block [stmt] Env.global
  let wildcard ← Build.arm .after .none body Env.global
  let visitor ← Build.visitor [shadow] (.some wildcard) Env.global
  Build.exprStmt visitor Env.global

/-- A visitor in the wildcard of a visitor. -/
def nested : Tree := built do
  modify (·.modifyEnv (Statement.declare · Env.global))
  let call ← Build.call "done" [] Env.global
  let stmt ← Build.exprStmt call Env.global
  attach (← around (← around stmt))

/-- The inner visitor is lowered, then copied with the wildcard of the outer one,
and its copy, which is new, has no shadow arm either. -/
theorem nested_lowered :
    (nested.Formed ∧ nested.Owned ∧ nested.lower.result = .ok () ∧ nested.Reachable 11 ∧
      nested.HasShadowArm 11 .after Statement.returnStatement ∧
      ∀ V p s, nested.Reachable V → nested.HasShadowArm V p s → s.shadowedTy.isShadow = false) ∧
    (nested.size ≤ 60 ∧ nested.lower.tree.Reachable 60 ∧ nested.lower.tree.isVisitor 60 = true) ∧
    (∀ V p s, nested.lower.tree.Reachable V → ¬ nested.lower.tree.HasShadowArm V p s) ∧
      nested.lower.tree.lower.result = .ok () ∧ nested.lower.tree.lower.tree = nested.lower.tree := by
  have hlinked : nested.Linked := by decide +kernel
  have hlower : nested.lower.result = .ok () := Outcome.ok_of_isOk (by decide +kernel)
  have hreach : nested.Reachable 11 := Tree.reaches_of_mem_postOrder (by decide +kernel)
  have hconcrete : ∀ s ∈ nested.declaredShadows, s.shadowedTy.isShadow = false := by decide +kernel
  have hty := fun V p s (_ : nested.Reachable V) (hs : nested.HasShadowArm V p s) => hconcrete s hs.mem_declaredShadows
  refine ⟨⟨hlinked.formed, hlinked.owned, hlower, hreach, ?_, hty⟩,
    ⟨by decide +kernel, Tree.reaches_of_mem_postOrder (by decide +kernel), by decide +kernel⟩,
    Tree.lower_leaves_no_shadow_arm hlinked.formed hlinked.owned hty hlower⟩
  exact ⟨[8], .some 10, by decide +kernel, 8, by simp, 6, 7, 4, 5, by decide +kernel, by decide +kernel, rfl⟩

end Sample

end Penumbra
