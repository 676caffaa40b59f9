/-
Erasing twice is erasing once.

After a run of `erase` that ended without a fault, no node of the program
mentions a shadow type (`Clean`). A shadow arm, a declaration of a shadow type,
and a chain or identifier to be made concrete would all be such nodes, and every
visitor of the program is well-shaped, those that came in with copies
included. A second run therefore goes through the program and leaves each
node alone.
-/
import Penumbra.Erase.Basic
import Penumbra.Proofs.Tree.CheckedTrees
import Penumbra.Proofs.Concrete.TreeEvolution

namespace Penumbra

namespace Tree

variable {t : Tree} {x owner ascription : Nat} {n : Nat}

/-- No node of the program has to do with a shadow type. -/
def Clean (t : Tree) : Prop := ∀ x, t.Reachable x → t.mentionsShadow x = false

theorem residue_eq_nil (hac : t.Acyclic) : t.residue = [] ↔ t.Clean := by
  have hroot : t.EndsWithin t.size root := hac.endsWithin (.refl t root)
  simp only [residue, List.filter_eq_nil_iff, Clean, mem_preOrder hroot, Bool.not_eq_true]
  rfl

namespace Clean

variable (h : t.Clean)
include h

theorem ty (hx : t.Reachable x) : ∀ ty ∈ t.ty x, ty.isShadow = false := by
  intro ty hty
  have hm := h x hx
  simp only [mentionsShadow, Bool.or_eq_false_iff] at hm
  have hany := hm.1.1
  rw [Option.mem_def.mp hty] at hany
  exact hany

theorem shadow? (hx : t.Reachable x) : t.shadow? x = .none := by
  rw [Tree.shadow?]
  cases hty : t.ty x with
  | none => rfl
  | some ty => simpa [Ty.isShadow] using h.ty hx ty hty

theorem namesShadow (hx : t.Reachable x) : t.namesShadow x = false := by
  have hm := h x hx
  simp only [mentionsShadow, Bool.or_eq_false_iff] at hm
  exact hm.1.2

/-- All three places where a declared type is looked for are searched for
shadow types. -/
theorem declaredShadow? (ho : t.Reachable owner) (ha : t.Reachable ascription) :
    t.declaredShadow? owner ascription = .none := by
  have hns := h.namesShadow ha
  rw [Tree.declaredShadow?, declaredTy?]
  have howner := h.shadow? ho
  have hasc := h.shadow? ha
  rw [Tree.shadow?] at howner hasc
  cases hty : t.ty owner with
  | some ty => simpa [hty] using howner
  | none =>
    cases hty' : t.ty ascription with
    | some ty => simpa [hty'] using hasc
    | none =>
      rw [Tree.namesShadow] at hns
      cases htok : t.token? ascription with
      | none => rfl
      | some token =>
        rw [htok] at hns
        cases henv : t.env.getType? (t.scope ascription) token with
        | none => simp [henv]
        | some ty => simpa [henv, Ty.isShadow] using hns

theorem shadowArm? (hx : t.Reachable x) (hb : t.Binds x) : t.shadowArm? x = .ok .none := by
  obtain ⟨p, c, body, name, ascription, hkx, hkc⟩ := hb
  have hc : t.Reachable c := hx.tail (binder_mem_children hkx)
  have ha : t.Reachable ascription := hc.tail (ascription_mem_children hkc)
  exact shadowArm?_ok.mpr ⟨p, c, body, name, ascription, hkx, hkc, .inl ⟨h.declaredShadow? hc ha, rfl⟩⟩

theorem plain (hx : t.Reachable x) : t.Plain x := by
  have hchild : ∀ {k c}, t.kind x = k → c ∈ k.children → t.Reachable c := fun hk hc =>
    hx.tail (by rw [Tree.children, hk]; exact hc)
  refine ⟨?_, fun token hk => h.shadow? hx, fun operand steps hk => .inl (h.shadow? ?_)⟩
  · unfold shadowDecl?
    split
    next name ascription hk =>
      rw [h.declaredShadow? hx (hchild hk (by simp [Kind.children]))]
      rfl
    next name ascription init hk =>
      rw [h.declaredShadow? hx (hchild hk (by simp [Kind.children]))]
      rfl
    next name init hk =>
      rw [h.shadow? hx]
      rfl
    next => rfl
  · exact hchild hk (by simp [Kind.children])

end Clean

end Tree

open Tree

variable {t t' : Tree} {w : Work} {n x : Nat}

theorem Chain.const {α : Type} {R : α → Tree → Tree → Prop} {l : List α} (h : ∀ x ∈ l, R x t t) : Chain R l t t := by
  induction l with
  | nil => exact .nil
  | cons x l ih => exact .cons (h x (by simp)) (ih fun y hy => h y (by simp [hy]))

/-- Going through plain nodes leaves the tree alone. -/
theorem concreted_of_plain (hplain : ∀ y, t.Reaches x y → t.Plain y) (hx : t.EndsWithin n x) :
    Concreted n x t t := by
  induction n generalizing x with
  | zero => exact hx.elim
  | succ n ih =>
    refine ⟨t, .plain (hplain x (.refl t x)), .const fun c hc => ?_⟩
    exact ih (fun y hy => hplain y (.head hc hy)) (hx c hc)

theorem lowered_self (h : ∀ arms wildcard, t.kind x = .visitor arms wildcard → ∀ a ∈ arms, t.shadowArm? a = .ok .none) :
    VisitorLowered x t t := by
  cases hv : t.isVisitor x with
  | false => exact .other hv
  | true =>
    obtain ⟨arms, wildcard, hk⟩ := isVisitor_iff.mp hv
    have hnone := h arms wildcard hk
    obtain ⟨s, hs⟩ := exists_sortArms fun a ha => ⟨.none, hnone a ha⟩
    exact .plain hk hs ((sorts hs).families_eq_nil.mpr hnone)

namespace Pass

theorem leads_checkResidue : Leads checkResidue w () t' ↔ w.tree.residue = [] ∧ t' = w.tree := by
  simp only [checkResidue, leads_tree_bind]
  split
  next h =>
    simp only [Leads, yields_pure, h, true_and]
    constructor
    · rintro ⟨_, rfl, rfl⟩
      rfl
    · rintro rfl
      exact ⟨w, rfl, rfl⟩
  next h =>
    constructor
    · rintro ⟨_, hw, -⟩
      exact (not_yields_throw hw).elim
    · rintro ⟨hnil, -⟩
      rw [hnil] at h
      cases h

/-- A run of `erase` is a run of its three parts. -/
theorem leads_erase :
    Leads erase w () t' ↔ ∃ t₁, Chain VisitorLowered ((w.tree.postOrder root).filter w.tree.isVisitor) w.tree t₁ ∧
      Concreted (depthBound t₁) root t₁ t' ∧ t'.residue = [] := by
  simp only [erase, Leads, yields_bind, yields_tree, yields_note]
  constructor
  · rintro ⟨w', ⟨_, _, ⟨rfl, rfl⟩, _, _, rfl, _, w₁, hl, _, w₂, hc, hr⟩, rfl⟩
    obtain ⟨hnil, hw⟩ := leads_checkResidue.mp ⟨w', hr, rfl⟩
    rw [hw]
    have hlower := (leads_lower (w := ⟨w.tree, w.log ++ [.erasing w.tree.uri]⟩)).mp ⟨w₁, hl, rfl⟩
    exact ⟨w₁.tree, hlower, leads_concretize.mp ⟨w₂, hc, rfl⟩, hnil⟩
  · rintro ⟨t₁, hl, hc, hnil⟩
    obtain ⟨w₁, hlower, rfl⟩ := (leads_lower (w := ⟨w.tree, w.log ++ [.erasing w.tree.uri]⟩)).mpr hl
    obtain ⟨w₂, hconcrete, rfl⟩ := leads_concretize.mpr hc
    obtain ⟨w', hcheck, hw⟩ := leads_checkResidue.mpr ⟨hnil, rfl⟩
    exact ⟨w', ⟨_, _, ⟨rfl, rfl⟩, (), _, rfl, (), w₁, hlower, (), w₂, hconcrete, hcheck⟩, hw⟩

end Pass

/-- What `erase` does after lowering. -/
theorem Tree.erasing_run (h : t.erase.result = .ok ()) :
    t.lower.result = .ok () ∧ Concreted (Pass.depthBound t.lower.tree) root t.lower.tree t.erase.tree := by
  obtain ⟨t₁, hl, hc, -⟩ := Pass.leads_erase.mp (Pass.outcome_ok.mp h)
  obtain ⟨hlower, htree⟩ : t.lower.result = .ok () ∧ t.lower.tree = t₁ :=
    Pass.outcome_of_leads (Pass.leads_lower.mpr hl)
  exact ⟨hlower, htree ▸ hc⟩

/-- Where `erase` ends without a fault, so do the two passes by themselves. -/
theorem Tree.passes_of_erase (h : t.erase.result = .ok ()) :
    t.lower.result = .ok () ∧ t.lower.tree.concretize.result = .ok () :=
  (erasing_run h).imp_right fun hc => (Pass.outcome_of_leads (Pass.leads_concretize.mpr hc)).1

/-- What a run of `erase` that ends without a fault leaves. -/
theorem Tree.erased_shape (hac : t.Acyclic) (h : t.erase.result = .ok ()) :
    t.erase.tree.Acyclic ∧ t.erase.tree.Clean ∧
      ∃ S, t.erase.tree.Closed S ∧ ShapedIn t.erase.tree S ∧ root ∈ S := by
  obtain ⟨t₁, hl, hc, hnil⟩ := Pass.leads_erase.mp (Pass.outcome_ok.mp h)
  obtain ⟨S, hS, hshape, hroot⟩ := exists_shaped hac hl
  have hac' := hc.acyclic hS hroot
  exact ⟨hac', (residue_eq_nil hac').mp hnil,
    _, hc.evolves.closed hS, hc.evolves.shaped hS hshape, .inl hroot⟩

/-- Erasing the shadow types of a program a second time finds nothing to do:
it ends without a fault and leaves the whole tree as it is. -/
theorem Tree.erase_erase (hac : t.Acyclic) (h : t.erase.result = .ok ()) :
    t.erase.tree.erase.result = .ok () ∧ t.erase.tree.erase.tree = t.erase.tree := by
  obtain ⟨hac', hclean, S, hS, hshape, hroot⟩ := erased_shape hac h
  generalize t.erase.tree = u at *
  have hends : u.EndsWithin (Pass.depthBound u) root :=
    (hac'.endsWithin (.refl u root)).mono (by rw [Pass.depthBound]; omega)
  refine Pass.outcome_of_leads (Pass.leads_erase.mpr ⟨u, .const fun x hx => ?_, ?_, (residue_eq_nil hac').mpr hclean⟩)
  · have hx' : u.Reachable x := reaches_of_mem_postOrder (List.mem_of_mem_filter hx)
    exact lowered_self fun arms wildcard hk a ha => hclean.shadowArm? (hx'.tail (arm_mem_children hk ha))
      (hshape x (hS.reaches hroot hx') arms wildcard hk a ha)
  · exact concreted_of_plain (fun y hy => hclean.plain hy) hends

/-- The first run on the sample more than doubles the tree; the second leaves it. -/
theorem Sample.erase_twice :
    tree.Acyclic ∧ tree.erase.result = .ok () ∧ 2 * tree.size < tree.erase.tree.size ∧
      tree.erase.tree.erase.result = .ok () ∧ tree.erase.tree.erase.tree = tree.erase.tree :=
  ⟨builtUp_tree.acyclic, erase_tree, by decide +kernel, Tree.erase_erase builtUp_tree.acyclic erase_tree⟩

end Penumbra
