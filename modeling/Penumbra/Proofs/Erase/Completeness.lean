/-
Erasing comes to an end.

Both passes get through a program that is prepared for them. The second one
leaves no shadow type, writes no name of one (`Concreted.spelled`) and makes every
variable that is declared with one lose it (`Concreted.clears`). So nothing is left
that erasing could find fault with (`erase_complete`).
-/
import Penumbra.Proofs.Erase.ErasablePrograms
import Penumbra.Proofs.Concrete.FitPrograms

namespace Penumbra

open Tree

variable {N R : Set String} {t t' t₁ : Tree} {n x y c d b : Nat} {token : String} {types : ScopeId → String → Option Ty}

/-! ## What the pass does to scopes -/

theorem NodeConcrete.tamed (h : NodeConcrete x t t₁) (ht : Regular Ty.Shallow types t) (hx : t.Reachable x) :
    t.env.Tamed t₁.env := by
  cases h with
  | plain => exact .refl _
  | access => simpa [accessed] using .refl _
  | @declaration name ascription s token decl =>
    have hs : s.Shallow := ht.typed.shadowDecl? ht.formed.program_closed hx decl
    rw [env_redeclared]
    exact .set ht.formed.nested hs.shadowed
  | identifier => exact .refl _

section Below

variable (h : Concreted n x t t') (ht : Regular Ty.Shallow types t) (hx : t.Reachable x)
include h ht hx

theorem Concreted.tamed : t.env.Tamed t'.env := by
  have hkept := ht.owned.concreted (I := fun u => Regular Ty.Shallow types u ∧ t.env.Tamed u.env)
    (fun y u u' _ _ hy hn hu => ⟨hu.1.nodeConcrete inherited_shallow hn hy, hu.2.trans (hn.tamed hu.1 hy)⟩) ht.formed hx
    ⟨ht, .refl _⟩ h
  exact hkept.2.2.2

theorem Concreted.scope_mem (hy : t'.Reachable y) : t'.scope y ∈ t.scopes := by
  have hkept := ht.owned.concreted (I := fun u => ∀ y, u.Reachable y → u.scope y ∈ t.scopes)
    (fun z u u' hf ho hz hn hu y hy => by
      have hrw := hn.reworks hf ho hz
      rcases hrw.program y (hrw.reaches hy) with hold | hnew
      · rw [(hn.scope_eq.1 y (hf.bounded hold)).1]
        exact hu y hold
      · rw [(hn.scope_eq.2 y hnew).1]
        exact hu z hz) ht.formed hx (fun y hy => ⟨y, hy, rfl⟩) h
  exact hkept.2.2 y hy

end Below

/-! ## Names -/

section Node

variable (h : NodeConcrete x t t₁)
include h

theorem NodeConcrete.kind_declaration {name : NodeId} {ascription : Option NodeId} {s : Shadow Ty}
    (hd : t.shadowDecl? x = .some (name, ascription, s)) : t₁.kind x = t.kind x := by
  have hkx := kind_of_shadowDecl hd
  refine (h.evolves.kind x ?_).eq_of (fun token hk => by simp [hk] at hkx) fun o steps hk => by simp [hk] at hkx
  rcases hkx with ⟨a, hk⟩ | ⟨a, init, hk⟩ <;> exact lt_size_of_kind hk (by simp)

theorem NodeConcrete.ident (hk : t₁.kind x = .ident token) : t.kind x = .ident token := by
  cases h with
  | plain => exact hk
  | @access operand first rest s fieldId field var vf kind =>
    rw [kind_accessed t x s vf var rest x (lt_size_of_kind kind (by simp)), if_pos rfl] at hk
    cases hk
  | declaration decl written named =>
    rw [← (NodeConcrete.declaration decl written named).kind_declaration decl]
    exact hk
  | identifier => simpa [setTy] using hk

theorem NodeConcrete.spelled (hf : t.Formed) (hx : x < t.size) (hfit : Fit N R t x) (hc : c ∈ t₁.children x)
    (hk : t₁.kind c = .ident token) : token ∉ R ∧ (c ∈ (t₁.kind x).references → token ∈ N) := by
  cases h with
  | plain hp =>
    refine ⟨fun hmem => ?_, fun hr => hfit.references c hr token hk⟩
    rcases Kind.mem_children_iff.mp hc with ho | ha
    · exact hfit.others c ho token hk hmem
    · exact hfit.ascribed c ha token hk hmem hp.decl
  | @access operand first rest s fieldId field var vf kind =>
    have hkx := kind_accessed t x s vf var rest x hx
    rw [if_pos rfl] at hkx
    rw [Tree.children, hkx] at hc
    rcases List.mem_cons.mp hc with rfl | hc
    · have hat : AccessAt vf.path var t.size (t.accessed x s vf var rest) := .of_accessed rest hx
      obtain ⟨e, hparen, -⟩ := hat.paren
      rw [AccessAt.last_eq, hk] at hparen
      cases hparen
    · have hmem : c ∈ (t.kind x).children := by simp [kind, Kind.children, hc]
      have hcx : c ≠ x := fun he => by
        rw [he, hkx] at hk
        cases hk
      rw [Tree.kind, node_accessed (hf.child x hx c hmem) hcx] at hk
      refine ⟨hfit.others c (by rw [kind] at hmem ⊢; exact hmem) token hk, fun _ => ?_⟩
      exact hfit.references c (by rw [kind] at hmem ⊢; exact hmem) token hk
  | @declaration name ascription s token' decl written named =>
    have hkx := (NodeConcrete.declaration decl written named).kind_declaration decl
    have hs := hfit.declared name ascription s decl
    rw [Tree.children, hkx] at hc
    rw [hkx]
    rw [kind_redeclared, kind_reascribed] at hk
    split at hk
    · cases hk
      exact ⟨hs.shadowedName, fun _ => hs.used⟩
    next hne =>
      refine ⟨fun hmem => ?_, fun hr => hfit.references c hr token hk⟩
      rcases Kind.mem_children_iff.mp hc with ho | ha
      · exact hfit.others c ho token hk hmem
      · refine hne ⟨?_, hf.child x hx c (Kind.mem_children_of_ascription? ha)⟩
        rcases shadowDecl?_eq_some.mp decl with ⟨a, rfl, hkx, -⟩ | ⟨a, init, rfl, hkx, -⟩ | ⟨init, rfl, hkx, -⟩ <;>
          rw [hkx] at ha <;> exact ha
  | @identifier token' s kind =>
    have hkx : (t.setTy x s.shadowedTy).kind x = t.kind x := by simp [setTy]
    rw [Tree.children, hkx, kind] at hc
    cases hc

end Node

section Below

variable (h : Concreted n x t t') (ht : Regular Ty.Shallow types t) (hx : t.Reachable x)
include h ht hx

theorem Concreted.ident (hk : t'.kind x = .ident token) : t.kind x = .ident token := by
  cases n with
  | zero => exact h.elim
  | succ n =>
    obtain ⟨t₁, hnode, hchain⟩ := h
    have hnx := ((ht.nodeConcrete inherited_shallow hnode hx).turns inherited_shallow hchain
      (hnode.reachable_self ht.formed ht.owned hx)).1.2.2.2
    rw [Tree.kind, hnx] at hk
    exact hnode.ident hk

/-- Nothing below the node names a shadow type any more. -/
theorem Concreted.spelled (hfit : ∀ y, t.Reaches x y → Fit N R t y) (hxy : t'.Reaches x y) (hc : c ∈ t'.children y)
    (hk : t'.kind c = .ident token) : token ∉ R ∧ (c ∈ (t'.kind y).references → token ∈ N) := by
  induction n generalizing x t t' with
  | zero => exact h.elim
  | succ n ih =>
    obtain ⟨t₁, hnode, hchain⟩ := h
    have ht₁ := ht.nodeConcrete inherited_shallow hnode hx
    have hx₁ := hnode.reachable_self ht.formed ht.owned hx
    obtain ⟨⟨ht', -, -, hnx⟩, hturns⟩ := ht₁.turns inherited_shallow hchain hx₁
    rcases hxy.cases with rfl | ⟨e, he, hey⟩
    · -- identifiers among the children are those they were before their turns
      rw [Tree.children, Tree.kind, hnx] at hc
      obtain ⟨v, v', hcv, hv, hcr, -, -, hbefore, hafter⟩ := hturns c hc
      rw [Tree.kind, hafter c (.refl v' c)] at hk
      have hkv := hcv.ident hv hcr hk
      rw [Tree.kind, hbefore c (.refl t₁ c)] at hkv
      have hspelled := hnode.spelled ht.formed (ht.formed.bounded hx) (hfit y (.refl t y)) hc hkv
      rw [Tree.kind, hnx]
      exact hspelled
    · rw [Tree.children, Tree.kind, hnx] at he
      obtain ⟨v, v', hev, hv, her, -, -, hbefore, hafter⟩ := hturns e he
      have hey' := hafter.reaches_iff.mp hey
      have hyv : t'.node y = v'.node y := hafter y hey'
      rw [Tree.children, Tree.kind, hyv] at hc
      rw [Tree.kind, hafter c (hey'.tail hc)] at hk
      have hspelled := ih hev hv her (hnode.fit_turn ht hx hfit he hv hbefore) hey' hc hk
      rw [Tree.kind, hyv]
      exact hspelled

end Below

/-! ## Declarations -/

section Node

variable (h : NodeConcrete x t t₁) (ht : Regular Ty.Shallow types t) (hx : t.Reachable x)
include h ht hx

theorem NodeConcrete.clears (hdecl : t.DeclaresAt x token b) : ¬ t₁.env.ShadowVar b token := by
  obtain ⟨name, ascription, s, hd, hname, hb⟩ := hdecl
  have hkx := kind_of_shadowDecl hd
  cases h with
  | plain hp => rw [hp.decl] at hd; cases hd
  | access kind => simp [kind] at hkx
  | @declaration name' ascription' s' token' decl written named =>
    cases hd.symm.trans decl
    rw [kind_reascribed, if_neg fun h => (ht.owned.shadowDecl_distinct hx decl).1 h.1, hname] at named
    cases named
    have hs : s.Shallow := ht.typed.shadowDecl? ht.formed.program_closed hx decl
    rw [env_redeclared]
    exact Env.not_shadowVar_set ht.formed.nested (ht.formed.scope x (ht.formed.bounded hx)) hs.shadowed hb
  | identifier kind => simp [kind] at hkx

theorem NodeConcrete.child_stays (hc : c ∈ t.children x) (hcd : t.Reaches c d) (hd : t.shadowDecl? d ≠ .none) :
    c ∈ t₁.children x ∧ SameBelow c t t₁ := by
  have hsame : SameBelow c t t₁ := by
    refine (h.sameBelow ht hx (.single hc)).resolve_right fun ⟨token, hk, _⟩ => hd ?_
    have hcast := h.evolves.kind c (ht.formed.child x (ht.formed.bounded hx) c hc)
    rw [hk] at hcast
    generalize hkc : t.kind c = k at hcast
    cases hcast <;> exact shadowDecl?_below_ident hkc hcd
  refine ⟨?_, hsame⟩
  cases h with
  | plain => exact hc
  | @access operand first rest s fieldId field var vf kind shadow selector name root =>
    have hkx := kind_accessed t x s vf var rest x (ht.formed.bounded hx)
    rw [if_pos rfl] at hkx
    rw [Tree.children, kind] at hc
    rw [Tree.children, hkx]
    rcases List.mem_cons.mp hc with rfl | hc
    · exact absurd (shadowDecl?_below_ident root hcd) hd
    rcases List.mem_cons.mp hc with rfl | hc
    · rcases hcd.cases with rfl | ⟨e, he, hed⟩
      · exact absurd (by simp [shadowDecl?, selector]) hd
      · rw [Tree.children, selector] at he
        obtain rfl := List.mem_singleton.mp he
        exact absurd (shadowDecl?_below_ident name hed) hd
    · exact List.mem_cons_of_mem _ hc
  | declaration decl written => rwa [children_redeclared written]
  | identifier => simpa [Tree.children, setTy] using hc

end Node

section Below

variable (h : Concreted n x t t') (ht : Regular Ty.Shallow types t) (hx : t.Reachable x)
include h ht hx

/-- All variables declared below the node have lost their shadow types. -/
theorem Concreted.clears (hfit : ∀ y, t.Reaches x y → Fit N R t y) (hxd : t.Reaches x d) (hdecl : t.DeclaresAt d token b) :
    ¬ t'.env.ShadowVar b token := by
  induction n generalizing x t t' with
  | zero => exact h.elim
  | succ n ih =>
    obtain ⟨t₁, hnode, hchain⟩ := h
    have ht₁ := ht.nodeConcrete inherited_shallow hnode hx
    have hx₁ := hnode.reachable_self ht.formed ht.owned hx
    obtain ⟨⟨-, ⟨-, htamed⟩, -⟩, -, hturns⟩ := hchain.turns
      (Q := fun u v => u.size ≤ v.size ∧ u.env.Tamed v.env) (fun _ => ⟨le_rfl, .refl _⟩)
      (fun _ _ _ h h' => ⟨h.1.trans h'.1, h.2.trans h'.2⟩)
      (fun c v v' hv hc hcv => ⟨⟨hv.concreted inherited_shallow hcv hc, hcv.evolves.size_le, hcv.tamed hv hc⟩,
        hcv.confined hv.formed, fun y => hcv.node_eq⟩)
      ht₁ hx₁ (fun _ hc => hc) (ht₁.owned.nodup x hx₁)
    rcases hxd.cases with rfl | ⟨c, hc, hcd⟩
    · exact fun hv => hnode.clears ht hx hdecl (htamed.shadowVar b token hv)
    · have hd : t.shadowDecl? d ≠ .none := by
        obtain ⟨name, ascription, s, hd, -⟩ := hdecl
        simp [hd]
      have hdr : t.Reachable d := (Reaches.tail hx hc).trans hcd
      obtain ⟨hc₁, hsame⟩ := hnode.child_stays ht hx hc hcd hd
      obtain ⟨v, v', hcv, hv, hcr, ⟨-, htamed₁⟩, ⟨-, htamed'⟩, hbefore, -⟩ := hturns c hc₁
      have hsame := hsame.trans hbefore
      have hdecl' := (hsame.resembles (hv.types.trans ht.types.symm)).declaresAt ((hnode.tamed ht hx).trans htamed₁) hcd
        (ht.formed.scope d (ht.formed.bounded hdr)) hdecl
      have hclear := ih hcv hv hcr (hnode.fit_turn ht hx hfit hc₁ hv hbefore) (hsame.reaches hcd) hdecl'
      exact fun hshadow => hclear (htamed'.shadowVar b token hshadow)

end Below

/-! ## Both passes -/

theorem Tree.Fit.overlooks (h : Fit N R t x) : t.overlooks x = false := by
  by_cases hs : t.shadow? x = .none
  · exact overlooks_of_shadow?_eq_none hs
  rcases h.shadow hs with ⟨n, hk⟩ | hd | ⟨o, first, rest, f, hk, ho, hf⟩
  · simp [Tree.overlooks, hk]
  · obtain ⟨⟨name, ascription, s⟩, hd⟩ := Option.ne_none_iff_exists'.mp hd
    rcases kind_of_shadowDecl hd with ⟨a, hk⟩ | ⟨a, init, hk⟩ <;> simp [Tree.overlooks, hk]
  · simp [Tree.overlooks, hk, selects, hf, Option.isSome_iff_ne_none.mpr ho]

theorem Tree.Owned.mem_references (h : t.Owned) (hx : t.Reachable x) (hy : y ∈ t.children x) (href : t.isReference y = true) :
    y ∈ (t.kind x).references := by
  rw [isReference, h.parent x hx y hy, Option.map_some] at href
  rw [Tree.children] at hy
  generalize t.kind x = k at hy href
  cases k with
  | selector => cases href
  | case label body =>
    rcases List.mem_cons.mp hy with rfl | hy
    · simp at href
    · exact hy
  | _ => exact hy

/-- Making a prepared program concrete comes to an end, and no node of the program
has to do with a shadow type afterwards. -/
theorem Tree.Prepared.concreted (h : Prepared N R t) (htyped : TypedIn Ty.Shallow t { y | t.Reachable y })
    (hR : ∀ n, t.env.Registered n → n ∈ R) (hroot : ∀ n, t.kind root = .ident n → n ∈ N ∧ n ∉ R) :
    ∃ t', Concreted (Pass.depthBound t) root t t' ∧ t'.Acyclic ∧ t'.Clean := by
  have ht : Regular Ty.Shallow t.env.getType? t := ⟨h.formed, h.owned, htyped, rfl⟩
  have hx : t.Reachable root := .refl t root
  have hfit : ∀ y, t.Reachable y → Fit N R t y := h.fit
  obtain ⟨t', hc⟩ := ht.exists_concreted hx (h.owned.endsWithin h.formed hx) hfit
  have ht' := ht.concreted inherited_shallow hc hx
  refine ⟨t', hc, ht'.owned.acyclic ht'.formed, fun y hy => ?_⟩
  have htamed := hc.tamed ht hx
  have htoken : ∀ n, t'.kind y = .ident n → n ∉ R ∧ (t'.isReference y = true → n ∈ N) := fun n hk => by
    rcases hy.cases_tail with rfl | ⟨p, hp, hyp⟩
    · obtain ⟨hnN, hnR⟩ := hroot n (hc.ident ht hx hk)
      exact ⟨hnR, fun _ => hnN⟩
    · obtain ⟨hnR, hnN⟩ := hc.spelled ht hx hfit hp hyp hk
      exact ⟨hnR, fun href => hnN (ht'.owned.mem_references hp hyp href)⟩
  simp only [mentionsShadow, Bool.or_eq_false_iff]
  refine ⟨⟨?_, ?_⟩, ?_⟩
  · rw [any_isShadow, Bool.eq_false_iff]
    intro hs
    obtain ⟨hlt, hov⟩ := (hc.isSome_shadow? ht hx hy).mp hs
    rw [(hfit y (hc.evolves.reaches hlt hy).2).overlooks] at hov
    cases hov
  · rw [namesShadow]
    split
    next n hn =>
      refine Bool.eq_false_iff.mpr fun hshadow => (htoken n (token?_eq_some.mp hn)).1 ?_
      exact hR n (htamed.registered n (Env.registered_of_getType? hshadow))
    next => rfl
  · rw [refersToShadow]
    split
    next n hn =>
      refine Bool.eq_false_iff.mpr fun hshadow => ?_
      obtain ⟨href, hshadow⟩ := Bool.and_eq_true_iff.mp hshadow
      obtain ⟨b, hb, hv⟩ := Env.shadowVar_of_get? hshadow
      obtain ⟨z, hz, hscope⟩ := hc.scope_mem ht hx hy
      rw [← hscope] at hb
      have hb' := htamed.binder?_of_shadowVar h.formed.nested (h.formed.scope z (h.formed.bounded hz)) hb hv
      obtain ⟨d, hd, hdecl⟩ := h.declared z hz n ((htoken n (token?_eq_some.mp hn)).2 href) b hb' (htamed.shadowVar b n hv)
      exact hc.clears ht hx hfit hd hdecl hv
    next => rfl

/-- Erasing the shadow types of an erasable program ends without a fault. -/
theorem Tree.erase_complete (h : t.Erasable) : t.erase.result = .ok () := by
  obtain ⟨t₁, hlowered, hp, htamed⟩ := h.prepared.lowered
  have hs : ∀ s, Occurs t (.shadow s) → s.Shallow := fun s hs =>
    have he := h.shadows s hs
    ⟨by rw [he.shadowed]; rfl, he.discriminantTy, he.field⟩
  obtain ⟨-, -, hw⟩ := h.owned.lowered (I := Watched t) h.formed (fun V u u' hfu _ hV hVu hu => hu.next hfu hV hVu)
    ⟨typedIn_shallow hs, .refl t, fun _ _ hy => hy, fun y hy hov => ⟨y, hy, hov⟩⟩ hlowered
  obtain ⟨t₂, hconcreted, hacyclic, hclean⟩ := hp.concreted hw.typed htamed.registered fun n hk => by
    have hk : t.kind root = .ident n := (hw.grows.kind_iff h.formed.root_lt rfl (by simp)).mp hk
    refine ⟨.inl ⟨root, .refl t root, hk⟩, fun hn => ?_⟩
    obtain ⟨p, hp, ha, -⟩ := h.ascriptions root (.refl t root) n hk hn
    exact h.owned.root_free p hp (Kind.mem_children_of_ascription? ha)
  exact (Pass.outcome_of_leads (Pass.leads_erase.mpr
    ⟨t₁, hlowered, hconcreted, (residue_eq_nil hacyclic).mpr hclean⟩)).1

/-- The sample has shadow types in many places, and they are all erased. -/
theorem Sample.erase_complete_tree :
    tree.Erasable ∧ tree.residue ≠ [] ∧ tree.erase.result = .ok () ∧ tree.erase.tree.residue = [] ∧
      tree.size < tree.erase.tree.size :=
  ⟨admitted_tree.erasable, by decide +kernel, Tree.erase_complete admitted_tree.erasable, by decide +kernel,
    by decide +kernel⟩

end Penumbra
