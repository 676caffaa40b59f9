/-
After lowering, every visitor of the program has well-shaped arms.

A run of `lower` goes through the visitors of the tree it starts with, and
stops at an arm without a component. Visitors it does not go through come
into the program with copies of wildcard bodies. What is copied lies below a
visitor, so the visitors in it were gone through before, and their copies
have the shape of the originals (`Lasting.kept`). The nodes gone through so
far, with all that was added, form a set that holds all children of its nodes
and in which every visitor is well-shaped; in the end it holds the root
(`exists_closed`).
-/
import Penumbra.Proofs.Tree.OrderEquations
import Penumbra.Proofs.Tree.Terms

namespace Penumbra

open Tree

variable {t t' u u' v v' : Tree} {S : Set Nat} {x V : Nat}

/-- All nodes of the set have the property. -/
def NodesIn (P : Tree → NodeId → Prop) (t : Tree) (S : Set Nat) : Prop := ∀ x ∈ S, P t x

/-- The kind has no arms and declares nothing. -/
def Kind.isPlain {α : Type} : Kind α → Bool
  | .visitor .. | .component .. | .varDecl .. => false
  | _ => true

/-- A property of nodes that lowering keeps, and that copies share with what they
were copied from, where the arms of the families merged satisfy `G`. -/
structure Lasting (P : Tree → NodeId → Prop) (G : ShadowArm → Prop) : Prop where
  plain : ∀ t x, (t.kind x).isPlain = true → P t x
  made : ∀ (f : Family) vs v, (∀ a ∈ f.arms, G a) → P (f.armed vs v) (v.size + 2)
  grows : ∀ t t' x, t.Grows t' → t'.kind x = t.kind x → (∀ y : Nat, t.Reaches x y → y < t.size) → P t x → P t' x
  copies : ∀ t φ D x, t.Folds φ D → x ∈ D → P t (φ x) → P t x

/-- Of an arm made for a family, only the binder is not plain. -/
theorem Family.isPlain_armed (f : Family) {vs : ScopeId} (hx : x ∈ fresh v (f.armed vs v)) :
    x = v.size + 2 ∨ ((f.armed vs v).kind x).isPlain = true := by
  have hge := hx.1
  have hlt := hx.2
  rw [f.size_armed] at hlt
  have hcases : x = v.size + 2 ∨ x = v.size + 0 ∨ x = v.size + 1 ∨ x = v.size + 3 ∨ x = v.size + 4 := by omega
  refine hcases.imp_right ?_
  rintro (rfl | rfl | rfl | rfl)
  · rw [f.kind_armed vs (i := 0) rfl]
    rfl
  · rw [f.kind_armed vs (i := 1) rfl]
    rfl
  · rw [f.kind_armed vs (i := 3) rfl]
    rfl
  · rw [f.kind_armed vs (i := 4) rfl]
    rfl

namespace Lasting

variable {P Q : Tree → NodeId → Prop} {G : ShadowArm → Prop}

theorem mono (h : Lasting P G) (hg : v.Grows v') (hS : v.Closed S) (hI : NodesIn P v S)
    (hkind : ∀ x ∈ S, v'.kind x = v.kind x ∨ (v'.kind x).isPlain = true) : NodesIn P v' S := fun x hx =>
  (hkind x hx).elim
    (fun hk => h.grows v v' x hg hk (fun _ hy => hS.bounded _ (hS.reaches hx hy)) (hI x hx))
    (h.plain v' x)

theorem kept (h : Lasting P G) : Kept (NodesIn P) G where
  armed f vs v S hS hG hI := by
    have hext := f.extends_armed vs (v := v)
    rintro x (hx | hx)
    · exact h.mono hext.grows hS hI (fun y hy => .inl (hext.kind y (hS.bounded y hy))) x hx
    · rcases f.isPlain_armed hx with rfl | hplain
      · exact h.made f vs v hG
      · exact h.plain _ _ hplain
  mirrored v v' S φ hS hφ hI := by
    have hold := h.mono hφ.grows.grows hS hI fun y hy => .inl (hφ.grows.kind y (hS.bounded y hy))
    have hfolds := hφ.folds hS (.refl v') (fun y hy => hφ.grows.kind y (hS.bounded y hy)) fun _ _ => rfl
    rintro x (hx | hx)
    · exact hold x hx
    · exact h.copies v' φ _ x hfolds (.inr hx) (hold _ (hφ.origin x hx.1 hx.2))
  merged f binder target default v v' S hS _ hm hI := by
    have htarget : (v'.kind target).isPlain = true := by
      obtain ⟨l, ⟨-, hl⟩ | ⟨-, hl⟩⟩ := hm.kind_target <;> rw [hl] <;> rfl
    rintro x (hx | hx)
    · refine h.mono hm.grows hS hI (fun y hy => ?_) x hx
      by_cases hyt : y = target
      · exact .inr (hyt ▸ htarget)
      · refine .inl ?_
        rw [hm.kind_other hyt, Family.switched, (Extends.addAll ..).kind y (hS.bounded y hy)]
    · refine h.plain _ _ ?_
      by_cases hxt : x = target
      · exact hxt ▸ htarget
      · have hlt : x < (f.switched binder target default v).size := by
          have := hx.2
          obtain ⟨k, -, rfl⟩ := hm
          simpa using this
        obtain ⟨m, hmem, hkind, -⟩ := new_addAll hx.1 hlt
        rw [hm.kind_other hxt, Family.switched, hkind]
        rcases f.mem_switchNodes binder default hmem with rfl | rfl | rfl | rfl | ⟨b, -, rfl | ⟨l, rfl⟩⟩ | rfl <;> rfl

theorem of_arms (hgrows : ∀ t t' a, t.Grows t' → (∀ y : Nat, t.Reaches a y → y < t.size) → Q t a → Q t' a)
    (hcopies : ∀ t φ D a, t.Folds φ D → a ∈ D → Q t (φ a) → Q t a) :
    Lasting (fun t x => ∀ arms wildcard, t.kind x = .visitor arms wildcard → ∀ a ∈ arms, Q t a) fun _ => True where
  plain t x hplain arms wildcard hk := by
    rw [hk] at hplain
    cases hplain
  made f vs v _ arms wildcard hk := by
    rw [f.kind_armed vs (i := 2) rfl] at hk
    cases hk
  grows t t' x hg hkind hlt hP arms wildcard hk a ha := by
    rw [hkind] at hk
    exact hgrows t t' a hg (fun y hy => hlt y (.head (arm_mem_children hk ha) hy)) (hP arms wildcard hk a ha)
  copies t φ D x h hx hP arms wildcard hk a ha := by
    have hkind := h.kind x hx
    rw [hk] at hkind
    exact hcopies t φ D a h (h.child x hx a (arm_mem_children hk ha)) (hP _ _ hkind.symm _ (List.mem_map_of_mem ha))

end Lasting

/-- The arms of the visitors in the set have components as their binders. -/
def ShapedIn (t : Tree) (S : Set Nat) : Prop :=
  ∀ x ∈ S, ∀ arms wildcard, t.kind x = .visitor arms wildcard → ∀ a ∈ arms, t.Binds a

theorem lasting_binds : Lasting (fun t x => ∀ arms wildcard, t.kind x = .visitor arms wildcard → ∀ a ∈ arms, t.Binds a)
    fun _ => True := by
  refine .of_arms (fun _ _ _ hg _ hb => hb.mono hg) fun t φ D a h ha hb => ?_
  obtain ⟨p, c', body', name', ascription', hka, hkc⟩ := hb
  obtain ⟨c, body, hka', rfl, -⟩ := Kind.map_eq_arm ((h.kind a ha).trans hka)
  obtain ⟨name, ascription, hkc', -⟩ :=
    Kind.map_eq_component ((h.kind c (h.child a ha c (binder_mem_children hka'))).trans hkc)
  exact ⟨p, c, body, name, ascription, hka', hkc'⟩

theorem VisitorLowered.shaped (h : VisitorLowered V u u') : ShapedIn u' {V} := by
  rintro x rfl arms wildcard hk a ha
  cases h with
  | other hv => simp [isVisitor, hk] at hv
  | plain hk' sorted =>
    obtain ⟨rfl, -⟩ := Kind.visitor.inj (hk.symm.trans hk')
    obtain ⟨r, hr⟩ := (sorts sorted).read a ha
    obtain ⟨p, c, body, name, ascription, hka, hkc, -⟩ := shadowArm?_ok.mp hr
    exact ⟨p, c, body, name, ascription, hka, hkc⟩
  | @merged _ _ s w m v kind sorted _ _ families =>
    rw [kind_withArms, if_pos ⟨rfl, (lt_size_of_kind kind (by simp)).trans_le families.grows.size_le⟩] at hk
    obtain ⟨rfl, -⟩ := Kind.visitor.inj hk
    exact (VisitorLowered.binds (sorts sorted) families a ha).mono (.withArms v x m.arms _ (families.isVisitor kind))

theorem VisitorLowered.lasting {P : Tree → NodeId → Prop} {G : ShadowArm → Prop} (hP : Lasting P G)
    (h : VisitorLowered V u u')
    (hG : ∀ arms wildcard, u.kind V = .visitor arms wildcard → ∀ arm ∈ arms, ∀ p a,
      u.shadowArm? arm = .ok (.some (p, a)) → G a)
    (hS : u.Closed S) (hbelow : ∀ c ∈ u.children V, c ∈ S) (hI : NodesIn P u S) (hx : x ∈ S ∪ fresh u u') (hxV : x ≠ V) :
    P u' x := by
  cases h with
  | other | plain => exact hI x (by simpa [fresh_self] using hx)
  | @merged arms wildcard s w m v kind sorted _ wild families =>
    have hs := sorts sorted
    have hb := bodies_mem hS hbelow kind hs
    have hw := wildcard_mem hS hbelow kind wild
    have hclosed := (families.step hS hb hw).closed hS
    have hkept := families.kept hP.kept hS hb hw (fun f hf a ha => by
      obtain ⟨arm, harm, hr, -⟩ := hs.mem_family hf ha
      exact hG arms wildcard kind arm harm f.phase a hr) hI
    rw [fresh, size_withArms] at hx
    refine hP.grows v _ x (.withArms v V m.arms _ (families.isVisitor kind)) ?_ (fun y hy => hclosed.bounded y (hclosed.reaches hx hy)) (hkept x hx)
    rw [kind_withArms, if_neg fun h => hxV h.1]

/-- Nodes that are no visitors can be gone through as well. -/
theorem lowered_of_filter {l : List Nat} (h : Chain VisitorLowered (l.filter t.isVisitor) u u')
    (hg : t.Grows u) (hl : ∀ x ∈ l, x < t.size) : Chain VisitorLowered l u u' := by
  induction l generalizing u with
  | nil => exact h
  | cons x l ih =>
    have hl' : ∀ y ∈ l, y < t.size := fun y hy => hl y (by simp [hy])
    by_cases hx : t.isVisitor x = true
    · rw [List.filter_cons_of_pos hx] at h
      cases h with
      | cons first rest => exact .cons first (ih rest (hg.trans first.grows) hl')
    · rw [List.filter_cons_of_neg hx] at h
      have hx' : u.isVisitor x = false := by
        rw [hg.isVisitor (hl x (by simp))]
        simpa using hx
      exact .cons (.other hx') (ih h hg hl')

theorem Tree.Closed.union_singleton (h : u.Closed S) (hV : V < u.size) (hbelow : ∀ c ∈ u.children V, c ∈ S) :
    u.Closed (S ∪ {V}) := by
  refine ⟨fun x hx => ?_, fun x hx c hc => ?_⟩
  · rcases hx with hx | rfl
    · exact h.bounded x hx
    · exact hV
  · rcases hx with hx | rfl
    · exact .inl (h.child x hx c hc)
    · exact .inl (hbelow c hc)

section Run

variable {I : List Nat → Tree → Set Nat → Prop}
  (hI : ∀ V rest u u' S, u.Closed S → V < u.size → (∀ c ∈ u.children V, c ∈ S) → VisitorLowered V u u' →
    I (V :: rest) u S → I rest u' (S ∪ {V} ∪ fresh u u'))
include hI

/-- The invariant of a run of `lower`, `done` being the nodes gone through. -/
theorem closed_of_lowered {rest : List Nat} (h : Chain VisitorLowered rest u u') (done : List Nat)
    (hlist : t.ChildrenFirst (done ++ rest)) (hlt : ∀ x ∈ rest, x < u.size) (hS : u.Closed S)
    (hu : I rest u S) (hdone : ∀ x ∈ done, x ∈ S)
    (hchild : ∀ x ∈ rest, ∀ c ∈ u.children x, c ∈ t.children x ∨ c ∈ S) :
    ∃ S', u'.Closed S' ∧ I [] u' S' ∧ ∀ x ∈ done ++ rest, x ∈ S' := by
  induction h generalizing done S with
  | nil => exact ⟨S, hS, hu, by simpa using hdone⟩
  | @cons V rest u u₁ u' first _ ih =>
    have hbelow : ∀ c ∈ u.children V, c ∈ S := fun c hc => by
      rcases hchild V (by simp) c hc with hc | hc
      · exact hdone c (hlist done V rest rfl c hc)
      · exact hc
    have hV : V < u.size := hlt V (by simp)
    have hS₁ := hS.union_singleton hV hbelow
    have hstep := first.step hS₁ (.inr rfl)
    have := ih (done ++ [V]) (by simpa using hlist)
      (fun x hx => (hlt x (by simp [hx])).trans_le hstep.grows.size_le) (hstep.closed hS₁)
      (hI V rest u u₁ S hS hV hbelow first hu) (fun x hx => ?_) (fun x hx c hc => ?_)
    · simpa using this
    · rcases List.mem_append.mp hx with hx | hx
      · exact .inl (.inl (hdone x hx))
      · exact .inl (.inr (List.mem_singleton.mp hx))
    · rcases hstep.child x (hlt x (by simp [hx])) c hc with hc | hc
      · exact (hchild x (by simp [hx]) c hc).imp_right fun hc => .inl (.inl hc)
      · exact .inr (.inr hc)

/-- What a visitor is lowered to keeps a property of closed sets of nodes, so
after lowering a tree without circles the whole program lies in such a set. -/
theorem exists_closed (hac : t.Acyclic) (h : Chain VisitorLowered ((t.postOrder root).filter t.isVisitor) t t')
    (ht : I (t.postOrder root) t ∅) : ∃ S, t'.Closed S ∧ I [] t' S ∧ root ∈ S := by
  have hroot : t.EndsWithin t.size root := hac.endsWithin (.refl t root)
  have hlt : ∀ x ∈ t.postOrder root, x < t.size := fun x hx => hac.bounded x (reaches_of_mem_postOrder hx)
  obtain ⟨S, hS, hu, hmem⟩ := closed_of_lowered hI (t := t) (S := ∅) (lowered_of_filter h (.refl t) hlt) []
    (childrenFirst_postOrder hroot) hlt ⟨by simp, by simp⟩ ht (by simp) (fun x _ c hc => .inl hc)
  exact ⟨S, hS, hu, hmem root ((mem_postOrder hroot).mpr (.refl t root))⟩

end Run

/-- After lowering a tree without circles, the program lies in a set of nodes
in which every visitor is well-shaped. -/
theorem exists_shaped (hac : t.Acyclic)
    (h : Chain VisitorLowered ((t.postOrder root).filter t.isVisitor) t t') :
    ∃ S, t'.Closed S ∧ ShapedIn t' S ∧ root ∈ S := by
  refine exists_closed (I := fun _ => ShapedIn) (fun V _ u u' S hS hV hbelow hVu hshape => ?_) hac h fun x hx => hx.elim
  intro x hx
  by_cases hxV : x = V
  · exact hVu.shaped x hxV
  · refine hVu.lasting lasting_binds (fun _ _ _ _ _ _ _ _ => trivial) hS hbelow hshape ?_ hxV
    exact hx.imp_left fun hx => hx.resolve_right hxV

end Penumbra
