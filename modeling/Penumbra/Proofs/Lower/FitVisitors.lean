/-
Lowering accepts programs that are fit for erasing, and leaves them fit.

The families of a visitor can be merged one after the other because every arm
gathered so far can be merged into (`Gathered`). The arms and switches made are
built of the binders and descriptors of shadow arms. They have no shadow type
and name none, so all nodes, old and new, are fit (`FitIn`).
-/
import Penumbra.Proofs.Lower.KeepsOwned
import Penumbra.Proofs.Erase.FitNodes
import Penumbra.Proofs.Pass.NodeQueue
import Penumbra.Proofs.Lower.FamilySwitch

namespace Penumbra

open Tree

variable {N R : Set String} {f : Family} {binder : String} {target x y vs V : Nat} {default : Option Nat}
  {u u' v v₁ v' : Tree} {wildcard : Option (Phase × NodeId)} {m m' : Merged} {fs : List Family} {S G Z : Set Nat}

/-! ## Arms that can be merged into -/

/-- An arm with a named binder, whose name is no shadow type's, and a body that
takes statements. -/
def Gathered (N R : Set String) (v : Tree) (arm : NodeId) : Prop :=
  ∃ p c b name ascription token, v.kind arm = .arm p (.some c) b ∧ v.kind c = .component name ascription ∧
    v.kind name = .ident token ∧ token ∈ N ∧ token ∉ R ∧ v.stmts? b ≠ .none

/-- The shadow types of a family's arms leave nothing behind. -/
structure Family.Sound (N R : Set String) (f : Family) : Prop where
  shadow : ∀ a ∈ f.arms, a.shadow.Sound N R
  name : ∀ a ∈ f.arms, a.shadow.shadowedName = f.shadowedName
  used : ∀ a ∈ f.arms, a.binder ∈ N
  binder : ∀ a ∈ f.arms, a.binder ∉ R

theorem Gathered.later {arm : Nat} (h : Gathered N R v arm) (hl : v.Later v') (hf : v.Formed) (harm : arm < v.size) :
    Gathered N R v' arm := by
  obtain ⟨p, c, b, name, ascription, token, hk, hkc, hname, hN, hR, hb⟩ := h
  have hclt := hf.child arm harm c (binder_mem_children hk)
  have hblt := hf.child arm harm b (body_mem_children hk)
  have hnlt := hf.child c hclt name (name_mem_children hkc)
  refine ⟨p, c, b, name, ascription, token, (hl.grows.kind_iff harm rfl (by simp)).mpr hk,
    (hl.grows.kind_iff hclt rfl (by simp)).mpr hkc, (hl.grows.kind_iff hnlt rfl (by simp)).mpr hname, hN, hR,
    fun hnone => hb ?_⟩
  exact (hl.grows.kind b hblt).stmts?_eq_none.mp hnone

/-- A block takes the switch of a family. -/
theorem exists_mergedInto (f : Family) (binder : String) (default : Option Nat) (h : v.stmts? target ≠ .none) :
    ∃ v', MergedInto f binder target default v v' := by
  rw [Tree.stmts?] at h
  have hadd : ∃ k, (v.kind target).addStmt (f.switchId v) = .some k := by
    generalize v.kind target = k at h
    cases k with
    | block | program => exact ⟨_, rfl⟩
    | _ => exact absurd rfl h
  obtain ⟨k, hk⟩ := hadd
  exact ⟨_, k, hk, rfl⟩

theorem exists_copiedDefault (body : Option NodeId) (v : Tree) : ∃ d v', CopiedDefault body v d v' := by
  cases body with
  | none => exact ⟨.none, v, rfl, rfl⟩
  | some b => exact ⟨_, _, _, rfl, rfl⟩

theorem exists_familyMerged (vs : ScopeId) (wildcard : Option (Phase × NodeId)) (f : Family)
    (hm : ∀ a ∈ m.arms, Gathered N R v a) : ∃ m' v', FamilyMerged vs wildcard f m v m' v' := by
  cases hfound : m.arms.findSome? (v.bindsConcrete? f.phase f.shadowedName) with
  | some nb =>
    obtain ⟨name, body⟩ := nb
    obtain ⟨arm, harm, hb⟩ := List.exists_of_findSome?_eq_some hfound
    obtain ⟨c, ascription, hk, hkc, -⟩ := bindsConcrete?_eq_some.mp hb
    obtain ⟨p, c', b, name', ascription', token, hk', hkc', hname, -, -, hstmts⟩ := hm arm harm
    rw [hk] at hk'
    cases hk'
    rw [hkc] at hkc'
    cases hkc'
    obtain ⟨v', hv'⟩ := exists_mergedInto f token .none hstmts
    exact ⟨m, v', .existing hfound hname hv'⟩
  | none =>
    obtain ⟨default, v₁, hcopied⟩ := exists_copiedDefault (wildcardFor f.phase wildcard) (f.armed vs v)
    have hempty : v₁.stmts? (v.size + 3) ≠ .none := by
      have hlt : v.size + 3 < (f.armed vs v).size := by rw [f.size_armed]; omega
      rw [Tree.stmts?, hcopied.grows.kind _ hlt, f.kind_armed vs (i := 3) rfl]
      simp [Kind.stmts?]
    obtain ⟨v', hv'⟩ := exists_mergedInto f f.first.binder default hempty
    exact ⟨_, v', .made hfound hcopied hv'⟩

/-! ## Old and new nodes are fit -/

/-- All nodes in the set are fit. -/
def FitIn (N R : Set String) (v : Tree) (S : Set Nat) : Prop := ∀ x ∈ S, Fit N R v x

/-- The nodes added to the tree have no shadow type. -/
theorem Tree.shadow?_addAll {t : Tree} {ns : List Node} (hns : ∀ n ∈ ns, ∀ ty ∈ n.ty, ty.isShadow = false)
    (hy : y ∈ fresh t (t.addAll ns)) : (t.addAll ns).shadow? y = .none := by
  obtain ⟨n, hn, -, -, hty, -⟩ := new_addAll hy.1 hy.2
  rw [Tree.shadow?, hty]
  cases hnty : n.ty with
  | none => rfl
  | some ty => simpa [Ty.isShadow] using hns n hn ty hnty

theorem FitIn.extends (h : FitIn N R v S) (hl : v.Later v') (hext : v.Extends v') (hf : v.Formed)
    (hS : ∀ x ∈ S, x < v.size) : FitIn N R v' S := fun x hx =>
  (h x hx).later hl hf (hS x hx) (hext.kind x (hS x hx))

/-- The nodes of an arm made for a family. -/
theorem MadeArm.fit {n : Nat} (h : MadeArm f n v) (hs : f.Sound N R) (hbody : v.kind (n + 3) = .block [])
    (hshadow : ∀ i : Nat, i < 5 → v.shadow? (n + i) = .none) : ∀ i : Nat, i < 5 → Fit N R v (n + i) := by
  have hfirst : f.first ∈ f.arms := List.mem_cons_self
  have hty : f.first.shadow.shadowedTy.shadow? = .none := by rw [(hs.shadow _ hfirst).shadowed]; rfl
  intro i hi
  match i, hi, hshadow i hi with
  | 0, _, hnone => exact .of_ident h.name hnone
  | 1, _, hnone => exact .of_ident h.ascription hnone
  | 2, _, hnone =>
    refine .of_plain (by simp [isVisitor, h.component]) hnone ?_ (by simp [h.component]) ?_ ?_ ?_
    · simp [shadowDecl?, h.component, declaredShadow?, declaredTy?, h.ty, hty]
    · simp [h.component, Kind.names, h.name, h.ascription]
    · simp [Tree.children, h.component, Kind.children, h.name, h.ascription, hs.binder _ hfirst,
        ← hs.name _ hfirst, (hs.shadow _ hfirst).shadowedName]
    · simp [h.component, Kind.references, Kind.children, h.name, h.ascription, hs.used _ hfirst,
        ← hs.name _ hfirst, (hs.shadow _ hfirst).used]
  | 3, _, hnone =>
    exact .of_plain (by simp [isVisitor, hbody]) hnone (by simp [shadowDecl?, hbody]) (by simp [hbody])
      (by simp [hbody, Kind.names]) (by simp [Tree.children, hbody, Kind.children])
      (by simp [hbody, Kind.references, Kind.children])
  | 4, _, hnone =>
    exact .of_plain (by simp [isVisitor, h.arm]) hnone (by simp [shadowDecl?, h.arm]) (by simp [h.arm])
      (by simp [h.arm, Kind.names]) (by simp [Tree.children, h.arm, Kind.children, h.component, hbody])
      (by simp [h.arm, Kind.references, Kind.children, h.component, hbody])
  | i + 5, hi, _ => omega

theorem Family.fit_armed (hs : f.Sound N R) (vs : ScopeId) (v : Tree) :
    FitIn N R (f.armed vs v) (fresh v (f.armed vs v)) := by
  have hfirst : f.first ∈ f.arms := List.mem_cons_self
  have hshadow : ∀ i : Nat, i < 5 → (f.armed vs v).shadow? (v.size + i) = .none := fun i hi => by
    refine shadow?_addAll (t := v.modifyEnv (f.bindNew vs)) (fun n hn ty hty => ?_) ⟨?_, ?_⟩
    · have hconcrete := (hs.shadow f.first hfirst).isShadow
      simp only [armNodes, List.mem_cons, List.not_mem_nil, or_false] at hn
      rcases hn with rfl | rfl | rfl | rfl | rfl <;> cases hty <;> exact hconcrete
    · rw [size_modifyEnv]
      omega
    · rw [size_addAll, size_modifyEnv]
      simp only [armNodes, List.length_cons, List.length_nil]
      omega
  intro y hy
  obtain ⟨i, rfl⟩ := Nat.exists_eq_add_of_le hy.1
  have hlt := hy.2
  rw [f.size_armed] at hlt
  exact (f.madeArm_armed vs v).fit hs (f.kind_armed vs (i := 3) rfl) hshadow i (by omega)

/-- The nodes of a copy. -/
theorem CopiedDefault.fit {body : Option NodeId} (h : CopiedDefault body v default v') (hZ : v.Closed Z)
    (hb : ∀ b ∈ body, b ∈ Z) (hf : v.Formed) (hfit : FitIn N R v Z) : FitIn N R v' (fresh v v') := by
  obtain ⟨φ, hφ, -, -⟩ := h.mirrored hZ hb
  have hkind : ∀ y ∈ Z, v'.kind y = v.kind y := fun y hy => hφ.grows.kind y (hZ.bounded y hy)
  have hfolds := hφ.folds hZ (.refl v') hkind fun _ _ => rfl
  intro y hy
  have horigin := hφ.origin y hy.1 hy.2
  exact hfolds.resembles.fit (.inr hy) ((hfit _ horigin).later h.later hf (hZ.bounded _ horigin) (hkind _ horigin))

/-- The nodes of a switch: what reads the discriminant, the switch itself, and a
label and a case for each arm. -/
theorem Family.switch_cases (f : Family) {i : Nat} (hi : i < 5 + 2 * f.arms.length) :
    i < 4 ∨ i = 4 + 2 * f.arms.length ∨ ∃ j a, f.arms[j]? = .some a ∧ (i = 4 + 2 * j ∨ i = 4 + 2 * j + 1) := by
  rcases Nat.lt_or_ge i 4 with hlt | hge
  · exact .inl hlt
  · by_cases hlast : i = 4 + 2 * f.arms.length
    · exact .inr (.inl hlast)
    · have hj : (i - 4) / 2 < f.arms.length := by omega
      exact .inr (.inr ⟨(i - 4) / 2, _, List.getElem?_eq_getElem hj, by omega⟩)

theorem SwitchAt.case_ne_ident {n c : Nat} {token : String} (h : SwitchAt f binder default n v)
    (hc : c ∈ pairIds (n + 4) f.arms.length) : v.kind c ≠ .ident token := by
  intro hk
  obtain ⟨j, hj, rfl⟩ := mem_pairIds.mp hc
  have hkind := h.case j _ (List.getElem?_eq_getElem hj)
  rw [show n + 4 + 1 + 2 * j = n + 4 + 2 * j + 1 by omega, hkind] at hk
  cases hk

/-- The nodes of a switch. -/
theorem SwitchAt.fit {n : Nat} (h : SwitchAt f binder default n v) (hs : f.Sound N R) (hN : binder ∈ N) (hR : binder ∉ R)
    (hshadow : ∀ i : Nat, i < 5 + 2 * f.arms.length → v.shadow? (n + i) = .none)
    (hbodies : ∀ b ∈ f.bodies, ∀ token, v.kind b ≠ .ident token)
    (hdefault : ∀ d ∈ default, ∀ token, v.kind d = .ident token → token ∈ N ∧ token ∉ R) :
    ∀ i : Nat, i < 5 + 2 * f.arms.length → Fit N R v (n + i) := by
  have hfirst := hs.shadow f.first List.mem_cons_self
  intro i hi
  have hnone := hshadow i hi
  rcases f.switch_cases hi with hlt | rfl | ⟨j, a, hj, rfl | rfl⟩
  · match i, hlt, hnone with
    | 0, _, hnone => exact .of_ident h.var hnone
    | 1, _, hnone => exact .of_ident h.field hnone
    | 2, _, hnone =>
      exact .of_plain (by simp [isVisitor, h.step]) hnone (by simp [shadowDecl?, h.step]) (by simp [h.step])
        (by simp [h.step, Kind.names, h.field]) (by simp [Tree.children, h.step, Kind.children, h.field, hfirst.discriminantField])
        (by simp [h.step, Kind.references])
    | 3, _, hnone =>
      have hvar : v.shadow? n = .none := hshadow 0 (by omega)
      exact .of_plain (by simp [isVisitor, h.scrutinee]) hnone (by simp [shadowDecl?, h.scrutinee])
        (by simp [h.scrutinee, hvar]) (by simp [h.scrutinee, Kind.names])
        (by simp [Tree.children, h.scrutinee, Kind.children, h.var, h.step, hR])
        (by simp [h.scrutinee, Kind.references, Kind.children, h.var, h.step, hN])
    | i + 4, hlt, _ => omega
  · have hk := h.switch
    rw [Nat.add_assoc] at hk
    have htoken : ∀ c ∈ v.children (n + (4 + 2 * f.arms.length)), ∀ token, v.kind c = .ident token →
        token ∈ N ∧ token ∉ R := by
      intro c hc token hkc
      rw [Tree.children, hk] at hc
      simp only [Kind.children, List.mem_cons, List.mem_append, Option.mem_toList] at hc
      rcases hc with rfl | hc | hc
      · rw [h.scrutinee] at hkc
        cases hkc
      · exact absurd hkc (h.case_ne_ident hc)
      · exact hdefault c hc token hkc
    exact .of_plain (by simp [isVisitor, hk]) hnone (by simp [shadowDecl?, hk]) (by simp [hk]) (by simp [hk, Kind.names])
      (fun c hc token hkc => (htoken c hc token hkc).2)
      (fun c hc token hkc => (htoken c (Kind.mem_children_of_references hc) token hkc).1)
  · have hk := h.label j a hj
    rw [Nat.add_assoc] at hk
    exact .of_ident hk hnone
  · have hk := h.case j a hj
    rw [show n + 4 + 2 * j + 1 = n + (4 + 2 * j + 1) by omega] at hk
    have hmem := List.mem_of_getElem? hj
    have hbody : ∀ token, v.kind a.body ≠ .ident token := hbodies a.body (List.mem_map_of_mem hmem)
    exact .of_plain (by simp [isVisitor, hk]) hnone (by simp [shadowDecl?, hk]) (by simp [hk]) (by simp [hk, Kind.names])
      (by simp [Tree.children, hk, Kind.children, h.label j a hj, hbody, (hs.shadow a hmem).discriminant])
      (by simp [hk, Kind.references, hbody])

/-- A switch at the end of a block. -/
theorem MergedInto.fit (h : MergedInto f binder target default v v') (hf : v.Formed) (hS : ∀ x ∈ S, x < v.size)
    (hfit : FitIn N R v S) (hs : f.Sound N R) (hN : binder ∈ N) (hR : binder ∉ R)
    (hbodies : ∀ b ∈ f.bodies, b < v.size ∧ ∀ token, v.kind b ≠ .ident token)
    (hdefault : ∀ d : Nat, d ∈ default → d < v.size ∧ ∀ token, v.kind d = .ident token → token ∈ N ∧ token ∉ R) :
    FitIn N R v' (S ∪ fresh v v') := by
  have hswitch := SwitchAt.of_merged h
  have hident : ∀ c : Nat, c < v.size → ∀ token, v'.kind c = .ident token → v.kind c = .ident token := fun c hc token =>
    (h.grows.kind_iff hc rfl (by simp)).mp
  rintro x (hx | hx)
  · by_cases hxt : x = target
    · subst hxt
      obtain ⟨l, hl⟩ := h.stmts?
      refine (hfit x hx).grown h.later hf (hS x hx) (by simp [hl]) fun c hc => ?_
      rw [h.children_target, List.mem_append, List.mem_singleton] at hc
      refine hc.imp_right fun hc n hk => ?_
      rw [hc, Family.switchId, hswitch.switch] at hk
      cases hk
    · refine (hfit x hx).later h.later hf (hS x hx) ?_
      rw [h.kind_other hxt, Family.switched, (Extends.addAll ..).kind x (hS x hx)]
  · obtain ⟨i, rfl⟩ := Nat.exists_eq_add_of_le hx.1
    have hlt := hx.2
    rw [h.size] at hlt
    refine hswitch.fit hs hN hR (fun j hj => ?_) (fun b hb token hk => ?_) (fun d hd token hk => ?_) i (by omega)
    · have hty : v'.shadow? (v.size + j) = (f.switched binder target default v).shadow? (v.size + j) := by
        rw [Tree.shadow?, Tree.shadow?, h.ty]
      rw [hty, Family.switched]
      refine shadow?_addAll (fun n hn ty hty => ?_) ⟨by omega, ?_⟩
      · have hfirst := hs.shadow f.first List.mem_cons_self
        rcases f.mem_switchNodes binder default hn with rfl | rfl | rfl | rfl | ⟨a, ha, rfl | ⟨l, rfl⟩⟩ | rfl <;> cases hty
        · exact hfirst.isShadow
        · exact hfirst.discriminantTy
        · exact (hs.shadow a ha).discriminantTy
      · simp [Family.switchNodes]
        omega
    · exact (hbodies b hb).2 token (hident b (hbodies b hb).1 token hk)
    · exact (hdefault d hd).2 token (hident d (hdefault d hd).1 token hk)

/-! ## All families of a visitor -/

/-- The families `fs` of a visitor are still to be merged, in a tree whose nodes
in `S` are fit. -/
structure Acceptable (N R : Set String) (vs : Nat) (wildcard : Option (Phase × NodeId)) (fs : List Family) (m : Merged)
    (v : Tree) (G Z S : Set Nat) : Prop where
  adoptable : Adoptable vs wildcard fs m v G Z
  sound : ∀ f ∈ fs, f.Sound N R
  gathered : ∀ a ∈ m.arms, Gathered N R v a
  bodies : ∀ b ∈ fs.flatMap Family.bodies, ∀ token, v.kind b ≠ .ident token
  default : ∀ p b, wildcard = .some (p, b) → ∀ token, v.kind b = .ident token → token ∈ N ∧ token ∉ R
  bounded : ∀ x ∈ S, x < v.size
  below : Z ⊆ S
  fit : FitIn N R v S

namespace Acceptable

variable (h : Acceptable N R vs wildcard (f :: fs) m v G Z S)
include h

/-- A copy of the wildcard's body is an identifier only where that is one. -/
theorem default_token (hcopied : CopiedDefault (wildcardFor f.phase wildcard) v₁ default v') (hZ : v₁.Closed Z)
    (hkind : ∀ y ∈ Z, v₁.kind y = v.kind y) :
    ∀ d : Nat, d ∈ default → d < v'.size ∧ ∀ token, v'.kind d = .ident token → token ∈ N ∧ token ∉ R := by
  obtain ⟨φ, hφ, hbody, hmem⟩ := hcopied.mirrored hZ fun b hb => (h.adoptable.wildcardFor b hb).1
  have hclosed := (Step.mirrored hZ hφ).closed hZ
  intro d hd
  obtain rfl := Option.mem_def.mp hd
  refine ⟨hclosed.bounded d (hmem d rfl), fun token hk => ?_⟩
  have hwild : φ d ∈ Z ∧ ∀ token, v.kind (φ d) = .ident token → token ∈ N ∧ token ∉ R := by
    have hb : φ d ∈ wildcardFor f.phase wildcard := hbody.symm
    exact wildcardFor_mem (S := { b | b ∈ Z ∧ ∀ token, v.kind b = .ident token → token ∈ N ∧ token ∉ R })
      (fun p b hp => ⟨(h.adoptable.wildcard p b hp).1, h.default p b hp⟩) _ hb
  refine hwild.2 token ?_
  rw [← hkind _ hwild.1]
  rcases hmem d rfl with hold | hnew
  · rw [hφ.old d (hZ.bounded d hold), ← hφ.grows.kind d (hZ.bounded d hold)]
    exact hk
  · rw [← hφ.kind d hnew.1 hnew.2, hk]
    rfl

theorem next_fit (hm : FamilyMerged vs wildcard f m v m' v') : FitIn N R v' (S ∪ fresh v v') := by
  have hs := h.sound f (by simp)
  have hfirst : f.first ∈ f.arms := List.mem_cons_self
  have had := h.adoptable
  have hbodies : ∀ b ∈ f.bodies, b < v.size ∧ ∀ token, v.kind b ≠ .ident token := fun b hb =>
    ⟨had.family_lt b hb, h.bodies b (by simp only [List.flatMap_cons, List.mem_append]; exact .inl hb)⟩
  cases hm with
  | @existing name body binder _ found named merged =>
    obtain ⟨arm, harm, hb⟩ := List.exists_of_findSome?_eq_some found
    obtain ⟨c, ascription, hk, hkc, -⟩ := bindsConcrete?_eq_some.mp hb
    obtain ⟨p, c', b, name', ascription', token, hk', hkc', hname, hN, hR, -⟩ := h.gathered arm harm
    rw [hk] at hk'
    cases hk'
    rw [hkc] at hkc'
    cases hkc'
    rw [named] at hname
    cases hname
    exact merged.fit had.formed h.bounded h.fit hs hN hR hbodies (by simp)
  | @made default v₁ _ absent copied merged =>
    have hext := f.extends_armed (v := v) vs
    have hsize := f.size_armed vs v
    have hl := f.later_armed had.scope
    have hf := f.formed_armed had.formed had.scope
    have hkind : ∀ y ∈ Z, (f.armed vs v).kind y = v.kind y := fun y hy => hext.kind y (had.closed.bounded y hy)
    have hclosed := had.closed.congr hext.size_le hkind
    have hwild : ∀ b ∈ wildcardFor f.phase wildcard, b ∈ Z := fun b hb => (had.wildcardFor b hb).1
    have hgrows := copied.grows
    have hle := hgrows.size_le
    have hfit : FitIn N R (f.armed vs v) (S ∪ fresh v (f.armed vs v)) := fun x hx =>
      hx.elim (h.fit.extends hl hext had.formed h.bounded x) (f.fit_armed hs vs v x)
    have hbound : ∀ x ∈ S ∪ fresh v (f.armed vs v), x < (f.armed vs v).size := fun x hx =>
      hx.elim (fun hx => (h.bounded x hx).trans_le hext.size_le) (·.2)
    have hfit₁ : FitIn N R v₁ (S ∪ fresh v (f.armed vs v) ∪ fresh (f.armed vs v) v₁) := fun x hx =>
      hx.elim (hfit.extends copied.later hgrows hf hbound x)
        (copied.fit hclosed hwild hf (fun y hy => hfit y (.inl (h.below hy))) x)
    have hbound₁ : ∀ x ∈ S ∪ fresh v (f.armed vs v) ∪ fresh (f.armed vs v) v₁, x < v₁.size := fun x hx =>
      hx.elim (fun hx => (hbound x hx).trans_le hle) (·.2)
    have hf₁ := (copied.formed hf fun b hb => hclosed.bounded b (hwild b hb)).1
    have hmerged := merged.fit hf₁ hbound₁ hfit₁ hs (hs.used _ hfirst) (hs.binder _ hfirst)
      (fun b hb => ⟨by have := (hbodies b hb).1; omega, fun token hk => (hbodies b hb).2 token ?_⟩)
      (h.default_token copied hclosed hkind)
    · have hle' := merged.grows.size_le
      rwa [Set.union_assoc, Set.union_assoc, ← fresh_trans hle hle', ← fresh_trans hext.size_le (hle.trans hle')] at hmerged
    · have hlt := (hbodies b hb).1
      rwa [hgrows.kind b (by omega), hext.kind b hlt] at hk

theorem next_gathered (hm : FamilyMerged vs wildcard f m v m' v') : ∀ a ∈ m'.arms, Gathered N R v' a := by
  have hs := h.sound f (by simp)
  have hfirst : f.first ∈ f.arms := List.mem_cons_self
  have hold : ∀ a ∈ m.arms, Gathered N R v' a := fun a ha =>
    (h.gathered a ha).later (hm.later h.adoptable.scope) h.adoptable.formed (h.adoptable.arms a ha).1.1
  have hmade := hm.madeArm
  cases hm with
  | existing => exact hold
  | made absent copied merged =>
    obtain ⟨-, hmade⟩ := hmade.resolve_left (by simp)
    intro a ha
    rcases List.mem_append.mp ha with ha | ha
    · exact hold a ha
    · obtain rfl := List.mem_singleton.mp ha
      obtain ⟨l, -, hl⟩ := merged.stmts?_target
      exact ⟨_, _, _, _, _, _, hmade.arm, hmade.component, hmade.name, hs.used _ hfirst, hs.binder _ hfirst, by simp [hl]⟩

theorem next (hm : FamilyMerged vs wildcard f m v m' v') :
    Acceptable N R vs wildcard fs m' v' (G ∪ fresh v v') Z (S ∪ fresh v v') := by
  have had := h.adoptable
  have hl := hm.later had.scope
  have hident : ∀ b : Nat, b < v.size → ∀ token, v'.kind b = .ident token → v.kind b = .ident token := fun b hb token =>
    (hl.grows.kind_iff hb rfl (by simp)).mp
  have hmem : ∀ b ∈ fs.flatMap Family.bodies, b ∈ (f :: fs).flatMap Family.bodies := fun b hb => by
    rw [List.flatMap_cons]
    exact List.mem_append_right _ hb
  refine ⟨had.next hm, fun g hg => h.sound g (by simp [hg]), h.next_gathered hm, fun b hb token hk => ?_,
    fun p b hp token hk => ?_, fun x hx => ?_, fun x hx => .inl (h.below hx), h.next_fit hm⟩
  · exact h.bodies b (hmem b hb) token (hident b (had.bodies b (hmem b hb)).1 token hk)
  · exact h.default p b hp token (hident b (had.closed.bounded b (had.wildcard p b hp).1) token hk)
  · exact hx.elim (fun hx => (h.bounded x hx).trans_le hl.grows.size_le) (·.2)

end Acceptable

/-- All families can be merged. -/
theorem Acceptable.run (h : Acceptable N R vs wildcard fs m v G Z S) :
    ∃ m' v', FamiliesMerged vs wildcard fs m v m' v' ∧
      Acceptable N R vs wildcard [] m' v' (G ∪ fresh v v') Z (S ∪ fresh v v') := by
  induction fs generalizing m v G S with
  | nil => exact ⟨m, v, .nil, by simpa [fresh_self] using h⟩
  | cons f fs ih =>
    obtain ⟨m₁, v₁, hfirst⟩ := exists_familyMerged vs wildcard f h.gathered
    obtain ⟨m', v', hrest, h'⟩ := ih (h.next hfirst)
    have hle := hfirst.grows.size_le
    have hle' := hrest.grows.size_le
    rw [Set.union_assoc, Set.union_assoc, ← fresh_trans hle hle'] at h'
    exact ⟨m', v', .cons hfirst hrest, h'⟩

/-! ## A visitor -/

section Visitor

variable {arms : List NodeId} {wild? wild' : Option NodeId} {s : Sorted} {w : Option (Phase × NodeId)}
  (hf : u.Formed) (ho : u.Owned) (hfit : FitIn N R u { y | u.Reachable y }) (hV : u.Reachable V)
  (kind : u.kind V = .visitor arms wild?)
include hfit hV kind

/-- The binder of an arm has a name that refers to a variable and names no shadow
type. -/
theorem FitIn.exists_binder {arm : Nat} (harm : arm ∈ arms) :
    ∃ p c b name ascription token, u.kind arm = .arm p (.some c) b ∧ u.kind c = .component name ascription ∧
      u.kind name = .ident token ∧ token ∈ N ∧ token ∉ R ∧ u.stmts? b ≠ .none ∧ u.Reachable c := by
  obtain ⟨p, c, b, name, ascription, hk, hkc, hb⟩ := (hfit V hV).arms arms wild? kind arm harm
  have hc : u.Reachable c := (Reaches.tail hV (arm_mem_children kind harm)).tail (binder_mem_children hk)
  have hfc := hfit c hc
  obtain ⟨token, htok⟩ := hfc.names name (by simp [hkc, Kind.names])
  exact ⟨p, c, b, name, ascription, token, hk, hkc, htok,
    hfc.references name (by simp [hkc, Kind.references, Kind.children]) token htok,
    hfc.others name (by simp [hkc, Kind.others]) token htok, hb, hc⟩

theorem FitIn.shadowArm? {arm : Nat} (harm : arm ∈ arms) : ∃ r, u.shadowArm? arm = .ok r := by
  obtain ⟨p, c, b, name, ascription, token, hk, hkc, hname, -⟩ := hfit.exists_binder hV kind harm
  cases hd : u.declaredShadow? c ascription with
  | none => exact ⟨.none, shadowArm?_ok.mpr ⟨p, c, b, name, ascription, hk, hkc, .inl ⟨hd, rfl⟩⟩⟩
  | some s => exact ⟨_, shadowArm?_ok.mpr ⟨p, c, b, name, ascription, hk, hkc, .inr ⟨s, token, hd, hname, rfl⟩⟩⟩

theorem FitIn.wildcardArm? : ∃ w, u.wildcardArm? wild? = .ok w ∧
    ∀ p b, w = .some (p, b) → ∃ a ∈ wild?, u.kind a = .arm p .none b := by
  cases wild? with
  | none => exact ⟨.none, rfl, by simp⟩
  | some a =>
    obtain ⟨p, b, hk⟩ := (hfit V hV).wildcard arms a kind
    refine ⟨.some (p, b), by simp [Tree.wildcardArm?, hk], fun q b' hq => ⟨a, rfl, ?_⟩⟩
    cases hq
    exact hk

/-- The shadow type that an arm binds leaves nothing behind. -/
theorem FitIn.sound_arm {arm : Nat} (harm : arm ∈ arms) {p : Phase} {a : ShadowArm} (hr : u.shadowArm? arm = .ok (.some (p, a))) :
    a.shadow.Sound N R ∧ a.binder ∈ N ∧ a.binder ∉ R := by
  obtain ⟨p, c, b, name, ascription, token, hk, hkc, htok, hN, hR, -, hc⟩ := hfit.exists_binder hV kind harm
  obtain ⟨q, c', b', name', ascription', hk', hkc', hcase⟩ := shadowArm?_ok.mp hr
  obtain ⟨shadow, binder, hd, hbinder, heq⟩ := hcase.resolve_left (by simp)
  cases hk.symm.trans hk'
  cases hkc.symm.trans hkc'
  cases htok.symm.trans hbinder
  cases heq
  refine ⟨(hfit c hc).declared name (.some ascription) shadow ?_, hN, hR⟩
  simp [shadowDecl?, hkc, hd]

theorem FitIn.sound (hs : u.Sorts arms s) : ∀ f ∈ s.families, f.Sound N R := by
  intro f hfs
  have hread : ∀ a ∈ f.arms, (a.shadow.Sound N R ∧ a.binder ∈ N ∧ a.binder ∉ R) ∧
      a.shadow.shadowedName = f.shadowedName := by
    intro a ha
    obtain ⟨arm, harm, hr, hname⟩ := hs.mem_family hfs ha
    exact ⟨hfit.sound_arm hV kind harm hr, hname⟩
  exact ⟨fun a ha => (hread a ha).1.1, fun a ha => (hread a ha).2, fun a ha => (hread a ha).1.2.1,
    fun a ha => (hread a ha).1.2.2⟩

include hf ho

theorem FitIn.acceptable (hs : u.Sorts arms s) (wild : u.wildcardArm? wild? = .ok w) :
    Acceptable N R (u.scope V) w s.families { arms := s.kept } u (u.besides V arms s.kept)
      { y | ∃ p b, w = .some (p, b) ∧ u.Reaches b y } { y | u.Reachable y } := by
  have hwild : ∀ p b, w = .some (p, b) → ∃ a, u.Reachable a ∧ u.kind a = .arm p .none b := fun p b hw => by
    obtain ⟨w', hw', hbody⟩ := hfit.wildcardArm? hV kind
    obtain rfl := Except.ok.inj (wild.symm.trans hw')
    obtain ⟨a, ha, hk⟩ := hbody p b hw
    obtain rfl := Option.mem_def.mp ha
    exact ⟨a, Reaches.tail hV (wildcard_mem_children kind), hk⟩
  refine ⟨(ho.rooted hf).adoptable hf hV kind hs wild, hfit.sound hV kind hs, fun a ha => ?_, fun b hb token hk => ?_,
    fun p b hw token hk => ?_, fun x hx => hf.bounded hx, ?_, hfit⟩
  · obtain ⟨p, c, b, name, ascription, token, hk, hkc, htok, hN, hR, hb, -⟩ := hfit.exists_binder hV kind (hs.mem_kept ha).1
    exact ⟨p, c, b, name, ascription, token, hk, hkc, htok, hN, hR, hb⟩
  · obtain ⟨f, hfs, hb⟩ := List.mem_flatMap.mp hb
    obtain ⟨a, ha, rfl⟩ := List.mem_map.mp hb
    obtain ⟨arm, harm, hr, -⟩ := hs.mem_family hfs ha
    obtain ⟨p, c, b, name, ascription, token', hk', -, -, -, -, hstmts, -⟩ := hfit.exists_binder hV kind harm
    obtain ⟨q, c', b', name', ascription', hk'', -, hcase⟩ := shadowArm?_ok.mp hr
    obtain ⟨shadow, binder, -, -, heq⟩ := hcase.resolve_left (by simp)
    cases hk'.symm.trans hk''
    cases heq
    rw [Tree.stmts?, hk] at hstmts
    exact hstmts rfl
  · obtain ⟨a, ha, hka⟩ := hwild p b hw
    have hb : b ∈ (u.kind a).references := by simp [hka, Kind.references, Kind.children]
    exact ⟨(hfit a ha).references b hb token hk, (hfit a ha).others b (by simp [hka, Kind.others, Kind.children]) token hk⟩
  · rintro y ⟨p, b, hw, hy⟩
    obtain ⟨a, ha, hka⟩ := hwild p b hw
    exact (ha.tail (body_mem_children hka)).trans hy

end Visitor

/-- A fit visitor can be lowered, and the program stays fit. -/
theorem FitIn.lowered (hfit : FitIn N R u { y | u.Reachable y }) (hf : u.Formed) (ho : u.Owned) (hV : u.Reachable V) :
    ∃ u', VisitorLowered V u u' ∧ FitIn N R u' { y | u'.Reachable y } := by
  cases hv : u.isVisitor V with
  | false => exact ⟨u, .other hv, hfit⟩
  | true =>
    obtain ⟨arms, wild?, kind⟩ := isVisitor_iff.mp hv
    obtain ⟨s, sorted⟩ := exists_sortArms fun a ha => hfit.shadowArm? hV kind ha
    by_cases hnone : s.families = []
    · exact ⟨u, .plain kind sorted hnone, hfit⟩
    obtain ⟨w, wild, hw⟩ := hfit.wildcardArm? hV kind
    have hacc := hfit.acceptable hf ho hV kind (sorts sorted) wild
    obtain ⟨m, v, families, hacc'⟩ := hacc.run
    have hlow : VisitorLowered V u (v.withArms V m.arms (if m.usedWildcard then .none else wild?)) :=
      .merged kind sorted hnone wild families
    generalize hwild' : (if m.usedWildcard then .none else wild?) = wild' at hlow
    refine ⟨_, hlow, fun x hx => ?_⟩
    have hVlt := hf.bounded hV
    have hsize := families.grows.size_le
    have hvV : v.isVisitor V = true := by rw [families.grows.isVisitor hVlt]; exact hv
    have hl : v.Later (v.withArms V m.arms wild') := .of_env (.withArms v V m.arms wild' hvV) (by simp)
    have hfv := hacc'.adoptable.formed
    have hxv : x ∈ { y | u.Reachable y } ∪ fresh u v := by
      rcases Nat.lt_or_ge x u.size with hlt | hge
      · exact .inl (((hlow.confined hf hV).back root x hf.root_lt hlt hx).elim id fun h => Reaches.trans hV h)
      · refine .inr ⟨hge, ?_⟩
        have hlt := (hlow.later_formed hf).2.bounded hx
        rwa [size_withArms] at hlt
    have hxfit := hacc'.fit x hxv
    have hxlt := hacc'.bounded x hxv
    by_cases hxV : x = V
    · subst hxV
      obtain ⟨arms', wild'', hkv'⟩ := isVisitor_iff.mp hvV
      refine .of_visitor (by rw [kind_withArms, if_pos ⟨rfl, hxlt⟩]) ?_ (fun a ha => ?_) fun a ha => ?_
      · rw [hl.shadow? hxlt]
        exact hxfit.shadow?_visitor hkv'
      · obtain ⟨p, c, b, name, ascription, token, hk, hkc, -, -, -, hb⟩ := hacc'.gathered a ha
        exact hl.mergeable hfv (hacc'.adoptable.arms a ha).1.1 ⟨p, c, b, name, ascription, hk, hkc, hb⟩
      · obtain rfl : wild? = .some a := by
          rw [← hwild'] at ha
          split at ha
          · cases ha
          · exact ha
        obtain ⟨p, b, hk⟩ := (hfit x hV).wildcard arms a kind
        have halt := hf.child x hVlt a (wildcard_mem_children kind)
        refine ⟨p, b, (hl.grows.kind_iff (halt.trans_le hsize) rfl (by simp)).mpr ?_⟩
        exact (families.grows.kind_iff halt rfl (by simp)).mpr hk
    · exact hxfit.later hl hfv hxlt (by rw [kind_withArms, if_neg fun h => hxV h.1])

end Penumbra
