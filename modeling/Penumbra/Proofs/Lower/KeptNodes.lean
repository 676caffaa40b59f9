/-
What lowering leaves as it was.

The kinds that lowering changes are those of visitors and of blocks, so all
that is read off an arm and its binder stays the same, the meaning of type
names included (`Later`). Lowering a visitor changes the kinds of that visitor
and of the bodies of its arms and of no other node (`VisitorLowered.kind_eq`).
-/
import Penumbra.Proofs.Lower.TreeGrowth
import Penumbra.Proofs.Tree.Owned

namespace Penumbra

open Tree

/-! ## What is read off arms -/

theorem Kind.Grown.token? {α : Type} {k k' : Kind α} (h : Grown k k') : k'.token? = k.token? := by
  cases h <;> rfl

theorem Kind.Grown.stmts?_eq_none {α : Type} {k k' : Kind α} (h : Grown k k') : k'.stmts? = .none ↔ k.stmts? = .none := by
  cases h <;> simp [Kind.stmts?]

/-- A kind with neither statements nor arms comes from itself. -/
theorem Kind.Grown.eq_of_right {α : Type} {k k' : Kind α} (h : Grown k k') (hs : k'.stmts? = .none)
    (hv : ∀ arms w, k' ≠ .visitor arms w) : k = k' := by
  cases h with
  | same => rfl
  | block => cases hs
  | program => cases hs
  | visitor _ arms _ w => exact absurd rfl (hv arms w)

namespace Tree

variable {t t' t'' : Tree} {x arm owner ascription : Nat}

/-- `t'` may come out of lowering `t`. -/
structure Later (t t' : Tree) : Prop where
  grows : t.Grows t'
  types : t.env.SameTypes t'.env

theorem Later.refl (t : Tree) : t.Later t := ⟨.refl t, .refl t.env⟩

theorem Later.trans (h : t.Later t') (h' : t'.Later t'') : t.Later t'' :=
  ⟨h.grows.trans h'.grows, h.types.trans h'.types⟩

theorem Later.of_env (hg : t.Grows t') (he : t'.env = t.env) : t.Later t' :=
  ⟨hg, he ▸ .refl t.env⟩

theorem Grows.kind_iff (h : t.Grows t') (hx : x < t.size) {k : Kind NodeId} (hs : k.stmts? = .none)
    (hv : ∀ arms w, k ≠ .visitor arms w) : t'.kind x = k ↔ t.kind x = k := by
  have hk := h.kind x hx
  constructor
  · rintro rfl
    exact hk.eq_of_right hs hv
  · rintro rfl
    exact hk.eq_of hs hv

/-- The same nodes in another environment. -/
def under (t : Tree) (e : Env) : Tree := t.modifyEnv fun _ => e

section Under

variable {e : Env}

@[simp] theorem size_under : (t.under e).size = t.size := size_modifyEnv ..

@[simp] theorem kind_under : (t.under e).kind x = t.kind x := kind_modifyEnv ..

@[simp] theorem scope_under : (t.under e).scope x = t.scope x := scope_modifyEnv ..

@[simp] theorem ty_under : (t.under e).ty x = t.ty x := ty_modifyEnv ..

@[simp] theorem env_under : (t.under e).env = e := env_modifyEnv ..

/-- A declared type depends on the types that were found, and on what type names
mean where none was. -/
theorem declaredTy?_under (h : e.SameTypes t.env) (hn : e.Nested)
    (hs : t.ty owner = .none → t.scope ascription < e.size) :
    (t.under e).declaredTy? owner ascription = t.declaredTy? owner ascription := by
  rw [declaredTy?, declaredTy?, ty_under, ty_under, scope_under, env_under, token?, token?, kind_under]
  cases hty : t.ty owner with
  | some ty => rfl
  | none =>
    congr 2
    exact Option.bind_congr fun token _ => (h.getType? hn (hs hty) token).symm

theorem Grows.declaredTy?_under (h : t.Grows t') (ho : owner < t.size) (ha : ascription < t.size) :
    (t'.under e).declaredTy? owner ascription = (t.under e).declaredTy? owner ascription := by
  rw [declaredTy?, declaredTy?, ty_under, ty_under, ty_under, ty_under, scope_under, scope_under, env_under, env_under,
    h.ty owner ho, h.ty ascription ha, h.scope ascription ha, token?, token?, kind_under, kind_under,
    (h.kind ascription ha).token?]

end Under

/-- A declared type is the same wherever it comes from. -/
theorem Later.declaredTy? (h : t.Later t') (hf : t.Formed) (ho : owner < t.size) (ha : ascription < t.size) :
    t'.declaredTy? owner ascription = t.declaredTy? owner ascription := by
  rw [← declaredTy?_under h.types hf.nested fun _ => by rw [h.grows.scope ascription ha]; exact hf.scope ascription ha,
    h.grows.declaredTy?_under ho ha, declaredTy?_under (.refl _) hf.nested fun _ => hf.scope ascription ha]

theorem shadowArm?_lt {r : Option (Phase × ShadowArm)} (h : t.shadowArm? arm = .ok r) : arm < t.size := by
  obtain ⟨p, c, body, name, ascription, hk, -⟩ := shadowArm?_ok.mp h
  exact lt_size_of_kind hk (by simp)

/-- An arm that can be read reads the same. -/
theorem Later.shadowArm? (h : t.Later t') (hf : t.Formed) (harm : arm < t.size) {r : Option (Phase × ShadowArm)} :
    t'.shadowArm? arm = .ok r ↔ t.shadowArm? arm = .ok r := by
  rw [shadowArm?_ok, shadowArm?_ok]
  have hkind : ∀ p c body, t'.kind arm = .arm p (.some c) body ↔ t.kind arm = .arm p (.some c) body :=
    fun p c body => h.grows.kind_iff harm rfl (by simp)
  simp only [hkind]
  refine exists_congr fun p => exists_congr fun c => exists_congr fun body => exists_congr fun name =>
    exists_congr fun ascription => and_congr_right fun hk => ?_
  have hc : c < t.size := hf.child arm harm c (binder_mem_children hk)
  rw [h.grows.kind_iff hc rfl (by simp)]
  refine and_congr_right fun hkc => ?_
  have hchild : ∀ d : Nat, d ∈ [name, ascription] → d < t.size := fun d hd =>
    hf.child c hc d (by rw [Tree.children, hkc]; exact hd)
  have hname : ∀ b, t'.kind name = .ident b ↔ t.kind name = .ident b := fun b =>
    h.grows.kind_iff (hchild name (by simp)) rfl (by simp)
  rw [declaredShadow?, declaredShadow?, h.declaredTy? hf hc (hchild ascription (by simp)), h.grows.scope c hc]
  simp only [hname]

theorem bindsConcrete?_eq_some {p : Phase} {T : String} {name body : NodeId} :
    t.bindsConcrete? p T arm = .some (name, body) ↔ ∃ c ascription, t.kind arm = .arm p (.some c) body ∧
      t.kind c = .component name ascription ∧ t.declaredTy? c ascription = .some (.named T) := by
  have hnamed : ∀ ty : Option Ty, ty.any (Ty.isNamed T) = true ↔ ty = .some (.named T) := by
    intro ty
    cases ty with
    | none => simp
    | some ty => cases ty <;> simp [Ty.isNamed]
  unfold bindsConcrete?
  constructor
  · intro h
    split at h
    next q c b hk =>
      split at h
      next n a hkc =>
        split at h
        next hc =>
          rw [Bool.and_eq_true, beq_iff_eq, hnamed] at hc
          obtain ⟨rfl, rfl⟩ := Prod.mk.inj (Option.some.inj h)
          obtain ⟨rfl, hty⟩ := hc
          exact ⟨c, a, hk, hkc, hty⟩
        next => cases h
      next => cases h
    next => cases h
  · rintro ⟨c, a, hk, hkc, hty⟩
    simp [hk, hkc, hty, Ty.isNamed]

theorem Later.bindsConcrete? (h : t.Later t') (hf : t.Formed) (harm : arm < t.size) (p : Phase) (T : String) :
    t'.bindsConcrete? p T arm = t.bindsConcrete? p T arm := by
  refine Option.ext fun nb => ?_
  obtain ⟨name, body⟩ := nb
  rw [bindsConcrete?_eq_some, bindsConcrete?_eq_some]
  refine exists_congr fun c => exists_congr fun ascription => ?_
  rw [h.grows.kind_iff harm rfl (by simp)]
  refine and_congr_right fun hk => ?_
  have hc : c < t.size := hf.child arm harm c (binder_mem_children hk)
  rw [h.grows.kind_iff hc rfl (by simp)]
  refine and_congr_right fun hkc => ?_
  rw [h.declaredTy? hf hc (hf.child c hc ascription (ascription_mem_children hkc))]

/-! ## Trees whose indices are right -/

theorem Formed.closed (h : t.Formed) : t.Closed { x | x < t.size } :=
  ⟨fun _ hx => hx, h.child⟩

theorem Formed.program_closed (h : t.Formed) : t.Closed { x | t.Reachable x } := .below fun _ => h.bounded

theorem Formed.of_step (h : t.Formed) (hl : t.Later t') (hs : Step { x | x < t.size } t t')
    (hscope : ∀ y ∈ fresh t t', t'.scope y < t'.env.size) : t'.Formed where
  root_lt := h.root_lt.trans_le hl.grows.size_le
  child x hx c hc := by
    have hmem : x ∈ { x | x < t.size } ∪ fresh t t' := by
      rcases Nat.lt_or_ge x t.size with hlt | hge
      · exact .inl hlt
      · exact .inr ⟨hge, hx⟩
    exact (hs.closed h.closed).bounded c ((hs.closed h.closed).child x hmem c hc)
  scope x hx := by
    rcases Nat.lt_or_ge x t.size with hlt | hge
    · rw [hl.grows.scope x hlt]
      exact (h.scope x hlt).trans_le hl.types.size_le
    · exact hscope x ⟨hge, hx⟩
  nested := hl.types.nested h.nested

end Tree

section Families

variable {f : Family} {binder : String} {target x y vs V : Nat} {default : Option Nat} {u u' v v' : Tree}
  {wildcard : Option (Phase × NodeId)} {m m' : Merged} {fs : List Family}

theorem Family.sameTypes_rebind (f : Family) (e : Env) : e.SameTypes (f.rebind e) := by
  have hfold : ∀ (arms : List ShadowArm) (e : Env),
      e.SameTypes (arms.foldl (fun e a => e.set a.scope a.binder a.shadow.shadowedTy) e) := by
    intro arms
    induction arms with
    | nil => exact fun e => .refl e
    | cons a arms ih => exact fun e => (Env.SameTypes.set ..).trans (ih _)
  exact hfold f.arms e

theorem Family.env_armed (f : Family) (vs : ScopeId) (v : Tree) : (f.armed vs v).env = f.bindNew vs v.env := by
  rw [armed, env_addAll, env_modifyEnv]

theorem Family.later_armed (f : Family) (hvs : vs < v.env.size) : v.Later (f.armed vs v) :=
  ⟨(f.extends_armed vs).grows, f.env_armed vs v ▸ (Env.SameTypes.child hvs).trans (.declare ..)⟩

/-- An arm made for a family is in the visitor's scope, and what it consists of
in a new one. -/
theorem Family.scope_armed (f : Family) (hy : y ∈ fresh v (f.armed vs v)) :
    (f.armed vs v).scope y = v.env.size ∨ (f.armed vs v).scope y = vs := by
  obtain ⟨m, hm, -, hscope, -⟩ := new_addAll (t := v.modifyEnv (f.bindNew vs)) hy.1 hy.2
  rw [armed, hscope]
  simp only [armNodes, List.mem_cons, List.not_mem_nil, or_false] at hm
  rcases hm with rfl | rfl | rfl | rfl | rfl <;> simp

theorem Family.formed_armed (f : Family) (hf : v.Formed) (hvs : vs < v.env.size) : (f.armed vs v).Formed := by
  refine hf.of_step (f.later_armed hvs) (f.step_armed vs) fun y hy => ?_
  have hsize : (f.armed vs v).env.size = v.env.size + 1 := by
    rw [f.env_armed, bindNew, Env.size_declare, Env.size_child]
  rw [hsize]
  rcases f.scope_armed hy with h | h <;> rw [h]
  · exact Nat.lt_succ_self _
  · exact Nat.lt_succ_of_lt hvs

theorem CopiedDefault.later {body d : Option NodeId} (h : CopiedDefault body v d v') : v.Later v' :=
  .of_env h.grows.grows h.env

theorem CopiedDefault.formed {body d : Option Nat} (h : CopiedDefault body v d v') (hf : v.Formed)
    (hb : ∀ b ∈ body, b < v.size) : v'.Formed ∧ ∀ c ∈ d, c < v'.size := by
  obtain ⟨φ, hφ, -, hd⟩ := h.mirrored hf.closed hb
  refine ⟨hf.of_step h.later (.mirrored hf.closed hφ) fun y hy => ?_, fun c hc => ?_⟩
  · rw [hφ.scope y hy.1 hy.2, h.env]
    exact hf.scope _ (hφ.origin y hy.1 hy.2)
  · rcases hd c hc with hlt | hnew
    · exact Nat.lt_of_lt_of_le hlt h.grows.size_le
    · exact hnew.2

theorem MergedInto.later (h : MergedInto f binder target default v v') : v.Later v' :=
  ⟨h.grows, h.env ▸ f.sameTypes_rebind v.env⟩

/-- A switch is in the scope of the block that it ends. -/
theorem MergedInto.scope_new (h : MergedInto f binder target default v v') (hy : y ∈ fresh v v') :
    v'.scope y = v.scope target := by
  have hlt : y < (f.switched binder target default v).size := by
    have := hy.2
    obtain ⟨k, -, rfl⟩ := h
    simpa using this
  obtain ⟨m, hm, -, hscope, -⟩ := new_addAll hy.1 hlt
  rw [h.scope, Family.switched, hscope]
  rcases f.mem_switchNodes binder default hm with rfl | rfl | rfl | rfl | ⟨a, -, rfl | ⟨l, rfl⟩⟩ | rfl <;> rfl

theorem MergedInto.formed (h : MergedInto f binder target default v v') (hf : v.Formed)
    (hb : ∀ b ∈ f.bodies, b < v.size) (hd : ∀ d ∈ default, d < v.size) : v'.Formed := by
  refine hf.of_step h.later (h.step hb hd) fun y hy => ?_
  rw [h.scope_new hy]
  exact (hf.scope target h.target_lt).trans_le h.later.types.size_le

theorem FamilyMerged.later (h : FamilyMerged vs wildcard f m v m' v') (hvs : vs < v.env.size) : v.Later v' := by
  cases h with
  | existing _ _ merged => exact merged.later
  | made _ copied merged => exact ((f.later_armed hvs).trans copied.later).trans merged.later

theorem FamilyMerged.formed (h : FamilyMerged vs wildcard f m v m' v') (hf : v.Formed) (hvs : vs < v.env.size)
    (hb : ∀ b ∈ f.bodies, b < v.size) (hw : ∀ p b, wildcard = .some (p, b) → b < v.size) : v'.Formed := by
  cases h with
  | existing _ _ merged => exact merged.formed hf hb (by simp)
  | made _ copied merged =>
    have hle : v.size ≤ (f.armed vs v).size := (f.extends_armed vs).size_le
    obtain ⟨hf₁, hd⟩ := copied.formed (f.formed_armed hf hvs) fun b hmem =>
      (wildcardFor_mem (S := { x | x < v.size }) hw b hmem).trans_le hle
    exact merged.formed hf₁ (fun b hmem => (hb b hmem).trans_le (hle.trans copied.grows.size_le)) hd

theorem FamiliesMerged.later_formed (h : FamiliesMerged vs wildcard fs m v m' v') (hf : v.Formed)
    (hvs : vs < v.env.size) (hb : ∀ f ∈ fs, ∀ b ∈ f.bodies, b < v.size)
    (hw : ∀ p b, wildcard = .some (p, b) → b < v.size) : v.Later v' ∧ v'.Formed := by
  induction h with
  | nil => exact ⟨.refl _, hf⟩
  | cons first rest ih =>
    have hl := first.later hvs
    have hle := hl.grows.size_le
    obtain ⟨hl', hf'⟩ := ih (first.formed hf hvs (hb _ (by simp)) hw) (hvs.trans_le hl.types.size_le)
      (fun f hmem b hbm => (hb f (by simp [hmem]) b hbm).trans_le hle) fun p b hp => (hw p b hp).trans_le hle
    exact ⟨hl.trans hl', hf'⟩

theorem VisitorLowered.later_formed (h : VisitorLowered V u u') (hf : u.Formed) : u.Later u' ∧ u'.Formed := by
  have hgrows := h.grows
  cases h with
  | other | plain => exact ⟨.refl u, hf⟩
  | @merged arms wildcard s w m v kind sorted some wild families =>
    have hV : V < u.size := lt_size_of_kind kind (by simp)
    have hb := bodies_mem hf.closed (hf.child V hV) kind (sorts sorted)
    have hw := wildcard_mem hf.closed (hf.child V hV) kind wild
    obtain ⟨hl, -⟩ := families.later_formed hf (hf.scope V hV) hb hw
    have hl' : u.Later (v.withArms V m.arms (if m.usedWildcard then .none else wildcard)) :=
      ⟨hgrows, by rw [env_withArms]; exact hl.types⟩
    have hstep := VisitorLowered.step (.merged kind sorted some wild families) hf.closed hV
    refine ⟨hl', hf.of_step hl' hstep fun y hy => ?_⟩
    have hf' := (families.later_formed hf (hf.scope V hV) hb hw).2
    rw [scope_withArms, env_withArms]
    exact hf'.scope y (by have := hy.2; simpa using this)

/-! ## The nodes that change -/

/-- The five nodes of an arm made for `f`, of which the first comes at index
`n`. -/
structure MadeArm (f : Family) (n : Nat) (v : Tree) : Prop where
  name : v.kind n = .ident f.first.binder
  ascription : v.kind (n + 1) = .ident f.shadowedName
  component : v.kind (n + 2) = .component n (n + 1)
  arm : v.kind (n + 4) = .arm f.phase (.some (n + 2)) (n + 3)
  ty : v.ty (n + 2) = .some f.first.shadow.shadowedTy

theorem MadeArm.mono {n : Nat} (h : MadeArm f n v) (hg : v.Grows v') : MadeArm f n v' := by
  have hc := lt_size_of_kind h.component (by simp)
  exact ⟨(hg.kind_iff (lt_size_of_kind h.name (by simp)) rfl (by simp)).mpr h.name,
    (hg.kind_iff (lt_size_of_kind h.ascription (by simp)) rfl (by simp)).mpr h.ascription, (hg.kind_iff hc rfl (by simp)).mpr h.component,
    (hg.kind_iff (lt_size_of_kind h.arm (by simp)) rfl (by simp)).mpr h.arm, (hg.ty _ hc).trans h.ty⟩

theorem Family.madeArm_armed (f : Family) (vs : ScopeId) (v : Tree) : MadeArm f v.size (f.armed vs v) where
  name := f.kind_armed vs (i := 0) rfl
  ascription := f.kind_armed vs (i := 1) rfl
  component := f.kind_armed vs (i := 2) rfl
  arm := f.kind_armed vs (i := 4) rfl
  ty := by
    have hi : (f.armNodes vs v.env.size v.size)[2]? = .some
        { kind := .component v.size (v.size + 1), scope := v.env.size, ty := .some f.first.shadow.shadowedTy } := rfl
    exact (node_addAll (t := v.modifyEnv (f.bindNew vs)) hi).2.2.1

/-- An arm made for a family binds the family's concrete type. -/
theorem MadeArm.bindsConcrete? {n : Nat} (h : MadeArm f n v) (hty : f.first.shadow.shadowedTy = .named f.shadowedName)
    (p : Phase) (T : String) :
    v.bindsConcrete? p T (n + 4) = if f.key = (p, T) then .some (n, n + 3) else .none := by
  have hdeclared : v.declaredTy? (n + 2) (n + 1) = .some (.named f.shadowedName) := by
    rw [Tree.declaredTy?, h.ty, hty]
    rfl
  unfold Tree.bindsConcrete?
  simp [h.arm, h.component, hdeclared, Ty.isNamed, Family.key]

theorem MadeArm.shadowArm? {n : Nat} (h : MadeArm f n v) (hty : f.first.shadow.shadowedTy.isShadow = false) :
    v.shadowArm? (n + 4) = .ok .none := by
  refine shadowArm?_ok.mpr ⟨f.phase, n + 2, n + 3, n, n + 1, h.arm, h.component, .inl ⟨?_, rfl⟩⟩
  rw [declaredShadow?, Tree.declaredTy?, h.ty]
  simpa [Ty.isShadow] using hty

theorem FamilyMerged.madeArm (h : FamilyMerged vs wildcard f m v m' v') :
    m'.arms = m.arms ∨ m'.arms = m.arms ++ [v.size + 4] ∧ MadeArm f v.size v' := by
  cases h with
  | existing => exact .inl rfl
  | made _ copied merged =>
    exact .inr ⟨rfl, ((f.madeArm_armed vs v).mono copied.grows.grows).mono merged.grows⟩

/-- The arms of a visitor, once its families are merged, are among those there
were and those made for its families. -/
theorem FamiliesMerged.madeArm_cases (h : FamiliesMerged vs wildcard fs m v m' v') {arm : Nat} (ha : arm ∈ m'.arms) :
    arm ∈ m.arms ∨ ∃ f ∈ fs, ∃ n, arm = n + 4 ∧ MadeArm f n v' := by
  induction h with
  | nil => exact .inl ha
  | @cons f fs m m₁ m' v v₁ v' first rest ih =>
    rcases ih ha with ha | ⟨g, hg, hmade⟩
    · rcases first.madeArm with heq | ⟨heq, hmade⟩
      · exact .inl (heq ▸ ha)
      · rw [heq, List.mem_append, List.mem_singleton] at ha
        exact ha.imp_right fun harm => ⟨f, List.mem_cons_self, v.size, harm, hmade.mono rest.grows⟩
    · exact .inr ⟨g, List.mem_cons_of_mem _ hg, hmade⟩

theorem MergedInto.stmts? (h : MergedInto f binder target default v v') : ∃ l, v.stmts? target = .some l := by
  obtain ⟨l, ⟨hv, -⟩ | ⟨hv, -⟩⟩ := h.kind_target <;> exact ⟨l, by rw [Tree.stmts?, hv]; rfl⟩

/-- A family is merged into the body of the arm found and changes no other
node. -/
theorem FamilyMerged.kind_of_not_found (h : FamilyMerged vs wildcard f m v m' v') (hx : x < v.size)
    (hne : ∀ name, m.arms.findSome? (v.bindsConcrete? f.phase f.shadowedName) ≠ .some (name, x)) :
    v'.kind x = v.kind x := by
  cases h with
  | @existing name body binder _ found _ merged =>
    have hbody : x ≠ body := fun he => hne name (he ▸ found)
    rw [merged.kind_other hbody, Family.switched, (Extends.addAll ..).kind x hx]
  | made _ copied merged =>
    have hext := (f.extends_armed vs).trans copied.grows
    rw [merged.kind_other (by omega), Family.switched,
      (Extends.addAll ..).kind x (hx.trans_le hext.size_le), hext.kind x hx]

theorem FamilyMerged.kind_eq (h : FamilyMerged vs wildcard f m v m' v') (hx : x < v.size)
    (hbody : ∀ arm ∈ m.arms, ∀ p c, v.kind arm = .arm p (.some c) x → v.stmts? x = .none) : v'.kind x = v.kind x := by
  refine h.kind_of_not_found hx fun name hfound => ?_
  obtain ⟨arm, harm, hb⟩ := List.exists_of_findSome?_eq_some hfound
  obtain ⟨c, ascription, hk, -⟩ := bindsConcrete?_eq_some.mp hb
  cases h with
  | existing found _ merged =>
    rw [hfound] at found
    cases found
    obtain ⟨l, hl⟩ := merged.stmts?
    rw [hbody arm harm f.phase c hk] at hl
    cases hl
  | made absent =>
    rw [hfound] at absent
    cases absent

theorem FamiliesMerged.kind_eq (h : FamiliesMerged vs wildcard fs m v m' v') (hx : x < v.size)
    (hm : ∀ arm : Nat, arm ∈ m.arms → arm < v.size)
    (hbody : ∀ arm ∈ m.arms, ∀ p c, v.kind arm = .arm p (.some c) x → v.stmts? x = .none) : v'.kind x = v.kind x := by
  induction h with
  | nil => rfl
  | @cons f fs m m₁ m' v v₁ v' first rest ih =>
    have hle := first.grows.size_le
    have hkind := first.kind_eq hx hbody
    have hstmts : v₁.stmts? x = v.stmts? x := congrArg Kind.stmts? hkind
    rw [ih (hx.trans_le hle) ?_ ?_, hkind]
    · intro arm harm
      rcases first.arms arm harm with harm | ⟨hnew, -⟩
      · exact (hm arm harm).trans_le hle
      · exact hnew.2
    · intro arm harm p c hk
      rw [hstmts]
      rcases first.madeArm with heq | ⟨heq, hmade⟩
      · rw [heq] at harm
        exact hbody arm harm p c ((first.grows.kind_iff (hm arm harm) rfl (by simp)).mp hk)
      · rw [heq, List.mem_append, List.mem_singleton] at harm
        rcases harm with harm | rfl
        · exact hbody arm harm p c ((first.grows.kind_iff (hm arm harm) rfl (by simp)).mp hk)
        · -- the body of an arm just made is new
          have hb := Kind.arm.inj (hmade.arm.symm.trans hk)
          have : v.size + 3 = x := hb.2.2
          omega

/-- `b` is the body of an arm of the visitor `V`, and takes statements. -/
def Tree.BodyOf (t : Tree) (V b : NodeId) : Prop :=
  t.stmts? b ≠ .none ∧
    ∃ arms wildcard arm p c, t.kind V = .visitor arms wildcard ∧ arm ∈ arms ∧ t.kind arm = .arm p (.some c) b

/-- Lowering a visitor changes no kinds but its own and those of the bodies of
its arms. -/
theorem VisitorLowered.kind_eq (h : VisitorLowered V u u') (hx : x < u.size) (hxV : x ≠ V)
    (hbody : ¬ u.BodyOf V x) : u'.kind x = u.kind x := by
  cases h with
  | other | plain => rfl
  | @merged arms wildcard s w m v kind sorted some wild families =>
    rw [kind_withArms, if_neg fun hx' => hxV hx'.1]
    have hs := sorts sorted
    refine families.kind_eq hx (fun arm harm => shadowArm?_lt (hs.mem_kept harm).2) fun arm harm p c hk => ?_
    by_contra hstmts
    exact hbody ⟨hstmts, arms, wildcard, arm, p, c, kind, (hs.mem_kept harm).1, hk⟩

end Families

end Penumbra
