/-
The arm that a family ends up in.

Merging a family puts a switch at the end of an arm for the family's concrete
type, its last statement. `Resolved` says what there is then to be found for
the family: the first such arm of the visitor, its statements, and the switch
with its cases and its default. The families merged before and after have other
concrete types or phases, so they neither change what is found nor touch the
arm found (`FamiliesMerged.found_eq`).
-/
import Penumbra.Proofs.Lower.KeptNodes
import Penumbra.Proofs.Tree.Terms

namespace Penumbra

open Tree

/-! ## The switch of a family -/

/-- The nodes of the switch of `f`, of which the first comes at index `n`. -/
structure SwitchAt (f : Family) (binder : String) (default : Option Nat) (n : Nat) (v : Tree) : Prop where
  var : v.kind n = .ident binder
  field : v.kind (n + 1) = .ident f.first.shadow.discriminantField
  step : v.kind (n + 2) = .selector (n + 1)
  scrutinee : v.kind (n + 3) = .factor n [n + 2]
  label : ∀ j a, f.arms[j]? = .some a → v.kind (n + 4 + 2 * j) = .ident a.shadow.discriminant
  case : ∀ j a, f.arms[j]? = .some a → v.kind (n + 4 + 2 * j + 1) = .case (n + 4 + 2 * j) a.body
  switch : v.kind (n + 4 + 2 * f.arms.length) = .switch (n + 3) (pairIds (n + 4) f.arms.length) default

namespace SwitchAt

variable {f : Family} {binder : String} {default : Option Nat} {n : Nat} {v v' : Tree}

theorem mono (h : SwitchAt f binder default n v) (hg : v.Grows v') : SwitchAt f binder default n v' := by
  have hkeep : ∀ {x : Nat} {k : Kind Nat}, v.kind x = k → (∀ l, k ≠ .literal l) → k.stmts? = .none →
      (∀ arms w, k ≠ .visitor arms w) → v'.kind x = k := by
    intro x k hx hl hs hv
    exact (hg.kind_iff (lt_size_of_kind hx (hl _)) hs hv).mpr hx
  exact ⟨hkeep h.var (by simp) rfl (by simp), hkeep h.field (by simp) rfl (by simp),
    hkeep h.step (by simp) rfl (by simp), hkeep h.scrutinee (by simp) rfl (by simp),
    fun j a ha => hkeep (h.label j a ha) (by simp) rfl (by simp),
    fun j a ha => hkeep (h.case j a ha) (by simp) rfl (by simp), hkeep h.switch (by simp) rfl (by simp)⟩

theorem getElem?_caseNodes {s : ScopeId} {arms : List ShadowArm} {j : Nat} {a : ShadowArm} (h : arms[j]? = .some a) :
    (Family.caseNodes s n arms)[2 * j]? = .some
        { kind := .ident a.shadow.discriminant, scope := s, ty := .some a.shadow.discriminantTy } ∧
      (Family.caseNodes s n arms)[2 * j + 1]? = .some { kind := .case (n + 2 * j) a.body, scope := s } := by
  induction arms generalizing n j with
  | nil => simp at h
  | cons b arms ih =>
    cases j with
    | zero =>
      obtain rfl : b = a := by simpa using h
      exact ⟨rfl, rfl⟩
    | succ j =>
      have hrec := ih (n := n + 2) (by simpa using h)
      rw [show n + 2 + 2 * j = n + 2 * (j + 1) by omega] at hrec
      exact hrec

theorem getElem?_switchNodes {s : ScopeId} {i : Nat} {m : Node} (h : (Family.caseNodes s (n + 4) f.arms)[i]? = .some m) :
    (f.switchNodes s n binder default)[4 + i]? = .some m := by
  have hlt := (List.getElem?_eq_some_iff.mp h).1
  rw [Family.switchNodes, List.append_assoc, List.getElem?_append_right (by simp),
    List.getElem?_append_left (by simpa using hlt)]
  simpa using h

theorem of_merged {target : Nat} (h : MergedInto f binder target default v v') :
    SwitchAt f binder default v.size v' := by
  have hkind : ∀ i m, (f.switchNodes (v.scope target) v.size binder default)[i]? = .some m →
      v'.kind (v.size + i) = m.kind := by
    intro i m hi
    have hne : v.size + i ≠ target := by have := h.target_lt; omega
    rw [h.kind_other hne]
    exact (node_addAll hi).1
  refine ⟨hkind 0 _ rfl, hkind 1 _ rfl, hkind 2 _ rfl, hkind 3 _ rfl, fun j a ha => ?_, fun j a ha => ?_, ?_⟩
  · have hnode := hkind _ _ (getElem?_switchNodes (getElem?_caseNodes (n := v.size + 4) ha).1)
    rwa [← Nat.add_assoc] at hnode
  · have hnode := hkind _ _ (getElem?_switchNodes (getElem?_caseNodes (n := v.size + 4) ha).2)
    rwa [← Nat.add_assoc, ← Nat.add_assoc] at hnode
  · rw [Nat.add_assoc]
    have hlast : (f.switchNodes (v.scope target) v.size binder default)[4 + 2 * f.arms.length]? = .some
        { kind := .switch (v.size + 3) (pairIds (v.size + 4) f.arms.length) default, scope := v.scope target } := by
      have hzero : 4 + 2 * f.arms.length - (2 * f.arms.length + 1 + 1 + 1 + 1) = 0 := by omega
      rw [Family.switchNodes, List.getElem?_append_right (by simp; omega)]
      simp [hzero]
    exact hkind _ _ hlast

end SwitchAt

/-! ## While the families of a visitor are merged -/

section Families

variable {f : Family} {vs : Nat} {wildcard : Option (Phase × NodeId)} {m m' : Merged} {fs fs' : List Family}
  {v v' : Tree} {p : Phase} {T : String} {name body : Nat}

/-- The families `fs` of a visitor are still to be merged. The arms gathered so
far are nodes of the tree with different bodies. -/
structure Ready (vs : Nat) (wildcard : Option (Phase × NodeId)) (fs : List Family) (m : Merged) (v : Tree) : Prop where
  formed : v.Formed
  scope : vs < v.env.size
  bodies : ∀ f ∈ fs, ∀ b ∈ f.bodies, b < v.size
  wildcard : ∀ p b, wildcard = .some (p, b) → b < v.size
  named : ∀ f ∈ fs, f.first.shadow.shadowedTy = .named f.shadowedName
  arm : ∀ a ∈ (m.arms : List Nat), a < v.size
  distinct : ∀ a ∈ m.arms, ∀ a' ∈ m.arms, ∀ p c q c' b, v.kind a = .arm p (.some c) b →
    v.kind a' = .arm q (.some c') b → a = a'

theorem Ready.later (h : Ready vs wildcard (f :: fs) m v) (hm : FamilyMerged vs wildcard f m v m' v') : v.Later v' :=
  hm.later h.scope

theorem Ready.next (h : Ready vs wildcard (f :: fs) m v) (hm : FamilyMerged vs wildcard f m v m' v') :
    Ready vs wildcard fs m' v' := by
  have hl := h.later hm
  have hle := hl.grows.size_le
  have hbody : ∀ a ∈ m.arms, ∀ p c (b : Nat), v.kind a = .arm p (.some c) b → b < v.size := by
    intro a ha p c b hk
    exact h.formed.child a (h.arm a ha) b (body_mem_children hk)
  have hiff : ∀ a ∈ m.arms, ∀ p c b, v'.kind a = .arm p (.some c) b ↔ v.kind a = .arm p (.some c) b :=
    fun a ha p c b => hl.grows.kind_iff (h.arm a ha) rfl (by simp)
  refine ⟨hm.formed h.formed h.scope (h.bodies f (by simp)) h.wildcard, h.scope.trans_le hl.types.size_le,
    fun g hg b hb => (h.bodies g (by simp [hg]) b hb).trans_le hle,
    fun p b hp => (h.wildcard p b hp).trans_le hle, fun g hg => h.named g (by simp [hg]), fun a ha => ?_, ?_⟩
  · rcases hm.arms a ha with ha | ⟨hnew, -⟩
    · exact (h.arm a ha).trans_le hle
    · exact hnew.2
  · rcases hm.madeArm with heq | ⟨heq, hmade⟩
    · rw [heq]
      intro a ha a' ha' p c q c' b hk hk'
      exact h.distinct a ha a' ha' p c q c' b ((hiff a ha p c b).mp hk) ((hiff a' ha' q c' b).mp hk')
    · -- the body of the new arm is new as well
      have hnew : ∀ p c (b : Nat), v'.kind (v.size + 4) = .arm p (.some c) b → b = v.size + 3 := by
        intro p c b hk
        rw [hmade.arm] at hk
        cases hk
        rfl
      rw [heq]
      intro a ha a' ha' p c q c' b hk hk'
      rw [List.mem_append, List.mem_singleton] at ha ha'
      rcases ha with ha | rfl <;> rcases ha' with ha' | rfl
      · exact h.distinct a ha a' ha' p c q c' b ((hiff a ha p c b).mp hk) ((hiff a' ha' q c' b).mp hk')
      · have := hbody a ha p c b ((hiff a ha p c b).mp hk)
        have := hnew q c' b hk'
        omega
      · have := hbody a' ha' q c' b ((hiff a' ha' q c' b).mp hk')
        have := hnew p c b hk
        omega
      · rfl

theorem Ready.run (h : Ready vs wildcard (fs ++ fs') m v) (hm : FamiliesMerged vs wildcard fs m v m' v') :
    Ready vs wildcard fs' m' v' ∧ v.Later v' := by
  induction hm with
  | nil => exact ⟨h, .refl _⟩
  | cons first rest ih =>
    obtain ⟨h', hl⟩ := ih (h.next first)
    exact ⟨h', (h.later first).trans hl⟩

/-- Merging a family leaves what is found for other families as it was. -/
theorem Ready.found_eq (h : Ready vs wildcard (f :: fs) m v) (hm : FamilyMerged vs wildcard f m v m' v')
    (hk : f.key ≠ (p, T)) : m'.arms.findSome? (v'.bindsConcrete? p T) = m.arms.findSome? (v.bindsConcrete? p T) := by
  have hold : m.arms.findSome? (v'.bindsConcrete? p T) = m.arms.findSome? (v.bindsConcrete? p T) :=
    findSome?_congr fun a ha => (h.later hm).bindsConcrete? h.formed (h.arm a ha) p T
  rcases hm.madeArm with heq | ⟨heq, hmade⟩
  · rw [heq, hold]
  · rw [heq, List.findSome?_append, hold, List.findSome?_singleton,
      hmade.bindsConcrete? (h.named f (by simp)), if_neg hk, Option.or_none]

theorem Ready.kind_found (h : Ready vs wildcard (f :: fs) m v) (hm : FamilyMerged vs wildcard f m v m' v')
    (hk : f.key ≠ (p, T)) (hfound : m.arms.findSome? (v.bindsConcrete? p T) = .some (name, body)) :
    v'.kind body = v.kind body := by
  obtain ⟨a, ha, hb⟩ := List.exists_of_findSome?_eq_some hfound
  obtain ⟨c, ascription, hka, hkc, hty⟩ := bindsConcrete?_eq_some.mp hb
  have hlt := h.formed.child a (h.arm a ha) body (body_mem_children hka)
  refine hm.kind_of_not_found hlt fun name' hfound' => hk ?_
  obtain ⟨a', ha', hb'⟩ := List.exists_of_findSome?_eq_some hfound'
  obtain ⟨c', ascription', hka', hkc', hty'⟩ := bindsConcrete?_eq_some.mp hb'
  obtain rfl := h.distinct a ha a' ha' _ _ _ _ _ hka hka'
  rw [hka] at hka'
  cases hka'
  rw [hkc] at hkc'
  cases hkc'
  rw [hty] at hty'
  cases hty'
  rfl

theorem Ready.run_found (h : Ready vs wildcard (fs ++ fs') m v) (hm : FamiliesMerged vs wildcard fs m v m' v')
    (hk : ∀ f ∈ fs, f.key ≠ (p, T)) :
    m'.arms.findSome? (v'.bindsConcrete? p T) = m.arms.findSome? (v.bindsConcrete? p T) ∧
      ∀ name body, m.arms.findSome? (v.bindsConcrete? p T) = .some (name, body) → v'.kind body = v.kind body := by
  induction hm with
  | nil => exact ⟨rfl, fun _ _ _ => rfl⟩
  | @cons f fs m m₁ m' v v₁ v' first rest ih =>
    have hne := hk f (by simp)
    obtain ⟨hfound, hkind⟩ := ih (h.next first) fun g hg => hk g (by simp [hg])
    have hfirst := h.found_eq first hne
    refine ⟨hfound.trans hfirst, fun name body hb => ?_⟩
    rw [hkind name body (hfirst.trans hb), h.kind_found first hne hb]

/-- The wildcard is used for a family of its phase whose concrete type has no
arm. -/
theorem Ready.usedWildcard (h : Ready vs wildcard fs m v) (hm : FamiliesMerged vs wildcard fs m v m' v')
    (hkeys : (fs.map Family.key).Nodup) (hused : m'.usedWildcard = true) :
    m.usedWildcard = true ∨ ∃ f ∈ fs, m.arms.findSome? (v.bindsConcrete? f.phase f.shadowedName) = .none ∧
      wildcardFor f.phase wildcard ≠ .none := by
  induction hm with
  | nil => exact .inl hused
  | @cons f fs m m₁ m' v v₁ v' first rest ih =>
    obtain ⟨hnew, hkeys⟩ := List.nodup_cons.mp hkeys
    rcases ih (h.next first) hkeys hused with hused₁ | ⟨g, hg, hnone, hw⟩
    · cases first with
      | existing => exact .inl hused₁
      | @made default _ _ absent copied merged =>
        rcases Bool.or_eq_true_iff.mp hused₁ with hused₁ | hsome
        · exact .inl hused₁
        · refine .inr ⟨f, by simp, absent, fun hw => ?_⟩
          rw [hw] at copied
          rw [copied.1] at hsome
          cases hsome
    · have hne : f.key ≠ (g.phase, g.shadowedName) := fun he => hnew (he ▸ List.mem_map_of_mem (f := Family.key) hg)
      rw [h.found_eq first hne] at hnone
      exact .inr ⟨g, by simp [hg], hnone, hw⟩

theorem FamiliesMerged.arms_subset (h : FamiliesMerged vs wildcard fs m v m' v') : m.arms ⊆ m'.arms := by
  induction h with
  | nil => exact List.Subset.refl _
  | cons first _ ih =>
    refine List.Subset.trans ?_ ih
    rcases first.madeArm with heq | ⟨heq, -⟩ <;> rw [heq]
    · exact List.Subset.refl _
    · exact List.subset_append_left ..

theorem FamiliesMerged.split (h : FamiliesMerged vs wildcard (fs ++ f :: fs') m v m' v') :
    ∃ m₁ v₁ m₂ v₂, FamiliesMerged vs wildcard fs m v m₁ v₁ ∧ FamilyMerged vs wildcard f m₁ v₁ m₂ v₂ ∧
      FamiliesMerged vs wildcard fs' m₂ v₂ m' v' := by
  induction fs generalizing m v with
  | nil =>
    cases h with
    | cons first rest => exact ⟨m, v, _, _, .nil, first, rest⟩
  | cons g fs ih =>
    cases h with
    | cons first rest =>
      obtain ⟨m₁, v₁, m₂, v₂, h₁, hf, h₂⟩ := ih rest
      exact ⟨m₁, v₁, m₂, v₂, .cons first h₁, hf, h₂⟩

/-! ## What there is to be found -/

/-- The first arm for the concrete type of `f` has the name and body given;
its statements are `init` and then the switch of the family. -/
structure Resolved (f : Family) (arms : List NodeId) (name body : Nat) (init : List NodeId) (default : Option Nat)
    (v : Tree) : Prop where
  found : arms.findSome? (v.bindsConcrete? f.phase f.shadowedName) = .some (name, body)
  switch : ∃ binder n, v.kind name = .ident binder ∧ v.stmts? body = .some (init ++ [n + 4 + 2 * f.arms.length]) ∧
    SwitchAt f binder default n v

theorem Resolved.mono {arms arms' init : List NodeId} {default : Option Nat}
    (h : Resolved f arms name body init default v) (hg : v.Grows v')
    (hfound : arms'.findSome? (v'.bindsConcrete? f.phase f.shadowedName) = .some (name, body))
    (hbody : v'.kind body = v.kind body) : Resolved f arms' name body init default v' := by
  obtain ⟨binder, n, hname, hstmts, hswitch⟩ := h.switch
  refine ⟨hfound, binder, n, ?_, ?_, hswitch.mono hg⟩
  · exact (hg.kind_iff (lt_size_of_kind hname (by simp)) rfl (by simp)).mpr hname
  · rw [Tree.stmts?, hbody]
    exact hstmts

theorem MergedInto.stmts?_target {binder : String} {target : Nat} {default : Option Nat}
    (h : MergedInto f binder target default v v') :
    ∃ l, v.stmts? target = .some l ∧ v'.stmts? target = .some (l ++ [v.size + 4 + 2 * f.arms.length]) := by
  obtain ⟨l, ⟨hv, hv'⟩ | ⟨hv, hv'⟩⟩ := h.kind_target <;>
    exact ⟨l, by rw [Tree.stmts?, hv]; rfl, by rw [Tree.stmts?, hv']; rfl⟩

/-- An arm that was there keeps its statements and gets the switch after
them. -/
theorem Ready.resolved_existing (h : Ready vs wildcard (f :: fs) m v) (hm : FamilyMerged vs wildcard f m v m' v')
    (hfound : m.arms.findSome? (v.bindsConcrete? f.phase f.shadowedName) = .some (name, body)) :
    ∃ init, v.stmts? body = .some init ∧ Resolved f m'.arms name body init .none v' := by
  have hl := h.later hm
  cases hm with
  | made absent =>
    rw [hfound] at absent
    cases absent
  | existing found named merged =>
    rw [hfound] at found
    cases found
    obtain ⟨init, hinit, hstmts⟩ := merged.stmts?_target
    refine ⟨init, hinit, ?_, _, _, ?_, hstmts, .of_merged merged⟩
    · rw [← hfound]
      exact findSome?_congr fun a ha => hl.bindsConcrete? h.formed (h.arm a ha) f.phase f.shadowedName
    · exact (hl.grows.kind_iff (lt_size_of_kind named (by simp)) rfl (by simp)).mpr named

/-- An arm made for the family has the switch only, with a copy of the
wildcard's body as its default. -/
theorem Ready.resolved_made (h : Ready vs wildcard (f :: fs) m v) (hm : FamilyMerged vs wildcard f m v m' v')
    (hnone : m.arms.findSome? (v.bindsConcrete? f.phase f.shadowedName) = .none) :
    ∃ default v₁, CopiedDefault (wildcardFor f.phase wildcard) (f.armed vs v) default v₁ ∧
      MergedInto f f.first.binder (v.size + 3) default v₁ v' ∧ m'.arms = m.arms ++ [v.size + 4] ∧
      Resolved f m'.arms v.size (v.size + 3) [] default v' := by
  have hl := h.later hm
  cases hm with
  | existing found =>
    rw [hnone] at found
    cases found
  | @made default v₁ _ absent copied merged =>
    refine ⟨default, v₁, copied, merged, rfl, ?_⟩
    have hmade := ((f.madeArm_armed vs v).mono copied.grows.grows).mono merged.grows
    have hold : m.arms.findSome? (v'.bindsConcrete? f.phase f.shadowedName) = .none := by
      rw [← absent]
      exact findSome?_congr fun a ha => hl.bindsConcrete? h.formed (h.arm a ha) f.phase f.shadowedName
    have hempty : v₁.stmts? (v.size + 3) = .some [] := by
      have hlt : v.size + 3 < (f.armed vs v).size := by rw [f.size_armed]; omega
      rw [Tree.stmts?, copied.grows.kind _ hlt, f.kind_armed vs (i := 3) rfl]
      rfl
    obtain ⟨init, hinit, hstmts⟩ := merged.stmts?_target
    obtain rfl : [] = init := Option.some.inj (hempty.symm.trans hinit)
    refine ⟨?_, _, _, hmade.name, hstmts, .of_merged merged⟩
    rw [List.findSome?_append, hold, List.findSome?_singleton, hmade.bindsConcrete? (h.named f (by simp)),
      Option.none_or, Family.key, if_pos rfl]

section Whole

variable {Z : Set Nat} (h : Ready vs wildcard (fs ++ f :: fs') m v)
  (hm : FamiliesMerged vs wildcard (fs ++ f :: fs') m v m' v') (hkeys : ∀ g ∈ fs ++ fs', g.key ≠ f.key)
include h hm hkeys

/-- A family whose concrete type has an arm is merged into that arm, whatever
comes before and after it. -/
theorem Ready.merged_existing
    (hfound : m.arms.findSome? (v.bindsConcrete? f.phase f.shadowedName) = .some (name, body)) :
    ∃ init, v.stmts? body = .some init ∧ Resolved f m'.arms name body init .none v' := by
  obtain ⟨m₁, v₁, m₂, v₂, h₁, hmid, h₂⟩ := hm.split
  obtain ⟨r₁, -⟩ := h.run h₁
  obtain ⟨hfound₁, hkind₁⟩ := h.run_found h₁ fun g hg => hkeys g (by simp [hg])
  obtain ⟨init, hinit, hres⟩ := r₁.resolved_existing hmid (hfound₁.trans hfound)
  have r₂ : Ready vs wildcard (fs' ++ []) m₂ v₂ := by simpa using r₁.next hmid
  obtain ⟨hfound₂, hkind₂⟩ := r₂.run_found h₂ fun g hg => hkeys g (by simp [hg])
  refine ⟨init, ?_, hres.mono (r₂.run h₂).2.grows (hfound₂.trans hres.found) (hkind₂ name body hres.found)⟩
  rw [Tree.stmts?, ← hkind₁ name body hfound]
  exact hinit

/-- A family whose concrete type has none is merged into a new arm, and what
is below the wildcard has been copied from `Z`. -/
theorem Ready.merged_made (hnone : m.arms.findSome? (v.bindsConcrete? f.phase f.shadowedName) = .none)
    (hZ : v.Closed Z) (hwZ : ∀ b ∈ wildcardFor f.phase wildcard, b ∈ Z)
    (hbZ : ∀ x ∈ Z, ∀ arm ∈ m.arms, ∀ p c, v.kind arm = .arm p (.some c) x → v.stmts? x = .none) :
    ∃ name body default, Resolved f m'.arms name body [] default v' ∧ v.size ≤ body ∧
      Copied Z (wildcardFor f.phase wildcard) default v.size v' := by
  have hwhole : ∀ y ∈ Z, v'.kind y = v.kind y := fun y hy => hm.kind_eq (hZ.bounded y hy) h.arm (hbZ y hy)
  obtain ⟨m₁, v₁, m₂, v₂, h₁, hmid, h₂⟩ := hm.split
  obtain ⟨r₁, hl₁⟩ := h.run h₁
  obtain ⟨hfound₁, -⟩ := h.run_found h₁ fun g hg => hkeys g (by simp [hg])
  obtain ⟨default, v₃, copied, merged, harms, hres⟩ := r₁.resolved_made hmid (hfound₁.trans hnone)
  have r₂ : Ready vs wildcard (fs' ++ []) m₂ v₂ := by simpa using r₁.next hmid
  obtain ⟨hfound₂, hkind₂⟩ := r₂.run_found h₂ fun g hg => hkeys g (by simp [hg])
  have hg₂ := (r₂.run h₂).2.grows
  have hle₁ := hl₁.grows.size_le
  refine ⟨_, _, default, hres.mono hg₂ (hfound₂.trans hres.found) (hkind₂ _ _ hres.found), by omega, ?_⟩
  -- at the time of the copy, `Z` is as it was at first and as it is in the end
  have hZ₁ : ∀ y ∈ Z, (f.armed vs v₁).kind y = v.kind y := by
    intro y hy
    rw [(f.extends_armed vs).kind y ((hZ.bounded y hy).trans_le hle₁)]
    exact h₁.kind_eq (hZ.bounded y hy) h.arm (hbZ y hy)
  have hsize := f.size_armed vs v₁
  have hclosed : (f.armed vs v₁).Closed Z := by
    refine ⟨fun y hy => ?_, fun y hy c hc => ?_⟩
    · have := hZ.bounded y hy
      omega
    · rw [Tree.children, hZ₁ y hy] at hc
      exact hZ.child y hy c hc
  obtain ⟨φ, hφ, hd, hdmem⟩ := copied.mirrored hclosed hwZ
  refine ⟨φ, _, v₃, hclosed, hφ, hd, hdmem, by omega, merged.grows.trans hg₂, fun y hy => ?_, fun y hy => ?_⟩
  · rw [hwhole y hy, hZ₁ y hy]
  · have hy₁ : v₁.size + 5 ≤ y := hsize ▸ hy.1
    have hmerged : v₂.kind y = v₃.kind y := by
      have hne : y ≠ v₁.size + 3 := by omega
      rw [merged.kind_other hne, Family.switched, (Extends.addAll ..).kind y hy.2]
    rw [← hmerged]
    refine h₂.kind_eq (hy.2.trans_le merged.grows.size_le) r₂.arm fun arm harm p c hk => ?_
    -- `y` is the body of no arm gathered so far
    exfalso
    rw [harms, List.mem_append, List.mem_singleton] at harm
    rcases harm with harm | rfl
    · have hlt := r₁.arm arm harm
      rw [(r₁.later hmid).grows.kind_iff hlt rfl (by simp)] at hk
      have := r₁.formed.child arm hlt y (body_mem_children hk)
      omega
    · have hmade := ((f.madeArm_armed vs v₁).mono copied.grows.grows).mono merged.grows
      rw [hmade.arm] at hk
      cases hk
      omega

end Whole

end Families

end Penumbra
