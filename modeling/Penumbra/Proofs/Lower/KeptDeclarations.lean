/-
Variables of shadow types have declarations.

What makes a variable lose its shadow type is its declaration: a binder of a
shadow arm when the arm is merged, any other binder or declaration when the
program is made concrete. So lowering has to leave the declarations of all
variables that still have a shadow type in the program (`Declared.lowered`),
though some of them only as copies.
-/
import Penumbra.Proofs.Lower.ClearedBinders
import Penumbra.Proofs.Concrete.KeepsOwned
import Penumbra.Proofs.Lower.RemainingNodes

namespace Penumbra

open Tree

namespace Tree

/-- The node declares the variable `n` that the scope `b` binds, with a shadow
type. -/
def DeclaresAt (u : Tree) (d : NodeId) (n : String) (b : ScopeId) : Prop :=
  ∃ name ascription s, u.shadowDecl? d = .some (name, ascription, s) ∧ u.kind name = .ident n ∧
    u.env.binder? (u.scope d) n = .some b

theorem Resembles.declaresAt {t u : Tree} {φ : Nat → Nat} {D : Set Nat} {d : Nat} {n : String} {b : ScopeId}
    (h : Resembles t u φ D) (ht : t.env.Tamed u.env) (hd : d ∈ D) (hs : t.scope (φ d) < t.env.size)
    (hdecl : t.DeclaresAt (φ d) n b) : u.DeclaresAt d n b := by
  obtain ⟨name, ascription, s, hdecl, hname, hb⟩ := hdecl
  rw [h.shadowDecl? hd, Option.map_eq_some_iff] at hdecl
  obtain ⟨⟨name', ascription', s'⟩, hdecl, heq⟩ := hdecl
  cases heq
  refine ⟨name', ascription', s', hdecl, (h.ident (h.child d hd name' (children_shadowDecl hdecl).1)).mpr hname, ?_⟩
  rw [h.scope d hd]
  exact ht.bound _ n b hs hb

/-- Variables of shadow types that the program sees by names in `N` are declared
in the program. -/
def Declared (N : Set String) (u : Tree) : Prop :=
  ∀ x, u.Reachable x → ∀ n ∈ N, ∀ b, u.env.binder? (u.scope x) n = .some b → u.env.ShadowVar b n →
    ∃ d, u.Reachable d ∧ u.DeclaresAt d n b

/-- The scopes that nodes of the program are in. -/
def scopes (u : Tree) : Set Nat := { s | ∃ x, u.Reachable x ∧ u.scope x = s }

end Tree

variable {N R : Set String} {u u' : Tree} {V x d b : Nat} {n : String}

section Visitor

variable (h : VisitorLowered V u u') (hf : u.Formed) (ho : u.Owned) (hfit : FitIn N R u { y | u.Reachable y })
  (hV : u.Reachable V)
include h hf hfit hV

theorem VisitorLowered.clears :
    u.env.Tamed u'.env ∧ ∀ arms wildcard, u.kind V = .visitor arms wildcard → ∀ arm ∈ arms, ∀ p a,
      u.shadowArm? arm = .ok (.some (p, a)) → ∀ b, u.env.binder? a.scope a.binder = .some b → ¬ u'.env.ShadowVar b a.binder := by
  cases h with
  | other hv =>
    refine ⟨.refl _, fun arms wildcard hk => ?_⟩
    rw [isVisitor_iff.mpr ⟨arms, wildcard, hk⟩] at hv
    cases hv
  | plain kind sorted none =>
    refine ⟨.refl _, fun arms wildcard hk arm harm p a hr => ?_⟩
    cases kind.symm.trans hk
    rw [(sorts sorted).families_eq_nil.mp none arm harm] at hr
    cases hr
  | @merged arms wildcard s w m v kind sorted some wild families =>
    have hs := sorts sorted
    obtain ⟨htamed, hclear⟩ := families.clears (hfit.sound hV kind hs) hf.nested (hf.scope V (hf.bounded hV))
    rw [env_withArms]
    refine ⟨htamed, fun arms' wildcard' hk arm harm p a hr => ?_⟩
    cases kind.symm.trans hk
    obtain ⟨f, hmem, ha⟩ := hs.exists_family harm hr
    refine hclear f hmem a ha ?_
    obtain ⟨q, c, body, name, ascription, hk', -, hcase⟩ := shadowArm?_ok.mp hr
    obtain ⟨shadow, binder, -, -, heq⟩ := hcase.resolve_left (by simp)
    cases heq
    have hc : u.Reachable c := (Reaches.tail hV (arm_mem_children kind harm)).tail (binder_mem_children hk')
    exact hf.scope c (hf.bounded hc)

omit hfit in
theorem VisitorLowered.seenIn : SeenIn u.env u.scopes (u.scope V) u' { x | u'.Reachable x } := by
  have hold : SeenIn u.env u.scopes (u.scope V) u { x | u.Reachable x } := fun x hx => .inl ⟨x, hx, rfl⟩
  have hreach := fun x hx => h.reachable hf hV (x := x) hx
  cases h with
  | other | plain => exact hold
  | @merged arms wildcard s w m v kind sorted some wild families =>
    have hs := sorts sorted
    have hclosed : u.Closed { x | u.Reachable x } := hf.program_closed
    have hbelow := hclosed.child V hV
    have htracked : Tracked u.env u.scopes (u.scope V) w s.families { arms := s.kept } u { x | u.Reachable x } :=
      ⟨hclosed, VisitorLowered.bodies_mem hclosed hbelow kind hs, VisitorLowered.wildcard_mem hclosed hbelow kind wild,
        fun a ha => Reaches.tail hV (arm_mem_children kind (hs.mem_kept ha).1), .refl _, hold⟩
    have hVs : u.scope V ∈ u.scopes := ⟨V, hV, rfl⟩
    have hseen := htracked.run (hf.scope V (hf.bounded hV)) hVs families
    intro x hx
    rw [env_withArms, scope_withArms]
    refine hseen x ((hreach x hx).imp_right fun hnew => ?_)
    rwa [fresh, size_withArms] at hnew

include ho

/-- The declaration of a variable that still has a shadow type is still in the
program, or a copy of it is. -/
theorem VisitorLowered.declaresAt (hd : u.Reachable d) (hdecl : u.DeclaresAt d n b) (hv : u'.env.ShadowVar b n) :
    ∃ d', u'.Reachable d' ∧ u'.DeclaresAt d' n b := by
  cases hvis : u.isVisitor V with
  | false =>
    cases h with
    | other => exact ⟨d, hd, hdecl⟩
    | plain kind => rw [isVisitor_iff.mpr ⟨_, _, kind⟩] at hvis; cases hvis
    | merged kind => rw [isVisitor_iff.mpr ⟨_, _, kind⟩] at hvis; cases hvis
  | true =>
    obtain ⟨arms, wildcard, kind⟩ := isVisitor_iff.mp hvis
    obtain ⟨name, ascription, s, hdecl, hname, hb⟩ := hdecl
    obtain ⟨htamed, hclear⟩ := h.clears hf hfit hV
    obtain ⟨hl, -⟩ := h.later_formed hf
    have hdlt := hf.bounded hd
    have hkd := kind_of_shadowDecl hdecl
    have harm : ∀ p c body, u.kind d ≠ .arm p c body := fun p c body hk => by simp [hk] at hkd
    have hkd' : u'.kind d = u.kind d := by
      rcases hkd with ⟨a, hk⟩ | ⟨a, init, hk⟩ <;> exact ((hl.grows.kind_iff hdlt rfl (by simp)).mpr hk).trans hk.symm
    have hdecl' := (hl.shadowDecl? hf hdlt hkd').trans hdecl
    have hname' : u'.kind name = .ident n :=
      (hl.grows.kind_iff (hf.child d hdlt name (children_shadowDecl hdecl).1) rfl (by simp)).mpr hname
    have hb' : u'.env.binder? (u'.scope d) n = .some b := by
      rw [hl.grows.scope d hdlt]
      exact htamed.bound _ n b (hf.scope d hdlt) hb
    rcases h.survives hf ho hV kind (fun arm harm q a hr => (hfit.sound_arm hV kind harm hr).1.shadowed)
        (fun w hw => (hfit V hV).wildcard arms w (Option.mem_def.mp hw ▸ kind)) hd with
      hstill | ⟨arm, hmem, p, a, hr, hcase⟩ | hw | ⟨φ, D, d', hfolds, hd', rfl, hcopy⟩
    · exact ⟨d, hstill, name, ascription, s, hdecl', hname', hb'⟩
    · obtain ⟨q, c, body, name', ascription', hk, hkc, hread⟩ := shadowArm?_ok.mp hr
      obtain ⟨shadow, binder, -, hbinder, heq⟩ := hread.resolve_left (by simp)
      cases heq
      rcases hcase with rfl | ⟨q', c', body', hk', hcd⟩
      · exact absurd hk (harm _ _ _)
      cases hk.symm.trans hk'
      have hc : u.Reachable c := (Reaches.tail hV (arm_mem_children kind hmem)).tail (binder_mem_children hk)
      rcases hcd.cases with rfl | ⟨e, he, hed⟩
      · -- the binder of the arm has lost its shadow type
        obtain ⟨a, hkc'⟩ := hkd.resolve_right (by simp [hkc])
        cases hkc.symm.trans hkc'
        cases hname.symm.trans hbinder
        exact absurd hv (hclear arms wildcard kind arm hmem _ _ hr b hb)
      · obtain ⟨token, hke⟩ := (hfit c hc).names e (by rw [Tree.children, hkc] at he; rw [hkc]; exact he)
        rw [shadowDecl?_below_ident hke hed] at hdecl
        cases hdecl
    · obtain ⟨p, body, hk⟩ := (hfit V hV).wildcard arms d (Option.mem_def.mp hw ▸ kind)
      exact absurd hk (harm _ _ _)
    · refine ⟨d', hcopy, hfolds.resembles.declaresAt (.refl _) hd' ?_ ⟨name, ascription, s, hdecl', hname', hb'⟩⟩
      rw [hl.grows.scope _ hdlt]
      exact (hf.scope _ hdlt).trans_le hl.types.size_le

theorem Tree.Declared.lowered (hd : Declared N u) : Declared N u' := by
  intro x hx n hn b hb hv
  obtain ⟨htamed, -⟩ := h.clears hf hfit hV
  have hscopes : ∀ s : Nat, s ∈ u.scopes → s < u.env.size := fun s ⟨y, hy, hs⟩ => hs ▸ hf.scope y (hf.bounded hy)
  have hVs : u.scope V ∈ u.scopes := ⟨V, hV, rfl⟩
  obtain ⟨s, ⟨y, hy, rfl⟩, hb', hv'⟩ := htamed.of_seen hf.nested hscopes hVs (h.seenIn hf hV x hx) hb hv
  obtain ⟨d, hdr, hdecl⟩ := hd y hy n hn b hb' hv'
  exact h.declaresAt hf ho hfit hV hdr hdecl hv

end Visitor

/-! ## The whole program -/

/-- An owned program whose nodes are fit and whose variables of shadow types have
declarations. -/
structure Tree.Prepared (N R : Set String) (u : Tree) : Prop where
  formed : u.Formed
  owned : u.Owned
  fit : FitIn N R u { y | u.Reachable y }
  declared : Declared N u

/-- Any visitor of such a program can be lowered. -/
theorem Tree.Prepared.next (h : Prepared N R u) (hV : u.Reachable V) :
    ∃ u', VisitorLowered V u u' ∧ Prepared N R u' ∧ u.env.Tamed u'.env := by
  obtain ⟨u', hl, hfit⟩ := h.fit.lowered h.formed h.owned hV
  obtain ⟨G, hG⟩ := hl.reworks h.formed h.owned hV
  exact ⟨u', hl, ⟨hG.formed, hG.isOwned, hfit, h.declared.lowered hl h.formed h.owned h.fit hV⟩,
    (hl.clears h.formed h.fit hV).1⟩

theorem Tree.Prepared.lowered {t : Tree} (h : Prepared N R t) :
    ∃ u, Chain VisitorLowered ((t.postOrder root).filter t.isVisitor) t u ∧ Prepared N R u ∧ t.env.Tamed u.env := by
  refine (h.owned.queued h.formed).exists_run (I := fun u => Prepared N R u ∧ t.env.Tamed u.env) (fun u hu => hu.1.formed) ?_
    ⟨h, .refl _⟩
  intro V u hu hV
  obtain ⟨u', hl, hu', htamed⟩ := hu.1.next hV
  exact ⟨u', hl, ⟨hu', hu.2.trans htamed⟩, hl.confined hu.1.formed hV⟩

end Penumbra
