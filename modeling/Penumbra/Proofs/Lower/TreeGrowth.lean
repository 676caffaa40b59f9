/-
What lowering does to a tree, whatever the tree looks like.

Three kinds of change make up the merge of a family: nodes are added, a
wildcard's body is copied, and a block gets one more statement. None of them
touches what else a node says (`Grows`), and none leads from a node to an old
one that was not below it before, unless it is one of those merged
(`Step`). A set of nodes that holds all children of its nodes is therefore
still one after the merge, together with what was added.
-/
import Penumbra.Proofs.Lower.FamilyMerge

namespace Penumbra

/-- How lowering changes a kind: it lengthens statement lists and replaces the
arms of visitors. -/
inductive Kind.Grown {α : Type} : Kind α → Kind α → Prop where
  | same (k) : Grown k k
  | block (l l') : Grown (.block l) (.block (l ++ l'))
  | program (l l') : Grown (.program l) (.program (l ++ l'))
  | visitor (arms arms' w w') : Grown (.visitor arms w) (.visitor arms' w')

theorem Kind.Grown.trans {α : Type} {k k' k'' : Kind α} (h : Grown k k') (h' : Grown k' k'') :
    Grown k k'' := by
  cases h with
  | same => exact h'
  | block l l' =>
    cases h' with
    | same => exact .block l l'
    | block _ l'' => rw [List.append_assoc]; exact .block l _
  | program l l' =>
    cases h' with
    | same => exact .program l l'
    | program _ l'' => rw [List.append_assoc]; exact .program l _
  | visitor =>
    cases h' with
    | same => exact .visitor ..
    | visitor => exact .visitor ..

/-- Other kinds stay as they are. -/
theorem Kind.Grown.eq_of {α : Type} {k k' : Kind α} (h : Grown k k') (hs : k.stmts? = .none)
    (hv : ∀ arms w, k ≠ .visitor arms w) : k' = k := by
  cases h with
  | same => rfl
  | block => cases hs
  | program => cases hs
  | visitor arms _ w => exact absurd rfl (hv arms w)

namespace Tree

variable {t t' t'' : Tree} {S : Set Nat} {x y : Nat}

structure Grows (t t' : Tree) : Prop extends Keeps t t' where
  kind : ∀ x : Nat, x < t.size → (t.kind x).Grown (t'.kind x)

theorem Grows.refl (t : Tree) : t.Grows t :=
  ⟨.refl t, fun _ _ => .same _⟩

theorem Grows.trans (h : t.Grows t') (h' : t'.Grows t'') : t.Grows t'' :=
  ⟨h.toKeeps.trans h'.toKeeps, fun x hx => (h.kind x hx).trans (h'.kind x (hx.trans_le h.size_le))⟩

theorem Extends.grows (h : t.Extends t') : t.Grows t' :=
  ⟨h.toKeeps, fun x hx => h.kind x hx ▸ .same _⟩

/-- The node is an arm with a component as its binder. -/
def Binds (t : Tree) (arm : NodeId) : Prop :=
  ∃ p c body name ascription, t.kind arm = .arm p (.some c) body ∧ t.kind c = .component name ascription

theorem Binds.mono (h : t.Binds x) (hg : t.Grows t') : t'.Binds x := by
  obtain ⟨p, c, body, name, ascription, hx, hc⟩ := h
  have hx' := (hx ▸ hg.kind x (lt_size_of_kind hx (by simp))).eq_of rfl (by simp)
  have hc' := (hc ▸ hg.kind c (lt_size_of_kind hc (by simp))).eq_of rfl (by simp)
  exact ⟨p, c, body, name, ascription, hx', hc'⟩

theorem isVisitor_iff : t.isVisitor x = true ↔ ∃ arms wildcard, t.kind x = .visitor arms wildcard := by
  unfold isVisitor
  cases t.kind x <;> simp

/-- Lowering makes no visitors of other nodes. -/
theorem Grows.isVisitor (h : t.Grows t') (hx : x < t.size) : t'.isVisitor x = t.isVisitor x := by
  have hk := h.kind x hx
  unfold Tree.isVisitor
  generalize t.kind x = k at hk
  generalize t'.kind x = k' at hk
  cases hk <;> rfl

theorem Grows.withArms (v : Tree) (V : Nat) (arms : List NodeId) (w : Option NodeId) (hV : v.isVisitor V = true) :
    v.Grows (v.withArms V arms w) := by
  refine ⟨⟨by simp, fun x _ => by simp, fun x _ => by simp, fun x _ => by simp⟩, fun x hx => ?_⟩
  rw [kind_withArms]
  split
  next hxV =>
    obtain ⟨arms', w', hk⟩ := isVisitor_iff.mp hV
    rw [hxV.1, hk]
    exact .visitor ..
  next => exact .same _

/-- The nodes that `t'` has and `t` does not. -/
def fresh (t t' : Tree) : Set Nat := { y | t.size ≤ y ∧ y < t'.size }

/-- A change after which old nodes name what they named before and new nodes,
and new nodes name nodes of `S` and new ones. -/
structure Step (S : Set Nat) (t t' : Tree) : Prop where
  grows : t.Grows t'
  child : ∀ x : Nat, x < t.size → ∀ c ∈ t'.children x, c ∈ t.children x ∨ c ∈ fresh t t'
  new : ∀ y ∈ fresh t t', ∀ c ∈ t'.children y, c ∈ S ∪ fresh t t'

theorem fresh_self (t : Tree) : fresh t t = ∅ :=
  Set.eq_empty_of_forall_notMem fun y hy => absurd hy.2 (by have := hy.1; omega)

theorem fresh_trans (h : t.size ≤ t'.size) (h' : t'.size ≤ t''.size) :
    fresh t t'' = fresh t t' ∪ fresh t' t'' := by
  ext y
  simp only [fresh, Set.mem_ofPred_eq, Set.mem_union]
  omega

namespace Step

theorem refl (S : Set Nat) (t : Tree) : Step S t t where
  grows := .refl t
  child _ _ c hc := .inl hc
  new y hy := absurd hy (by simp [fresh_self])

theorem trans (h : Step S t t') (h' : Step (S ∪ fresh t t') t' t'') : Step S t t'' := by
  have hfresh := fresh_trans h.grows.size_le h'.grows.size_le
  refine ⟨h.grows.trans h'.grows, fun x hx c hc => ?_, fun y hy c hc => ?_⟩
  · rw [hfresh]
    rcases h'.child x (hx.trans_le h.grows.size_le) c hc with hc | hc
    · exact (h.child x hx c hc).imp_right .inl
    · exact .inr (.inr hc)
  · rw [hfresh, ← Set.union_assoc]
    rw [hfresh] at hy
    rcases hy with hy | hy
    · rcases h'.child y hy.2 c hc with hc | hc
      · exact .inl (h.new y hy c hc)
      · exact .inr hc
    · exact h'.new y hy c hc

theorem closed (h : Step S t t') (hS : t.Closed S) : t'.Closed (S ∪ fresh t t') := by
  refine ⟨fun x hx => ?_, fun x hx c hc => ?_⟩
  · rcases hx with hx | hx
    · exact (hS.bounded x hx).trans_le h.grows.size_le
    · exact hx.2
  · rcases hx with hx | hx
    · rcases h.child x (hS.bounded x hx) c hc with hc | hc
      · exact .inl (hS.child x hx c hc)
      · exact .inr hc
    · exact h.new x hx c hc

/-- Nodes are added. -/
theorem addAll {ns : List Node}
    (h : ∀ n ∈ ns, ∀ c : Nat, c ∈ n.kind.children → c ∈ S ∨ t.size ≤ c ∧ c < t.size + ns.length) :
    Step S t (t.addAll ns) := by
  refine ⟨(Extends.addAll t ns).grows, fun x hx c hc => ?_, fun y hy c hc => ?_⟩
  · exact .inl ((Extends.addAll t ns).children hx ▸ hc)
  · obtain ⟨n, hn, hkind, -⟩ := new_addAll hy.1 hy.2
    rw [Tree.children, hkind] at hc
    refine (h n hn c hc).imp_right fun hc => ?_
    rw [fresh, Set.mem_ofPred_eq, size_addAll]
    exact hc

theorem modifyEnv (f : Env → Env) : Step S t (t.modifyEnv f) where
  grows := (Extends.modifyEnv t f).grows
  child _ _ c hc := .inl hc
  new y hy := absurd hy.2 (by have := hy.1; simp; omega)

/-- Nodes are copied. -/
theorem mirrored {φ : Nat → Nat} (hS : t.Closed S) (h : Mirrored t S t t' φ) : Step S t t' := by
  refine ⟨h.grows.grows, fun x hx c hc => .inl (h.grows.children hx ▸ hc), fun y hy c hc => ?_⟩
  rcases h.child y hy.1 hy.2 c hc with hold | hnew
  · -- the copy was cut short at `c`, which is its own original
    have hmem : φ c ∈ t.children (φ y) := by
      rw [Tree.children, ← h.kind y hy.1 hy.2, Kind.children_map]
      exact List.mem_map_of_mem hc
    rw [h.old c hold] at hmem
    exact .inl (hS.child _ (h.origin y hy.1 hy.2) c hmem)
  · exact .inr ⟨hnew.1, hnew.2.trans hy.2⟩

end Step

end Tree

open Tree

variable {f : Family} {binder : String} {target x y : Nat} {default : Option Nat} {v v' : Tree} {S : Set Nat}

theorem Kind.addStmt_eq_some {α : Type} {stmt : α} {k k' : Kind α} :
    k.addStmt stmt = .some k' ↔
      ∃ l, k = .block l ∧ k' = .block (l ++ [stmt]) ∨ k = .program l ∧ k' = .program (l ++ [stmt]) := by
  constructor
  · intro h
    cases k with
    | block l => exact ⟨l, .inl ⟨rfl, (Option.some.inj h).symm⟩⟩
    | program l => exact ⟨l, .inr ⟨rfl, (Option.some.inj h).symm⟩⟩
    | _ => cases h
  · rintro ⟨l, ⟨rfl, rfl⟩ | ⟨rfl, rfl⟩⟩ <;> rfl

namespace MergedInto

theorem target_lt (h : MergedInto f binder target default v v') : target < v.size := by
  obtain ⟨k, hk, -⟩ := h
  by_contra hge
  rw [Tree.kind, node_of_size_le (by omega)] at hk
  cases hk

theorem size (h : MergedInto f binder target default v v') : v'.size = v.size + 5 + 2 * f.arms.length := by
  obtain ⟨k, -, rfl⟩ := h
  simp [Family.switched, Family.switchNodes]
  omega

theorem env (h : MergedInto f binder target default v v') : v'.env = f.rebind v.env := by
  obtain ⟨k, -, rfl⟩ := h
  simp [Family.switched]

theorem kind_target (h : MergedInto f binder target default v v') :
    ∃ l, v.kind target = .block l ∧ v'.kind target = .block (l ++ [f.switchId v]) ∨
      v.kind target = .program l ∧ v'.kind target = .program (l ++ [f.switchId v]) := by
  have hlt := h.target_lt
  obtain ⟨k, hk, rfl⟩ := h
  obtain ⟨l, hl⟩ := Kind.addStmt_eq_some.mp hk
  refine ⟨l, ?_⟩
  have hkind : ((((f.switched binder target default v).setKind target k).setParent (f.switchId v) target).modifyEnv
      f.rebind).kind target = k := by
    rw [kind_modifyEnv, kind_setParent, kind_setKind]
    exact if_pos ⟨rfl, hlt.trans_le (Extends.addAll ..).size_le⟩
  rw [hkind]
  exact hl

theorem children_target (h : MergedInto f binder target default v v') :
    v'.children target = v.children target ++ [f.switchId v] := by
  obtain ⟨l, ⟨hv, hv'⟩ | ⟨hv, hv'⟩⟩ := h.kind_target <;> rw [Tree.children, Tree.children, hv, hv'] <;> rfl

theorem kind_other (h : MergedInto f binder target default v v') (hx : x ≠ target) :
    v'.kind x = (f.switched binder target default v).kind x := by
  obtain ⟨k, -, rfl⟩ := h
  simp [kind_setKind, hx]

theorem scope (h : MergedInto f binder target default v v') :
    v'.scope x = (f.switched binder target default v).scope x := by
  obtain ⟨k, -, rfl⟩ := h
  simp

theorem ty (h : MergedInto f binder target default v v') :
    v'.ty x = (f.switched binder target default v).ty x := by
  obtain ⟨k, -, rfl⟩ := h
  simp

theorem span (h : MergedInto f binder target default v v') :
    v'.span x = (f.switched binder target default v).span x := by
  obtain ⟨k, -, rfl⟩ := h
  simp

theorem step (h : MergedInto f binder target default v v') (hb : ∀ b ∈ f.bodies, b ∈ S)
    (hd : ∀ d ∈ default, d ∈ S) : Step S v v' := by
  have hswitched : Step S v (f.switched binder target default v) := by
    refine .addAll fun n hn c hc => ?_
    obtain ⟨i, hi⟩ := List.mem_iff_getElem?.mp hn
    have hlen := (List.getElem?_eq_some_iff.mp hi).1
    rcases f.children_switchNodes binder default hi hc with hc | hc
    · exact .inr (by omega)
    · rcases List.mem_append.mp hc with hc | hc
      · exact .inl (hb c hc)
      · exact .inl (hd c (by simpa using hc))
  have hsize : v'.size = (f.switched binder target default v).size := by
    obtain ⟨k, -, rfl⟩ := h
    simp
  have hfresh : fresh v v' = fresh v (f.switched binder target default v) := by
    rw [fresh, fresh, hsize]
  have hsw : f.switchId v ∈ fresh v v' := by
    rw [fresh, Set.mem_ofPred_eq, h.size, Family.switchId]
    omega
  have hlt := h.target_lt
  have hkeeps := (Extends.addAll v (f.switchNodes (v.scope target) v.size binder default))
  refine ⟨⟨⟨?_, fun x hx => ?_, fun x hx => ?_, fun x hx => ?_⟩, fun x hx => ?_⟩, fun x hx c hc => ?_, fun y hy c hc => ?_⟩
  · rw [hsize]; exact hkeeps.size_le
  · rw [h.scope]; exact hkeeps.scope x hx
  · rw [h.ty]; exact hkeeps.ty x hx
  · rw [h.span]; exact hkeeps.span x hx
  · by_cases hxt : x = target
    · subst hxt
      obtain ⟨l, ⟨hv, hv'⟩ | ⟨hv, hv'⟩⟩ := h.kind_target <;> rw [hv, hv']
      · exact .block l _
      · exact .program l _
    · rw [h.kind_other hxt]
      exact hswitched.grows.kind x hx
  · rw [hfresh]
    by_cases hxt : x = target
    · subst hxt
      rw [h.children_target, List.mem_append, List.mem_singleton] at hc
      refine hc.imp_right fun hc => ?_
      rw [hc, ← hfresh]
      exact hsw
    · rw [Tree.children, h.kind_other hxt] at hc
      exact hswitched.child x hx c hc
  · have hyt : y ≠ target := by rintro rfl; exact absurd hy.1 (by omega)
    rw [Tree.children, h.kind_other hyt] at hc
    rw [hfresh] at hy ⊢
    exact hswitched.new y hy c hc

theorem grows (h : MergedInto f binder target default v v') : v.Grows v' :=
  (h.step (S := Set.univ) (fun _ _ => trivial) fun _ _ => trivial).grows

end MergedInto

theorem Family.children_armNodes {vs s : ScopeId} {n c : Nat} {m : Node} (hm : m ∈ f.armNodes vs s n)
    (hc : c ∈ m.kind.children) : n ≤ c ∧ c < n + 5 := by
  simp only [armNodes, List.mem_cons, List.not_mem_nil, or_false] at hm
  rcases hm with rfl | rfl | rfl | rfl | rfl <;>
    simp only [Kind.children, Option.toList, List.cons_append, List.nil_append, List.mem_cons,
      List.not_mem_nil, or_false] at hc
  · omega
  · omega

theorem Family.step_armed (f : Family) (vs : ScopeId) : Step S v (f.armed vs v) := by
  refine (Step.modifyEnv _).trans (.addAll fun m hm c hc => ?_)
  exact .inr (f.children_armNodes hm hc)

theorem Family.kind_armed (f : Family) (vs : ScopeId) {i : Nat} {m : Node}
    (hi : (f.armNodes vs v.env.size v.size)[i]? = .some m) : (f.armed vs v).kind (v.size + i) = m.kind :=
  (node_addAll (t := v.modifyEnv (f.bindNew vs)) hi).1

theorem Family.extends_armed (f : Family) (vs : ScopeId) : v.Extends (f.armed vs v) :=
  (Extends.modifyEnv ..).trans (.addAll ..)

/-- A default mirrors the body it was copied from. -/
theorem CopiedDefault.mirrored {body d : Option NodeId} (h : CopiedDefault body v d v') (hS : v.Closed S)
    (hb : ∀ b ∈ body, b ∈ S) :
    ∃ φ, Mirrored v S v v' φ ∧ d.map φ = body ∧ ∀ c ∈ d, c ∈ S ∪ fresh v v' := by
  cases body with
  | none =>
    obtain ⟨rfl, rfl⟩ := h
    exact ⟨_, .refl v' S v', rfl, by simp⟩
  | some b =>
    obtain ⟨c, h, rfl⟩ := h
    have hbS := hb b rfl
    obtain ⟨hc, φ, hφ, rfl⟩ := Build.mirrored hS.child hS.bounded (.refl v) hbS h
    refine ⟨φ, hφ, rfl, fun d hd => ?_⟩
    obtain rfl : c = d := by simpa using hd
    rcases hc with hold | hnew
    · rw [hφ.old c hold] at hbS
      exact .inl hbS
    · exact .inr hnew

/-! ## A property of trees that merging keeps -/

/-- `I v S` survives every change that merging families with arms in `G`
consists of. -/
structure Kept (I : Tree → Set Nat → Prop) (G : ShadowArm → Prop) : Prop where
  armed : ∀ (f : Family) vs v S, v.Closed S → (∀ a ∈ f.arms, G a) → I v S →
    I (f.armed vs v) (S ∪ fresh v (f.armed vs v))
  mirrored : ∀ v v' S φ, v.Closed S → Mirrored v S v v' φ → I v S → I v' (S ∪ fresh v v')
  merged : ∀ (f : Family) binder target default v v' S, v.Closed S → (∀ a ∈ f.arms, G a) →
    MergedInto f binder target default v v' → I v S → I v' (S ∪ fresh v v')

section Families

variable {vs : ScopeId} {wildcard : Option (Phase × NodeId)} {m m' : Merged} {fs : List Family}
  {I : Tree → Set Nat → Prop} {G : ShadowArm → Prop}

theorem wildcardFor_mem {phase : Phase} (hw : ∀ p b, wildcard = .some (p, b) → b ∈ S) :
    ∀ b ∈ wildcardFor phase wildcard, b ∈ S := by
  intro b hb
  rcases wildcard with _ | ⟨p, body⟩
  · simp [wildcardFor] at hb
  · simp only [wildcardFor] at hb
    split at hb
    · obtain rfl : body = b := by simpa using hb
      exact hw p body rfl
    · simp at hb

theorem FamilyMerged.step (h : FamilyMerged vs wildcard f m v m' v') (hS : v.Closed S)
    (hb : ∀ b ∈ f.bodies, b ∈ S) (hw : ∀ p b, wildcard = .some (p, b) → b ∈ S) : Step S v v' := by
  cases h with
  | existing found named merged => exact merged.step hb (by simp)
  | made absent copied merged =>
    have h₁ := Family.step_armed (S := S) (v := v) f vs
    have hS₁ := h₁.closed hS
    obtain ⟨φ, hφ, -, hd⟩ := copied.mirrored hS₁ (fun b hmem => .inl (wildcardFor_mem hw b hmem))
    have h₂ := h₁.trans (Step.mirrored hS₁ hφ)
    refine h₂.trans (merged.step (fun b hmem => .inl (hb b hmem)) fun d hmem => ?_)
    rw [fresh_trans h₁.grows.size_le hφ.grows.size_le, ← Set.union_assoc]
    exact hd d hmem

theorem FamilyMerged.kept (K : Kept I G) (h : FamilyMerged vs wildcard f m v m' v') (hS : v.Closed S)
    (hw : ∀ p b, wildcard = .some (p, b) → b ∈ S) (hG : ∀ a ∈ f.arms, G a) (hI : I v S) :
    I v' (S ∪ fresh v v') := by
  cases h with
  | existing found named merged => exact K.merged _ _ _ _ _ _ _ hS hG merged hI
  | @made default v₁ _ absent copied merged =>
    have h₁ := Family.step_armed (S := S) (v := v) f vs
    have hS₁ := h₁.closed hS
    obtain ⟨φ, hφ, -, hd⟩ := copied.mirrored hS₁ (fun b hmem => .inl (wildcardFor_mem hw b hmem))
    have hS₂ := (Step.mirrored hS₁ hφ).closed hS₁
    have hI₁ := K.armed f vs v S hS hG hI
    have hI₂ := K.mirrored _ _ _ φ hS₁ hφ hI₁
    have hI₃ := K.merged _ _ _ _ _ _ _ hS₂ hG merged hI₂
    have hle : v₁.size ≤ v'.size := by rw [merged.size]; omega
    rw [Set.union_assoc, Set.union_assoc, ← fresh_trans hφ.grows.size_le hle,
      ← fresh_trans h₁.grows.size_le (hφ.grows.size_le.trans hle)] at hI₃
    exact hI₃

theorem FamiliesMerged.step (h : FamiliesMerged vs wildcard fs m v m' v') (hS : v.Closed S)
    (hb : ∀ f ∈ fs, ∀ b ∈ f.bodies, b ∈ S) (hw : ∀ p b, wildcard = .some (p, b) → b ∈ S) : Step S v v' := by
  induction h generalizing S with
  | nil => exact .refl S _
  | cons first rest ih =>
    have h₁ := first.step hS (hb _ (by simp)) hw
    exact h₁.trans (ih (h₁.closed hS) (fun f hf b hmem => .inl (hb f (by simp [hf]) b hmem))
      fun p b hp => .inl (hw p b hp))

theorem FamiliesMerged.kept (K : Kept I G) (h : FamiliesMerged vs wildcard fs m v m' v') (hS : v.Closed S)
    (hb : ∀ f ∈ fs, ∀ b ∈ f.bodies, b ∈ S) (hw : ∀ p b, wildcard = .some (p, b) → b ∈ S)
    (hG : ∀ f ∈ fs, ∀ a ∈ f.arms, G a) (hI : I v S) : I v' (S ∪ fresh v v') := by
  induction h generalizing S with
  | nil =>
    rw [fresh_self, Set.union_empty]
    exact hI
  | @cons f fs m m₁ m' v v₁ v' first rest ih =>
    have h₁ := first.step hS (hb _ (by simp)) hw
    have hS₁ := h₁.closed hS
    have hb₁ : ∀ f ∈ fs, ∀ b ∈ f.bodies, b ∈ S ∪ fresh v v₁ := fun f hf b hmem => .inl (hb f (by simp [hf]) b hmem)
    have hw₁ : ∀ p b, wildcard = .some (p, b) → b ∈ S ∪ fresh v v₁ := fun p b hp => .inl (hw p b hp)
    have hI₁ := first.kept K hS hw (hG f (by simp)) hI
    have hI' := ih hS₁ hb₁ hw₁ (fun g hg => hG g (by simp [hg])) hI₁
    rw [Set.union_assoc, ← fresh_trans h₁.grows.size_le (rest.step hS₁ hb₁ hw₁).grows.size_le] at hI'
    exact hI'

theorem FamilyMerged.arms (h : FamilyMerged vs wildcard f m v m' v') :
    ∀ a ∈ m'.arms, a ∈ m.arms ∨ a ∈ fresh v v' ∧ v'.Binds a := by
  cases h with
  | existing found named merged => exact fun a ha => .inl ha
  | @made default v₁ _ absent copied merged =>
    intro a ha
    rcases List.mem_append.mp ha with ha | ha
    · exact .inl ha
    · obtain rfl := List.mem_singleton.mp ha
      have hle := copied.grows.size_le
      rw [f.size_armed] at hle
      have hbinds : (f.armed vs v).Binds (v.size + 4) :=
        ⟨_, _, _, _, _, f.kind_armed vs (i := 4) rfl, f.kind_armed vs (i := 2) rfl⟩
      refine .inr ⟨⟨by omega, by rw [merged.size]; omega⟩, ?_⟩
      exact (hbinds.mono copied.grows.grows).mono merged.grows

theorem FamilyMerged.grows (h : FamilyMerged vs wildcard f m v m' v') : v.Grows v' := by
  cases h with
  | existing found named merged => exact merged.grows
  | made absent copied merged =>
    exact ((f.extends_armed vs).trans copied.grows).grows.trans merged.grows

theorem FamiliesMerged.grows (h : FamiliesMerged vs wildcard fs m v m' v') : v.Grows v' := by
  induction h with
  | nil => exact .refl _
  | cons first rest ih => exact first.grows.trans ih

theorem FamiliesMerged.isVisitor (h : FamiliesMerged vs wildcard fs m v m' v') {arms : List NodeId} {w : Option NodeId}
    (hk : v.kind x = .visitor arms w) : v'.isVisitor x = true := by
  rw [h.grows.isVisitor (lt_size_of_kind hk (by simp))]
  exact isVisitor_iff.mpr ⟨_, _, hk⟩

theorem FamiliesMerged.arms (h : FamiliesMerged vs wildcard fs m v m' v') :
    ∀ a ∈ m'.arms, a ∈ m.arms ∨ a ∈ fresh v v' ∧ v'.Binds a := by
  induction h with
  | nil => exact fun a ha => .inl ha
  | cons first rest ih =>
    intro a ha
    have hle := first.grows.size_le
    have hle' := rest.grows.size_le
    rcases ih a ha with ha | ⟨hnew, hb⟩
    · rcases first.arms a ha with ha | ⟨hnew, hb⟩
      · exact .inl ha
      · exact .inr ⟨⟨hnew.1, hnew.2.trans_le hle'⟩, hb.mono rest.grows⟩
    · exact .inr ⟨⟨hle.trans hnew.1, hnew.2⟩, hb⟩

end Families

/-! ## A visitor -/

namespace VisitorLowered

variable {V : Nat} {u u' : Tree} {I : Tree → Set Nat → Prop} {G : ShadowArm → Prop}

/-- What a visitor's families take over lies below it. -/
theorem bodies_mem {arms : List NodeId} {wildcard : Option NodeId} {s : Sorted} (hS : u.Closed S)
    (hbelow : ∀ c ∈ u.children V, c ∈ S) (hk : u.kind V = .visitor arms wildcard) (hs : u.Sorts arms s) :
    ∀ f ∈ s.families, ∀ b ∈ f.bodies, b ∈ S := by
  intro f hf b hb
  obtain ⟨a, ha, rfl⟩ := List.mem_map.mp hb
  obtain ⟨arm, harm, hr, -⟩ := hs.mem_family hf ha
  obtain ⟨p, c, body, name, ascription, hkarm, hkc, h⟩ := shadowArm?_ok.mp hr
  obtain ⟨shadow, binder, -, -, h⟩ := h.resolve_left (by simp)
  obtain ⟨-, rfl⟩ := Prod.mk.inj (Option.some.inj h)
  have harmS : arm ∈ S := hbelow arm (arm_mem_children hk harm)
  exact hS.child arm harmS body (body_mem_children hkarm)

theorem wildcard_mem {arms : List NodeId} {wildcard : Option NodeId} {w : Option (Phase × NodeId)}
    (hS : u.Closed S) (hbelow : ∀ c ∈ u.children V, c ∈ S) (hk : u.kind V = .visitor arms wildcard)
    (hw : u.wildcardArm? wildcard = .ok w) : ∀ p b, w = .some (p, b) → b ∈ S := by
  rintro p b rfl
  obtain ⟨x, binder, rfl, hx⟩ := wildcardArm?_some hw
  have hxS : x ∈ S := hbelow x (wildcard_mem_children hk)
  exact hS.child x hxS b (body_mem_children hx)

theorem grows (h : VisitorLowered V u u') : u.Grows u' := by
  cases h with
  | other | plain => exact .refl u
  | @merged arms wildcard s w m v kind sorted some wild families =>
    exact families.grows.trans (.withArms v V m.arms _ (families.isVisitor kind))

theorem step (h : VisitorLowered V u u') (hS : u.Closed S) (hV : V ∈ S) : Step S u u' := by
  have hgrows := h.grows
  cases h with
  | other | plain => exact .refl S u
  | @merged arms wildcard s w m v kind sorted some wild families =>
    have hs := sorts sorted
    have h := families.step hS (bodies_mem hS (hS.child V hV) kind hs) (wildcard_mem hS (hS.child V hV) kind wild)
    have hVu := hS.bounded V hV
    have hVv : V < v.size := hVu.trans_le h.grows.size_le
    have hfresh : ∀ w', fresh u (v.withArms V m.arms w') = fresh u v := fun w' => by
      rw [fresh, fresh, size_withArms]
    refine ⟨hgrows, fun x hx c hc => ?_, fun y hy c hc => ?_⟩
    · rw [hfresh]
      rw [Tree.children, kind_withArms] at hc
      split at hc
      next hx =>
        rw [hx.1, Tree.children, kind]
        simp only [Kind.children, List.mem_append] at hc ⊢
        rcases hc with hc | hc
        · rcases families.arms c hc with hc | ⟨hnew, -⟩
          · exact .inl (.inl (hs.mem_kept hc).1)
          · exact .inr hnew
        · split at hc
          · simp at hc
          · exact .inl (.inr hc)
      next => exact h.child x hx c hc
    · rw [hfresh] at hy ⊢
      rw [Tree.children, kind_withArms, if_neg] at hc
      · exact h.new y hy c hc
      · rintro ⟨rfl, -⟩
        exact absurd hy.1 (by omega)

/-- Every arm that a lowered visitor has left has a component as its binder. -/
theorem binds {arms : List NodeId} {s : Sorted} {w : Option (Phase × NodeId)} {m : Merged} {v : Tree} {vs : ScopeId}
    (hs : u.Sorts arms s) (hm : FamiliesMerged vs w s.families { arms := s.kept } u m v) :
    ∀ a ∈ m.arms, v.Binds a := by
  intro a ha
  rcases hm.arms a ha with ha | ⟨-, hb⟩
  · obtain ⟨p, c, body, name, ascription, hka, hkc, -⟩ := shadowArm?_ok.mp (hs.mem_kept ha).2
    exact Binds.mono ⟨p, c, body, name, ascription, hka, hkc⟩ hm.grows
  · exact hb

theorem kept (K : Kept I G)
    (hI' : ∀ v S arms w, v.isVisitor V = true → (∀ a ∈ arms, v.Binds a) → I v S → I (v.withArms V arms w) S)
    (hG : ∀ arms wildcard, u.kind V = .visitor arms wildcard → ∀ arm ∈ arms, ∀ p a,
      u.shadowArm? arm = .ok (.some (p, a)) → G a)
    (h : VisitorLowered V u u') (hS : u.Closed S) (hV : V ∈ S) (hI : I u S) : I u' (S ∪ fresh u u') := by
  cases h with
  | other | plain =>
    rw [fresh_self, Set.union_empty]
    exact hI
  | @merged arms wildcard s w m v kind sorted some wild families =>
    have hs := sorts sorted
    have hfresh : ∀ w', fresh u (v.withArms V m.arms w') = fresh u v := fun w' => by
      rw [fresh, fresh, size_withArms]
    rw [hfresh]
    refine hI' v _ m.arms _ (families.isVisitor kind) (binds hs families) ?_
    refine families.kept K hS (bodies_mem hS (hS.child V hV) kind hs) (wildcard_mem hS (hS.child V hV) kind wild)
      (fun f hf a ha => ?_) hI
    obtain ⟨arm, harm, hr, -⟩ := hs.mem_family hf ha
    exact hG arms wildcard kind arm harm f.phase a hr

end VisitorLowered

end Penumbra
