/-
Trees in which every node without a parent is the top of a tree.

Builders put nodes together that are not in the program yet, so to follow a
program while it is being built one has to know something about all nodes that
may still come into it. Those are the nodes without a parent and all below them
(`Topped`). In a tidy tree they name no child twice and are the parents of what
they name, so the subtrees of two nodes without a parent have no node in common
(`Tidy.top_unique`), and the program is owned (`Tidy.isOwned`). Adding nodes
above nodes without a parent, appending one of them to a block and reworking the
program keep a tree tidy.
-/
import Penumbra.Proofs.Lower.KeepsOwned

namespace Penumbra.Tree

variable {t t' : Tree} {x y z b : Nat} {G : Set Nat} {used : List Nat}

/-- The nodes without a parent, and all below them. -/
def Topped (t : Tree) : Set Nat := { z | ∃ y : Nat, y < t.size ∧ t.parent y = .none ∧ t.Reaches y z }

structure Tidy (t : Tree) : Prop where
  formed : t.Formed
  root_parent : t.parent root = .none
  root_free : ∀ x, root ∉ t.children x
  owned : t.OwnedIn t.Topped

/-- A node that may be given a parent. -/
structure Free (t : Tree) (x : NodeId) : Prop where
  lt_size : x < t.size
  ne_root : x ≠ root
  parent : t.parent x = .none

theorem Free.topped (h : t.Free x) : x ∈ t.Topped := ⟨x, h.lt_size, h.parent, .refl t x⟩

namespace Tidy

variable (h : t.Tidy)
include h

theorem closed : t.Closed t.Topped where
  bounded := by
    rintro z ⟨y, hy, -, hyz⟩
    exact h.formed.closed.reaches hy hyz
  child := by
    rintro z ⟨y, hy, hp, hyz⟩ c hc
    exact ⟨y, hy, hp, hyz.tail hc⟩

theorem root_topped : root ∈ t.Topped := ⟨root, h.formed.root_lt, h.root_parent, .refl t root⟩

theorem isOwned : t.Owned :=
  have hreach : ∀ x, t.Reachable x → x ∈ t.Topped := fun _ hx => h.closed.reaches h.root_topped hx
  ⟨fun x _ => h.root_free x, fun x hx => h.owned.nodup x (hreach x hx), fun x hx => h.owned.parent x (hreach x hx)⟩

/-- No node lies below two nodes without a parent. -/
theorem top_unique (hy : y < t.size) (hyp : t.parent y = .none) (hx : x < t.size) (hxp : t.parent x = .none)
    (hyz : t.Reaches y z) (hxz : t.Reaches x z) : y = x := by
  have htop : ∀ {a b : Nat}, a < t.size → t.parent a = .none → t.Reaches a b → b ∈ t.Topped :=
    fun ha hp hab => ⟨_, ha, hp, hab⟩
  induction hyz with
  | refl =>
    rcases hxz.casesTail with rfl | ⟨w, hxw, hw⟩
    · rfl
    · rw [h.owned.parent w (htop hx hxp hxw) y hw] at hyp
      cases hyp
  | @tail w z hyw hz ih =>
    have hp := h.owned.parent w (htop hy hyp hyw) z hz
    rcases hxz.casesTail with rfl | ⟨w', hxw', hz'⟩
    · rw [hp] at hxp
      cases hxp
    · rw [h.owned.parent w' (htop hx hxp hxw') z hz'] at hp
      obtain rfl := Option.some.inj hp
      exact ih hxw'

end Tidy

/-! ## Changes that keep trees tidy -/

/-- Child lists may get shorter; the parent links of what drops out of them stay. -/
theorem Tidy.prune (h : t.Tidy) (hf : t'.Formed) (hsize : t'.size = t.size)
    (hchild : ∀ x, (t'.children x).Sublist (t.children x)) (hparent : ∀ x, t'.parent x = t.parent x) : t'.Tidy := by
  have hreach : ∀ x y, t'.Reaches x y → t.Reaches x y := fun x y hxy => by
    induction hxy with
    | refl => exact .refl t x
    | @tail y _ _ hc ih => exact ih.tail ((hchild y).mem hc)
  have htop : t'.Topped ⊆ t.Topped := by
    rintro z ⟨y, hy, hp, hyz⟩
    exact ⟨y, hsize ▸ hy, hparent y ▸ hp, hreach y z hyz⟩
  refine ⟨hf, (hparent root).trans h.root_parent, fun x hmem => h.root_free x ((hchild x).mem hmem), fun x hx => ?_,
    fun x hx c hc => ?_⟩
  · exact (h.owned.nodup x (htop hx)).sublist (hchild x)
  · rw [hparent]
    exact h.owned.parent x (htop hx) c ((hchild x).mem hc)

theorem Tidy.congr (h : t.Tidy) (hf : t'.Formed) (hsize : t'.size = t.size) (hchild : ∀ x, t'.children x = t.children x)
    (hparent : ∀ x, t'.parent x = t.parent x) : t'.Tidy :=
  h.prune hf hsize (fun x => hchild x ▸ .refl _) hparent

/-- New nodes above some that had no parent. -/
theorem Tidy.separate (h : t.Tidy) (hext : t.Extends t') (henv : t'.env = t.env) (hs : Separate used t t')
    (hused : ∀ b ∈ used, t.Free b) (hscope : ∀ y ∈ fresh t t', t'.scope y < t.env.size) : t'.Tidy := by
  have hsplit : ∀ {x : Nat}, x < t'.size → x < t.size ∨ x ∈ fresh t t' := fun hx =>
    (Nat.lt_or_ge _ _).imp_right fun hge => ⟨hge, hx⟩
  have hnew : ∀ x ∈ fresh t t', ∀ c ∈ t'.children x, c ∈ fresh t t' ∨ c ∈ used := fun x hx c hc =>
    (hs.child x hx.1 hx.2 c hc).1.imp_left fun hcx => ⟨hcx.1, hcx.2.trans hx.2⟩
  have hroot : root ∉ used := fun hmem => (hused root hmem).ne_root rfl
  have hformed : t'.Formed := by
    refine ⟨h.formed.root_lt.trans_le hext.size_le, fun x hx c hc => ?_, fun x hx => ?_, henv ▸ h.formed.nested⟩
    · rcases hsplit hx with hlt | hx
      · rw [hext.children hlt] at hc
        exact (h.formed.child x hlt c hc).trans_le hext.size_le
      · rcases hnew x hx c hc with hc | hc
        · exact hc.2
        · exact (hused c hc).lt_size.trans_le hext.size_le
    · rw [henv]
      rcases hsplit hx with hlt | hx
      · rw [hext.scope x hlt]
        exact h.formed.scope x hlt
      · exact hscope x hx
  have hclosed : t'.Closed (t.Topped ∪ fresh t t') := by
    refine ⟨?_, ?_⟩
    · rintro x (hx | hx)
      · exact (h.closed.bounded x hx).trans_le hext.size_le
      · exact hx.2
    · rintro x (hx | hx) c hc
      · rw [hext.children (h.closed.bounded x hx)] at hc
        exact .inl (h.closed.child x hx c hc)
      · exact (hnew x hx c hc).symm.imp_left fun hmem => (hused c hmem).topped
  have htop : t'.Topped ⊆ t.Topped ∪ fresh t t' := by
    rintro z ⟨y, hy, hp, hyz⟩
    refine hclosed.reaches ?_ hyz
    rcases hsplit hy with hlt | hy
    · by_cases hmem : y ∈ used
      · exact .inl (hused y hmem).topped
      · rw [hs.parent y hlt hmem] at hp
        exact .inl ⟨y, hlt, hp, .refl t y⟩
    · exact .inr hy
  refine ⟨hformed, (hs.parent root h.formed.root_lt hroot).trans h.root_parent, fun x hmem => ?_, ?_⟩
  · rcases hsplit (lt_size_of_mem_children hmem) with hlt | hx
    · rw [hext.children hlt] at hmem
      exact h.root_free x hmem
    · rcases hnew x hx root hmem with hc | hc
      · exact absurd hc.1 (by have := h.formed.root_lt; rw [root]; omega)
      · exact hroot hc
  · refine (h.owned.separate h.closed.bounded h.formed hext hs fun b hb x _ hp => ?_).mono htop
    rw [(hused b hb).parent] at hp
    cases hp

/-! ## One more statement for a block -/

/-- What changes when `x` becomes the last statement of `b`. -/
structure Pushed (b x : NodeId) (t t' : Tree) : Prop where
  size : t'.size = t.size
  env : t'.env = t.env
  scope : ∀ y, t'.scope y = t.scope y
  children : ∀ y, t'.children y = if y = b then t.children b ++ [x] else t.children y
  parent : ∀ y, t'.parent y = if y = x then .some b else t.parent y

theorem pushed_of_pushStmt? (hx : x < t.size) (h : t.pushStmt? b x = .some t') : Pushed b x t t' := by
  obtain ⟨u, hedit, rfl⟩ := Option.map_eq_some_iff.mp h
  obtain ⟨k, hk, rfl⟩ := Option.map_eq_some_iff.mp hedit
  have hadd : k.children = t.children b ++ [x] := by
    rw [Tree.children]
    cases hkb : t.kind b <;> rw [hkb] at hk <;> simp only [Kind.addStmt, reduceCtorEq, Option.some.injEq] at hk <;>
      subst hk <;> rfl
  have hb : b < t.size := lt_size_of_kind rfl fun he => by
    rw [he] at hk
    cases hk
  refine ⟨by simp, by simp, fun y => by simp, fun y => ?_, fun y => ?_⟩
  · rw [Tree.children, kind_setParent, kind_setKind]
    by_cases hy : y = b <;> simp [hy, hb, hadd, Tree.children]
  · rw [parent_setParent, parent_setKind, size_setKind]
    simp [hx]

namespace Pushed

variable {c : Nat} (hp : Pushed b x t t')
include hp

theorem mem_children (hc : c ∈ t'.children y) : c ∈ t.children y ∨ y = b ∧ c = x := by
  rw [hp.children] at hc
  split at hc
  next hy =>
    subst hy
    exact (List.mem_append.mp hc).imp_right fun hc => ⟨rfl, List.mem_singleton.mp hc⟩
  next => exact .inl hc

theorem formed (hf : t.Formed) (hx : x < t.size) : t'.Formed := by
  refine ⟨hp.size ▸ hf.root_lt, fun y hy c hc => ?_, fun y hy => ?_, hp.env ▸ hf.nested⟩
  · rw [hp.size] at hy ⊢
    rcases hp.mem_children hc with hc | ⟨-, rfl⟩
    · exact hf.child y hy c hc
    · exact hx
  · rw [hp.scope, hp.env]
    exact hf.scope y (hp.size ▸ hy)

/-- Nothing new is below nodes without a parent: the statement was one of them. -/
theorem topped_subset (h : t.Tidy) (hx : t.Free x) : t'.Topped ⊆ t.Topped := by
  have hclosed : t'.Closed t.Topped := by
    refine ⟨fun y hy => hp.size ▸ h.closed.bounded y hy, fun y hy c hc => ?_⟩
    rcases hp.mem_children hc with hc | ⟨-, rfl⟩
    · exact h.closed.child y hy c hc
    · exact hx.topped
  rintro z ⟨y, hy, hparent, hyz⟩
  refine hclosed.reaches ?_ hyz
  rw [hp.parent] at hparent
  split at hparent
  · cases hparent
  · exact ⟨y, hp.size ▸ hy, hparent, .refl t y⟩

theorem ownedIn (h : t.OwnedIn G) (hx : t.parent x = .none) : t'.OwnedIn G := by
  -- the new statement was named by none of these nodes
  have hfree : ∀ y ∈ G, x ∉ t.children y := fun y hy hc => by
    have hparent := h.parent y hy x hc
    rw [hx] at hparent
    cases hparent
  refine ⟨fun y hy => ?_, fun y hy c hc => ?_⟩
  · rw [hp.children]
    split
    next hyb =>
      subst hyb
      refine List.nodup_append.mpr ⟨h.nodup y hy, List.nodup_singleton x, fun a ha c hc he => ?_⟩
      obtain rfl := List.mem_singleton.mp hc
      exact hfree y hy (he ▸ ha)
    next => exact h.nodup y hy
  · rw [hp.parent]
    rcases hp.mem_children hc with hc | ⟨rfl, rfl⟩
    · rw [if_neg fun he : c = x => hfree y hy (he ▸ hc)]
      exact h.parent y hy c hc
    · rw [if_pos rfl]

end Pushed

theorem Tidy.pushStmt? (h : t.Tidy) (hx : t.Free x) (hpush : t.pushStmt? b x = .some t') : t'.Tidy := by
  have hp := pushed_of_pushStmt? hx.lt_size hpush
  refine ⟨hp.formed h.formed hx.lt_size, ?_, fun y hc => ?_,
    (hp.ownedIn h.owned hx.parent).mono (hp.topped_subset h hx)⟩
  · rw [hp.parent, if_neg hx.ne_root.symm, h.root_parent]
  · rcases hp.mem_children hc with hc | ⟨-, he⟩
    · exact h.root_free y hc
    · exact hx.ne_root he.symm

/-! ## Work on the program -/

/-- Work on the program leaves the nodes outside of it as they are, so what is
below a node without a parent is still in order. -/
theorem Reworks.tidy (hG : Reworks t t' G) (h : t.Tidy) : t'.Tidy := by
  have hsplit : ∀ {x : Nat}, x < t'.size → x < t.size ∨ x ∈ G := fun hx =>
    (Nat.lt_or_ge _ _).imp_right fun hge => hG.new _ ⟨hge, hx⟩
  let outside : Set Nat := { z | ∃ y : Nat, y < t.size ∧ t.parent y = .none ∧ ¬ t.Reachable y ∧ t.Reaches y z }
  have hout : ∀ z ∈ outside, z < t.size ∧ ¬ t.Reachable z ∧ z ∉ G ∧ z ∈ t.Topped := by
    rintro z ⟨y, hy, hp, hnot, hyz⟩
    have hz := h.formed.closed.reaches hy hyz
    have hunr : ¬ t.Reachable z := fun hroot =>
      hnot (h.top_unique hy hp h.formed.root_lt h.root_parent hyz hroot ▸ .refl t root)
    refine ⟨hz, hunr, fun hmem => ?_, ⟨y, hy, hp, hyz⟩⟩
    rcases hG.program z hmem with hreach | hnew
    · exact hunr hreach
    · exact absurd hnew.1 (Nat.not_le.mpr hz)
  have hchild : ∀ z ∈ outside, t'.children z = t.children z := fun z hz => by
    rw [Tree.children, hG.kind z (hout z hz).1 (hout z hz).2.2.1]
    rfl
  have hclosed : t'.Closed (G ∪ outside) := by
    refine ⟨?_, ?_⟩
    · rintro z (hz | hz)
      · exact hG.closed.bounded z hz
      · exact (hout z hz).1.trans_le hG.size_le
    · rintro z (hz | hz) c hc
      · exact .inl (hG.closed.child z hz c hc)
      · rw [hchild z hz] at hc
        obtain ⟨y, hy, hp, hnot, hyz⟩ := hz
        exact .inr ⟨y, hy, hp, hnot, hyz.tail hc⟩
  have htop : t'.Topped ⊆ G ∪ outside := by
    rintro z ⟨y, hy, hp, hyz⟩
    refine hclosed.reaches ?_ hyz
    by_cases hyG : y ∈ G
    · exact .inl hyG
    have hlt := (hsplit hy).resolve_right hyG
    have hnot : ¬ t.Reachable y := fun hreach => hG.dropped y hreach hyG hp
    rw [hG.parent y hlt hnot] at hp
    exact .inr ⟨y, hlt, hp, hnot, .refl t y⟩
  refine ⟨hG.formed, hG.root_parent.trans h.root_parent, fun x hmem => ?_, fun z hz => ?_, fun z hz c hc => ?_⟩
  · by_cases hxG : x ∈ G
    · exact hG.root_free x hxG hmem
    · rw [Tree.children, hG.kind x ((hsplit (lt_size_of_mem_children hmem)).resolve_right hxG) hxG] at hmem
      exact h.root_free x hmem
  · rcases htop hz with hz | hz
    · exact hG.owned.nodup z hz
    · rw [hchild z hz]
      exact h.owned.nodup z (hout z hz).2.2.2
  · rcases htop hz with hz | hz
    · exact hG.owned.parent z hz c hc
    · rw [hchild z hz] at hc
      have hcout : c ∈ outside := by
        obtain ⟨y, hy, hp, hnot, hyz⟩ := hz
        exact ⟨y, hy, hp, hnot, hyz.tail hc⟩
      rw [hG.parent c (hout c hcout).1 (hout c hcout).2.1]
      exact h.owned.parent z (hout z hz).2.2.2 c hc

end Penumbra.Tree
