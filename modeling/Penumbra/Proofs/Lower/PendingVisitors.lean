/-
How a run of lowering comes to a visitor.

The visitors are gone through one after the other. As long as a visitor is
pending, it and its arms are as they were at first (`Pending`), and so are, in
an owned tree, the bodies of its arms. What is below its wildcard has been
changed by the visitors in there only, all of which come before it, and is not
changed any more afterwards (`Turn.wildcard_closed`).
-/
import Penumbra.Proofs.Lower.KeptNodes

namespace Penumbra

open Tree

theorem Chain.split {α : Type} {R : α → Tree → Tree → Prop} {l₁ l₂ : List α} {x : α} {t t' : Tree}
    (h : Chain R (l₁ ++ x :: l₂) t t') : ∃ u u', Chain R l₁ t u ∧ R x u u' ∧ Chain R l₂ u' t' := by
  induction l₁ generalizing t with
  | nil =>
    cases h with
    | cons first rest => exact ⟨t, _, .nil, first, rest⟩
  | cons y l₁ ih =>
    cases h with
    | cons first rest =>
      obtain ⟨u, u', h₁, hx, h₂⟩ := ih rest
      exact ⟨u, u', .cons first h₁, hx, h₂⟩

theorem Chain.join {α : Type} {R : α → Tree → Tree → Prop} {l₁ l₂ : List α} {x : α} {t u u' t' : Tree}
    (h₁ : Chain R l₁ t u) (hx : R x u u') (h₂ : Chain R l₂ u' t') : Chain R (l₁ ++ x :: l₂) t t' := by
  induction h₁ with
  | nil => exact .cons hx h₂
  | cons first _ ih => exact .cons first (ih hx)

/-- A run of `lower` on `t` has come to `u`, with the visitors of `l` still to
be gone through. -/
structure Pending (t u : Tree) (l : List Nat) : Prop where
  later : t.Later u
  formed : u.Formed
  nodup : l.Nodup
  visitor : ∀ W ∈ l, t.isVisitor W = true
  kind : ∀ W ∈ l, u.kind W = t.kind W

namespace Pending

variable {t u u' : Tree} {l : List Nat} {x V W b : Nat} {S Z : Set Nat}

theorem bodyOf_lt (hf : t.Formed) (h : t.BodyOf W b) : b < t.size := by
  obtain ⟨-, arms, wildcard, arm, p, c, hW, harm, hk⟩ := h
  have hlt := hf.child W (lt_size_of_kind hW (by simp)) arm (arm_mem_children hW harm)
  exact hf.child arm hlt b (body_mem_children hk)

theorem bodyOf (h : Pending t u l) (hf : t.Formed) (hW : W ∈ l) (hb : u.BodyOf W b) : t.BodyOf W b := by
  obtain ⟨hstmts, arms, wildcard, arm, p, c, hkW, harm, hk⟩ := hb
  rw [h.kind W hW] at hkW
  have hlt := hf.child W (lt_size_of_kind hkW (by simp)) arm (arm_mem_children hkW harm)
  rw [h.later.grows.kind_iff hlt rfl (by simp)] at hk
  have hblt := hf.child arm hlt b (body_mem_children hk)
  refine ⟨fun hnone => hstmts ?_, arms, wildcard, arm, p, c, hkW, harm, hk⟩
  exact (h.later.grows.kind b hblt).stmts?_eq_none.mpr hnone

/-- A visitor is no body of an arm that a family can be merged into. -/
theorem not_bodyOf (hV : t.isVisitor V = true) : ¬ t.BodyOf W V := by
  rintro ⟨hstmts, -⟩
  obtain ⟨arms, wildcard, hk⟩ := isVisitor_iff.mp hV
  exact hstmts (by rw [Tree.stmts?, hk]; rfl)

theorem next (h : Pending t u (W :: l)) (hf : t.Formed) (hW : VisitorLowered W u u') : Pending t u' l := by
  obtain ⟨hl, hf'⟩ := hW.later_formed h.formed
  refine ⟨h.later.trans hl, hf', (List.nodup_cons.mp h.nodup).2, fun W' hW' => h.visitor W' (by simp [hW']),
    fun W' hW' => ?_⟩
  have hlt : W' < t.size := by
    obtain ⟨arms, wildcard, hk⟩ := isVisitor_iff.mp (h.visitor W' (by simp [hW']))
    exact lt_size_of_kind hk (by simp)
  rw [hW.kind_eq (hlt.trans_le h.later.grows.size_le), h.kind W' (by simp [hW'])]
  · rintro rfl
    exact (List.nodup_cons.mp h.nodup).1 hW'
  · exact fun hb => not_bodyOf (h.visitor W' (by simp [hW'])) (h.bodyOf hf (by simp) hb)

theorem run {l₁ l₂ : List Nat} (h : Pending t u (l₁ ++ l₂)) (hf : t.Formed)
    (hc : Chain VisitorLowered l₁ u u') : Pending t u' l₂ := by
  induction hc with
  | nil => exact h
  | cons first rest ih => exact ih (h.next hf first)

theorem later_run (h : Pending t u l) (hf : t.Formed) (hc : Chain VisitorLowered l u u') : u.Later u' := by
  induction hc with
  | nil => exact .refl _
  | cons first rest ih => exact (first.later_formed h.formed).1.trans (ih (h.next hf first))

/-- Kinds of nodes that the rest of the run does not come to stay. -/
theorem kind_eq (h : Pending t u l) (hf : t.Formed) (hc : Chain VisitorLowered l u u') (hx : x < u.size)
    (hfree : ∀ W ∈ l, x ≠ W ∧ ¬ t.BodyOf W x) : u'.kind x = u.kind x := by
  induction hc with
  | nil => rfl
  | @cons W l u u₁ u' first rest ih =>
    have hle := (first.later_formed h.formed).1.grows.size_le
    obtain ⟨hne, hbody⟩ := hfree W (by simp)
    rw [ih (h.next hf first) (hx.trans_le hle) fun W' hW' => hfree W' (by simp [hW']),
      first.kind_eq hx hne fun hb => hbody (h.bodyOf hf (by simp) hb)]

theorem kind_new (h : Pending t u l) (hf : t.Formed) (hc : Chain VisitorLowered l u u') (hx : x < u.size)
    (hnew : t.size ≤ x) : u'.kind x = u.kind x := by
  refine h.kind_eq hf hc hx fun W hW => ⟨?_, fun hb => ?_⟩
  · rintro rfl
    obtain ⟨arms, wildcard, hk⟩ := isVisitor_iff.mp (h.visitor x hW)
    have := lt_size_of_kind hk (by simp)
    omega
  · have := bodyOf_lt hf hb
    omega

/-- A set of nodes of `t` that a run comes to with whole visitors only: what
the run adds to it are new nodes. -/
theorem closed (h : Pending t u l) (hf : t.Formed) (hc : Chain VisitorLowered l u u')
    (hS : ∀ W ∈ l, W ∈ S ∨ W ∉ S ∧ ∀ b, t.BodyOf W b → b ∉ S) (hZ : u.Closed Z)
    (hold : ∀ x < t.size, x ∈ Z ↔ x ∈ S) :
    ∃ Z', u'.Closed Z' ∧ Z ⊆ Z' ∧ ∀ x < t.size, x ∈ Z' ↔ x ∈ S := by
  induction hc generalizing Z with
  | nil => exact ⟨Z, hZ, subset_rfl, hold⟩
  | @cons W l u u₁ u' first rest ih =>
    have hlt : W < t.size := by
      obtain ⟨arms, wildcard, hk⟩ := isVisitor_iff.mp (h.visitor W (by simp))
      exact lt_size_of_kind hk (by simp)
    have hS' : ∀ W' ∈ l, W' ∈ S ∨ W' ∉ S ∧ ∀ b, t.BodyOf W' b → b ∉ S := fun W' hW' => hS W' (by simp [hW'])
    rcases hS W (by simp) with hW | ⟨hW, hbodies⟩
    · have hstep := first.step hZ ((hold W hlt).mpr hW)
      obtain ⟨Z', hZ', hsub, hold'⟩ := ih (h.next hf first) hS' (hstep.closed hZ) fun x hx => by
        rw [Set.mem_union, hold x hx]
        refine or_iff_left fun hnew => ?_
        have := hnew.1
        have := h.later.grows.size_le
        omega
      exact ⟨Z', hZ', fun x hx => hsub (.inl hx), hold'⟩
    · have hle := (first.later_formed h.formed).1.grows.size_le
      have hZ₁ : u₁.Closed Z := by
        refine ⟨fun x hx => (hZ.bounded x hx).trans_le hle, fun x hx c hc => hZ.child x hx c ?_⟩
        rw [Tree.children, ← first.kind_eq (hZ.bounded x hx)]
        · exact hc
        · rintro rfl
          exact hW ((hold x hlt).mp hx)
        · intro hb
          have hb' := h.bodyOf hf (by simp) hb
          exact hbodies x hb' ((hold x (bodyOf_lt hf hb')).mp hx)
      exact ih (h.next hf first) hS' hZ₁ hold

end Pending

/-! ## In an owned tree -/

namespace Tree.Owned

variable {t : Tree} {V W a a' b w z : Nat} {p q : Phase} {c : Option NodeId} {arms : List NodeId}
  {wildcard : Option NodeId} (h : t.Owned)
include h

/-- An arm is told by its body. -/
theorem arm_eq (hV : t.Reachable V) (hW : t.Reachable W) (ha : a ∈ t.children V) (ha' : a' ∈ t.children W)
    (hb : b ∈ t.children a) (hb' : b ∈ t.children a') : a = a' ∧ V = W := by
  obtain rfl := h.eq_of_mem (Reaches.tail hV ha) (Reaches.tail hW ha') hb hb'
  exact ⟨rfl, h.eq_of_mem hV hW ha ha'⟩

theorem bodyOf_inj (hV : t.Reachable V) (hW : t.Reachable W) (hb : t.BodyOf V b) (hb' : t.BodyOf W b) : V = W := by
  obtain ⟨-, arms, wildcard, arm, p, c, hkV, harm, hk⟩ := hb
  obtain ⟨-, arms', wildcard', arm', p', c', hkW, harm', hk'⟩ := hb'
  exact (h.arm_eq hV hW (arm_mem_children hkV harm) (arm_mem_children hkW harm') (body_mem_children hk)
    (body_mem_children hk')).2

/-- Where the body of an arm lies below a wildcard's body, so does the arm's
visitor. -/
theorem reaches_of_wildcard (hV : t.Reachable V) (hkV : t.kind V = .visitor arms (.some w))
    (hkw : t.kind w = .arm p c b) (hW : t.Reachable W) (hz : t.BodyOf W z) (hbz : t.Reaches b z) : t.Reaches b W := by
  obtain ⟨-, arms', wildcard', arm, q, d, hkW, harm, hk⟩ := hz
  have hwV : w ∈ t.children V := wildcard_mem_children hkV
  have hbw : b ∈ t.children w := body_mem_children hkw
  have harmW : arm ∈ t.children W := arm_mem_children hkW harm
  have hzarm : z ∈ t.children arm := body_mem_children hk
  have hw : t.Reachable w := Reaches.tail hV hwV
  have hb : t.Reachable b := Reaches.tail hw hbw
  have harmr : t.Reachable arm := Reaches.tail hW harmW
  rcases h.reaches_parent harmr hzarm hb hbz with rfl | hbarm
  · -- then the arm would be the wildcard as well
    obtain ⟨rfl, rfl⟩ := h.arm_eq hV hW hwV harmW hbw hzarm
    rw [hkV] at hkW
    cases hkW
    have hnodup := h.nodup V hV
    rw [Tree.children, hkV] at hnodup
    exact absurd rfl ((List.nodup_append.mp hnodup).2.2 w harm w (by simp))
  · refine (h.reaches_parent hW harmW hb hbarm).resolve_left ?_
    rintro rfl
    obtain rfl := h.eq_of_mem hw hW hbw harmW
    rw [hkw] at hkW
    cases hkW

end Tree.Owned

/-- A run on the owned tree `t` goes through the visitors of `pre`, then
through `V`, then through those of `post`. -/
structure Turn (t : Tree) (pre : List Nat) (V : Nat) (post : List Nat) : Prop where
  formed : t.Formed
  owned : t.Owned
  nodup : (pre ++ V :: post).Nodup
  visitor : ∀ W ∈ pre ++ V :: post, t.Reachable W ∧ t.isVisitor W = true
  after : ∀ W ∈ post, ¬ t.Reaches V W

theorem Tree.Owned.turn {t : Tree} {V : Nat} (h : t.Owned) (hf : t.Formed) (hV : t.Reachable V)
    (hk : t.isVisitor V = true) :
    ∃ pre post, (t.postOrder root).filter t.isVisitor = pre ++ V :: post ∧ Turn t pre V post := by
  have hmem : V ∈ t.postOrder root := (mem_postOrder ((h.acyclic hf).endsWithin (.refl t root))).mpr hV
  obtain ⟨l₁, l₂, hl⟩ := List.append_of_mem hmem
  have hsplit : (t.postOrder root).filter t.isVisitor =
      l₁.filter t.isVisitor ++ V :: l₂.filter t.isVisitor := by
    rw [hl, List.filter_append, List.filter_cons, if_pos hk]
  refine ⟨_, _, hsplit, hf, h, ?_, fun W hW => ?_, fun W hW => ?_⟩
  · rw [← hsplit]
    exact h.nodup_postOrder.filter _
  · rw [← hsplit, List.mem_filter] at hW
    exact ⟨reaches_of_mem_postOrder hW.1, hW.2⟩
  · exact h.not_reaches_of_after ((h.acyclic hf).endsWithin (.refl t root)) hl (List.mem_of_mem_filter hW)

/-- How a run comes to a visitor of an owned tree and goes on from it. -/
theorem Tree.Owned.lowering {t : Tree} {V : Nat} (h : t.Owned) (hf : t.Formed) (hok : t.lower.result = .ok ())
    (hV : t.Reachable V) (hk : t.isVisitor V = true) :
    ∃ pre post u u', Turn t pre V post ∧ Chain VisitorLowered pre t u ∧ VisitorLowered V u u' ∧
      Chain VisitorLowered post u' t.lower.tree := by
  obtain ⟨pre, post, hsplit, hturn⟩ := h.turn hf hV hk
  have hchain := t.lowering_chain hok
  rw [hsplit] at hchain
  obtain ⟨u, u', hpre, hlowered, hpost⟩ := hchain.split
  exact ⟨pre, post, u, u', hturn, hpre, hlowered, hpost⟩

namespace Turn

variable {t u : Tree} {pre post arms : List Nat} {V W w b x : Nat} {p : Phase} {c : Option NodeId}
  (h : Turn t pre V post)
include h

theorem pending : Pending t t (pre ++ V :: post) :=
  ⟨.refl t, h.formed, h.nodup, fun W hW => (h.visitor W hW).2, fun _ _ => rfl⟩

theorem pending_pre : Pending t t pre :=
  ⟨.refl t, h.formed, (List.nodup_append.mp h.nodup).1, fun W hW => (h.visitor W (by simp [hW])).2, fun _ _ => rfl⟩

theorem reachable : t.Reachable V := (h.visitor V (by simp)).1

/-- The bodies of the arms of `V` are touched for `V` only. -/
theorem body_free (hb : t.BodyOf V b) : ∀ W ∈ pre ++ post, b ≠ W ∧ ¬ t.BodyOf W b := by
  intro W hW
  have hmem : W ∈ pre ++ V :: post := by
    simp only [List.mem_append, List.mem_cons] at hW ⊢
    exact hW.imp_right .inr
  obtain ⟨hWr, hWv⟩ := h.visitor W hmem
  refine ⟨?_, fun hb' => ?_⟩
  · rintro rfl
    exact Pending.not_bodyOf hWv hb
  · obtain rfl := h.owned.bodyOf_inj h.reachable hWr hb hb'
    have hnodup := h.nodup
    rw [List.nodup_middle, List.nodup_cons] at hnodup
    exact hnodup.1 hW

/-- A visitor does not lie below itself. -/
theorem not_reaches_of_child (hw : w ∈ t.children V) : ¬ t.Reaches w V := fun hwV =>
  h.owned.noCircle h.reachable (.head' hw hwV)

/-- When the run comes to `V`, what is below its wildcard's body is a set that
`V` does not touch, and none of the visitors after it does. -/
theorem wildcard_closed (hc : Chain VisitorLowered pre t u) (hkV : t.kind V = .visitor arms (.some w))
    (hkw : t.kind w = .arm p c b) :
    ∃ Z, u.Closed Z ∧ b ∈ Z ∧ V ∉ Z ∧ (∀ x, u.BodyOf V x → x ∉ Z) ∧ ∀ x ∈ Z, ∀ W ∈ post, x ≠ W ∧ ¬ t.BodyOf W x := by
  have hwV : w ∈ t.children V := wildcard_mem_children hkV
  have hbw : b ∈ t.children w := body_mem_children hkw
  have hVb : t.Reaches V b := .tail (.single hwV) hbw
  have hVnot : ¬ t.Reaches b V := fun hbV => h.not_reaches_of_child hwV (.head hbw hbV)
  have hclosed : t.Closed { y | t.Reaches b y } :=
    ⟨fun y hy => h.formed.bounded ((h.reachable.trans hVb).trans hy), fun y hy c hc => Reaches.tail hy hc⟩
  have hS : ∀ W ∈ pre, W ∈ { y | t.Reaches b y } ∨
      W ∉ { y | t.Reaches b y } ∧ ∀ z, t.BodyOf W z → z ∉ { y | t.Reaches b y } := by
    intro W hW
    by_cases hbW : t.Reaches b W
    · exact .inl hbW
    · refine .inr ⟨hbW, fun z hz hbz => hbW ?_⟩
      exact h.owned.reaches_of_wildcard h.reachable hkV hkw (h.visitor W (by simp [hW])).1 hz hbz
  obtain ⟨Z, hZ, hsub, hold⟩ := h.pending_pre.closed h.formed hc hS hclosed fun _ _ => Iff.rfl
  have hpend := h.pending.run h.formed hc
  have hVlt := h.formed.bounded h.reachable
  have hbelow : ∀ x ∈ Z, ∀ W, t.Reachable W → t.isVisitor W = true → x = W ∨ t.BodyOf W x → t.Reaches b W := by
    intro x hx W hW hWv hcase
    rcases hcase with rfl | hbody
    · exact (hold x (h.formed.bounded hW)).mp hx
    · exact h.owned.reaches_of_wildcard h.reachable hkV hkw hW hbody
        ((hold x (Pending.bodyOf_lt h.formed hbody)).mp hx)
  refine ⟨Z, hZ, hsub (.refl t b), fun hmem => hVnot ((hold V hVlt).mp hmem), fun x hx hmem => hVnot ?_,
    fun x hx W hW => ?_⟩
  · exact hbelow x hmem V h.reachable (h.visitor V (by simp)).2 (.inr (hpend.bodyOf h.formed (by simp) hx))
  · obtain ⟨hWr, hWv⟩ := h.visitor W (by simp [hW])
    exact ⟨fun he => h.after W hW (hVb.trans (hbelow x hx W hWr hWv (.inl he))),
      fun hb => h.after W hW (hVb.trans (hbelow x hx W hWr hWv (.inr hb)))⟩

end Turn

end Penumbra
