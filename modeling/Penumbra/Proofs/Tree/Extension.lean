/-
Adding to a tree, and copies.

`Extends t t'` says that `t'` is `t` with nodes added: what was there keeps
its kind, scope, type and span, and only parent links may change. A copy adds
nodes that mirror the nodes they were copied from: `Mirrored` gives a map from
the new nodes to their originals that commutes with child lists. It holds
whatever the child lists look like. Where they end within the copy's bound,
the new nodes moreover form trees of their own with correct parent links, and
no other parent link changes (`Separate`).
-/
import Penumbra.Proofs.Tree.ReadAfterWrite
import Penumbra.Proofs.Tree.Reach
import Penumbra.Tree.Copy

namespace Penumbra.Tree

variable {t t' t'' : Tree} {x y : Nat}

/-- Nodes may be added, and kinds and parent links may change. -/
structure Keeps (t t' : Tree) : Prop where
  size_le : t.size ≤ t'.size
  scope : ∀ x : Nat, x < t.size → t'.scope x = t.scope x
  ty : ∀ x : Nat, x < t.size → t'.ty x = t.ty x
  span : ∀ x : Nat, x < t.size → t'.span x = t.span x

/-- Nodes may be added, and parent links may change. -/
structure Extends (t t' : Tree) : Prop extends Keeps t t' where
  kind : ∀ x : Nat, x < t.size → t'.kind x = t.kind x

theorem Keeps.refl (t : Tree) : t.Keeps t :=
  ⟨le_rfl, fun _ _ => rfl, fun _ _ => rfl, fun _ _ => rfl⟩

theorem Keeps.trans (h : t.Keeps t') (h' : t'.Keeps t'') : t.Keeps t'' where
  size_le := h.size_le.trans h'.size_le
  scope x hx := (h'.scope x (hx.trans_le h.size_le)).trans (h.scope x hx)
  ty x hx := (h'.ty x (hx.trans_le h.size_le)).trans (h.ty x hx)
  span x hx := (h'.span x (hx.trans_le h.size_le)).trans (h.span x hx)

theorem Extends.refl (t : Tree) : t.Extends t :=
  ⟨.refl t, fun _ _ => rfl⟩

theorem Extends.trans (h : t.Extends t') (h' : t'.Extends t'') : t.Extends t'' :=
  ⟨h.toKeeps.trans h'.toKeeps, fun x hx => (h'.kind x (hx.trans_le h.size_le)).trans (h.kind x hx)⟩

theorem Extends.add (t : Tree) (n : Node) : t.Extends (t.add n) where
  size_le := by simp
  scope x hx := by rw [scope_add, if_neg (by omega)]
  ty x hx := by rw [ty_add, if_neg (by omega)]
  span x hx := by rw [span_add, if_neg (by omega)]
  kind x hx := by rw [kind_add, if_neg (by omega)]

theorem Extends.addAll (t : Tree) (ns : List Node) : t.Extends (t.addAll ns) := by
  induction ns generalizing t with
  | nil => exact .refl t
  | cons n ns ih => exact (Extends.add t n).trans (ih (t.add n))

theorem Extends.modifyEnv (t : Tree) (f : Env → Env) : t.Extends (t.modifyEnv f) :=
  ⟨⟨le_rfl, fun _ _ => rfl, fun _ _ => rfl, fun _ _ => rfl⟩, fun _ _ => rfl⟩

theorem Extends.children (h : t.Extends t') (hx : x < t.size) : t'.children x = t.children x :=
  congrArg Kind.children (h.kind x hx)

theorem Extends.reaches (h : t.Extends t') (hxy : t.Reaches x y) : t'.Reaches x y := by
  induction hxy with
  | refl => exact .refl t' x
  | tail _ hc ih => exact ih.tail (h.children (lt_size_of_mem_children hc) ▸ hc)

/-- A node that keeps its parent link stays as it was. -/
theorem Extends.node_eq (h : t.Extends t') (hx : x < t.size) (hparent : t'.parent x = t.parent x) :
    t'.node x = t.node x := by
  have hkind := h.kind x hx
  have hscope := h.scope x hx
  have hty := h.ty x hx
  have hspan := h.span x hx
  simp only [Tree.parent, Tree.kind, Tree.scope, Tree.ty, Tree.span] at hparent hkind hscope hty hspan
  generalize t'.node x = a at *
  generalize t.node x = b at *
  cases a
  cases b
  simp_all

/-- The nodes of `u'` that `u` does not have are copies of nodes of `t` that
lie in `R`. The map `φ` leads from a copy to its original and leaves other
nodes alone. -/
structure Mirrored (t : Tree) (R : Set Nat) (u u' : Tree) (φ : Nat → Nat) : Prop where
  grows : u.Extends u'
  env : u'.env = u.env
  old : ∀ y : Nat, y < u.size → φ y = y
  origin : ∀ y : Nat, u.size ≤ y → y < u'.size → φ y ∈ R
  kind : ∀ y : Nat, u.size ≤ y → y < u'.size → (u'.kind y).map φ = t.kind (φ y)
  scope : ∀ y : Nat, u.size ≤ y → y < u'.size → u'.scope y = t.scope (φ y)
  ty : ∀ y : Nat, u.size ≤ y → y < u'.size → u'.ty y = t.ty (φ y)
  span : ∀ y : Nat, u.size ≤ y → y < u'.size → u'.span y = t.span (φ y)
  /-- A child of a copy was made before it, or the copy was cut short there. -/
  child : ∀ y : Nat, u.size ≤ y → y < u'.size → ∀ c : Nat, c ∈ u'.children y →
    c < t.size ∨ u.size ≤ c ∧ c < y

namespace Mirrored

variable {R : Set Nat} {u u' u'' : Tree} {φ ψ : Nat → Nat}

theorem refl (t : Tree) (R : Set Nat) (u : Tree) : Mirrored t R u u (fun y => y) where
  grows := .refl u
  env := rfl
  old _ _ := rfl
  origin y h h' := absurd h' (by omega)
  kind y h h' := absurd h' (by omega)
  scope y h h' := absurd h' (by omega)
  ty y h h' := absurd h' (by omega)
  span y h h' := absurd h' (by omega)
  child y h h' := absurd h' (by omega)

/-- The map for copies made one after the other. -/
def glue (n : Nat) (φ ψ : Nat → Nat) (y : Nat) : Nat := if y < n then φ y else ψ y

theorem glue_low {n : Nat} (h : y < n) : glue n φ ψ y = φ y := if_pos h

theorem glue_high {n : Nat} (h : n ≤ y) : glue n φ ψ y = ψ y := if_neg (by omega)

theorem trans (h : Mirrored t R u u' φ) (h' : Mirrored t R u' u'' ψ) (htu : t.size ≤ u.size) :
    Mirrored t R u u'' (glue u'.size φ ψ) := by
  have hle := h.grows.size_le
  have hle' := h'.grows.size_le
  refine ⟨h.grows.trans h'.grows, h'.env.trans h.env, fun y hy => ?_, fun y hy hy' => ?_,
    fun y hy hy' => ?_, fun y hy hy' => ?_, fun y hy hy' => ?_, fun y hy hy' => ?_,
    fun y hy hy' c hc => ?_⟩
  · rw [glue_low (by omega), h.old y hy]
  all_goals rcases Nat.lt_or_ge y u'.size with hlt | hge
  · exact glue_low hlt ▸ h.origin y hy hlt
  · exact glue_high hge ▸ h'.origin y hge hy'
  · rw [glue_low hlt, h'.grows.kind y hlt, ← h.kind y hy hlt]
    refine Kind.map_congr fun c hc => glue_low ?_
    have := h.child y hy hlt c hc
    omega
  · rw [glue_high hge, ← h'.kind y hge hy']
    refine Kind.map_congr fun c hc => ?_
    -- a child that the copy shares with `t` is left alone by both maps
    rcases h'.child y hge hy' c hc with hc | hc
    · rw [glue_low (by omega), h.old c (by omega), h'.old c (by omega)]
    · exact glue_high hc.1
  · rw [glue_low hlt, h'.grows.scope y hlt, h.scope y hy hlt]
  · rw [glue_high hge, h'.scope y hge hy']
  · rw [glue_low hlt, h'.grows.ty y hlt, h.ty y hy hlt]
  · rw [glue_high hge, h'.ty y hge hy']
  · rw [glue_low hlt, h'.grows.span y hlt, h.span y hy hlt]
  · rw [glue_high hge, h'.span y hge hy']
  · rw [h'.grows.children hlt] at hc
    exact h.child y hy hlt c hc
  · have := h'.child y hge hy' c hc
    omega

/-- One more copy, of a node whose children have copies. -/
theorem add (h : Mirrored t R u u' φ) (htu : t.size ≤ u.size) (hx : x ∈ R) {cs : List Nat}
    (hcs : cs.map φ = t.children x) (hnew : ∀ c ∈ cs, c < t.size ∨ u.size ≤ c ∧ c < u'.size) :
    Mirrored t R u (u'.add { kind := (t.kind x).refill cs, scope := t.scope x, ty := t.ty x, span := t.span x })
      (glue u'.size φ fun _ => x) := by
  have hle := h.grows.size_le
  have hlen : cs.length = (t.kind x).children.length := by
    rw [← List.length_map (f := φ), hcs]
    rfl
  refine ⟨h.grows.trans (.add ..), by simp [h.env], fun y hy => ?_, fun y hy hy' => ?_,
    fun y hy hy' => ?_, fun y hy hy' => ?_, fun y hy hy' => ?_, fun y hy hy' => ?_,
    fun y hy hy' c hc => ?_⟩
  · rw [glue_low (by omega), h.old y hy]
  all_goals
    rw [size_add] at hy'
    rcases Nat.lt_succ_iff_lt_or_eq.mp hy' with hlt | hlast
  · exact glue_low hlt ▸ h.origin y hy hlt
  · exact glue_high hlast.ge ▸ hx
  · rw [kind_add, if_neg (by omega), glue_low hlt, ← h.kind y hy hlt]
    refine Kind.map_congr fun c hc => glue_low ?_
    have := h.child y hy hlt c hc
    omega
  · have hmap : cs.map (glue u'.size φ fun _ => x) = cs.map φ :=
      List.map_congr_left fun c hc => glue_low (by have := hnew c hc; omega)
    rw [kind_add, if_pos hlast, glue_high hlast.ge, Kind.map_refill, hmap, hcs]
    exact Kind.refill_children _
  · rw [scope_add, if_neg (by omega), glue_low hlt, h.scope y hy hlt]
  · rw [scope_add, if_pos hlast, glue_high hlast.ge]
  · rw [ty_add, if_neg (by omega), glue_low hlt, h.ty y hy hlt]
  · rw [ty_add, if_pos hlast, glue_high hlast.ge]
  · rw [span_add, if_neg (by omega), glue_low hlt, h.span y hy hlt]
  · rw [span_add, if_pos hlast, glue_high hlast.ge]
  · rw [Tree.children, kind_add, if_neg (by omega)] at hc
    exact h.child y hy hlt c hc
  · rw [Tree.children, kind_add, if_pos hlast, Kind.children_refill _ hlen] at hc
    have := hnew c hc
    omega

end Mirrored

/-- The nodes of `u'` that `u` does not have are linked to each other, and to
some of `u` that they took over. -/
structure Separate (used : List Nat) (u u' : Tree) : Prop where
  taken : ∀ y : Nat, y ∈ used → y < u.size
  parent : ∀ y : Nat, y < u.size → y ∉ used → u'.parent y = u.parent y
  nodup : ∀ y : Nat, u.size ≤ y → y < u'.size → (u'.children y).Nodup
  child : ∀ y : Nat, u.size ≤ y → y < u'.size → ∀ c : Nat, c ∈ u'.children y →
    (u.size ≤ c ∧ c < y ∨ c ∈ used) ∧ u'.parent c = .some y

namespace Separate

variable {used more : List Nat} {u u' u'' : Tree}

theorem refl (u : Tree) : Separate [] u u where
  taken y h := absurd h (by simp)
  parent _ _ _ := rfl
  nodup y h h' := absurd h' (by omega)
  child y h h' := absurd h' (by omega)

theorem trans (h : Separate used u u') (h' : Separate more u' u'') (hle : u.size ≤ u'.size)
    (hgrows : u'.Extends u'') (hmore : ∀ y ∈ more, y < u.size ∧ y ∉ used) :
    Separate (used ++ more) u u'' := by
  refine ⟨fun y hy => ?_, fun y hy hn => ?_, fun y hy hy' => ?_, fun y hy hy' c hc => ?_⟩
  · rcases List.mem_append.mp hy with hy | hy
    · exact h.taken y hy
    · exact (hmore y hy).1
  · simp only [List.mem_append, not_or] at hn
    rw [h'.parent y (by omega) hn.2, h.parent y hy hn.1]
  all_goals rcases Nat.lt_or_ge y u'.size with hlt | hge
  · exact hgrows.children hlt ▸ h.nodup y hy hlt
  · exact h'.nodup y hge hy'
  · rw [hgrows.children hlt] at hc
    obtain ⟨hc, hp⟩ := h.child y hy hlt c hc
    have hfree : c ∉ more := fun hm => by
      obtain ⟨hcu, hused⟩ := hmore c hm
      rcases hc with hc | hc
      · omega
      · exact hused hc
    have hcu : c < u'.size := by
      rcases hc with hc | hc
      · omega
      · have := h.taken c hc
        omega
    refine ⟨hc.imp_right (List.mem_append_left _), (h'.parent c hcu hfree).trans hp⟩
  · obtain ⟨hc, hp⟩ := h'.child y hge hy' c hc
    refine ⟨?_, hp⟩
    rcases hc with hc | hc
    · exact .inl (by omega)
    · exact .inr (List.mem_append_right _ hc)

/-- One more node, above some that had no parent. -/
theorem add (h : Separate used u u') (hle : u.size ≤ u'.size) {n : Node} (hn : n.kind.children.Nodup)
    (hc : ∀ c : Nat, c ∈ n.kind.children → u.size ≤ c ∧ c < u'.size ∧ u'.parent c = .none) :
    Separate used u (u'.add n) := by
  refine ⟨h.taken, fun y hy hfree => ?_, fun y hy hy' => ?_, fun y hy hy' c hcy => ?_⟩
  · rw [parent_add, if_neg, if_neg (by omega), h.parent y hy hfree]
    rintro ⟨hy', -⟩
    have := hc y hy'
    omega
  all_goals
    rw [size_add] at hy'
    rcases Nat.lt_succ_iff_lt_or_eq.mp hy' with hlt | hlast
  · rw [Tree.children, kind_add, if_neg (by omega)]
    exact h.nodup y hy hlt
  · rw [Tree.children, kind_add, if_pos hlast]
    exact hn
  · rw [Tree.children, kind_add, if_neg (by omega)] at hcy
    obtain ⟨hcy, hp⟩ := h.child y hy hlt c hcy
    have hcu : c < u'.size := by
      rcases hcy with hcy | hcy
      · omega
      · have := h.taken c hcy
        omega
    refine ⟨hcy, ?_⟩
    rw [parent_add, if_neg, if_neg (by omega), hp]
    rintro ⟨hc', -⟩
    simp [(hc c hc').2.2] at hp
  · rw [Tree.children, kind_add, if_pos hlast] at hcy
    obtain ⟨hc₁, hc₂, -⟩ := hc c hcy
    exact ⟨.inl (by omega), by rw [parent_add, if_pos ⟨hcy, by omega⟩, hlast]⟩

end Separate

/-! ## Several nodes at once -/

section Several

variable {t : Tree} {ns : List Node} {n : Node} {i : Nat}

/-- The nodes added stand in order behind those that were there. -/
theorem node_addAll (h : ns[i]? = .some n) :
    (t.addAll ns).kind (t.size + i) = n.kind ∧ (t.addAll ns).scope (t.size + i) = n.scope ∧
      (t.addAll ns).ty (t.size + i) = n.ty ∧ (t.addAll ns).span (t.size + i) = n.span := by
  induction ns generalizing t i with
  | nil => simp at h
  | cons m ns ih =>
    rw [addAll_cons]
    cases i with
    | zero =>
      obtain rfl : m = n := by simpa using h
      have hext := Extends.addAll (t.add m) ns
      have hlt : t.size + 0 < (t.add m).size := by simp
      rw [hext.kind _ hlt, hext.scope _ hlt, hext.ty _ hlt, hext.span _ hlt, kind_add, scope_add, ty_add, span_add]
      simp
    | succ i =>
      have h' := ih (t := t.add m) (by simpa using h)
      rw [size_add] at h'
      rw [Nat.add_comm i 1, ← Nat.add_assoc]
      exact h'

theorem new_addAll {y : Nat} (hy : t.size ≤ y) (hy' : y < (t.addAll ns).size) :
    ∃ n ∈ ns, (t.addAll ns).kind y = n.kind ∧ (t.addAll ns).scope y = n.scope ∧
      (t.addAll ns).ty y = n.ty ∧ (t.addAll ns).span y = n.span := by
  obtain ⟨i, rfl⟩ := Nat.exists_eq_add_of_le hy
  rw [size_addAll] at hy'
  have hi : i < ns.length := by omega
  exact ⟨ns[i], List.getElem_mem hi, node_addAll (List.getElem?_eq_getElem hi)⟩

theorem parent_addAll_of_lt {x : Nat} (hx : x ∉ listed ns) (hlt : x < t.size) :
    (t.addAll ns).parent x = t.parent x := by
  induction ns generalizing t with
  | nil => rfl
  | cons m ns ih =>
    simp only [listed, List.flatMap_cons, List.mem_append, not_or] at hx
    rw [addAll_cons, ih hx.2 (by rw [size_add]; omega), parent_add, if_neg (fun h => hx.1 h.1),
      if_neg (by omega)]

theorem parent_addAll_of_mem (hnodup : (listed ns).Nodup) (h : ns[i]? = .some n)
    {c : Nat} (hc : c ∈ n.kind.children) (hlt : c < t.size + i) :
    (t.addAll ns).parent c = .some (t.size + i) := by
  induction ns generalizing t i with
  | nil => simp at h
  | cons m ns ih =>
    rw [listed, List.flatMap_cons, List.nodup_append] at hnodup
    rw [addAll_cons]
    cases i with
    | zero =>
      obtain rfl : m = n := by simpa using h
      have hfree : c ∉ listed ns := fun hmem => hnodup.2.2 c hc c hmem rfl
      rw [parent_addAll_of_lt hfree (by rw [size_add]; omega), parent_add, if_pos ⟨hc, by omega⟩,
        Nat.add_zero]
    | succ i =>
      rw [ih hnodup.2.1 (by simpa using h) (by rw [size_add]; omega), size_add, Nat.add_assoc, Nat.add_comm 1]

/-- New nodes of which none is named twice. -/
theorem Separate.addAll {used : List Nat} (hused : ∀ c ∈ used, c < t.size)
    (hnodup : (listed ns).Nodup)
    (hchild : ∀ i n, ns[i]? = .some n → ∀ c : Nat, c ∈ n.kind.children →
      t.size ≤ c ∧ c < t.size + i ∨ c ∈ used) :
    Separate used t (t.addAll ns) := by
  have hnew : ∀ y : Nat, t.size ≤ y → y < (t.addAll ns).size → ∃ i n, y = t.size + i ∧ ns[i]? = .some n := by
    intro y hy hy'
    rw [size_addAll] at hy'
    have hi : y - t.size < ns.length := by omega
    exact ⟨y - t.size, ns[y - t.size], by omega, List.getElem?_eq_getElem hi⟩
  refine ⟨hused, fun y hy hfree => ?_, fun y hy hy' => ?_, fun y hy hy' c hc => ?_⟩
  · refine parent_addAll_of_lt (fun hmem => ?_) hy
    obtain ⟨n, hn, hyn⟩ := List.mem_flatMap.mp hmem
    obtain ⟨i, hi⟩ := List.mem_iff_getElem?.mp hn
    rcases hchild i n hi y hyn with h | h
    · omega
    · exact hfree h
  · obtain ⟨i, n, rfl, hi⟩ := hnew y hy hy'
    rw [Tree.children, (node_addAll hi).1]
    exact (List.nodup_flatMap.mp hnodup).1 n (List.mem_of_getElem? hi)
  · obtain ⟨i, n, rfl, hi⟩ := hnew y hy hy'
    rw [Tree.children, (node_addAll hi).1] at hc
    refine ⟨hchild i n hi c hc, parent_addAll_of_mem hnodup hi hc ?_⟩
    rcases hchild i n hi c hc with h | h
    · omega
    · have := hused c h
      omega

/-- A new node that none of the others names. -/
theorem parent_addAll_new (hi : ns[i]? = .some n) (hn : n.parent = .none)
    (hfree : t.size + i ∉ listed ns) : (t.addAll ns).parent (t.size + i) = .none := by
  induction ns generalizing t i with
  | nil => simp at hi
  | cons m ns ih =>
    simp only [listed, List.flatMap_cons, List.mem_append, not_or] at hfree
    rw [addAll_cons]
    cases i with
    | zero =>
      obtain rfl : m = n := by simpa using hi
      rw [parent_addAll_of_lt hfree.2 (by simp), parent_add, if_neg (fun h => hfree.1 h.1), if_pos (by simp), hn]
    | succ i =>
      have hshift : t.size + (i + 1) = (t.add m).size + i := by rw [size_add]; omega
      rw [hshift] at hfree ⊢
      exact ih (by simpa using hi) hfree.2

end Several

end Penumbra.Tree

namespace Penumbra.Build

open Tree

variable {t u u' : Tree} {R : Set Nat} {n x c : Nat} {xs cs : List Nat}

/-- Copying a node copies its children and adds a node for it. -/
theorem run_copyDown_succ (h : ((u.children x).mapM (copyDown n)).run u = (cs, u')) :
    (copyDown (n + 1) x).run u = (u'.size, u'.add
      { kind := (u.kind x).refill cs, scope := u.scope x, ty := u.ty x, span := u.span x }) := by
  simp only [copyDown, StateT.run_bind, StateT.run_get, pure_bind, Kind.mapM_eq_refill, StateT.run_map]
  simp only [kind, children] at h ⊢
  rw [h]
  refine congrArg (Prod.mk u'.size) ?_
  exact (congrArg (Tree.setSpan? · u'.size _) (setTy?_add ..)).trans (setSpan?_add ..)

theorem extends_list (hf : ∀ (x : Nat) (u : Tree) (c : Nat) (u' : Tree), (copyDown n x).run u = (c, u') →
      u.Extends u' ∧ u'.env = u.env)
    (h : (xs.mapM (copyDown n)).run u = (cs, u')) : u.Extends u' ∧ u'.env = u.env := by
  induction xs generalizing u cs with
  | nil =>
    obtain ⟨-, rfl⟩ := run_mapM_nil.mp h
    exact ⟨.refl u', rfl⟩
  | cons x xs ih =>
    obtain ⟨c, u₁, cs, h₁, h₂, -⟩ := run_mapM_cons.mp h
    obtain ⟨hext, henv⟩ := hf x u c u₁ h₁
    obtain ⟨hext', henv'⟩ := ih h₂
    exact ⟨hext.trans hext', henv'.trans henv⟩

theorem extends_copyDown (h : (copyDown n x).run u = (c, u')) : u.Extends u' ∧ u'.env = u.env := by
  induction n generalizing u u' x c with
  | zero =>
    cases h
    exact ⟨.refl u, rfl⟩
  | succ n ih =>
    obtain ⟨⟨cs, u₁⟩, hcs⟩ : ∃ r, ((u.children x).mapM (copyDown n)).run u = r := ⟨_, rfl⟩
    rw [run_copyDown_succ hcs] at h
    cases h
    obtain ⟨hext, henv⟩ := extends_list (fun _ _ _ _ => ih) hcs
    exact ⟨hext.trans (.add ..), by rw [env_add, henv]⟩

/-- A copy is new, unless nothing is copied at all. -/
theorem size_le_copyDown (h : (copyDown (n + 1) x).run u = (c, u')) : u.size ≤ c := by
  obtain ⟨⟨cs, u₁⟩, hcs⟩ : ∃ r, ((u.children x).mapM (copyDown n)).run u = r := ⟨_, rfl⟩
  rw [run_copyDown_succ hcs] at h
  cases h
  exact (extends_list (fun _ _ _ _ => extends_copyDown) hcs).1.size_le

theorem mirrored_list (htu : t.Extends u) (hxs : ∀ x ∈ xs, x ∈ R)
    (hf : ∀ x ∈ R, ∀ (u : Tree) (c : Nat) (u' : Tree), t.Extends u → (copyDown n x).run u = (c, u') →
      (c < t.size ∨ u.size ≤ c ∧ c < u'.size) ∧ ∃ φ, Mirrored t R u u' φ ∧ φ c = x)
    (h : (xs.mapM (copyDown n)).run u = (cs, u')) :
    (∀ c ∈ cs, c < t.size ∨ u.size ≤ c ∧ c < u'.size) ∧ ∃ φ, Mirrored t R u u' φ ∧ cs.map φ = xs := by
  induction xs generalizing u cs with
  | nil =>
    obtain ⟨rfl, rfl⟩ := run_mapM_nil.mp h
    exact ⟨by simp, _, .refl t R u', rfl⟩
  | cons x xs ih =>
    obtain ⟨c, u₁, cs, h₁, h₂, rfl⟩ := run_mapM_cons.mp h
    obtain ⟨hc, φ, hφ, hφc⟩ := hf x (hxs x (by simp)) u c u₁ htu h₁
    obtain ⟨hcs, ψ, hψ, hψcs⟩ := ih (htu.trans hφ.grows) (fun x hx => hxs x (by simp [hx])) h₂
    have hle := hφ.grows.size_le
    have hle' := hψ.grows.size_le
    have hlet := htu.size_le
    refine ⟨fun d hd => ?_, _, hφ.trans hψ htu.size_le, ?_⟩
    · rcases List.mem_cons.mp hd with rfl | hd
      · omega
      · have := hcs d hd; omega
    · have hrest : cs.map (Mirrored.glue u₁.size φ ψ) = cs.map ψ := by
        refine List.map_congr_left fun d hd => ?_
        rcases hcs d hd with hd | hd
        · rw [Mirrored.glue_low (by omega), hφ.old d (by omega), hψ.old d (by omega)]
        · exact Mirrored.glue_high hd.1
      rw [List.map_cons, hrest, hψcs, Mirrored.glue_low (by omega), hφc]

/-- What a copy mirrors. -/
theorem mirrored (hR : ∀ x ∈ R, ∀ c ∈ t.children x, c ∈ R) (hb : ∀ x ∈ R, x < t.size) (htu : t.Extends u)
    (hx : x ∈ R) (h : (copyDown n x).run u = (c, u')) :
    (c < t.size ∨ u.size ≤ c ∧ c < u'.size) ∧ ∃ φ, Mirrored t R u u' φ ∧ φ c = x := by
  induction n generalizing u u' x c with
  | zero =>
    cases h
    exact ⟨.inl (hb x hx), _, .refl t R u, rfl⟩
  | succ n ih =>
    obtain ⟨⟨cs, u₁⟩, hcs⟩ : ∃ r, ((u.children x).mapM (copyDown n)).run u = r := ⟨_, rfl⟩
    rw [run_copyDown_succ hcs] at h
    cases h
    rw [htu.children (hb x hx)] at hcs
    obtain ⟨hnew, φ, hφ, hmap⟩ := mirrored_list htu (hR x hx) (fun x hx u c u' htu => ih htu hx) hcs
    rw [htu.kind x (hb x hx), htu.scope x (hb x hx), htu.ty x (hb x hx), htu.span x (hb x hx)]
    refine ⟨.inr ?_, _, hφ.add htu.size_le hx hmap hnew, Mirrored.glue_high le_rfl⟩
    have := hφ.grows.size_le
    rw [size_add]
    omega

theorem separate_list (htu : t.Extends u)
    (hf : ∀ x ∈ xs, ∀ (u : Tree) (c : Nat) (u' : Tree), t.Extends u → (copyDown n x).run u = (c, u') →
      u.Extends u' ∧ Separate [] u u' ∧ u.size ≤ c ∧ c < u'.size ∧ u'.parent c = .none)
    (h : (xs.mapM (copyDown n)).run u = (cs, u')) :
    u.Extends u' ∧ Separate [] u u' ∧ cs.length = xs.length ∧ cs.Pairwise (· < ·) ∧
      ∀ c ∈ cs, u.size ≤ c ∧ c < u'.size ∧ u'.parent c = .none := by
  induction xs generalizing u cs with
  | nil =>
    obtain ⟨rfl, rfl⟩ := run_mapM_nil.mp h
    exact ⟨.refl u', .refl u', rfl, .nil, by simp⟩
  | cons x xs ih =>
    obtain ⟨c, u₁, cs, h₁, h₂, rfl⟩ := run_mapM_cons.mp h
    obtain ⟨hext, hsep, hc, hc', hp⟩ := hf x (by simp) u c u₁ htu h₁
    obtain ⟨hext', hsep', hlen, hpair, hcs⟩ := ih (htu.trans hext) (fun x hx => hf x (by simp [hx])) h₂
    have hle := hext.size_le
    have hle' := hext'.size_le
    refine ⟨hext.trans hext', hsep.trans hsep' hle hext' (by simp), by simp [hlen],
      .cons (fun d hd => ?_) hpair, fun d hd => ?_⟩
    · have := hcs d hd
      omega
    · rcases List.mem_cons.mp hd with rfl | hd
      · exact ⟨hc, by omega, (hsep'.parent d hc' (by simp)).trans hp⟩
      · obtain ⟨hd, hd', hp⟩ := hcs d hd
        exact ⟨by omega, hd', hp⟩

/-- A copy that met no bound is a tree of its own. -/
theorem separate (hb : ∀ y : Nat, t.Reaches x y → y < t.size) (htu : t.Extends u) (hx : t.EndsWithin n x)
    (h : (copyDown n x).run u = (c, u')) :
    u.Extends u' ∧ Separate [] u u' ∧ u.size ≤ c ∧ c < u'.size ∧ u'.parent c = .none := by
  induction n generalizing u u' x c with
  | zero => exact hx.elim
  | succ n ih =>
    obtain ⟨⟨cs, u₁⟩, hcs⟩ : ∃ r, ((u.children x).mapM (copyDown n)).run u = r := ⟨_, rfl⟩
    rw [run_copyDown_succ hcs] at h
    cases h
    have hxt := hb x (.refl t x)
    rw [htu.children hxt] at hcs
    obtain ⟨hext, hsep, hlen, hpair, hnew⟩ := separate_list htu
      (fun d hd u c u' htu => ih (fun y hy => hb y (.head hd hy)) htu (hx d hd)) hcs
    have hle := hext.size_le
    have hkids : ((u.kind x).refill cs).children = cs :=
      Kind.children_refill _ (hlen.trans (by rw [← htu.children hxt]; rfl))
    refine ⟨hext.trans (.add ..), hsep.add hle ?_ (fun c hc => ?_), hle, by simp, ?_⟩
    · rw [hkids]
      exact hpair.imp Nat.ne_of_lt
    · exact hnew c (hkids ▸ hc)
    · rw [parent_add, if_neg, if_pos rfl]
      rintro ⟨hmem, -⟩
      rw [hkids] at hmem
      have := (hnew _ hmem).2.1
      omega

end Penumbra.Build
