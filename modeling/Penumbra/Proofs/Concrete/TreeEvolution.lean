/-
What making a program concrete does to a tree, whatever the tree looks like.

Identifiers may get another token and chains another operand (`Recast`). The
nodes added name only each other, and an old node names what it named before
or nodes added (`Evolves`). A run of `concreteDown` comes to an end only where
child lists do, so afterwards all it went through is grounded
(`Concreted.grounded`), and the program has no circles (`Concreted.acyclic`).
-/
import Penumbra.Proofs.Concrete.NodeChange
import Penumbra.Proofs.Lower.VisitorShapes

namespace Penumbra

/-- How making a node concrete changes a kind. -/
inductive Kind.Recast {α : Type} : Kind α → Kind α → Prop where
  | same (k) : Recast k k
  | ident (a b) : Recast (.ident a) (.ident b)
  | factor (o l o' l') : Recast (.factor o l) (.factor o' l')

theorem Kind.Recast.trans {α : Type} {k k' k'' : Kind α} (h : Recast k k') (h' : Recast k' k'') :
    Recast k k'' := by
  cases h with
  | same => exact h'
  | ident a b =>
    cases h' with
    | same => exact .ident a b
    | ident => exact .ident ..
  | factor =>
    cases h' with
    | same => exact .factor ..
    | factor => exact .factor ..

/-- Other kinds stay as they are. -/
theorem Kind.Recast.eq_of {α : Type} {k k' : Kind α} (h : Recast k k') (hi : ∀ token, k ≠ .ident token)
    (hf : ∀ operand steps, k ≠ .factor operand steps) : k' = k := by
  cases h with
  | same => rfl
  | ident a => exact absurd rfl (hi a)
  | factor o l => exact absurd rfl (hf o l)

namespace Tree

variable {t t' t'' : Tree} {S : Set Nat} {x y : Nat}

/-! ## Grounded nodes -/

/-- Every way down from the node comes to an end. -/
def Grounded (t : Tree) (x : NodeId) : Prop := Acc (fun c p => t.Child p c) x

theorem Grounded.intro (h : ∀ c ∈ t.children x, t.Grounded c) : t.Grounded x :=
  Acc.intro x h

theorem Grounded.child (h : t.Grounded x) {c : Nat} (hc : c ∈ t.children x) : t.Grounded c :=
  Acc.inv h hc

theorem Grounded.reaches (h : t.Grounded x) (hxy : t.Reaches x y) : t.Grounded y := by
  induction hxy with
  | refl => exact h
  | tail _ hc ih => exact ih.child hc

theorem Grounded.noCircle (h : t.Grounded x) : ¬ Relation.TransGen t.Child x x := by
  induction h with
  | intro x _ ih =>
    intro hx
    obtain ⟨c, hc, hcx⟩ := Relation.TransGen.head'_iff.mp hx
    exact ih c hc (.tail' hcx hc)

/-- What is not in the tree has no children. -/
theorem grounded_of_size_le (h : t.size ≤ x) : t.Grounded x :=
  .intro fun c hc => by
    rw [Tree.children, Tree.kind, node_of_size_le h] at hc
    simp [Node.blank, Kind.children] at hc

theorem Acyclic.of_closed (hS : t.Closed S) (hroot : root ∈ S) (hg : t.Grounded root) : t.Acyclic where
  bounded x hx := hS.bounded x (hS.reaches hroot hx)
  noCircle _ hx := (hg.reaches hx).noCircle

/-! ## Evolving trees -/

/-- A change after which old nodes name what they named before and new nodes,
and new nodes name new nodes only. -/
structure Evolves (t t' : Tree) : Prop where
  size_le : t.size ≤ t'.size
  kind : ∀ x : Nat, x < t.size → (t.kind x).Recast (t'.kind x)
  child : ∀ x : Nat, x < t.size → ∀ c ∈ t'.children x, c ∈ t.children x ∨ c ∈ fresh t t'
  grounded : ∀ y ∈ fresh t t', t'.Grounded y
  new : ∀ y ∈ fresh t t', t'.isVisitor y = false ∧ ∀ c ∈ t'.children y, c ∈ fresh t t'

theorem Evolves.refl (t : Tree) : t.Evolves t where
  size_le := le_rfl
  kind _ _ := .same _
  child _ _ _ hc := .inl hc
  grounded y hy := absurd hy (by simp [fresh_self])
  new y hy := absurd hy (by simp [fresh_self])

theorem Evolves.keepsGrounded (h : t.Evolves t') (hx : t.Grounded x) : t'.Grounded x := by
  induction hx with
  | intro x _ ih =>
    rcases Nat.lt_or_ge x t.size with hlt | hge
    · refine .intro fun c hc => ?_
      rcases h.child x hlt c hc with hc | hc
      · exact ih c hc
      · exact h.grounded c hc
    · rcases Nat.lt_or_ge x t'.size with hlt | hge'
      · exact h.grounded x ⟨hge, hlt⟩
      · exact grounded_of_size_le hge'

theorem Evolves.isVisitor (h : t.Evolves t') (hx : x < t.size) : t'.isVisitor x = t.isVisitor x := by
  have hk := h.kind x hx
  unfold Tree.isVisitor
  generalize t.kind x = k at hk
  generalize t'.kind x = k' at hk
  cases hk <;> rfl

theorem Evolves.trans (h : t.Evolves t') (h' : t'.Evolves t'') : t.Evolves t'' := by
  have hfresh := fresh_trans h.size_le h'.size_le
  refine ⟨h.size_le.trans h'.size_le, fun x hx => (h.kind x hx).trans (h'.kind x (hx.trans_le h.size_le)),
    fun x hx c hc => ?_, fun y hy => ?_, fun y hy => ?_⟩
  · rw [hfresh]
    rcases h'.child x (hx.trans_le h.size_le) c hc with hc | hc
    · exact (h.child x hx c hc).imp_right .inl
    · exact .inr (.inr hc)
  · rw [hfresh] at hy
    rcases hy with hy | hy
    · exact h'.keepsGrounded (h.grounded y hy)
    · exact h'.grounded y hy
  · rw [hfresh] at hy ⊢
    rcases hy with hy | hy
    · refine ⟨(h'.isVisitor hy.2).trans (h.new y hy).1, fun c hc => ?_⟩
      rcases h'.child y hy.2 c hc with hc | hc
      · exact .inl ((h.new y hy).2 c hc)
      · exact .inr hc
    · exact ⟨(h'.new y hy).1, fun c hc => .inr ((h'.new y hy).2 c hc)⟩

theorem Evolves.closed (h : t.Evolves t') (hS : t.Closed S) : t'.Closed (S ∪ fresh t t') := by
  refine ⟨fun x hx => ?_, fun x hx c hc => ?_⟩
  · rcases hx with hx | hx
    · exact (hS.bounded x hx).trans_le h.size_le
    · exact hx.2
  · rcases hx with hx | hx
    · exact (h.child x (hS.bounded x hx) c hc).imp_left (hS.child x hx c)
    · exact .inr ((h.new x hx).2 c hc)

/-- An old node that a node names was named by it before. -/
theorem Evolves.child_of_lt {y c : Nat} (h : t.Evolves t') (hc : c < t.size) (hmem : c ∈ t'.children y) :
    y < t.size ∧ c ∈ t.children y := by
  rcases Nat.lt_or_ge y t.size with hlt | hge
  · exact ⟨hlt, (h.child y hlt c hmem).resolve_right fun hnew => absurd hnew.1 (by omega)⟩
  · have hnew := (h.new y ⟨hge, lt_size_of_mem_children hmem⟩).2 c hmem
    exact absurd hnew.1 (by omega)

/-- No arm loses its binder. -/
theorem Evolves.binds (h : t.Evolves t') (hb : t.Binds x) : t'.Binds x := by
  obtain ⟨p, c, body, name, ascription, hx, hc⟩ := hb
  have hx' := (hx ▸ h.kind x (lt_size_of_kind hx (by simp))).eq_of (by simp) (by simp)
  have hc' := (hc ▸ h.kind c (lt_size_of_kind hc (by simp))).eq_of (by simp) (by simp)
  exact ⟨p, c, body, name, ascription, hx', hc'⟩

theorem Evolves.shaped (h : t.Evolves t') (hS : t.Closed S) (hshape : ShapedIn t S) :
    ShapedIn t' (S ∪ fresh t t') := by
  intro x hx arms wildcard hk a ha
  have hv : t'.isVisitor x = true := isVisitor_iff.mpr ⟨arms, wildcard, hk⟩
  rcases hx with hx | hx
  · have hxt := hS.bounded x hx
    rw [h.isVisitor hxt] at hv
    obtain ⟨arms', wildcard', hk'⟩ := isVisitor_iff.mp hv
    have hsame := (hk' ▸ h.kind x hxt).eq_of (by simp) (by simp)
    obtain ⟨rfl, -⟩ := Kind.visitor.inj (hk.symm.trans hsame)
    exact h.binds (hshape x hx arms wildcard' hk' a ha)
  · rw [(h.new x hx).1] at hv
    cases hv

end Tree

/-! ## One node -/

section Node

variable {t t' : Tree} {x : Nat}

open Tree

/-- New nodes that come after their children are grounded. -/
theorem Tree.grounded_of_descending (h : ∀ y ∈ fresh t t', ∀ c : Nat, c ∈ t'.children y → t.size ≤ c ∧ c < y) :
    ∀ y ∈ fresh t t', t'.Grounded y := by
  intro y
  induction y using Nat.strongRecOn with
  | _ y ih =>
    intro hy
    refine .intro fun c hc => ?_
    obtain ⟨hle, hlt⟩ := h y hy c hc
    exact ih c hlt ⟨hle, hlt.trans hy.2⟩

section Accessed

variable (t x) (s : Shadow Ty) (field : VirtualField Ty) (var : String) (rest : List NodeId)

theorem Tree.size_accessed : (t.accessed x s field var rest).size = t.size + (t.accessNodes x s field var).length := by
  simp [accessed]

theorem Tree.kind_accessed (y : Nat) (hx : x < t.size) :
    (t.accessed x s field var rest).kind y =
      if y = x then .factor (t.parenId x s field var) rest else (t.addAll (t.accessNodes x s field var)).kind y := by
  have hx' : x < t.size + (t.accessNodes x s field var).length := by omega
  simp [accessed, kind_setKind, hx']

theorem Tree.parenId_fresh : t.parenId x s field var ∈ fresh t (t.accessed x s field var rest) := by
  rw [fresh, Set.mem_ofPred_eq, size_accessed, accessNodes, List.length_append, parenId]
  simp only [List.length_singleton]
  omega

theorem Tree.evolves_accessed {operand first : NodeId} (hk : t.kind x = .factor operand (first :: rest)) :
    t.Evolves (t.accessed x s field var rest) := by
  have hx : x < t.size := lt_size_of_kind hk (by simp)
  have hext := Extends.addAll t (t.accessNodes x s field var)
  -- what is added looks the same before and after the chain takes it over
  have hnew : ∀ y ∈ fresh t (t.accessed x s field var rest), ∃ m i, (t.accessNodes x s field var)[i]? = .some m ∧
      y = t.size + i ∧ (t.accessed x s field var rest).kind y = m.kind := by
    intro y hy
    have hlt := hy.2
    rw [size_accessed] at hlt
    obtain ⟨i, rfl⟩ := Nat.exists_eq_add_of_le hy.1
    have hi := List.getElem?_eq_getElem (l := t.accessNodes x s field var) (i := i) (by omega)
    refine ⟨_, i, hi, rfl, ?_⟩
    rw [kind_accessed t x s field var rest _ hx, if_neg (by omega), (node_addAll hi).1]
  have hdesc : ∀ y ∈ fresh t (t.accessed x s field var rest), ∀ c : Nat,
      c ∈ (t.accessed x s field var rest).children y → t.size ≤ c ∧ c < y := by
    intro y hy c hc
    obtain ⟨m, i, hi, rfl, hkind⟩ := hnew y hy
    rw [Tree.children, hkind] at hc
    exact children_accessNodes hi hc
  refine ⟨?_, fun y hy => ?_, fun y hy c hc => ?_, grounded_of_descending hdesc, fun y hy => ⟨?_, fun c hc => ?_⟩⟩
  · rw [size_accessed]
    omega
  · rw [kind_accessed t x s field var rest y hx]
    split
    next hyx => rw [hyx, hk]; exact .factor ..
    next => rw [hext.kind y hy]; exact .same _
  · rw [Tree.children, kind_accessed t x s field var rest y hx] at hc
    split at hc
    next hyx =>
      rw [hyx, Tree.children, hk]
      rcases List.mem_cons.mp hc with rfl | hc
      · exact .inr (parenId_fresh ..)
      · exact .inl (by simp [Kind.children, hc])
    next => exact .inl (hext.children hy ▸ hc)
  · obtain ⟨m, i, hi, rfl, hkind⟩ := hnew y hy
    have hm := (mem_accessNodes (List.mem_of_getElem? hi)).2
    rw [Tree.isVisitor, hkind]
    rcases hm with ⟨hm, -⟩ | ⟨-, _, -, hm | ⟨_, hm⟩⟩ | ⟨-, _, hm⟩ | ⟨-, _, hm⟩ | ⟨-, ⟨_, hm⟩ | ⟨_, hm⟩⟩ <;> rw [hm]
  · obtain ⟨hle, hlt⟩ := hdesc y hy c hc
    exact ⟨hle, hlt.trans hy.2⟩

end Accessed

/-- Nodes are neither added nor do child lists change. -/
theorem Tree.Evolves.of_kind (hsize : t'.size = t.size) (hkind : ∀ y, (t.kind y).Recast (t'.kind y))
    (hchild : ∀ y, t'.children y = t.children y) : t.Evolves t' := by
  have hnone : ∀ y, y ∉ fresh t t' := fun y hy => absurd hy.2 (by have := hy.1; omega)
  exact ⟨hsize.ge, fun y _ => hkind y, fun y _ c hc => .inl (hchild y ▸ hc), fun y hy => absurd hy (hnone y),
    fun y hy => absurd hy (hnone y)⟩

theorem Tree.size_redeclared (x name : NodeId) (ascription : Option NodeId) (s : Shadow Ty) (token : String) :
    (t.redeclared x name ascription s token).size = t.size := by
  cases ascription <;> simp [redeclared, reascribed, setTy]

theorem Tree.kind_redeclared (x name : NodeId) (ascription : Option NodeId) (s : Shadow Ty) (token : String)
    (y : Nat) : (t.redeclared x name ascription s token).kind y = (t.reascribed ascription s).kind y := by
  simp [redeclared, setTy]

theorem Tree.kind_reascribed (ascription : Option NodeId) (s : Shadow Ty) (y : Nat) :
    (t.reascribed ascription s).kind y =
      if ascription = .some y ∧ y < t.size then .ident s.shadowedName else t.kind y := by
  cases ascription with
  | none => simp [reascribed]
  | some a =>
    simp only [reascribed, setTy, kind_setTy?, kind_setKind, Option.some.injEq]
    by_cases h : y = a
    · subst h; simp
    · simp [h, Ne.symm h]

theorem Tree.evolves_redeclared {name : NodeId} {ascription : Option NodeId} (s : Shadow Ty) (token : String)
    (hw : ∀ a ∈ ascription, ∃ old, t.kind a = .ident old) : t.Evolves (t.redeclared x name ascription s token) := by
  have hkind : ∀ y, (t.kind y).Recast ((t.redeclared x name ascription s token).kind y) ∧
      (t.redeclared x name ascription s token).children y = t.children y := by
    intro y
    rw [Tree.children, Tree.children, kind_redeclared, kind_reascribed]
    split
    next h =>
      obtain ⟨old, hold⟩ := hw y h.1
      rw [hold]
      exact ⟨.ident .., rfl⟩
    next => exact ⟨.same _, rfl⟩
  exact .of_kind (size_redeclared ..) (fun y => (hkind y).1) fun y => (hkind y).2

theorem NodeConcrete.evolves (h : NodeConcrete x t t') : t.Evolves t' := by
  cases h with
  | plain => exact .refl t
  | access kind => exact evolves_accessed t x _ _ _ _ kind
  | declaration _ written => exact evolves_redeclared _ _ written
  | identifier =>
    refine .of_kind (by simp [setTy]) (fun y => ?_) fun y => ?_
    · rw [setTy, kind_setTy?]
      exact .same _
    · rw [Tree.children, setTy, kind_setTy?]
      rfl

end Node

/-! ## All below a node -/

section Below

variable {t t' : Tree} {S : Set Nat} {n x : Nat} {l : List Nat}

open Tree

theorem Chain.evolves {R : Nat → Tree → Tree → Prop} (hR : ∀ x t t', R x t t' → t.Evolves t' ∧ t'.Grounded x)
    (h : Chain R l t t') : t.Evolves t' ∧ ∀ x ∈ l, t'.Grounded x := by
  induction h with
  | nil => exact ⟨.refl _, by simp⟩
  | cons first rest ih =>
    obtain ⟨hev, hg⟩ := hR _ _ _ first
    refine ⟨hev.trans ih.1, fun y hy => ?_⟩
    rcases List.mem_cons.mp hy with rfl | hy
    · exact ih.1.keepsGrounded hg
    · exact ih.2 y hy

theorem Concreted.evolves_grounded (h : Concreted n x t t') : t.Evolves t' ∧ t'.Grounded x := by
  induction n generalizing x t t' with
  | zero => exact h.elim
  | succ n ih =>
    obtain ⟨t₁, hnode, hbelow⟩ := h
    obtain ⟨hev, hg⟩ := hbelow.evolves fun _ _ _ h => ih h
    refine ⟨hnode.evolves.trans hev, ?_⟩
    rcases Nat.lt_or_ge x t₁.size with hlt | hge
    · refine .intro fun c hc => ?_
      rcases hev.child x hlt c hc with hc | hc
      · exact hg c hc
      · exact hev.grounded c hc
    · exact hev.keepsGrounded (grounded_of_size_le hge)

theorem Concreted.evolves (h : Concreted n x t t') : t.Evolves t' := h.evolves_grounded.1

theorem Concreted.grounded (h : Concreted n x t t') : t'.Grounded x := h.evolves_grounded.2

theorem Concreted.acyclic (h : Concreted n root t t') (hS : t.Closed S) (hroot : root ∈ S) : t'.Acyclic :=
  .of_closed (h.evolves.closed hS) (.inl hroot) h.grounded

end Below

end Penumbra
