/-
What reading a tree answers after a write.

Every write but one changes a node that is there. The other, `add`, puts a
complete node behind the last and makes it the parent of its children; the
builders come down to it (`run_alloc`, `run_typed`), and so does copying. A
builder is taken apart along its steps with the equivalences at the end.
-/
import Penumbra.Tree.Build
import Mathlib.Data.List.Basic

namespace Penumbra.Tree

variable {t t' : Tree} {id x : Nat}

theorem node_of_size_le (h : t.size ≤ x) : t.node x = .blank := by
  simp [node, Array.getD, size] at *
  omega

theorem lt_size_of_kind {k : Kind NodeId} (h : t.kind x = k) (hk : k ≠ .literal (.bool false)) : x < t.size := by
  by_contra hge
  rw [Tree.kind, node_of_size_le (by omega)] at h
  exact hk h.symm

theorem lt_size_of_stmts? {l : List NodeId} (h : t.stmts? x = .some l) : x < t.size := by
  by_contra hge
  rw [Tree.stmts?, Tree.kind, node_of_size_le (by omega)] at h
  cases h

theorem lt_size_of_mem_children {c : NodeId} (h : c ∈ t.children x) : x < t.size := by
  by_contra hge
  rw [Tree.children, Tree.kind, node_of_size_le (by omega)] at h
  cases h

section Children

variable {arms : List NodeId} {wildcard : Option NodeId} {binder : Option NodeId} {p : Phase} {a b c n : Nat}

theorem arm_mem_children (h : t.kind x = .visitor arms wildcard) (ha : a ∈ arms) : a ∈ t.children x := by
  rw [children, h]
  exact List.mem_append_left _ ha

theorem wildcard_mem_children (h : t.kind x = .visitor arms (.some a)) : a ∈ t.children x := by
  rw [children, h]
  exact List.mem_append_right _ (by simp)

theorem binder_mem_children (h : t.kind x = .arm p (.some c) b) : c ∈ t.children x := by
  rw [children, h]
  exact List.mem_cons_self

theorem body_mem_children (h : t.kind x = .arm p binder b) : b ∈ t.children x := by
  rw [children, h]
  exact List.mem_append_right _ (by simp)

theorem name_mem_children (h : t.kind x = .component n a) : n ∈ t.children x := by
  rw [children, h]
  exact List.mem_cons_self

theorem ascription_mem_children (h : t.kind x = .component n a) : a ∈ t.children x := by
  rw [children, h]
  exact List.mem_cons_of_mem _ List.mem_cons_self

end Children

/-- Trees with the same nodes are the same. -/
theorem ext_node (huri : t.uri = t'.uri) (henv : t.env = t'.env) (hsize : t.size = t'.size)
    (hnode : ∀ x < t.size, t.node x = t'.node x) : t = t' := by
  obtain ⟨uri, env, nodes⟩ := t
  obtain ⟨uri', env', nodes'⟩ := t'
  simp only [size] at *
  subst huri henv
  congr
  refine Array.ext hsize fun i hi hi' => ?_
  have := hnode i hi
  simpa [node, Array.getD, hi, hi'] using this

/-! ## Changing a node -/

@[simp] theorem size_update (f : Node → Node) : (t.update id f).size = t.size := by
  simp [update, size]

@[simp] theorem env_update (f : Node → Node) : (t.update id f).env = t.env := rfl

@[simp] theorem uri_update (f : Node → Node) : (t.update id f).uri = t.uri := rfl

theorem node_update (f : Node → Node) :
    (t.update id f).node x = if x = id ∧ id < t.size then f (t.node x) else t.node x := by
  by_cases hid : id = x
  · subst hid
    by_cases h : id < t.nodes.size <;>
      simp [update, node, Array.getD, size, h, Array.getElem_modify]
  · have hne : x ≠ id := fun h => hid h.symm
    simp [update, node, Array.getD, Array.getElem_modify, hid, hne]

/-- A part of nodes that `f` leaves alone is the same everywhere afterwards. -/
theorem part_update {α : Type} (part : Node → α) {f : Node → Node} (h : ∀ n, part (f n) = part n) :
    part ((t.update id f).node x) = part (t.node x) := by
  rw [node_update]
  split
  · exact h _
  · rfl

section Writes

variable (t : Tree) (id p x : Nat) (k : Kind NodeId) (ty : Option Ty) (sp : Option Span)

@[simp] theorem size_setKind : (t.setKind id k).size = t.size := size_update _
@[simp] theorem env_setKind : (t.setKind id k).env = t.env := rfl
@[simp] theorem uri_setKind : (t.setKind id k).uri = t.uri := rfl
@[simp] theorem scope_setKind : (t.setKind id k).scope x = t.scope x := part_update (·.scope) fun _ => rfl
@[simp] theorem ty_setKind : (t.setKind id k).ty x = t.ty x := part_update (·.ty) fun _ => rfl
@[simp] theorem span_setKind : (t.setKind id k).span x = t.span x := part_update (·.span) fun _ => rfl
@[simp] theorem parent_setKind : (t.setKind id k).parent x = t.parent x :=
  part_update (·.parent) fun _ => rfl

@[simp] theorem size_setParent : (t.setParent id p).size = t.size := size_update _
@[simp] theorem env_setParent : (t.setParent id p).env = t.env := rfl
@[simp] theorem uri_setParent : (t.setParent id p).uri = t.uri := rfl
@[simp] theorem kind_setParent : (t.setParent id p).kind x = t.kind x := part_update (·.kind) fun _ => rfl
@[simp] theorem scope_setParent : (t.setParent id p).scope x = t.scope x :=
  part_update (·.scope) fun _ => rfl
@[simp] theorem ty_setParent : (t.setParent id p).ty x = t.ty x := part_update (·.ty) fun _ => rfl
@[simp] theorem span_setParent : (t.setParent id p).span x = t.span x := part_update (·.span) fun _ => rfl

@[simp] theorem size_setTy? : (t.setTy? id ty).size = t.size := size_update _
@[simp] theorem env_setTy? : (t.setTy? id ty).env = t.env := rfl
@[simp] theorem uri_setTy? : (t.setTy? id ty).uri = t.uri := rfl
@[simp] theorem kind_setTy? : (t.setTy? id ty).kind x = t.kind x := part_update (·.kind) fun _ => rfl
@[simp] theorem scope_setTy? : (t.setTy? id ty).scope x = t.scope x := part_update (·.scope) fun _ => rfl
@[simp] theorem span_setTy? : (t.setTy? id ty).span x = t.span x := part_update (·.span) fun _ => rfl
@[simp] theorem parent_setTy? : (t.setTy? id ty).parent x = t.parent x :=
  part_update (·.parent) fun _ => rfl

theorem kind_setKind :
    (t.setKind id k).kind x = if x = id ∧ id < t.size then k else t.kind x := by
  simp only [setKind, kind, node_update]
  split <;> rfl

theorem parent_setParent :
    (t.setParent id p).parent x = if x = id ∧ id < t.size then .some p else t.parent x := by
  simp only [setParent, parent, node_update]
  split <;> rfl

theorem ty_setTy? :
    (t.setTy? id ty).ty x = if x = id ∧ id < t.size then ty else t.ty x := by
  simp only [setTy?, Tree.ty, node_update]
  split <;> rfl

section Env

variable (f : Env → Env)

@[simp] theorem size_modifyEnv : (t.modifyEnv f).size = t.size := rfl
@[simp] theorem env_modifyEnv : (t.modifyEnv f).env = f t.env := rfl
@[simp] theorem kind_modifyEnv : (t.modifyEnv f).kind x = t.kind x := rfl
@[simp] theorem parent_modifyEnv : (t.modifyEnv f).parent x = t.parent x := rfl
@[simp] theorem scope_modifyEnv : (t.modifyEnv f).scope x = t.scope x := rfl
@[simp] theorem ty_modifyEnv : (t.modifyEnv f).ty x = t.ty x := rfl
@[simp] theorem span_modifyEnv : (t.modifyEnv f).span x = t.span x := rfl

end Env

end Writes

/-! ## Becoming the parent of several nodes -/

section Adopt

variable (t : Tree) (p x : Nat) (ns : List NodeId)

@[simp] theorem size_adopt : (t.adopt p ns).size = t.size := by
  induction ns generalizing t with
  | nil => rfl
  | cons n ns ih => exact (ih (t.setParent n p)).trans (size_setParent ..)

@[simp] theorem env_adopt : (t.adopt p ns).env = t.env := by
  induction ns generalizing t with
  | nil => rfl
  | cons n ns ih => exact ih (t.setParent n p)

@[simp] theorem uri_adopt : (t.adopt p ns).uri = t.uri := by
  induction ns generalizing t with
  | nil => rfl
  | cons n ns ih => exact ih (t.setParent n p)

theorem node_adopt :
    (t.adopt p ns).node x =
      if x ∈ ns ∧ x < t.size then { t.node x with parent := .some p } else t.node x := by
  induction ns generalizing t with
  | nil => simp [adopt]
  | cons n ns ih =>
    have h := ih (t.setParent n p)
    simp only [size_setParent] at h
    refine h.trans ?_
    simp only [setParent, node_update, List.mem_cons]
    by_cases hx : x < t.size
    · by_cases hn : x = n <;> by_cases hm : x ∈ ns <;> simp [hn, hm, hx]
      · subst hn; simp [hx]
      · subst hn; simp [hx]
    · have hn : ¬ (x = n ∧ n < t.size) := fun h => hx (h.1 ▸ h.2)
      simp [hx, hn]

@[simp] theorem kind_adopt : (t.adopt p ns).kind x = t.kind x := by
  simp only [kind, node_adopt]; split <;> rfl

@[simp] theorem scope_adopt : (t.adopt p ns).scope x = t.scope x := by
  simp only [scope, node_adopt]; split <;> rfl

@[simp] theorem ty_adopt : (t.adopt p ns).ty x = t.ty x := by
  simp only [ty, node_adopt]; split <;> rfl

@[simp] theorem span_adopt : (t.adopt p ns).span x = t.span x := by
  simp only [span, node_adopt]; split <;> rfl

theorem parent_adopt :
    (t.adopt p ns).parent x = if x ∈ ns ∧ x < t.size then .some p else t.parent x := by
  simp only [parent, node_adopt]; split <;> rfl

end Adopt

/-! ## Adding a node -/

/-- Puts a node behind the last and makes it the parent of its children. -/
def add (t : Tree) (n : Node) : Tree :=
  adopt { t with nodes := t.nodes.push n } t.size n.kind.children

section Add

variable (t : Tree) (n : Node) (x : Nat)

theorem node_push :
    ({ t with nodes := t.nodes.push n } : Tree).node x = if x = t.size then n else t.node x := by
  simp only [node, size, Array.getD, Array.size_push]
  by_cases h : x = t.nodes.size
  · simp [h]
  · by_cases hx : x < t.nodes.size
    · have : x < t.nodes.size + 1 := by omega
      simp [h, hx, this, Array.getElem_push]
    · have : ¬ x < t.nodes.size + 1 := by omega
      simp [h, hx, this]

@[simp] theorem size_add : (t.add n).size = t.size + 1 := by
  rw [add, size_adopt]
  simp [size]

@[simp] theorem env_add : (t.add n).env = t.env := by
  simp [add]

@[simp] theorem uri_add : (t.add n).uri = t.uri := by
  simp [add]

theorem kind_add : (t.add n).kind x = if x = t.size then n.kind else t.kind x := by
  simp only [add, kind_adopt]
  simp only [kind, node_push]; split <;> rfl

theorem scope_add : (t.add n).scope x = if x = t.size then n.scope else t.scope x := by
  simp only [add, scope_adopt]
  simp only [scope, node_push]; split <;> rfl

theorem ty_add : (t.add n).ty x = if x = t.size then n.ty else t.ty x := by
  simp only [add, ty_adopt]
  simp only [ty, node_push]; split <;> rfl

theorem span_add : (t.add n).span x = if x = t.size then n.span else t.span x := by
  simp only [add, span_adopt]
  simp only [span, node_push]; split <;> rfl

theorem parent_add :
    (t.add n).parent x =
      if x ∈ n.kind.children ∧ x ≤ t.size then .some t.size
      else if x = t.size then n.parent else t.parent x := by
  have hsize : ({ t with nodes := t.nodes.push n } : Tree).size = t.size + 1 := by simp [size]
  simp only [add, parent_adopt, hsize, Nat.lt_succ_iff]
  congr 1
  simp only [parent, node_push]; split <;> rfl

end Add

/-- Puts nodes behind the last, one after the other. -/
def addAll (t : Tree) (ns : List Node) : Tree := ns.foldl add t

/-- All children that the nodes name. -/
def listed (ns : List Node) : List Nat := ns.flatMap (·.kind.children)

section AddAll

variable (t : Tree) (n : Node) (ns ms : List Node)

theorem addAll_cons : t.addAll (n :: ns) = (t.add n).addAll ns := rfl

theorem addAll_append : t.addAll (ns ++ ms) = (t.addAll ns).addAll ms := List.foldl_append

theorem addAll_snoc : t.addAll (ns ++ [n]) = (t.addAll ns).add n := addAll_append t ns [n]

@[simp] theorem size_addAll : (t.addAll ns).size = t.size + ns.length := by
  induction ns generalizing t with
  | nil => rfl
  | cons n ns ih => rw [addAll_cons, ih, size_add, List.length_cons]; omega

@[simp] theorem env_addAll : (t.addAll ns).env = t.env := by
  induction ns generalizing t with
  | nil => rfl
  | cons n ns ih => rw [addAll_cons, ih, env_add]

end AddAll

end Penumbra.Tree

namespace Penumbra.Build

open Tree

variable (t : Tree) (k : Kind NodeId) (s : ScopeId)

theorem run_alloc : (alloc k s).run t = (t.size, t.add { kind := k, scope := s }) := rfl

theorem setTy?_add (n : Node) (ty : Option Ty) :
    (t.add n).setTy? t.size ty = t.add { n with ty } := by
  refine ext_node (by simp) (by simp) (by simp) fun x _ => ?_
  simp only [setTy?, add, node_update, node_adopt, node_push, size_adopt]
  have hsize : ({ t with nodes := t.nodes.push n } : Tree).size = t.size + 1 := by simp [size]
  by_cases hx : x = t.size <;> by_cases hc : x ∈ n.kind.children <;> simp_all [size]

theorem setSpan?_add (n : Node) (span : Option Span) :
    (t.add n).setSpan? t.size span = t.add { n with span } := by
  refine ext_node (by simp [setSpan?]) (by simp [setSpan?]) (by simp [setSpan?]) fun x _ => ?_
  simp only [setSpan?, add, node_update, node_adopt, node_push, size_adopt]
  have hsize : ({ t with nodes := t.nodes.push n } : Tree).size = t.size + 1 := by simp [size]
  by_cases hx : x = t.size <;> by_cases hc : x ∈ n.kind.children <;> simp_all [size]

theorem run_typed (ty : Ty) :
    (typed ty (alloc k s)).run t = (t.size, t.add { kind := k, scope := s, ty := .some ty }) := by
  have h := setTy?_add t { kind := k, scope := s } (.some ty)
  exact congrArg (Prod.mk t.size) h

/-! ## Taking builders apart -/

section Runs

variable {α β : Type} {b : Build α} {g : α → Build β} {t t' : Tree} {a a' : α} {r : β}
  {k : Kind NodeId} {s c : Nat}

theorem run_bind_iff :
    (b >>= g).run t = (r, t') ↔ ∃ a t₁, b.run t = (a, t₁) ∧ (g a).run t₁ = (r, t') := by
  rw [StateT.run_bind]
  constructor
  · intro h
    exact ⟨_, _, rfl, h⟩
  · rintro ⟨a, t₁, h, h'⟩
    rw [h]
    exact h'

theorem run_pure_iff : (pure a : Build α).run t = (a', t') ↔ a' = a ∧ t' = t := by
  constructor
  · intro h; cases h; exact ⟨rfl, rfl⟩
  · rintro ⟨rfl, rfl⟩; rfl

theorem run_modify_iff {f : Tree → Tree} {u : Unit} :
    (modify f : Build Unit).run t = (u, t') ↔ t' = f t := by
  constructor
  · intro h; cases h; rfl
  · rintro rfl; rfl

theorem run_alloc_iff :
    (alloc k s).run t = (c, t') ↔ c = t.size ∧ t' = t.add { kind := k, scope := s } := by
  rw [run_alloc]
  constructor
  · intro h; cases h; exact ⟨rfl, rfl⟩
  · rintro ⟨rfl, rfl⟩; rfl

theorem run_typed_iff {ty : Ty} :
    (typed ty (alloc k s)).run t = (c, t') ↔
      c = t.size ∧ t' = t.add { kind := k, scope := s, ty := .some ty } := by
  rw [run_typed]
  constructor
  · intro h; cases h; exact ⟨rfl, rfl⟩
  · rintro ⟨rfl, rfl⟩; rfl

theorem run_childScope_iff :
    (childScope s).run t = (c, t') ↔ c = t.env.size ∧ t' = t.modifyEnv fun e => (e.child s).2 := by
  constructor
  · intro h; cases h; exact ⟨rfl, rfl⟩
  · rintro ⟨rfl, rfl⟩; rfl

theorem run_mapM_nil {bs : List β} : (([] : List α).mapM g).run t = (bs, t') ↔ bs = [] ∧ t' = t := by
  rw [List.mapM_nil, run_pure_iff]

theorem run_mapM_cons {x : α} {xs : List α} {bs : List β} :
    ((x :: xs).mapM g).run t = (bs, t') ↔
      ∃ b t₁ bs', (g x).run t = (b, t₁) ∧ (xs.mapM g).run t₁ = (bs', t') ∧ bs = b :: bs' := by
  simp only [List.mapM_cons, run_bind_iff, run_pure_iff]
  constructor
  · rintro ⟨b, t₁, h₁, bs', t₂, h₂, rfl, rfl⟩; exact ⟨b, t₁, bs', h₁, h₂, rfl⟩
  · rintro ⟨b, t₁, bs', h₁, h₂, rfl⟩; exact ⟨b, t₁, h₁, bs', t', h₂, rfl, rfl⟩

end Runs

end Penumbra.Build
