/-
Making a program concrete comes to a recursion on terms.

The pass changes nodes in place and goes on with the children of the node just
changed. In an owned tree the subtrees of these have no node in common, so the
work on one of them neither sees nor disturbs the others (`Concreted.term_eq`),
and what is made of a node is what `Term.concrete` makes of its term
(`concretize_term`).
-/
import Penumbra.Proofs.Tree.CheckedTrees
import Penumbra.Proofs.Concrete.TermImage
import Penumbra.Proofs.Erase.ShallowShadows

namespace Penumbra

open Tree

variable {types : ScopeId → String → Option Ty}

namespace Tree

variable {t t' u : Tree} {x y n : Nat} {s : Shadow Ty} {field : VirtualField Ty} {var : String} {rest : List NodeId}
  {scope : ScopeId}

/-! ## Terms of nodes -/

/-- The term that a node stands for if child lists lead in no circle below it. -/
def term (t : Tree) (x : NodeId) : Term := t.unfold t.size x

theorem term_eq (h : t.EndsWithin t.size x) :
    t.term x = .mk ((t.kind x).map t.term) (t.scope x) (t.ty x) (t.span x) := fold_step h

theorem term_congr (h : t.EndsWithin t.size x) (hle : t.size ≤ t'.size)
    (hnode : ∀ y, t.Reaches x y → t'.node y = t.node y) : t'.term x = t.term x :=
  fold_congr h (h.mono hle) (fun y hy => congrArg Node.kind (hnode y hy)) fun y hy => by
    simp only [Tree.scope, Tree.ty, Tree.span, hnode y hy]

theorem SameBelow.term_eq (h : SameBelow x t t') (hx : t.EndsWithin t.size x) (hle : t.size ≤ t'.size) :
    t'.term x = t.term x :=
  term_congr hx hle h

theorem concrete_term (h : t.EndsWithin t.size x) :
    (t.term x).concrete types = Term.layer types ((t.kind x).map fun c => (t.term c, (t.term c).concrete types))
      (t.scope x) (t.ty x) (t.span x) := by
  rw [term_eq h, Term.concrete_mk, Kind.map_map]

theorem Owned.endsWithin (h : t.Owned) (hf : t.Formed) (hx : t.Reachable x) : t.EndsWithin t.size x :=
  (h.acyclic hf).endsWithin hx

theorem Grounded.endsWithin (h : t.Grounded x) (hf : t.Formed) (hx : x < t.size) : t.EndsWithin t.size x :=
  endsWithin_size (fun _ hy => hf.closed.reaches hx hy) fun _ hy => (h.reaches hy).noCircle

/-! ## What replaces an access -/

theorem terms_pathNodes {path : List PathStep}
    (hnodes : ∀ i m, (Shadow.pathNodes scope n path)[i]? = .some m → u.kind (n + i) = m.kind ∧ u.scope (n + i) = m.scope ∧
      u.ty (n + i) = m.ty ∧ u.span (n + i) = m.span)
    (hends : ∀ i < 2 * path.length, u.EndsWithin u.size (n + i)) :
    (pairIds n path.length).map u.term = path.map (Shadow.stepTerm scope) := by
  induction path generalizing n with
  | nil => rfl
  | cons step path ih =>
    have htail : (pairIds (n + 2) path.length).map u.term = path.map (Shadow.stepTerm scope) := by
      refine ih (fun i m hi => ?_) fun i hi => ?_
      · have hm := hnodes (i + 2) m (by cases step <;> exact hi)
        rwa [← Nat.add_assoc, Nat.add_right_comm] at hm
      · have := hends (i + 2) (by rw [List.length_cons]; omega)
        rwa [← Nat.add_assoc, Nat.add_right_comm] at this
    have hhead : u.term (n + 1) = Shadow.stepTerm scope step := by
      have h₀ := hends 0 (by rw [List.length_cons]; omega)
      have h₁ := hends 1 (by rw [List.length_cons]; omega)
      cases step with
      | field name =>
        obtain ⟨hk, hs, hty, hsp⟩ := hnodes 0 _ rfl
        obtain ⟨hk', hs', hty', hsp'⟩ := hnodes 1 _ rfl
        rw [term_eq h₁, hk', hs', hty', hsp', Kind.map, ← Nat.add_zero n, term_eq h₀, hk, hs, hty, hsp]
        rfl
      | index i =>
        obtain ⟨hk, hs, hty, hsp⟩ := hnodes 0 _ rfl
        obtain ⟨hk', hs', hty', hsp'⟩ := hnodes 1 _ rfl
        rw [term_eq h₁, hk', hs', hty', hsp', Kind.map, ← Nat.add_zero n, term_eq h₀, hk, hs, hty, hsp]
        rfl
    rw [List.length_cons, pairIds_succ, List.map_cons, List.map_cons, hhead, htail]

theorem read_accessed (rest : List NodeId) {i : Nat} {m : Node} (hx : x < t.size) (hi : (t.accessNodes x s field var)[i]? = .some m) :
    (t.accessed x s field var rest).kind (t.size + i) = m.kind ∧
      (t.accessed x s field var rest).scope (t.size + i) = m.scope ∧
      (t.accessed x s field var rest).ty (t.size + i) = m.ty ∧ (t.accessed x s field var rest).span (t.size + i) = m.span := by
  obtain ⟨hk, hs, hty, hsp⟩ := node_addAll (t := t) hi
  rw [kind_accessed t x s field var rest _ hx, ty_accessed t x s field var rest _ hx, if_neg (by omega), if_neg (by omega)]
  refine ⟨hk, ?_, hty, ?_⟩
  · simp [accessed, hs]
  · simp [accessed, hsp]

/-- The nodes that replace an access whose path is not empty. -/
theorem accessNodes_of_path (hp : field.path ≠ []) :
    t.accessNodes x s field var = { kind := .ident var, scope := t.scope x, ty := .some (.named s.shadowedName) } ::
      (Shadow.pathNodes (t.scope x) (t.size + 1) field.path ++
        [{ kind := .factor t.size (pairIds (t.size + 1) field.path.length), scope := t.scope x, ty := s.expandedTy field },
          { kind := .paren (t.size + (2 * field.path.length + 1)), scope := t.scope x, ty := s.expandedTy field }]) := by
  simp [accessNodes, Shadow.expandNodes, hp, Shadow.length_pathNodes]

/-- The last node of a field's expression stands for it. -/
theorem term_expandNodes
    (hread : ∀ i m, (s.expandNodes field var scope n)[i]? = .some m → u.kind (n + i) = m.kind ∧
      u.scope (n + i) = m.scope ∧ u.ty (n + i) = m.ty ∧ u.span (n + i) = m.span)
    (hends : ∀ i, i < (s.expandNodes field var scope n).length → u.EndsWithin u.size (n + i)) :
    u.term (n + (s.expandNodes field var scope n).length - 1) = s.fieldTerm field var scope := by
  rw [Shadow.fieldTerm]
  split
  next hp =>
    have hnodes : s.expandNodes field var scope n = [{ kind := .ident var, scope, ty := s.expandedTy field }] :=
      if_pos hp
    rw [hnodes] at hread hends ⊢
    obtain ⟨hk, hs, hty, hsp⟩ := hread 0 _ rfl
    rw [List.length_singleton, Nat.add_sub_cancel, ← Nat.add_zero n, term_eq (hends 0 (by simp)), hk, hs, hty, hsp]
    rfl
  next hp =>
    have hnodes : s.expandNodes field var scope n = _ := if_neg hp
    have hlen := Shadow.length_pathNodes scope (n + 1) field.path
    have hid : n + (s.expandNodes field var scope n).length - 1 = n + (2 * field.path.length + 1) := by
      rw [hnodes, List.length_cons, List.length_append, hlen, List.length_singleton]
      omega
    rw [hid]
    rw [hnodes] at hread hends
    simp only [List.length_cons, List.length_append, hlen, List.length_nil] at hends
    have hsteps : (pairIds (n + 1) field.path.length).map u.term = field.path.map (Shadow.stepTerm scope) := by
      refine terms_pathNodes (fun i m hi => ?_) fun i hi => ?_ <;> rw [Nat.add_assoc, Nat.add_comm 1 i]
      · refine hread (i + 1) m ?_
        rw [List.getElem?_cons_succ, List.getElem?_append_left (List.getElem?_eq_some_iff.mp hi).1, hi]
      · exact hends (i + 1) (by omega)
    obtain ⟨hk, hs, hty, hsp⟩ := hread 0 _ rfl
    obtain ⟨hk', hs', hty', hsp'⟩ := hread (2 * field.path.length + 1) _ (by
      rw [List.getElem?_cons_succ, List.getElem?_append_right (by omega), hlen, Nat.sub_self]
      rfl)
    have hvar : u.term n = .mk (.ident var) scope (.some (.named s.shadowedName)) .none := by
      rw [← Nat.add_zero n, term_eq (hends 0 (by omega)), hk, hs, hty, hsp]
      rfl
    rw [term_eq (hends _ (by omega)), hk', hs', hty', hsp', Kind.map, hvar, hsteps]

/-- The parentheses hold the expression of the field. -/
theorem term_paren (rest : List NodeId) (hx : x < t.size) (hev : t.Evolves (t.accessed x s field var rest))
    (hf : (t.accessed x s field var rest).Formed) :
    (t.accessed x s field var rest).term (t.parenId x s field var) =
      .mk (.paren (s.fieldTerm field var (t.scope x))) (t.scope x) (s.expandedTy field) .none := by
  have hread : ∀ i m, (t.accessNodes x s field var)[i]? = .some m → _ := fun _ _ => read_accessed rest hx
  have hsize := size_accessed t x s field var rest
  generalize t.accessed x s field var rest = u at *
  have hends : ∀ i, i < (t.accessNodes x s field var).length → u.EndsWithin u.size (t.size + i) := fun i hi =>
    have hlt : t.size + i < u.size := by omega
    (hev.grounded _ ⟨Nat.le_add_right _ _, hlt⟩).endsWithin hf hlt
  rw [accessNodes] at hread hends
  rw [List.length_append, List.length_singleton] at hends
  have hinner := term_expandNodes (u := u) (fun i m hi => hread i m (by
    rw [List.getElem?_append_left (List.getElem?_eq_some_iff.mp hi).1, hi])) fun i hi => hends i (by omega)
  obtain ⟨hk, hs, hty, hsp⟩ := hread _ _ List.getElem?_concat_length
  rw [parenId, term_eq (hends _ (by omega)), hk, hs, hty, hsp, Kind.map, hinner]

/-! ## Reading terms as the pass reads nodes -/

theorem endsWithin_of_leaf (hx : x < t.size) (h : t.children x = []) : t.EndsWithin t.size x := by
  obtain ⟨n, hn⟩ : ∃ n, t.size = n + 1 := ⟨t.size - 1, by omega⟩
  rw [hn]
  intro c hc
  rw [h] at hc
  cases hc

theorem term_ident {token : String} (hk : t.kind x = .ident token) :
    t.term x = .mk (.ident token) (t.scope x) (t.ty x) (t.span x) := by
  have hx := lt_size_of_kind hk (by simp)
  rw [term_eq (endsWithin_of_leaf hx (by rw [Tree.children, hk]; rfl)), hk]
  rfl

section Reads

variable {a operand first : Nat}

theorem shadow?_term (h : t.EndsWithin t.size x) : (t.term x).shadow? = t.shadow? x := by
  rw [term_eq h]
  rfl

theorem declaredShadow?_term (h : t.EndsWithin t.size a) :
    Term.declaredShadow? t.env.getType? (t.ty x) (t.term a) = t.declaredShadow? x a := by
  have htoken : ((t.kind a).map t.term).token? = (t.kind a).token? := by cases t.kind a <;> rfl
  rw [term_eq h]
  simp only [Term.declaredShadow?, Term.ty, Term.token?, Term.kind, Term.scope, htoken]
  rfl

theorem access?_term_none (ho : t.EndsWithin t.size operand) (hs : t.EndsWithin t.size first)
    (h : t.shadow? operand = .none ∨ ∀ field, t.kind first ≠ .selector field) :
    Term.access? (t.term operand) (t.term first) = .none := by
  rw [Term.access?]
  split
  next var field hvar hfield =>
    rw [term_eq hs, Term.kind] at hfield
    obtain ⟨f, hf, -⟩ := Kind.map_eq_selector hfield
    rw [shadow?_term ho, h.resolve_right fun hne => hne f hf]
    rfl
  next => rfl

theorem access?_term_some {fieldId : Nat} {name : String} (hs : t.EndsWithin t.size first) (hvar : t.kind operand = .ident var)
    (hshadow : t.shadow? operand = .some s) (hfirst : t.kind first = .selector fieldId) (hname : t.kind fieldId = .ident name)
    (hfield : s.field? name = .some field) : Term.access? (t.term operand) (t.term first) = .some (s, field, var) := by
  have htoken : (t.term fieldId).token? = .some name := by
    rw [term_ident hname]
    rfl
  have hop : (t.term operand).shadow? = .some s := by
    rw [term_ident hvar, ← hshadow]
    rfl
  have hkind : (t.term operand).kind = .ident var := by
    rw [term_ident hvar]
    rfl
  rw [term_eq hs, hfirst, Kind.map, Term.access?, hkind]
  simp only [Term.kind, hop, htoken]
  exact congrArg (Option.bind · fun vf => .some (s, vf, var)) hfield

end Reads

theorem ty_redeclared_of_mem {name : NodeId} {ascription : Option NodeId} {token : String} (hy : y < t.size)
    (h : y = x ∨ y = name ∨ y ∈ ascription) : (t.redeclared x name ascription s token).ty y = .some s.shadowedTy := by
  cases ascription with
  | none =>
    simp only [redeclared, reascribed, setTy, ty_modifyEnv, ty_setTy?, size_setTy?]
    rcases h with rfl | rfl | h
    · simp [hy]
    · simp [hy]
    · cases h
  | some a =>
    simp only [redeclared, reascribed, setTy, ty_modifyEnv, ty_setTy?, ty_setKind, size_setTy?, size_setKind]
    rcases h with rfl | rfl | h
    · simp [hy]
    · simp [hy]
    · cases h
      simp [hy]

end Tree

theorem Ty.erased_of_concrete {ty : Ty} (h : ty.isShadow = false) : ty.erased = ty := by
  cases ty with
  | shadow => cases h
  | _ => rfl

/-! ## One node -/

section Node

variable {t t₁ : Tree} {x : Nat}

theorem Tree.Plain.layer_eq (h : t.Plain x) (hf : t.Formed) (ho : t.Owned) (hx : t.Reachable x) :
    Term.layer t.env.getType? ((t.kind x).map fun c => (t.term c, (t.term c).concrete t.env.getType?)) (t.scope x) (t.ty x)
        (t.span x) =
      .mk ((t.kind x).map fun c => (t.term c).concrete t.env.getType?) (t.scope x) (t.ty x) (t.span x) := by
  have hends : ∀ c ∈ t.children x, t.EndsWithin t.size c := fun c hc => ho.endsWithin hf (Reaches.tail hx hc)
  rw [Tree.children] at hends
  obtain ⟨hdecl, hident, hchain⟩ := h
  rw [shadowDecl?] at hdecl
  cases hk : t.kind x with
  | factor operand steps =>
    rw [hk] at hends
    cases steps with
    | nil => rfl
    | cons first rest =>
      have hnone : Term.access? (t.term operand) (t.term first) = .none := by
        refine access?_term_none (hends operand (by simp [Kind.children])) (hends first (by simp [Kind.children])) ?_
        refine (hchain operand _ hk).imp_right ?_
        rintro ⟨first', rest', he, hsel⟩
        cases he
        exact hsel
      simp only [Kind.map, List.map_cons, Term.layer, hnone, List.map_map, Function.comp_def]
  | component name ascription =>
    rw [hk] at hends
    have hnone : Term.declaredShadow? t.env.getType? (t.ty x) (t.term ascription) = .none := by
      rw [declaredShadow?_term (hends ascription (by simp [Kind.children]))]
      simpa [hk] using hdecl
    simp only [Kind.map, Term.layer, hnone]
  | varDecl name ascription init =>
    rw [hk] at hends
    cases ascription with
    | none =>
      have hnone : t.shadow? x = .none := by simpa [hk] using hdecl
      rw [Tree.shadow?] at hnone
      simp only [Kind.map, Option.map_none, Term.layer, hnone, Option.map_map, Function.comp_def]
    | some a =>
      have hnone : Term.declaredShadow? t.env.getType? (t.ty x) (t.term a) = .none := by
        rw [declaredShadow?_term (hends a (by simp [Kind.children]))]
        simpa [hk] using hdecl
      simp only [Kind.map, Option.map_some, Term.layer, hnone, Option.map_map, Function.comp_def]
  | ident token =>
    have hnone := hident token hk
    have hty : (t.ty x).map Ty.erased = t.ty x := by
      cases hty : t.ty x with
      | none => rfl
      | some ty =>
        rw [Tree.shadow?, hty] at hnone
        rw [Option.map_some, Ty.erased_of_concrete (by simpa [Ty.isShadow] using hnone)]
    simp only [Kind.map, Term.layer, hty]
  | _ => simp only [Kind.map, Term.layer, List.map_map, Option.map_map, Function.comp_def]

/-- What an access becomes. -/
theorem Tree.layer_accessed {operand first fieldId : Nat} {rest : List NodeId} {s : Shadow Ty} {name var : String}
    {vf : VirtualField Ty} (hf : t.Formed) (ho : t.Owned) (hx : t.Reachable x)
    (kind : t.kind x = .factor operand (first :: rest)) (shadow : t.shadow? operand = .some s)
    (selector : t.kind first = .selector fieldId) (token : t.kind fieldId = .ident name) (root : t.kind operand = .ident var)
    (known : s.field? name = .some vf) (hev : t.Evolves (t.accessed x s vf var rest))
    (hf₁ : (t.accessed x s vf var rest).Formed) :
    Term.mk (((t.accessed x s vf var rest).kind x).map fun c =>
        ((t.accessed x s vf var rest).term c).concrete t.env.getType?)
        ((t.accessed x s vf var rest).scope x) ((t.accessed x s vf var rest).ty x) ((t.accessed x s vf var rest).span x) =
      (t.term x).concrete t.env.getType? := by
  have hxlt := hf.bounded hx
  have hends : ∀ c ∈ t.children x, t.EndsWithin t.size c := fun c hc => ho.endsWithin hf (Reaches.tail hx hc)
  have hchildren : t.children x = operand :: first :: rest := by rw [Tree.children, kind]; rfl
  have hparen := term_paren rest hxlt hev hf₁
  have hrest : ∀ c ∈ rest, (t.accessed x s vf var rest).term c = t.term c := by
    intro c hc
    have hcx : c ∈ t.children x := by rw [hchildren]; simp [hc]
    refine term_congr (hends c hcx) hev.size_le fun y hy => node_accessed (hf.bounded ((Reaches.tail hx hcx).trans hy)) ?_
    exact fun he => ho.noCircle hx (.head' hcx (he ▸ hy))
  have hspan : (t.accessed x s vf var rest).span x = t.span x := by
    simp [accessed, (Extends.addAll t _).span x hxlt]
  have hscope : (t.accessed x s vf var rest).scope x = t.scope x := by
    simp [accessed, (Extends.addAll t _).scope x hxlt]
  have hty := ty_accessed t x s vf var rest x hxlt
  have hkind := kind_accessed t x s vf var rest x hxlt
  rw [if_pos rfl] at hty hkind
  generalize t.accessed x s vf var rest = u at *
  have hsome := access?_term_some (hends first (by rw [hchildren]; simp)) root shadow selector token known
  have hmap : (rest.map fun c => (u.term c).concrete t.env.getType?) =
      rest.map fun c => (t.term c).concrete t.env.getType? :=
    List.map_congr_left fun c hc => by rw [hrest c hc]
  have hlayer : (u.term (t.parenId x s vf var)).concrete t.env.getType? =
      .mk (.paren (s.fieldTerm vf var (t.scope x))) (t.scope x) (s.expandedTy vf) .none := by
    rw [hparen, Term.concrete_mk, Kind.map, Term.concrete_fieldTerm]
    rfl
  rw [concrete_term (ho.endsWithin hf hx), kind, hkind, hscope, hty, hspan]
  simp only [Kind.map, List.map_cons, Term.layer, hsome, hlayer, hmap, List.map_map, Function.comp_def,
    Shadow.ty_fieldTerm, List.isEmpty_map]

section Declaration

variable {name : NodeId} {ascription : Option NodeId} {s : Shadow Ty} {token : String} (hf : t.Formed) (ho : t.Owned)
  (hx : t.Reachable x) (decl : t.shadowDecl? x = .some (name, ascription, s))
include hf ho hx decl

omit hf in
/-- The name, the written type and the initial value are different children. -/
theorem Tree.Owned.shadowDecl_distinct : name ∉ ascription ∧
    ∀ p a init, t.kind x = .varDecl p a (.some init) → init ∈ t.children x ∧ init ≠ name ∧ init ∉ ascription := by
  have hnodup := ho.nodup x hx
  rcases shadowDecl?_eq_some.mp decl with ⟨a, rfl, hk, -⟩ | ⟨a, init, rfl, hk, -⟩ | ⟨init, rfl, hk, -⟩
  · rw [Tree.children, hk] at hnodup
    refine ⟨fun hmem => ?_, fun p a init he => ?_⟩
    · cases hmem
      simp [Kind.children] at hnodup
    · rw [hk] at he
      cases he
  · rw [Tree.children, hk, Kind.children, List.nodup_cons] at hnodup
    refine ⟨fun hmem => hnodup.1 (by cases hmem; simp), fun p b c he => ?_⟩
    rw [hk] at he
    cases he
    refine ⟨by simp [Tree.children, hk, Kind.children], fun hcn => hnodup.1 (by simp [hcn]), fun hmem => ?_⟩
    cases hmem
    simp at hnodup
  · rw [Tree.children, hk, Kind.children, List.nodup_cons] at hnodup
    refine ⟨fun hmem => (by cases hmem), fun p b c he => ?_⟩
    rw [hk] at he
    cases he
    exact ⟨by simp [Tree.children, hk, Kind.children], fun hcn => hnodup.1 (by simp [hcn]), fun hmem => (by cases hmem)⟩

variable (written : ∀ a ∈ ascription, ∃ old, t.kind a = .ident old)
  (named : (t.reascribed ascription s).kind name = .ident token)
include written named

theorem Tree.term_redeclared_name (types : ScopeId → String → Option Ty) (hs : s.shadowedTy.isShadow = false) :
    ((t.redeclared x name ascription s token).term name).concrete types =
      ((t.term name).concrete types).retyped s.shadowedTy := by
  have hlt := hf.child x (hf.bounded hx) name (children_shadowDecl decl).1
  have hkind : (t.reascribed ascription s).kind name = t.kind name := by
    rw [kind_reascribed, if_neg fun h => (ho.shadowDecl_distinct hx decl).1 h.1]
  obtain ⟨hscope, hspan⟩ := (NodeConcrete.declaration decl written named).scope_eq.1 name hlt
  rw [term_ident ((kind_redeclared ..).trans named), term_ident (hkind.symm.trans named), hscope, hspan,
    ty_redeclared_of_mem hlt (.inr (.inl rfl)), Term.concrete_ident, Term.concrete_ident, Option.map_some,
    Ty.erased_of_concrete hs]
  rfl

omit ho in
theorem Tree.term_redeclared_ascription (types : ScopeId → String → Option Ty) (hs : s.shadowedTy.isShadow = false)
    {a : NodeId} (ha : a ∈ ascription) :
    ((t.redeclared x name ascription s token).term a).concrete types = ((t.term a).concrete types).ascribed s := by
  have hlt := hf.child x (hf.bounded hx) a ((children_shadowDecl decl).2 a ha)
  have hkind : (t.redeclared x name ascription s token).kind a = .ident s.shadowedName := by
    rw [kind_redeclared, kind_reascribed, if_pos ⟨ha, hlt⟩]
  obtain ⟨old, hold⟩ := written a ha
  obtain ⟨hscope, hspan⟩ := (NodeConcrete.declaration decl written named).scope_eq.1 a hlt
  rw [term_ident hkind, term_ident hold, hscope, hspan, ty_redeclared_of_mem hlt (.inr (.inr ha)), Term.concrete_ident,
    Term.concrete_ident, Option.map_some, Ty.erased_of_concrete hs]
  rfl

/-- The initial value stays as it is. -/
theorem Tree.term_redeclared_init {p : NodeId} {a init : Option NodeId} (hk : t.kind x = .varDecl p a init) :
    init.map (t.redeclared x name ascription s token).term = init.map t.term := by
  obtain ⟨hname, hasc⟩ := children_shadowDecl decl
  cases init with
  | none => rfl
  | some c =>
    obtain ⟨hc, hcn, hca⟩ := (ho.shadowDecl_distinct hx decl).2 p a c hk
    refine congrArg Option.some (term_congr (ho.endsWithin hf (Reaches.tail hx hc))
      (NodeConcrete.declaration decl written named).evolves.size_le fun y hy => ?_)
    have hfree : ∀ d ∈ t.children x, d ≠ c → y ≠ d := fun d hd hdc he =>
      hdc (ho.disjoint hx hd hc (he ▸ .refl t y) hy)
    exact node_redeclared (fun he => ho.noCircle hx (.head' hc (he ▸ hy))) (hfree name hname hcn.symm)
      fun hmem => hfree y (hasc y hmem) (fun he => hca (he ▸ hmem)) rfl

/-- What a declaration becomes. -/
theorem Tree.layer_redeclared (hs : s.shadowedTy.isShadow = false) :
    Term.mk (((t.redeclared x name ascription s token).kind x).map fun c =>
        ((t.redeclared x name ascription s token).term c).concrete t.env.getType?)
        ((t.redeclared x name ascription s token).scope x) ((t.redeclared x name ascription s token).ty x)
        ((t.redeclared x name ascription s token).span x) =
      (t.term x).concrete t.env.getType? := by
  have hxlt := hf.bounded hx
  have hself : x ∉ ascription := fun hmem => ho.noCircle hx (.single ((children_shadowDecl decl).2 x hmem))
  have hkind : (t.redeclared x name ascription s token).kind x = t.kind x := by
    rw [kind_redeclared, kind_reascribed, if_neg fun h => hself h.1]
  obtain ⟨hscope, hspan⟩ := (NodeConcrete.declaration decl written named).scope_eq.1 x hxlt
  have hname := term_redeclared_name hf ho hx decl written named t.env.getType? hs
  have hasc := fun a => term_redeclared_ascription hf hx decl written named t.env.getType? hs (a := a)
  have hinit := fun p a init (hk : t.kind x = .varDecl p a init) => term_redeclared_init hf ho hx decl written named hk
  have hends : ∀ c ∈ t.children x, t.EndsWithin t.size c := fun c hc => ho.endsWithin hf (Reaches.tail hx hc)
  rw [concrete_term (ho.endsWithin hf hx), hkind, hscope, hspan, ty_redeclared_of_mem hxlt (.inl rfl)]
  generalize t.redeclared x name ascription s token = u at *
  have hmap : ∀ p a init, t.kind x = .varDecl p a init → init.map (fun c => (u.term c).concrete t.env.getType?) =
      init.map fun c => (t.term c).concrete t.env.getType? := fun p a init hk => by
    have := congrArg (Option.map (Term.concrete t.env.getType?)) (hinit p a init hk)
    simpa only [Option.map_map, Function.comp_def] using this
  rcases shadowDecl?_eq_some.mp decl with ⟨a, rfl, hk, hd⟩ | ⟨a, init, rfl, hk, hd⟩ | ⟨init, rfl, hk, hd⟩
  · rw [← declaredShadow?_term (hends a ((children_shadowDecl decl).2 a rfl))] at hd
    simp only [hk, Kind.map, Term.layer, hd, hname, hasc a rfl]
  · rw [← declaredShadow?_term (hends a ((children_shadowDecl decl).2 a rfl))] at hd
    simp only [hk, Kind.map, Option.map_some, Term.layer, hd, hname, hasc a rfl, hmap _ _ _ hk, Option.map_map,
      Function.comp_def]
  · rw [Tree.shadow?] at hd
    simp only [hk, Kind.map, Option.map_none, Term.layer, hd, hname, hmap _ _ _ hk, Option.map_map, Function.comp_def]

end Declaration

/-- What a node becomes, its children being left as they are. -/
theorem NodeConcrete.layer_eq (h : NodeConcrete x t t₁) (hf : t.Formed) (ho : t.Owned) (hx : t.Reachable x)
    (hs : ∀ name ascription s, t.shadowDecl? x = .some (name, ascription, s) → s.shadowedTy.isShadow = false) :
    Term.mk ((t₁.kind x).map fun c => (t₁.term c).concrete t.env.getType?) (t₁.scope x) (t₁.ty x) (t₁.span x) =
      (t.term x).concrete t.env.getType? := by
  have hev := h.evolves
  have hf₁ := h.formed hf
  cases h with
  | plain h => rw [concrete_term (ho.endsWithin hf hx), h.layer_eq hf ho hx]
  | access kind shadow selector token root known =>
    exact layer_accessed hf ho hx kind shadow selector token root known hev hf₁
  | declaration decl written named => exact layer_redeclared hf ho hx decl written named (hs _ _ _ decl)
  | @identifier token s kind shadow =>
    have hty : t.ty x = .some (.shadow s) := by
      obtain ⟨ty, hty, hshadow⟩ := Option.bind_eq_some_iff.mp shadow
      cases ty <;> cases hshadow
      exact hty
    rw [concrete_term (ho.endsWithin hf hx), kind]
    simp only [setTy, kind_setTy?, scope_setTy?, span_setTy?, ty_setTy?, kind, hf.bounded hx, and_self, if_true, Kind.map,
      Term.layer, hty, Option.map_some]
    rfl

end Node

/-! ## All below a node -/

/-- An owned program whose types have the property `P`, and what its type names
stand for. -/
structure Regular (P : Ty → Prop) (types : ScopeId → String → Option Ty) (u : Tree) : Prop where
  formed : u.Formed
  owned : u.Owned
  typed : TypedIn P u { y | u.Reachable y }
  types : u.env.getType? = types

section Below

variable {P : Ty → Prop} {t t' u u' : Tree} {n x : Nat} {l : List Nat}

theorem NodeConcrete.getType?_eq (h : NodeConcrete x u u') : u'.env.getType? = u.env.getType? := by
  cases h with
  | plain => rfl
  | access => simp [accessed]
  | declaration => rw [env_redeclared, Env.set, Env.getType?_declare]
  | identifier => rfl

theorem Regular.nodeConcrete (hP : Inherited P) (h : NodeConcrete x u u') (hu : Regular P types u) (hx : u.Reachable x) :
    Regular P types u' := by
  have hrw := h.reworks hu.formed hu.owned hx
  have htyped := h.typed hP hu.formed.program_closed hx hu.typed
  exact ⟨hrw.formed, hrw.isOwned, ⟨fun y hy => htyped.ty y (hrw.program y (hrw.reaches hy)), htyped.env⟩,
    h.getType?_eq.trans hu.types⟩

theorem Regular.concreted (hP : Inherited P) (h : Concreted n x u u') (hu : Regular P types u) (hx : u.Reachable x) :
    Regular P types u' :=
  (hu.owned.concreted (fun _ _ _ _ _ hy hn hv => hv.nodeConcrete hP hn hy) hu.formed hx hu h).2.2

/-- Work below one child of a node leaves what is below the others alone. -/
theorem Regular.apart (hu : Regular P types u) (hx : u.Reachable x) {c d : Nat} (hc : c ∈ u.children x) (hd : d ∈ u.children x)
    (hcd : c ≠ d) (hnode : ∀ y < u.size, ¬ u.Reaches d y → u'.node y = u.node y) : SameBelow c u u' := fun y hy =>
  hnode y (hu.formed.bounded ((Reaches.tail hx hc).trans hy)) fun hdy => hcd (hu.owned.disjoint hx hc hd hy hdy)

/-- The work on the children of a node, one after the other. Neither the node nor
the children that are not in the list change, and what is below a child of the
list is the same from the start until its turn, and from then on to the end. What
holds from before to after each turn (`Q`) holds over all turns before it and after
it. -/
theorem Chain.turns {R : Nat → Tree → Tree → Prop} {Q : Tree → Tree → Prop} (hrefl : ∀ u, Q u u)
    (htrans : ∀ u v w, Q u v → Q v w → Q u w)
    (hR : ∀ c u u', Regular P types u → u.Reachable c → R c u u' → (Regular P types u' ∧ Q u u') ∧ Confined c u u' ∧
      ∀ y < u.size, ¬ u.Reaches c y → u'.node y = u.node y)
    (h : Chain R l u u') (hu : Regular P types u) (hx : u.Reachable x) (hl : ∀ c ∈ l, c ∈ u.children x) (hnodup : l.Nodup) :
    (Regular P types u' ∧ Q u u' ∧ u'.Reachable x ∧ u'.node x = u.node x) ∧
      (∀ c ∈ u.children x, c ∉ l → SameBelow c u u') ∧
      ∀ c ∈ l, ∃ v v', R c v v' ∧ Regular P types v ∧ v.Reachable c ∧ Q u v ∧ Q v' u' ∧ SameBelow c u v ∧
        SameBelow c v' u' := by
  induction h with
  | nil => exact ⟨⟨hu, hrefl _, hx, rfl⟩, fun c _ _ => .refl c _, fun _ hc => absurd hc List.not_mem_nil⟩
  | @cons d l u u₁ u' first _ ih =>
    obtain ⟨hdl, hnodup⟩ := List.nodup_cons.mp hnodup
    have hd := hl d List.mem_cons_self
    obtain ⟨⟨hu₁, hQ⟩, hconf, hnode⟩ := hR d u u₁ hu (Reaches.tail hx hd) first
    have hdx : ¬ u.Reaches d x := fun hdx => hu.owned.noCircle hx (.head' hd hdx)
    have hnx := hnode x (hu.formed.bounded hx) hdx
    have hchildren : u₁.children x = u.children x := congrArg (fun m : Node => m.kind.children) hnx
    obtain ⟨⟨hu', hQ', hx', hnx'⟩, hrest, hturns⟩ := ih hu₁ (hconf.stays x hx hdx)
      (fun c hc => hchildren ▸ hl c (List.mem_cons_of_mem _ hc)) hnodup
    refine ⟨⟨hu', htrans _ _ _ hQ hQ', hx', hnx'.trans hnx⟩, fun c hc hcl => ?_, fun c hc => ?_⟩
    · exact (hu.apart hx hc hd (fun he => hcl (he ▸ List.mem_cons_self)) hnode).trans
        (hrest c (hchildren ▸ hc) fun hmem => hcl (List.mem_cons_of_mem _ hmem))
    · rcases List.mem_cons.mp hc with rfl | hc
      · exact ⟨u, u₁, first, hu, Reaches.tail hx hd, hrefl u, hQ', .refl c u, hrest c (hchildren ▸ hd) hdl⟩
      · obtain ⟨v, v', hcv, hv, hcr, hQv, hQv', hbefore, hafter⟩ := hturns c hc
        have hsame := hu.apart hx (hl c (List.mem_cons_of_mem _ hc)) hd (fun he => hdl (he ▸ hc)) hnode
        exact ⟨v, v', hcv, hv, hcr, htrans _ _ _ hQ hQv, hQv', hsame.trans hbefore, hafter⟩

/-- Going on with the children of a node: what has become of each was made of it
in one go. -/
theorem Regular.turns (hP : Inherited P) (h : Chain (Concreted n) (u.children x) u u') (hu : Regular P types u)
    (hx : u.Reachable x) :
    (Regular P types u' ∧ u.size ≤ u'.size ∧ u'.Reachable x ∧ u'.node x = u.node x) ∧
      ∀ c ∈ u.children x, ∃ v v', Concreted n c v v' ∧ Regular P types v ∧ v.Reachable c ∧ u.size ≤ v.size ∧
        v'.size ≤ u'.size ∧ SameBelow c u v ∧ SameBelow c v' u' := by
  obtain ⟨hu', -, hturns⟩ := h.turns (Q := fun u v => u.size ≤ v.size) (fun _ => le_rfl) (fun _ _ _ => Nat.le_trans)
    (fun c v v' hv hc hcv => ⟨⟨hv.concreted hP hcv hc, hcv.evolves.size_le⟩, hcv.confined hv.formed, fun y => hcv.node_eq⟩)
    hu hx (fun _ hc => hc) (hu.owned.nodup x hx)
  exact ⟨hu', hturns⟩

theorem Regular.reachable_self (hP : Inherited P) (h : Concreted n x u u') (hu : Regular P types u) (hx : u.Reachable x) :
    u'.Reachable x := by
  cases n with
  | zero => exact h.elim
  | succ n =>
    obtain ⟨u₁, hnode, hchain⟩ := h
    exact ((hu.nodeConcrete hP hnode hx).turns hP hchain (hnode.reachable_self hu.formed hu.owned hx)).1.2.2.1

/-- What the pass makes of a node is the image of its term. -/
theorem Concreted.term_eq (hP : Inherited P) (hs : ∀ s, P (.shadow s) → s.shadowedTy.isShadow = false)
    (h : Concreted n x t t') (ht : Regular P types t) (hx : t.Reachable x) : t'.term x = (t.term x).concrete types := by
  induction n generalizing x t t' with
  | zero => exact h.elim
  | succ n ih =>
    obtain ⟨t₁, hnode, hchain⟩ := h
    have ht₁ := ht.nodeConcrete hP hnode hx
    have hx₁ := hnode.reachable_self ht.formed ht.owned hx
    obtain ⟨⟨ht', -, hx', hnx⟩, hturns⟩ := ht₁.turns hP hchain hx₁
    have hmap : (t₁.kind x).map t'.term = (t₁.kind x).map fun c => (t₁.term c).concrete types := by
      refine Kind.map_congr fun c hc => ?_
      obtain ⟨v, v', hcv, hv, hcr, hle, hle', hbefore, hafter⟩ := hturns c hc
      have hv' := hv.concreted hP hcv hcr
      rw [hafter.term_eq (hv'.owned.endsWithin hv'.formed (hv.reachable_self hP hcv hcr)) hle', ih hcv hv hcr,
        hbefore.term_eq (ht₁.owned.endsWithin ht₁.formed (Reaches.tail hx₁ hc)) hle]
    have hlayer := hnode.layer_eq ht.formed ht.owned hx fun _ _ s hd => hs s (ht.typed.shadowDecl? ht.formed.program_closed hx hd)
    rw [ht.types] at hlayer
    rw [Tree.term_eq (ht'.owned.endsWithin ht'.formed hx'), ← hlayer, Tree.kind, Tree.scope, Tree.ty, Tree.span, hnx]
    exact congrArg (fun k => Term.mk k (t₁.scope x) (t₁.ty x) (t₁.span x)) hmap

end Below

/-- Making an owned program concrete is the recursion `Term.concrete` on the term
of the program, as long as no shadow type stands for another one. -/
theorem Tree.concretize_term {t : Tree} (hf : t.Formed) (ho : t.Owned)
    (hs : ∀ s, Occurs t (.shadow s) → s.shadowedTy.isShadow = false) (hok : t.concretize.result = .ok ()) :
    t.concretize.tree.term root = (t.term root).concrete t.env.getType? := by
  have hc := Pass.leads_concretize.mp (Pass.outcome_ok.mp hok)
  refine hc.term_eq (inherited_occurs t) (fun s h => ?_) ⟨hf, ho, ⟨fun x hx ty hty => .inr (.node hx hty),
    ⟨fun _ _ _ hb => .inr (.var hb), fun _ _ _ hb => .inr (.name hb)⟩⟩, rfl⟩ (.refl t root)
  rcases h with h | h
  · cases h
  · exact hs s h

namespace Sample

theorem listsTypes_tree : tree.ListsTypes Ty.Shallow := by decide +kernel

/-- In the sample, two accesses to virtual fields become longer chains. -/
theorem concretize_term_tree :
    tree.Formed ∧ tree.Owned ∧ (∀ s, Occurs tree (.shadow s) → s.shadowedTy.isShadow = false) ∧
      tree.concretize.result = .ok () ∧ tree.size + 10 < tree.concretize.tree.size ∧
      tree.concretize.tree.term Tree.root = (tree.term Tree.root).concrete tree.env.getType? := by
  have hs : ∀ s, Occurs tree (.shadow s) → s.shadowedTy.isShadow = false := fun s h => (listsTypes_tree.occurs h).shadowed
  have hok : tree.concretize.result = .ok () := Outcome.ok_of_isOk (by decide +kernel)
  exact ⟨linked_tree.formed, linked_tree.owned, hs, hok, by decide +kernel,
    Tree.concretize_term linked_tree.formed linked_tree.owned hs hok⟩

end Sample

end Penumbra
