/-
Making a program concrete keeps it owned.

Making a node concrete changes that node and its children and nothing else
(`NodeConcrete.node_eq`). What takes the place of an access is a tree of its own
(`separate_accessNodes`), so the program stays owned (`NodeConcrete.reworks`).
Going down from a node, the pass stays below it (`Concreted.node_eq`), and the
children of a node lie side by side, so what is kept at every node is kept by
the whole pass (`Owned.concreted`).
-/
import Penumbra.Proofs.Concrete.TreeEvolution
import Penumbra.Proofs.Pass.NodeQueue

namespace Penumbra

open Tree

/-! ## The expression of a virtual field -/

namespace Shadow

variable {s : Shadow Ty} {field : VirtualField Ty} {var : String} {scope : ScopeId} {n : Nat}

theorem listed_pathNodes (scope : ScopeId) (n : Nat) (path : List PathStep) :
    listed (pathNodes scope (n + 1) path) = pairIds n path.length := by
  induction path generalizing n with
  | nil => rfl
  | cons step path ih =>
    have hlist : listed (pathNodes scope (n + 1) (step :: path)) = (n + 1) :: listed (pathNodes scope (n + 2 + 1) path) := by
      cases step <;> rfl
    rw [hlist, ih, List.length_cons, pairIds_succ]

theorem listed_expandNodes_of_path (hp : field.path ≠ []) :
    listed (s.expandNodes field var scope n) =
      pairIds n field.path.length ++ (n :: pairIds (n + 1) field.path.length) := by
  have hpath := listed_pathNodes scope n field.path
  rw [listed] at hpath
  rw [expandNodes, if_neg hp, listed, List.flatMap_cons, List.flatMap_append, hpath]
  simp [Kind.children]

/-- No node of an expression is named twice. -/
theorem nodup_listed_expandNodes : (listed (s.expandNodes field var scope n)).Nodup := by
  by_cases hp : field.path = []
  · simp [expandNodes, hp, listed, Kind.children]
  · rw [listed_expandNodes_of_path hp]
    simp only [List.nodup_append, List.nodup_cons, nodup_pairIds, mem_pairIds, List.mem_cons, true_and, and_true]
    refine ⟨?_, ?_⟩
    · rintro ⟨j, -, hj⟩
      omega
    · rintro a ⟨j, hj, rfl⟩ b (rfl | ⟨i, hi, rfl⟩) <;> omega

/-- The last node of an expression is named by none of the others. -/
theorem last_not_listed : n + (s.expandNodes field var scope n).length - 1 ∉ listed (s.expandNodes field var scope n) := by
  intro hmem
  obtain ⟨m, hm, hc⟩ := List.mem_flatMap.mp hmem
  obtain ⟨i, hi⟩ := List.mem_iff_getElem?.mp hm
  have hlt := (List.getElem?_eq_some_iff.mp hi).1
  have := children_expandNodes hi hc
  omega

theorem separate_expandNodes (s : Shadow Ty) (field : VirtualField Ty) (var : String) (scope : ScopeId) (t : Tree) :
    Separate [] t (t.addAll (s.expandNodes field var scope t.size)) :=
  .addAll (by simp) nodup_listed_expandNodes fun _ _ hi _ hc => .inl (children_expandNodes hi hc)

end Shadow

namespace Tree

variable {t : Tree} {x y : Nat} {s : Shadow Ty} {field : VirtualField Ty} {var : String} {rest : List NodeId}

/-- No node of what replaces an access is named twice. -/
theorem nodup_listed_accessNodes : (listed (t.accessNodes x s field var)).Nodup := by
  have hlist : listed (t.accessNodes x s field var) = listed (s.expandNodes field var (t.scope x) t.size) ++
      [t.size + (s.expandNodes field var (t.scope x) t.size).length - 1] := by
    simp [accessNodes, listed, Kind.children]
  rw [hlist, List.nodup_append]
  refine ⟨Shadow.nodup_listed_expandNodes, List.nodup_singleton _, fun a ha b hb hab => ?_⟩
  rw [hab, List.mem_singleton.mp hb] at ha
  exact Shadow.last_not_listed ha

theorem separate_accessNodes : Separate [] t (t.addAll (t.accessNodes x s field var)) :=
  .addAll (by simp) nodup_listed_accessNodes fun _ _ hi _ hc => .inl (children_accessNodes hi hc)

theorem span_accessNodes {m : Node} (h : m ∈ t.accessNodes x s field var) : m.span = .none := by
  rw [accessNodes, Shadow.expandNodes] at h
  split at h
  · simp only [List.cons_append, List.nil_append, List.mem_cons, List.not_mem_nil, or_false] at h
    rcases h with rfl | rfl <;> rfl
  · simp only [List.cons_append, List.mem_cons, List.mem_append, List.append_assoc, List.not_mem_nil, or_false, false_or] at h
    rcases h with rfl | h | rfl | rfl
    · rfl
    · rcases Shadow.mem_pathNodes h with ⟨_, -, rfl | ⟨_, rfl⟩⟩ | ⟨_, rfl⟩ | ⟨_, rfl⟩ <;> rfl
    · rfl
    · rfl

theorem parent_accessed (y : Nat) :
    (t.accessed x s field var rest).parent y =
      if y = t.parenId x s field var then .some x else (t.addAll (t.accessNodes x s field var)).parent y := by
  have hlt : t.parenId x s field var < t.size + (t.accessNodes x s field var).length := by
    have := (parenId_fresh t x s field var rest).2
    rwa [size_accessed] at this
  simp [accessed, parent_setParent, hlt]

theorem node_addAll_of_lt {ns : List Node} (hy : y < t.size) (hfree : y ∉ listed ns) :
    (t.addAll ns).node y = t.node y :=
  (Extends.addAll t ns).node_eq hy (parent_addAll_of_lt hfree hy)

/-- A declaration of a shadow type by what it is. -/
theorem shadowDecl?_eq_some {name : NodeId} {ascription : Option NodeId} :
    t.shadowDecl? x = .some (name, ascription, s) ↔
      (∃ a, ascription = .some a ∧ t.kind x = .component name a ∧ t.declaredShadow? x a = .some s) ∨
      (∃ a init, ascription = .some a ∧ t.kind x = .varDecl name (.some a) init ∧ t.declaredShadow? x a = .some s) ∨
      ∃ init, ascription = .none ∧ t.kind x = .varDecl name .none init ∧ t.shadow? x = .some s := by
  unfold shadowDecl?
  split
  next n a hk =>
    simp only [Option.map_eq_some_iff, Prod.mk.injEq, hk, Kind.component.injEq, reduceCtorEq, false_and, and_false,
      exists_false, or_false]
    constructor
    · rintro ⟨s', hs, rfl, rfl, rfl⟩
      exact ⟨a, rfl, ⟨rfl, rfl⟩, hs⟩
    · rintro ⟨a', rfl, ⟨rfl, rfl⟩, hs⟩
      exact ⟨s, hs, rfl, rfl, rfl⟩
  next n a init hk =>
    simp only [Option.map_eq_some_iff, Prod.mk.injEq, hk, Kind.varDecl.injEq, reduceCtorEq, false_and, and_false,
      exists_false, false_or, or_false]
    constructor
    · rintro ⟨s', hs, rfl, rfl, rfl⟩
      exact ⟨a, init, rfl, ⟨rfl, rfl, rfl⟩, hs⟩
    · rintro ⟨a', init', rfl, ⟨rfl, ha, rfl⟩, hs⟩
      cases ha
      exact ⟨s, hs, rfl, rfl, rfl⟩
  next n init hk =>
    simp only [Option.map_eq_some_iff, Prod.mk.injEq, hk, Kind.varDecl.injEq, reduceCtorEq, false_and, and_false,
      exists_false, false_or]
    constructor
    · rintro ⟨s', hs, rfl, rfl, rfl⟩
      exact ⟨init, rfl, ⟨rfl, trivial, rfl⟩, hs⟩
    · rintro ⟨init', rfl, ⟨rfl, -, rfl⟩, hs⟩
      exact ⟨s, hs, rfl, rfl, rfl⟩
  next hcomp hdecl hnone =>
    refine iff_of_false (by simp) ?_
    rintro (⟨a, -, hk, -⟩ | ⟨a, init, -, hk, -⟩ | ⟨init, -, hk, -⟩)
    · exact hcomp _ _ hk
    · exact hdecl _ _ _ hk
    · exact hnone _ _ hk

/-- The name and the written type of a declaration are its children. -/
theorem children_shadowDecl {name : NodeId} {ascription : Option NodeId}
    (h : t.shadowDecl? x = .some (name, ascription, s)) :
    name ∈ t.children x ∧ ∀ a ∈ ascription, a ∈ t.children x := by
  rcases shadowDecl?_eq_some.mp h with ⟨a, rfl, hk, -⟩ | ⟨a, init, rfl, hk, -⟩ | ⟨init, rfl, hk, -⟩ <;>
    rw [Tree.children, hk] <;> simp [Kind.children]

theorem kind_of_shadowDecl {name : NodeId} {ascription : Option NodeId}
    (h : t.shadowDecl? x = .some (name, ascription, s)) :
    (∃ a, t.kind x = .component name a) ∨ ∃ a init, t.kind x = .varDecl name a init := by
  rcases shadowDecl?_eq_some.mp h with ⟨a, -, hk, -⟩ | ⟨a, init, -, hk, -⟩ | ⟨init, -, hk, -⟩
  · exact .inl ⟨a, hk⟩
  · exact .inr ⟨.some a, init, hk⟩
  · exact .inr ⟨.none, init, hk⟩

/-- Below an identifier nothing is declared. -/
theorem shadowDecl?_below_ident {d : Nat} {token : String} (hk : t.kind x = .ident token) (hxd : t.Reaches x d) :
    t.shadowDecl? d = .none := by
  rcases hxd.cases with rfl | ⟨e, he, -⟩
  · simp [shadowDecl?, hk]
  · rw [Tree.children, hk] at he
    cases he

/-- An access changes no old node but the chain. -/
theorem node_accessed (hy : y < t.size) (hyx : y ≠ x) : (t.accessed x s field var rest).node y = t.node y := by
  have hparen : y ≠ t.parenId x s field var := by
    have := (parenId_fresh t x s field var rest).1
    omega
  have hfree : y ∉ listed (t.accessNodes x s field var) := fun hmem => by
    obtain ⟨m, hm, hmem⟩ := List.mem_flatMap.mp hmem
    obtain ⟨i, hi⟩ := List.getElem?_of_mem hm
    exact absurd (children_accessNodes hi hmem).1 (by omega)
  simp only [accessed, setTy?, setParent, setKind, node_update, hyx, hparen, false_and, if_false]
  exact node_addAll_of_lt hy hfree

/-- A declaration changes itself, its name and its written type, and no other node. -/
theorem node_redeclared {name : NodeId} {ascription : Option NodeId} {token : String} (hyx : y ≠ x) (hyn : y ≠ name)
    (hya : y ∉ ascription) : (t.redeclared x name ascription s token).node y = t.node y := by
  have hre : (t.reascribed ascription s).node y = t.node y := by
    cases ascription with
    | none => rfl
    | some a =>
      have hne : y ≠ a := fun he => hya (he ▸ rfl)
      simp only [reascribed, setTy, setTy?, setKind, node_update, hne, false_and, if_false]
  have hmod : (t.redeclared x name ascription s token).node y =
      (((t.reascribed ascription s).setTy x s.shadowedTy).setTy name s.shadowedTy).node y := rfl
  rw [hmod, setTy, setTy?, node_update, if_neg fun h => hyn h.1, setTy, setTy?, node_update, if_neg fun h => hyx h.1, hre]

theorem parent_accessed_of_lt {rest : List NodeId} {vf : VirtualField Ty} {var : String} (hy : y < t.size) :
    (t.accessed x s vf var rest).parent y = t.parent y := by
  have hparen : y ≠ t.parenId x s vf var := by
    have := (parenId_fresh t x s vf var rest).1
    omega
  rw [parent_accessed, if_neg hparen]
  exact separate_accessNodes.parent y hy (by simp)

/-- The chain owns what is put in the place of an access. -/
theorem ownedIn_accessed {operand first : NodeId} {rest : List NodeId} {vf : VirtualField Ty} {var : String}
    (kind : t.kind x = .factor operand (first :: rest)) (hf : t.Formed) (ho : t.Owned) (hx : t.Reachable x) :
    (t.accessed x s vf var rest).OwnedIn ({ y | t.Reachable y } ∪ fresh t (t.accessed x s vf var rest)) := by
  have hxlt := hf.bounded hx
  have hparen := parenId_fresh t x s vf var rest
  have hrest : ∀ c ∈ rest, c ∈ t.children x := fun c hc => by simp [Tree.children, kind, Kind.children, hc]
  have hkx : (t.accessed x s vf var rest).children x = t.parenId x s vf var :: rest := by
    rw [Tree.children, kind_accessed t x s vf var rest x hxlt, if_pos rfl]
    rfl
  have hky : ∀ y, y ≠ x → (t.accessed x s vf var rest).children y = (t.addAll (t.accessNodes x s vf var)).children y :=
    fun y hne => by rw [Tree.children, kind_accessed t x s vf var rest y hxlt, if_neg hne]; rfl
  have hext := Extends.addAll t (t.accessNodes x s vf var)
  have hlast : ∀ y ∈ fresh t (t.accessed x s vf var rest), y ≤ t.parenId x s vf var := fun y hy => by
    have hlt := hy.2
    rw [size_accessed, accessNodes, List.length_append, List.length_singleton] at hlt
    rw [parenId]
    omega
  have hnew : ∀ y ∈ fresh t (t.accessed x s vf var rest), y < (t.addAll (t.accessNodes x s vf var)).size := fun y hy => by
    have hlt := hy.2
    rwa [size_accessed, ← size_addAll] at hlt
  refine ⟨fun y hy => ?_, fun y hy c hc => ?_⟩ <;> by_cases hyx : y = x
  · subst hyx
    have hnodup := ho.nodup y hx
    rw [Tree.children, kind] at hnodup
    rw [hkx, List.nodup_cons]
    refine ⟨fun hmem => ?_, (List.nodup_cons.mp (List.nodup_cons.mp hnodup).2).2⟩
    have := hf.child y hxlt _ (hrest _ hmem)
    exact absurd hparen.1 (by omega)
  · rw [hky y hyx]
    rcases hy with hy | hy
    · rw [hext.children (hf.bounded hy)]
      exact ho.nodup y hy
    · exact separate_accessNodes.nodup y hy.1 (hnew y hy)
  · subst hyx
    rw [hkx, List.mem_cons] at hc
    rcases hc with rfl | hc
    · rw [parent_accessed, if_pos rfl]
    · rw [parent_accessed_of_lt (hf.child y hxlt c (hrest c hc)), ho.parent y hx c (hrest c hc)]
  · rw [hky y hyx] at hc
    rcases hy with hy | hy
    · rw [hext.children (hf.bounded hy)] at hc
      rw [parent_accessed_of_lt (hf.child y (hf.bounded hy) c hc), ho.parent y hy c hc]
    · obtain ⟨hcy, hp⟩ := separate_accessNodes.child y hy.1 (hnew y hy) c hc
      have hlt := (hcy.resolve_right (by simp)).2
      have := hlast y hy
      rw [parent_accessed, if_neg (by omega), hp]

theorem children_redeclared {name : NodeId} {ascription : Option NodeId} {token : String}
    (hw : ∀ a ∈ ascription, ∃ old, t.kind a = .ident old) :
    (t.redeclared x name ascription s token).children y = t.children y := by
  rw [Tree.children, Tree.children, kind_redeclared, kind_reascribed]
  split
  next h =>
    obtain ⟨old, hold⟩ := hw y h.1
    rw [hold]
    rfl
  next => rfl

theorem env_redeclared {name : NodeId} {ascription : Option NodeId} {token : String} :
    (t.redeclared x name ascription s token).env = t.env.set (t.scope x) token s.shadowedTy := by
  cases ascription <;> simp [redeclared, reascribed, setTy]

end Tree

/-! ## One node -/

namespace NodeConcrete

variable {t t' : Tree} {x y : Nat}

theorem lt_size_of_change (h : NodeConcrete x t t') : t' = t ∨ x < t.size := by
  cases h with
  | plain => exact .inl rfl
  | access kind => exact .inr (lt_size_of_kind kind (by simp))
  | declaration decl => exact .inr (lt_size_of_mem_children (children_shadowDecl decl).1)
  | identifier kind => exact .inr (lt_size_of_kind kind (by simp))

/-- Nothing changes but the node and its children. -/
theorem node_eq (h : NodeConcrete x t t') (hy : y < t.size) (hyx : y ≠ x) (hc : y ∉ t.children x) :
    t'.node y = t.node y := by
  cases h with
  | plain => rfl
  | access => exact node_accessed hy hyx
  | declaration decl =>
    obtain ⟨hname, hasc⟩ := children_shadowDecl decl
    exact node_redeclared hyx (fun he => hc (he ▸ hname)) fun hmem => hc (hasc y hmem)
  | identifier =>
    rw [setTy, setTy?, node_update, if_neg fun h => hyx h.1]

theorem parent_eq (h : NodeConcrete x t t') (hy : y < t.size) : t'.parent y = t.parent y := by
  cases h with
  | plain => rfl
  | access => exact parent_accessed_of_lt hy
  | @declaration name ascription => cases ascription <;> simp [redeclared, reascribed, setTy]
  | identifier => simp [setTy]

/-- Scopes and spans stay, and nodes that are added share the scope of the node
that they are added for. -/
theorem scope_eq (h : NodeConcrete x t t') :
    (∀ y : Nat, y < t.size → t'.scope y = t.scope y ∧ t'.span y = t.span y) ∧
      ∀ y ∈ fresh t t', t'.scope y = t.scope x ∧ t'.span y = .none := by
  have hnone : ∀ {u : Tree}, u.size = t.size → ∀ y, y ∉ fresh t u := fun hsize y hy =>
    absurd hy.2 (by have := hy.1; omega)
  cases h with
  | plain => exact ⟨fun _ _ => ⟨rfl, rfl⟩, fun y hy => absurd hy (hnone rfl y)⟩
  | @access operand first rest s fieldId field var vf kind =>
    have hext := Extends.addAll t (t.accessNodes x s vf var)
    refine ⟨fun y hy => by simp [accessed, hext.scope y hy, hext.span y hy], fun y hy => ?_⟩
    have hlt := hy.2
    rw [size_accessed, ← size_addAll] at hlt
    obtain ⟨m, hm, -, hscope, -, hspan⟩ := new_addAll hy.1 hlt
    simp only [accessed, scope_setTy?, scope_setParent, scope_setKind, span_setTy?, span_setParent, span_setKind, hscope,
      hspan]
    exact ⟨(mem_accessNodes hm).1, span_accessNodes hm⟩
  | @declaration name ascription s token =>
    refine ⟨fun y _ => ?_, fun y hy => absurd hy (hnone (size_redeclared ..) y)⟩
    cases ascription <;> simp [redeclared, reascribed, setTy]
  | identifier => exact ⟨fun y _ => by simp [setTy], fun y hy => absurd hy (hnone (by simp [setTy]) y)⟩

theorem sameTypes (h : NodeConcrete x t t') : t.env.SameTypes t'.env ∧ t'.env.size = t.env.size := by
  cases h with
  | plain => exact ⟨.refl _, rfl⟩
  | access => exact ⟨by simpa [accessed] using .refl _, by simp [accessed]⟩
  | @declaration name ascription s token =>
    rw [env_redeclared]
    exact ⟨.set .., by simp [Env.set]⟩
  | identifier => exact ⟨by simpa [setTy] using .refl _, by simp [setTy]⟩

theorem formed (h : NodeConcrete x t t') (hf : t.Formed) : t'.Formed := by
  have hev := h.evolves
  obtain ⟨htypes, hsize⟩ := h.sameTypes
  refine ⟨hf.root_lt.trans_le hev.size_le, fun y hy c hc => ?_, fun y hy => ?_, htypes.nested hf.nested⟩
  · exact (hev.closed hf.closed).bounded c ((hev.closed hf.closed).child y (by
      rcases Nat.lt_or_ge y t.size with hlt | hge
      · exact .inl hlt
      · exact .inr ⟨hge, hy⟩) c hc)
  · rw [hsize]
    rcases Nat.lt_or_ge y t.size with hlt | hge
    · rw [(h.scope_eq.1 y hlt).1]
      exact hf.scope y hlt
    · rw [(h.scope_eq.2 y ⟨hge, hy⟩).1]
      rcases h.lt_size_of_change with rfl | hx
      · omega
      · exact hf.scope x hx

theorem ownedIn (h : NodeConcrete x t t') (hf : t.Formed) (ho : t.Owned) (hx : t.Reachable x) :
    t'.OwnedIn ({ y | t.Reachable y } ∪ fresh t t') := by
  -- all but an access leave every child list and every parent link as it was
  have hsame : t'.size = t.size → (∀ y, t'.children y = t.children y) → (∀ y, t'.parent y = t.parent y) →
      t'.OwnedIn ({ y | t.Reachable y } ∪ fresh t t') := by
    intro hsize hchild hparent
    have hold : ∀ y ∈ { y | t.Reachable y } ∪ fresh t t', t.Reachable y := fun y hy =>
      hy.resolve_right fun hnew => absurd hnew.2 (by have := hnew.1; omega)
    refine ⟨fun y hy => ?_, fun y hy c hc => ?_⟩
    · rw [hchild]
      exact ho.nodup y (hold y hy)
    · rw [hchild] at hc
      rw [hparent]
      exact ho.parent y (hold y hy) c hc
  cases h with
  | plain => exact hsame rfl (fun _ => rfl) fun _ => rfl
  | identifier => exact hsame (by simp [setTy]) (fun y => by simp [Tree.children, setTy]) fun y => by simp [setTy]
  | @declaration name ascription s token decl written =>
    refine hsame (size_redeclared ..) (fun y => children_redeclared written) fun y => ?_
    cases ascription <;> simp [redeclared, reascribed, setTy]
  | access kind => exact ownedIn_accessed kind hf ho hx

/-- Making a node of the program concrete leaves the program a tree and what is
outside of it as it was. -/
theorem reworks (h : NodeConcrete x t t') (hf : t.Formed) (ho : t.Owned) (hx : t.Reachable x) :
    Reworks t t' ({ y | t.Reachable y } ∪ fresh t t') := by
  have hclosed : t.Closed { y | t.Reachable y } := hf.program_closed
  refine ⟨h.formed hf, h.evolves.size_le, .inl (.refl t root), h.evolves.closed hclosed, h.ownedIn hf ho hx,
    fun y hy => hy, fun y hy => .inr hy, fun y hy hnot => ?_, fun y hy _ => h.parent_eq hy,
    fun y hy hnot => absurd (.inl hy) hnot, fun y hy hmem => ?_, h.parent_eq hf.root_lt⟩
  · refine congrArg Node.kind (h.node_eq hy (fun he => hnot (.inl (he ▸ hx))) fun hc => hnot (.inl (Reaches.tail hx hc)))
  · obtain ⟨hlt, hmem⟩ := h.evolves.child_of_lt hf.root_lt hmem
    exact ho.root_free y (hy.resolve_right fun hnew => absurd hnew.1 (by omega)) hmem

/-- The node stays where it is in the program. -/
theorem reachable_self (h : NodeConcrete x t t') (hf : t.Formed) (ho : t.Owned) (hx : t.Reachable x) :
    t'.Reachable x := by
  have hpath : ∀ y, t.Reachable y → t.Reaches y x → t'.Reachable y := by
    intro y hy
    induction hy with
    | refl => exact fun _ => .refl t' root
    | @tail z y hz hy ih =>
      intro hyx
      have hzx : Relation.TransGen t.Child z x := .head' hy hyx
      have hnode := h.node_eq (hf.bounded hz) (fun he => ho.noCircle hz (he ▸ hzx))
        fun hc => ho.noCircle hx (.head hc hzx)
      refine (ih (.head hy hyx)).tail ?_
      rwa [Tree.children, Tree.kind, hnode]
  exact hpath x hx (.refl t x)

end NodeConcrete

/-! ## All below a node -/

section Below

variable {t t' : Tree} {n x y V : Nat} {l : List Nat}

/-- Nothing new leads to an old node. -/
theorem Tree.Evolves.reaches (h : t.Evolves t') (hy : y < t.size) (hxy : t'.Reaches x y) :
    x < t.size ∧ t.Reaches x y := by
  induction hxy using Relation.ReflTransGen.head_induction_on with
  | refl => exact ⟨hy, .refl t y⟩
  | @head x c hc _ ih =>
    obtain ⟨hcl, hcy⟩ := ih
    obtain ⟨hx, hc⟩ := h.child_of_lt hcl hc
    exact ⟨hx, .head hc hcy⟩

/-- What is kept wherever the nodes of a list do not lead is kept along the
list. -/
theorem Chain.node_eq {R : Nat → Tree → Tree → Prop}
    (hR : ∀ x t t', R x t t' → t.Evolves t' ∧ ∀ y < t.size, ¬ t.Reaches x y → t'.node y = t.node y)
    (h : Chain R l t t') (hy : y < t.size) (hnot : ∀ x ∈ l, ¬ t.Reaches x y) : t'.node y = t.node y := by
  induction h with
  | nil => rfl
  | @cons x l t t₁ t' first _ ih =>
    obtain ⟨hev, hnode⟩ := hR x t t₁ first
    rw [ih (hy.trans_le hev.size_le) fun z hz hzy => hnot z (List.mem_cons_of_mem _ hz) (hev.reaches hy hzy).2,
      hnode y hy (hnot x List.mem_cons_self)]

/-- Going down from a node changes nothing but what is below it. -/
theorem Concreted.node_eq (h : Concreted n x t t') (hy : y < t.size) (hnot : ¬ t.Reaches x y) :
    t'.node y = t.node y := by
  induction n generalizing x t t' y with
  | zero => exact h.elim
  | succ n ih =>
    obtain ⟨t₁, hx, hchain⟩ := h
    have hev := hx.evolves
    rw [hchain.node_eq (fun z u u' hz => ⟨hz.evolves, fun w hw hzw => ih hz hw hzw⟩) (hy.trans_le hev.size_le)
      fun c hc hcy => hnot (hev.reaches hy (.head hc hcy)).2]
    exact hx.node_eq hy (fun he => hnot (he ▸ .refl t x)) fun hc => hnot (Reaches.tail (.refl t x) hc)

theorem Concreted.confined (h : Concreted n x t t') (hf : t.Formed) : Confined x t t' := by
  refine ⟨h.evolves.size_le, fun W hW => ?_, fun a b _ hb hab => .inl (h.evolves.reaches hb hab).2⟩
  induction hW with
  | refl => exact fun _ => .refl t' root
  | @tail z W hz hW ih =>
    intro hnot
    have hxz : ¬ t.Reaches x z := fun hxz => hnot (hxz.tail hW)
    refine (ih hxz).tail ?_
    rwa [Tree.children, Tree.kind, h.node_eq (hf.bounded hz) hxz]

theorem Tree.Owned.queued_children (h : t.Owned) (hx : t.Reachable x) : Queued t (t.children x) := by
  refine ⟨fun c hc => Reaches.tail hx hc, ?_⟩
  refine List.Pairwise.imp_of_mem (fun {a b} ha hb hne hab => ?_) (h.nodup x hx)
  exact hne (h.disjoint hx ha hb hab (.refl t b))

/-- What making any node of an owned program concrete keeps is kept all the way
down. -/
theorem Tree.Owned.concreted {I : Tree → Prop}
    (hI : ∀ x u u', u.Formed → u.Owned → u.Reachable x → NodeConcrete x u u' → I u → I u')
    (h : t.Owned) (hf : t.Formed) (hx : t.Reachable x) (ht : I t) (hc : Concreted n x t t') :
    t'.Formed ∧ t'.Owned ∧ I t' := by
  induction n generalizing x t t' with
  | zero => exact hc.elim
  | succ n ih =>
    obtain ⟨t₁, hnode, hchain⟩ := hc
    have hrw := hnode.reworks hf h hx
    refine (hrw.isOwned.queued_children (hnode.reachable_self hf h hx)).run
      (I := fun u => u.Formed ∧ u.Owned ∧ I u) (fun u hu => hu.1) ?_ hchain
      ⟨hrw.formed, hrw.isOwned, hI x t t₁ hf h hx hnode ht⟩
    rintro c u u' ⟨hfu, hou, hIu⟩ hc hcu
    exact ⟨ih hou hfu hc hIu hcu, hcu.confined hfu⟩

end Below

end Penumbra
