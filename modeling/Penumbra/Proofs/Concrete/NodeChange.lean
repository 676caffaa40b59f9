/-
What making a node concrete does to a tree.

`concreteNode` leaves a node alone (`Plain`), or replaces the access to a
virtual field by its expression (`accessed`), or gives a binder or
declaration its concrete type (`redeclared`), or an identifier. `NodeConcrete`
says which and when; `Concreted` is a run of `concreteDown`.
-/
import Penumbra.Erase.Concrete
import Penumbra.Proofs.Lower.FamilyNodes
import Penumbra.Proofs.Pass.Yields
import Penumbra.Proofs.Lower.SortedArms

namespace Penumbra

open Tree

/-! ## The expression of a virtual field -/

namespace Shadow

variable (s : Shadow Ty) (field : VirtualField Ty) (var : String) (scope : ScopeId) (n : Nat)

/-- Two nodes for each step of a path, of which the first comes at index
`n`. -/
def pathNodes : Nat → List PathStep → List Node
  | _, [] => []
  | n, .field name :: path =>
    { kind := .ident name, scope } :: { kind := .selector n, scope } :: pathNodes (n + 2) path
  | n, .index i :: path =>
    { kind := .literal (.int i), scope, ty := .some .int } :: { kind := .index n, scope } ::
      pathNodes (n + 2) path

/-- The type of the expression. -/
def expandedTy : Option Ty :=
  if s.typesFields then .some (if field.path = [] then .named s.shadowedName else field.ty) else .none

/-- The variable, and unless the path is empty, its steps and the chain. -/
def expandNodes : List Node :=
  if field.path = [] then
    [{ kind := .ident var, scope, ty := s.expandedTy field }]
  else
    { kind := .ident var, scope, ty := .some (.named s.shadowedName) } ::
      (pathNodes scope (n + 1) field.path ++
        [{ kind := .factor n (pairIds (n + 1) field.path.length), scope, ty := s.expandedTy field }])

theorem run_pathSteps {path : List PathStep} {t t' : Tree} {ids : List NodeId}
    (h : (path.mapM (Build.pathStep scope)).run t = (ids, t')) :
    ids = pairIds t.size path.length ∧ t' = t.addAll (pathNodes scope t.size path) := by
  induction path generalizing t ids with
  | nil => exact Build.run_mapM_nil.mp h
  | cons p path ih =>
    obtain ⟨id, t₁, ids, h₁, h, rfl⟩ := Build.run_mapM_cons.mp h
    cases p with
    | field name =>
      simp only [Build.pathStep, Build.selector, Build.ident, Build.run_bind_iff, Build.run_alloc_iff] at h₁
      obtain ⟨_, _, ⟨rfl, rfl⟩, rfl, rfl⟩ := h₁
      obtain ⟨rfl, rfl⟩ := ih h
      simp only [size_add]
      exact ⟨(pairIds_succ ..).symm, rfl⟩
    | index i =>
      simp only [Build.pathStep, Build.literal, Build.index, Build.run_bind_iff, Build.run_typed_iff,
        Build.run_alloc_iff] at h₁
      obtain ⟨_, _, ⟨rfl, rfl⟩, rfl, rfl⟩ := h₁
      obtain ⟨rfl, rfl⟩ := ih h
      simp only [size_add]
      exact ⟨(pairIds_succ ..).symm, rfl⟩

theorem length_pathNodes (path : List PathStep) : (pathNodes scope n path).length = 2 * path.length := by
  induction path generalizing n with
  | nil => rfl
  | cons p path ih => cases p <;> simp only [pathNodes, List.length_cons, ih] <;> omega

/-- The last step of an expansion keeps or drops the type. -/
theorem run_retype (t : Tree) (k : Kind NodeId) (ty : Ty) :
    ((do unless s.typesFields do modify (·.setTy? t.size .none)
         return t.size : Build NodeId)).run (t.add { kind := k, scope, ty := .some ty }) =
      (t.size, t.add { kind := k, scope, ty := if s.typesFields then .some ty else .none }) := by
  cases s.typesFields with
  | true => rfl
  | false => exact congrArg (Prod.mk t.size) (Build.setTy?_add ..)

/-- The expression is the last of the nodes added. -/
theorem run_expandField (t : Tree) :
    (s.expandField field var scope).run t =
      (t.size + (s.expandNodes field var scope t.size).length - 1,
        t.addAll (s.expandNodes field var scope t.size)) := by
  obtain ⟨⟨id, t'⟩, h⟩ : ∃ r, (s.expandField field var scope).run t = r := ⟨_, rfl⟩
  rw [h]
  rw [expandField, Build.ident, Build.run_bind_iff] at h
  obtain ⟨_, t₁, h₁, h⟩ := h
  obtain ⟨rfl, rfl⟩ := Build.run_typed_iff.mp h₁
  rw [Build.run_bind_iff] at h
  obtain ⟨id', t₁, hpath, h⟩ := h
  cases hp : field.path with
  | nil =>
    rw [hp, Build.path, Build.run_pure_iff] at hpath
    obtain ⟨rfl, rfl⟩ := hpath
    rw [run_retype] at h
    cases h
    simp [expandNodes, expandedTy, hp, addAll]
  | cons p path =>
    rw [hp, Build.path, Build.run_bind_iff] at hpath
    · obtain ⟨ids, t₂, hids, hfactor⟩ := hpath
      obtain ⟨rfl, rfl⟩ := Build.run_typed_iff.mp hfactor
      obtain ⟨rfl, rfl⟩ := run_pathSteps scope hids
      rw [run_retype] at h
      cases h
      simp only [expandNodes, expandedTy, hp, addAll_cons, addAll_snoc, length_pathNodes, size_addAll, size_add,
        List.length_cons, List.length_append, List.length_nil, reduceCtorEq, if_false]
      have hid : t.size + 1 + 2 * (path.length + 1) = t.size + (2 * (path.length + 1) + (0 + 1) + 1) - 1 := by
        omega
      rw [hid]
    · simp

theorem expandNodes_snoc : ∃ init last, s.expandNodes field var scope n = init ++ [last] ∧
    last.ty = s.expandedTy field := by
  unfold expandNodes
  split
  · exact ⟨[], _, rfl, rfl⟩
  · exact ⟨_ :: _, _, rfl, rfl⟩

theorem length_expandNodes_pos : 0 < (s.expandNodes field var scope n).length := by
  obtain ⟨init, last, heq, -⟩ := s.expandNodes_snoc field var scope n
  rw [heq]
  simp

/-- The expression's type. -/
theorem ty_expandNodes (t : Tree) :
    (t.addAll (s.expandNodes field var scope n)).ty (t.size + (s.expandNodes field var scope n).length - 1) =
      s.expandedTy field := by
  obtain ⟨init, last, heq, hty⟩ := s.expandNodes_snoc field var scope n
  have hi : (init ++ [last])[init.length]? = .some last := by simp
  have hid : t.size + (init ++ [last]).length - 1 = t.size + init.length := by simp
  rw [heq, hid, (node_addAll hi).2.2.1, hty]

variable {s field var scope n}

/-- The nodes of a step of a path by what they are. -/
theorem mem_pathNodes {path : List PathStep} {m : Node} (h : m ∈ pathNodes scope n path) :
    (∃ name, .field name ∈ path ∧ (m = { kind := .ident name, scope } ∨ ∃ i, m = { kind := .selector i, scope })) ∨
    (∃ i, m = { kind := .literal (.int i), scope, ty := .some .int }) ∨
    ∃ i, m = { kind := .index i, scope } := by
  induction path generalizing n with
  | nil => simp [pathNodes] at h
  | cons p path ih =>
    cases p with
    | field name =>
      simp only [pathNodes, List.mem_cons] at h
      rcases h with rfl | rfl | h
      · exact .inl ⟨name, by simp, .inl rfl⟩
      · exact .inl ⟨name, by simp, .inr ⟨n, rfl⟩⟩
      · exact (ih h).imp_left fun ⟨name, hname, hm⟩ => ⟨name, by simp [hname], hm⟩
    | index i =>
      simp only [pathNodes, List.mem_cons] at h
      rcases h with rfl | rfl | h
      · exact .inr (.inl ⟨i, rfl⟩)
      · exact .inr (.inr ⟨n, rfl⟩)
      · exact (ih h).imp_left fun ⟨name, hname, hm⟩ => ⟨name, by simp [hname], hm⟩

theorem children_pathNodes {path : List PathStep} {i c : Nat} {m : Node}
    (hi : (pathNodes scope n path)[i]? = .some m) (hc : c ∈ m.kind.children) : n ≤ c ∧ c < n + i := by
  induction path generalizing n i with
  | nil => simp [pathNodes] at hi
  | cons p path ih =>
    match i with
    | 0 | 1 =>
      cases p <;>
        simp only [pathNodes, List.getElem?_cons_zero, List.getElem?_cons_succ, Option.some.injEq] at hi <;>
        subst hi <;> simp [Kind.children] at hc
      all_goals omega
    | i + 2 =>
      have hi' : (pathNodes scope (n + 2) path)[i]? = .some m := by cases p <;> exact hi
      have := ih hi'
      omega

/-- Every node of the expression comes after its children. -/
theorem children_expandNodes {i c : Nat} {m : Node} (hi : (s.expandNodes field var scope n)[i]? = .some m)
    (hc : c ∈ m.kind.children) : n ≤ c ∧ c < n + i := by
  unfold expandNodes at hi
  split at hi
  · obtain rfl := List.mem_singleton.mp (List.mem_of_getElem? hi)
    simp [Kind.children] at hc
  · match i with
    | 0 =>
      simp only [List.getElem?_cons_zero, Option.some.injEq] at hi
      subst hi
      simp [Kind.children] at hc
    | i + 1 =>
      rw [List.getElem?_cons_succ] at hi
      rcases Nat.lt_or_ge i (pathNodes scope (n + 1) field.path).length with hlt | hge
      · rw [List.getElem?_append_left hlt] at hi
        have := children_pathNodes hi hc
        omega
      · rw [List.getElem?_append_right hge, List.getElem?_singleton] at hi
        rw [length_pathNodes] at hge
        split at hi
        · cases hi
          simp only [Kind.children, List.mem_cons, mem_pairIds] at hc
          rcases hc with rfl | ⟨j, hj, rfl⟩ <;> omega
        · cases hi

end Shadow

/-! ## One node -/

namespace Tree

variable (t : Tree) (x : Nat)

/-- A binder or declaration of a shadow type: its name, its ascription and
the shadow type. -/
def shadowDecl? : Option (NodeId × Option NodeId × Shadow Ty) :=
  match t.kind x with
  | .component name ascription => (t.declaredShadow? x ascription).map (name, .some ascription, ·)
  | .varDecl name (.some ascription) _ => (t.declaredShadow? x ascription).map (name, .some ascription, ·)
  | .varDecl name .none _ => (t.shadow? x).map (name, .none, ·)
  | _ => .none

/-- Nothing at the node has to be made concrete. -/
structure Plain : Prop where
  decl : t.shadowDecl? x = .none
  ident : ∀ token, t.kind x = .ident token → t.shadow? x = .none
  chain : ∀ operand steps, t.kind x = .factor operand steps → t.shadow? operand = .none ∨
    ∃ first rest, steps = first :: rest ∧ ∀ field, t.kind first ≠ .selector field

/-- The nodes of `(e)`, for the expression `e` of a virtual field. -/
def accessNodes (s : Shadow Ty) (field : VirtualField Ty) (var : String) : List Node :=
  s.expandNodes field var (t.scope x) t.size ++
    [{ kind := .paren (t.size + (s.expandNodes field var (t.scope x) t.size).length - 1), scope := t.scope x
       ty := s.expandedTy field }]

theorem children_accessNodes {t : Tree} {x i c : Nat} {s : Shadow Ty} {field : VirtualField Ty} {var : String}
    {m : Node} (hi : (t.accessNodes x s field var)[i]? = .some m) (hc : c ∈ m.kind.children) :
    t.size ≤ c ∧ c < t.size + i := by
  rw [accessNodes] at hi
  have hpos := s.length_expandNodes_pos field var (t.scope x) t.size
  rcases Nat.lt_or_ge i (s.expandNodes field var (t.scope x) t.size).length with hlt | hge
  · rw [List.getElem?_append_left hlt] at hi
    exact Shadow.children_expandNodes hi hc
  · rw [List.getElem?_append_right hge, List.getElem?_singleton] at hi
    split at hi
    · cases hi
      simp only [Kind.children, List.mem_singleton] at hc
      omega
    · cases hi

/-- The nodes that replace an access by what they are. -/
theorem mem_accessNodes {t : Tree} {x : Nat} {s : Shadow Ty} {field : VirtualField Ty} {var : String}
    {m : Node} (h : m ∈ t.accessNodes x s field var) :
    m.scope = t.scope x ∧
    ((m.kind = .ident var ∧ (m.ty = .some (.named s.shadowedName) ∨ m.ty = s.expandedTy field)) ∨
    (m.ty = .none ∧ ∃ name, .field name ∈ field.path ∧ (m.kind = .ident name ∨ ∃ i, m.kind = .selector i)) ∨
    (m.ty = .some .int ∧ ∃ i, m.kind = .literal (.int i)) ∨
    (m.ty = .none ∧ ∃ i, m.kind = .index i) ∨
    (m.ty = s.expandedTy field ∧ ((∃ l, m.kind = .factor t.size l) ∨ ∃ i, m.kind = .paren i))) := by
  rw [accessNodes, List.mem_append, List.mem_singleton] at h
  rcases h with h | rfl
  · unfold Shadow.expandNodes at h
    split at h
    · obtain rfl := List.mem_singleton.mp h
      exact ⟨rfl, .inl ⟨rfl, .inr rfl⟩⟩
    · simp only [List.mem_cons, List.mem_append, List.not_mem_nil, or_false] at h
      rcases h with rfl | h | rfl
      · exact ⟨rfl, .inl ⟨rfl, .inl rfl⟩⟩
      · rcases Shadow.mem_pathNodes h with ⟨name, hname, rfl | ⟨i, rfl⟩⟩ | ⟨i, rfl⟩ | ⟨i, rfl⟩
        · exact ⟨rfl, .inr (.inl ⟨rfl, name, hname, .inl rfl⟩)⟩
        · exact ⟨rfl, .inr (.inl ⟨rfl, name, hname, .inr ⟨i, rfl⟩⟩)⟩
        · exact ⟨rfl, .inr (.inr (.inl ⟨rfl, i, rfl⟩))⟩
        · exact ⟨rfl, .inr (.inr (.inr (.inl ⟨rfl, i, rfl⟩)))⟩
      · exact ⟨rfl, .inr (.inr (.inr (.inr ⟨rfl, .inl ⟨_, rfl⟩⟩)))⟩
  · exact ⟨rfl, .inr (.inr (.inr (.inr ⟨rfl, .inr ⟨_, rfl⟩⟩)))⟩

/-- The index of the parentheses. -/
def parenId (s : Shadow Ty) (field : VirtualField Ty) (var : String) : Nat :=
  t.size + (s.expandNodes field var (t.scope x) t.size).length

/-- The tree with the chain `x` replaced. -/
def accessed (s : Shadow Ty) (field : VirtualField Ty) (var : String) (rest : List NodeId) : Tree :=
  (((t.addAll (t.accessNodes x s field var)).setKind x (.factor (t.parenId x s field var) rest)).setParent
    (t.parenId x s field var) x).setTy? x
      (if rest.isEmpty then s.expandedTy field else (t.ty x).map Ty.erased)

/-- The tree with the written type of a declaration replaced. -/
def reascribed (ascription : Option NodeId) (s : Shadow Ty) : Tree :=
  match ascription with
  | .none => t
  | .some a => (t.setKind a (.ident s.shadowedName)).setTy a s.shadowedTy

/-- The tree with the binder or declaration `x` of `name` made concrete. -/
def redeclared (name : NodeId) (ascription : Option NodeId) (s : Shadow Ty) (token : String) : Tree :=
  (((t.reascribed ascription s).setTy x s.shadowedTy).setTy name s.shadowedTy).modifyEnv
    (·.set (t.scope x) token s.shadowedTy)

end Tree

/-- What making the node `x` concrete does to a tree. -/
inductive NodeConcrete (x : NodeId) (t : Tree) : Tree → Prop where
  | plain (h : t.Plain x) : NodeConcrete x t t
  | access {operand first rest s fieldId field var vf} (kind : t.kind x = .factor operand (first :: rest))
      (shadow : t.shadow? operand = .some s) (selector : t.kind first = .selector fieldId)
      (token : t.kind fieldId = .ident field) (root : t.kind operand = .ident var)
      (known : s.field? field = .some vf) : NodeConcrete x t (t.accessed x s vf var rest)
  | declaration {name ascription s token} (decl : t.shadowDecl? x = .some (name, ascription, s))
      (written : ∀ a ∈ ascription, ∃ old, t.kind a = .ident old)
      (named : (t.reascribed ascription s).kind name = .ident token) :
      NodeConcrete x t (t.redeclared x name ascription s token)
  | identifier {token s} (kind : t.kind x = .ident token) (shadow : t.shadow? x = .some s) :
      NodeConcrete x t (t.setTy x s.shadowedTy)

namespace Pass

variable {x : Nat} {t' : Tree} {w w' : Work}

/-- The tree that `replaceAccess` puts together is `accessed`. -/
theorem accessed_eq {t t₁ : Tree} (s : Shadow Ty) (vf : VirtualField Ty) (var : String) (rest : List NodeId)
    {inner : Nat} (hx : x < t.size) (ht₁ : t₁ = t.addAll (s.expandNodes vf var (t.scope x) t.size))
    (hinner : inner = t.size + (s.expandNodes vf var (t.scope x) t.size).length - 1) :
    let t₂ := (((t₁.add { kind := .paren inner, scope := t.scope x }).setTy? t₁.size (t₁.ty inner)).setKind x
      (.factor t₁.size rest)).setParent t₁.size x
    t₂.setTy? x (if rest.isEmpty then t₁.ty inner else (t₂.ty x).map Ty.erased) = t.accessed x s vf var rest := by
  have hlast : t₁.ty inner = s.expandedTy vf := by rw [ht₁, hinner, s.ty_expandNodes]
  have hsize : t₁.size = t.parenId x s vf var := by rw [ht₁, size_addAll]; rfl
  have hnodes : (t₁.add { kind := .paren inner, scope := t.scope x }).setTy? t₁.size (s.expandedTy vf) =
      t.addAll (t.accessNodes x s vf var) := by
    rw [Build.setTy?_add, accessNodes, addAll_snoc, ← ht₁, ← hinner]
  rw [hsize] at hnodes
  have hty : (t.addAll (t.accessNodes x s vf var)).ty x = t.ty x := (Extends.addAll ..).ty x hx
  simp only [hlast, hnodes, hsize, ty_setParent, ty_setKind, hty]
  rfl

theorem yields_replaceAccess {first : NodeId} {rest : List NodeId} {s : Shadow Ty} {field var : String}
    {u : Unit} (hx : x < w.tree.size) :
    Yields (replaceAccess x first rest s field var) w u w' ↔
      ∃ vf, s.field? field = .some vf ∧
        w' = ⟨w.tree.accessed x s vf var rest, w.log ++ [.access var field s.name x]⟩ := by
  simp only [replaceAccess, yields_bind, yields_tree, Shadow.expand]
  cases hf : s.field? field with
  | none =>
    constructor
    · rintro ⟨_, _, ⟨rfl, rfl⟩, h⟩
      exact (not_yields_throw h).elim
    · rintro ⟨_, h, -⟩
      cases h
  | some vf =>
    have htree := accessed_eq s vf var rest hx rfl rfl
    simp only at htree
    constructor
    · rintro ⟨_, _, ⟨rfl, rfl⟩, h⟩
      simp only [Shadow.run_expandField, Build.paren, Build.run_alloc, htree, yields_bind, yields_modifyTree,
        yields_note] at h
      obtain ⟨_, _, rfl, rfl⟩ := h
      exact ⟨vf, rfl, rfl⟩
    · rintro ⟨vf', hvf, rfl⟩
      obtain rfl := Option.some.inj hvf
      refine ⟨_, _, ⟨rfl, rfl⟩, ?_⟩
      simp only [Shadow.run_expandField, Build.paren, Build.run_alloc, htree, yields_bind, yields_modifyTree,
        yields_note]
      exact ⟨(), _, rfl, rfl⟩

theorem leads_concreteChain {operand : NodeId} {steps : List NodeId}
    (hk : w.tree.kind x = .factor operand steps) :
    (∃ c, Leads (concreteChain x operand steps) w c t') ↔ NodeConcrete x w.tree t' := by
  have hx : x < w.tree.size := lt_size_of_kind hk (by simp)
  have hdecl : w.tree.shadowDecl? x = .none := by simp [shadowDecl?, hk]
  have hplain : (w.tree.shadow? operand = .none ∨
      ∃ first rest, steps = first :: rest ∧ ∀ field, w.tree.kind first ≠ .selector field) → w.tree.Plain x := by
    intro h
    refine ⟨hdecl, fun token hid => ?_, fun o ss ho => ?_⟩
    · rw [hk] at hid
      cases hid
    · obtain ⟨rfl, rfl⟩ := Kind.factor.inj (hk.symm.trans ho)
      exact h
  simp only [Leads, concreteChain, yields_bind, yields_tree]
  constructor
  · rintro ⟨c, w', ⟨_, _, ⟨rfl, rfl⟩, h⟩, rfl⟩
    split at h
    next hs =>
      obtain ⟨-, rfl⟩ := yields_pure.mp h
      exact .plain (hplain (.inl hs))
    next s hs =>
      split at h
      next => exact (not_yields_throw h).elim
      next first rest =>
        split at h
        next fieldId hfirst =>
          simp only [yields_bind, yields_ofExcept] at h
          obtain ⟨field, _, ⟨hfield, rfl⟩, h⟩ := h
          split at h
          next => exact (not_yields_throw h).elim
          next var hvar =>
            simp only [yields_bind, yields_replaceAccess hx, yields_pure] at h
            obtain ⟨_, _, ⟨vf, hvf, rfl⟩, -, rfl⟩ := h
            exact .access hk hs hfirst (tokenAs_ok.mp hfield) (token?_eq_some.mp hvar) hvf
        next hfirst =>
          obtain ⟨-, rfl⟩ := yields_pure.mp h
          exact .plain (hplain (.inr ⟨first, rest, rfl, fun f hf => hfirst f hf⟩))
  · intro h
    cases h with
    | plain h =>
      rcases h.chain operand steps hk with hs | ⟨first, rest, rfl, hne⟩
      · refine ⟨.none, w, ⟨_, _, ⟨rfl, rfl⟩, ?_⟩, rfl⟩
        rw [hs]
        exact yields_pure.mpr ⟨rfl, rfl⟩
      · refine ⟨.none, w, ⟨_, _, ⟨rfl, rfl⟩, ?_⟩, rfl⟩
        cases hs : w.tree.shadow? operand with
        | none => exact yields_pure.mpr ⟨rfl, rfl⟩
        | some s =>
          simp only
          exact yields_pure.mpr ⟨rfl, rfl⟩
    | @access operand' first rest s fieldId field var vf kind shadow selector token root known =>
      obtain ⟨rfl, rfl⟩ := Kind.factor.inj (hk.symm.trans kind)
      refine ⟨.some .access, ⟨_, w.log ++ [.access var field s.name x]⟩, ⟨_, _, ⟨rfl, rfl⟩, ?_⟩, rfl⟩
      simp only [shadow, selector, yields_bind, yields_ofExcept]
      refine ⟨field, w, ⟨tokenAs_ok.mpr token, rfl⟩, ?_⟩
      simp only [token?_eq_some.mpr root, yields_bind, yields_replaceAccess hx, yields_pure]
      exact ⟨(), _, ⟨vf, known, rfl⟩, trivial, rfl⟩
    | declaration decl => rw [hdecl] at decl; cases decl
    | identifier kind => rw [hk] at kind; cases kind

theorem setToken?_eq {t : Tree} {a : NodeId} {token : String} :
    t.setToken? a token = if (t.token? a).isSome then .some (t.setKind a (.ident token)) else .none := by
  unfold setToken? edit? token?
  cases t.kind a <;> rfl

theorem yields_redeclare {name : NodeId} {ascription : Option NodeId} {s : Shadow Ty} {role : IdentRole}
    {token : String} :
    Yields (redeclare x name ascription s role) w token w' ↔
      (∀ a ∈ ascription, ∃ old, w.tree.kind a = .ident old) ∧
      (w.tree.reascribed ascription s).kind name = .ident token ∧
      w' = { w with tree := w.tree.redeclared x name ascription s token } := by
  have hkind : ∀ t : Tree, ((t.setTy x s.shadowedTy).setTy name s.shadowedTy).kind name = t.kind name := fun t => by
    simp [setTy]
  have hscope : ∀ t : Tree, ((t.setTy x s.shadowedTy).setTy name s.shadowedTy).scope x = t.scope x := fun t => by
    simp [setTy]
  cases ascription with
  | none =>
    simp only [redeclare, yields_bind, yields_pure, yields_modifyTree, yields_tree, yields_ofExcept, tokenAs_ok]
    constructor
    · rintro ⟨_, _, rfl, _, _, ⟨rfl, rfl⟩, _, _, ⟨htok, rfl⟩, _, _, rfl, rfl, rfl⟩
      rw [hkind] at htok
      refine ⟨by simp, htok, ?_⟩
      rw [hscope]
      rfl
    · rintro ⟨-, htok, rfl⟩
      refine ⟨(), _, rfl, _, _, ⟨rfl, rfl⟩, token, _, ⟨?_, rfl⟩, (), _, rfl, rfl, ?_⟩
      · rw [hkind]
        exact htok
      · rw [hscope]
        rfl
  | some a =>
    have hscope' : (w.tree.reascribed (.some a) s).scope x = w.tree.scope x := by
      simp [reascribed, setTy]
    simp only [redeclare, yields_bind, yields_tree, setToken?_eq]
    constructor
    · rintro ⟨_, _, ⟨rfl, rfl⟩, h⟩
      split at h
      next => exact (not_yields_throw h).elim
      next t ht =>
        split at ht
        next hold =>
          obtain rfl := Option.some.inj ht
          obtain ⟨old, hold⟩ := Option.isSome_iff_exists.mp hold
          simp only [yields_bind, yields_modifyTree, yields_tree, yields_ofExcept, tokenAs_ok, yields_pure] at h
          obtain ⟨_, _, rfl, _, _, rfl, _, _, ⟨rfl, rfl⟩, _, _, ⟨htok, rfl⟩, _, _, rfl, rfl, rfl⟩ := h
          rw [hkind] at htok
          refine ⟨fun b hb => ?_, htok, ?_⟩
          · obtain rfl : a = b := by simpa using hb
            exact ⟨old, token?_eq_some.mp hold⟩
          · rw [hscope, redeclared, ← hscope']
            rfl
        next => cases ht
    · rintro ⟨hold, htok, rfl⟩
      obtain ⟨old, hold⟩ := hold a rfl
      refine ⟨_, _, ⟨rfl, rfl⟩, ?_⟩
      rw [if_pos (by rw [token?_eq_some.mpr hold]; rfl)]
      simp only [yields_bind, yields_modifyTree, yields_tree, yields_ofExcept, tokenAs_ok, yields_pure]
      refine ⟨(), _, rfl, (), _, rfl, _, _, ⟨rfl, rfl⟩, token, _, ⟨?_, rfl⟩, (), _, rfl, rfl, ?_⟩
      · rw [hkind]
        exact htok
      · rw [hscope, redeclared, ← hscope']
        rfl

/-- Binders and declarations are gone about in the same way. -/
def concreteAs (x name : NodeId) (ascription : Option NodeId) (role : IdentRole)
    (message : String → Shadow Ty → Note) (change : Change) : Option (Shadow Ty) → Pass (Option Change)
  | .none => return .none
  | .some s => do
    let token ← redeclare x name ascription s role
    note (message token s)
    return .some change

theorem leads_concreteAs (name : NodeId) (ascription : Option NodeId) (role : IdentRole)
    (message : String → Shadow Ty → Note) (change : Change) {declared : Option (Shadow Ty)}
    (hdecl : w.tree.shadowDecl? x = declared.map (name, ascription, ·)) (hident : ∀ token, w.tree.kind x ≠ .ident token)
    (hfactor : ∀ operand steps, w.tree.kind x ≠ .factor operand steps) :
    (∃ c, Leads (concreteAs x name ascription role message change declared) w c t') ↔
      NodeConcrete x w.tree t' := by
  cases declared with
  | none =>
    simp only [Leads, concreteAs, yields_pure]
    constructor
    · rintro ⟨_, _, ⟨-, rfl⟩, rfl⟩
      exact .plain ⟨hdecl, fun token h => absurd h (hident token), fun o ss h => absurd h (hfactor o ss)⟩
    · intro h
      cases h with
      | plain => exact ⟨_, w, ⟨rfl, rfl⟩, rfl⟩
      | access kind => exact absurd kind (hfactor _ _)
      | declaration decl => rw [hdecl] at decl; cases decl
      | identifier kind => exact absurd kind (hident _)
  | some s =>
    simp only [Leads, concreteAs, yields_bind, yields_redeclare, yields_note, yields_pure]
    constructor
    · rintro ⟨_, _, ⟨token, _, ⟨hold, htok, rfl⟩, _, _, rfl, rfl, rfl⟩, rfl⟩
      exact .declaration hdecl hold htok
    · intro h
      cases h with
      | plain h => rw [h.decl] at hdecl; cases hdecl
      | access kind => exact absurd kind (hfactor _ _)
      | @declaration name' ascription' s' token decl written named =>
        rw [hdecl] at decl
        simp only [Option.map_some, Option.some.injEq, Prod.mk.injEq] at decl
        obtain ⟨rfl, rfl, rfl⟩ := decl
        exact ⟨_, ⟨_, w.log ++ [message token s]⟩, ⟨token, _, ⟨written, named, rfl⟩, (), _, rfl, rfl, rfl⟩, rfl⟩
      | identifier kind => exact absurd kind (hident _)

theorem leads_concreteIdent {token : String} (hk : w.tree.kind x = .ident token) :
    (∃ c, Leads (concreteIdent x) w c t') ↔ NodeConcrete x w.tree t' := by
  have hdecl : w.tree.shadowDecl? x = .none := by simp [shadowDecl?, hk]
  simp only [concreteIdent, leads_tree_bind]
  cases hs : w.tree.shadow? x with
  | none =>
    simp only [Leads, yields_pure]
    constructor
    · rintro ⟨_, _, ⟨-, rfl⟩, rfl⟩
      exact .plain ⟨hdecl, fun _ _ => hs, fun o ss h => by rw [hk] at h; cases h⟩
    · intro h
      cases h with
      | plain => exact ⟨_, w, ⟨rfl, rfl⟩, rfl⟩
      | access kind => rw [hk] at kind; cases kind
      | declaration decl => rw [hdecl] at decl; cases decl
      | identifier _ shadow => rw [hs] at shadow; cases shadow
  | some s =>
    simp only [Leads, yields_bind, yields_modifyTree, yields_pure]
    constructor
    · rintro ⟨_, _, ⟨_, _, rfl, rfl, rfl⟩, rfl⟩
      exact .identifier hk hs
    · intro h
      cases h with
      | plain h => rw [h.ident token hk] at hs; cases hs
      | access kind => rw [hk] at kind; cases kind
      | declaration decl => rw [hdecl] at decl; cases decl
      | identifier _ shadow =>
        obtain rfl := Option.some.inj (hs.symm.trans shadow)
        exact ⟨_, _, ⟨(), _, rfl, rfl, rfl⟩, rfl⟩

theorem leads_concreteNode : (∃ c, Leads (concreteNode x) w c t') ↔ NodeConcrete x w.tree t' := by
  simp only [concreteNode, leads_tree_bind]
  split
  next operand steps hk => exact leads_concreteChain hk
  next name ascription hk =>
    simp only [concreteComponent, leads_tree_bind]
    exact leads_concreteAs name (.some ascription) .binder (fun token s => .binder token s.name s.shadowedName) .binder
      (by simp [shadowDecl?, hk]) (by simp [hk]) (by simp [hk])
  next name ascription init hk =>
    simp only [concreteDecl, leads_tree_bind]
    cases ascription with
    | none =>
      exact leads_concreteAs name .none .declaredVariable
        (fun token s => .declaration token s.name s.shadowedName) .declaration
        (by simp [shadowDecl?, hk]) (by simp [hk]) (by simp [hk])
    | some a =>
      exact leads_concreteAs name (.some a) .declaredVariable
        (fun token s => .declaration token s.name s.shadowedName) .declaration
        (by simp [shadowDecl?, hk]) (by simp [hk]) (by simp [hk])
  next token hk => exact leads_concreteIdent hk
  next hfactor hcomponent hdecl hident =>
    have hnone : w.tree.shadowDecl? x = .none := by
      unfold shadowDecl?
      split
      next hk => exact absurd hk (hcomponent _ _)
      next hk => exact absurd hk (hdecl _ _ _)
      next hk => exact absurd hk (hdecl _ _ _)
      next => rfl
    simp only [Leads, yields_pure]
    constructor
    · rintro ⟨_, _, ⟨-, rfl⟩, rfl⟩
      exact .plain ⟨hnone, fun token h => absurd h (hident token), fun o ss h => absurd h (hfactor o ss)⟩
    · intro h
      cases h with
      | plain => exact ⟨_, w, ⟨rfl, rfl⟩, rfl⟩
      | access kind => exact absurd kind (hfactor _ _)
      | declaration decl => rw [hnone] at decl; cases decl
      | identifier kind => exact absurd kind (hident _)

end Pass

/-! ## All below a node -/

/-- What making `x` and all below it concrete does to a tree. -/
def Concreted : Nat → NodeId → Tree → Tree → Prop
  | 0, _, _, _ => False
  | n + 1, x, t, t' => ∃ t₁, NodeConcrete x t t₁ ∧ Chain (Concreted n) (t₁.children x) t₁ t'

namespace Pass

variable {w : Work} {t' : Tree}

theorem leads_concreteDown (n : Nat) (x : NodeId) :
    (∃ visits, Leads (concreteDown n x) w visits t') ↔ Concreted n x w.tree t' := by
  induction n generalizing x w t' with
  | zero =>
    refine ⟨fun ⟨_, _, h, _⟩ => (not_yields_throw h).elim, fun h => h.elim⟩
  | succ n ih =>
    have hlist : ∀ (w : Work) (l : List NodeId) (t' : Tree),
        (∃ visits, Leads (l.mapM (concreteDown n)) w visits t') ↔ Chain (Concreted n) l w.tree t' :=
      fun w l t' => leads_mapM fun y _ _ _ => ih y
    simp only [Leads, concreteDown, yields_bind, yields_tree, yields_pure, Concreted]
    constructor
    · rintro ⟨_, _, ⟨c, w₁, hnode, _, _, ⟨rfl, rfl⟩, below, w₂, hbelow, rfl, rfl⟩, rfl⟩
      exact ⟨w₁.tree, leads_concreteNode.mp ⟨c, w₁, hnode, rfl⟩, (hlist _ _ _).mp ⟨below, w₂, hbelow, rfl⟩⟩
    · rintro ⟨t₁, hnode, hbelow⟩
      obtain ⟨c, w₁, hx, rfl⟩ := leads_concreteNode.mpr hnode
      obtain ⟨below, w₂, hl, rfl⟩ := (hlist w₁ _ _).mpr hbelow
      exact ⟨_, w₂, ⟨c, w₁, hx, _, _, ⟨rfl, rfl⟩, below, w₂, hl, rfl, rfl⟩, rfl⟩

theorem leads_concretize :
    Leads concretize w () t' ↔ Concreted (depthBound w.tree) root w.tree t' := by
  rw [← leads_concreteDown]
  simp only [Leads, concretize, yields_bind, yields_tree, yields_note]
  constructor
  · rintro ⟨_, ⟨_, _, ⟨rfl, rfl⟩, visits, w₁, h, rfl⟩, rfl⟩
    exact ⟨visits, w₁, h, rfl⟩
  · rintro ⟨visits, w₁, h, rfl⟩
    exact ⟨_, ⟨_, _, ⟨rfl, rfl⟩, visits, w₁, h, rfl⟩, rfl⟩

end Pass

end Penumbra
