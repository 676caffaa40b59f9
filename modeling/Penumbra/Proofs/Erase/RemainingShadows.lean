/-
What erasing leaves of shadow types.

Every type that erasing gives to a node or binds to a name is found in the
tree it starts with, as the type of a node or binding, or is part of a shadow
type found there, or is the concrete tuple type of one (`Occurs`). No type is
looked into: a shadow type inside an array is passed on with the array. The
last check finds shadow types themselves, so what is left afterwards are
arrays that the tree had from the start (`erase_leaves_only_arrays`). It tells
by parent links which identifiers refer to variables, so these have to be right
(`LinkHolds`).
-/
import Penumbra.Proofs.Concrete.KeepsOwned
import Penumbra.Proofs.Env.Lookup
import Penumbra.Proofs.Erase.Idempotence

namespace Penumbra

open Tree

namespace Ty

/-- The type is a shadow type or an array with one inside, however deep. -/
def hasShadow : Ty → Bool
  | .shadow _ => true
  | .array elem => elem.hasShadow
  | _ => false

theorem eq_array_of_hasShadow {ty : Ty} (h : ty.hasShadow = true) (hs : ty.isShadow = false) :
    ∃ elem, ty = .array elem := by
  cases ty with
  | array elem => exact ⟨elem, rfl⟩
  | shadow => cases hs
  | _ => cases h

end Ty

/-- The type is found in the tree: it is the type of a node of the program or
bound in a scope, or part of a shadow type that is found. -/
inductive Occurs (t : Tree) : Ty → Prop where
  | node {x ty} (reachable : t.Reachable x) (typed : t.ty x = .some ty) : Occurs t ty
  | var {u name ty} (bound : (t.env.scope u).vars.get? name = .some ty) : Occurs t ty
  | name {u name ty} (bound : (t.env.scope u).types.get? name = .some ty) : Occurs t ty
  | shadowed {s ty} (shadow : Occurs t (.shadow s)) (override : s.shadowedTy? = .some ty) : Occurs t ty
  | discriminant {s} (shadow : Occurs t (.shadow s)) : Occurs t s.discriminantTy
  | field {s f} (shadow : Occurs t (.shadow s)) (mem : f ∈ s.fields) : Occurs t f.ty

/-! ## A property of types that erasing keeps -/

/-- `P` holds of all types without a shadow type, and passes from a shadow type
to its parts. -/
structure Inherited (P : Ty → Prop) : Prop where
  concrete : ∀ ty, ty.hasShadow = false → P ty
  shadowed : ∀ s, P (.shadow s) → P s.shadowedTy
  discriminant : ∀ s, P (.shadow s) → P s.discriminantTy
  field : ∀ s f, f ∈ s.fields → P (.shadow s) → P f.ty

theorem inherited_occurs (t : Tree) : Inherited fun ty => ty.hasShadow = false ∨ Occurs t ty where
  concrete _ h := .inl h
  shadowed s h := by
    have hs := h.resolve_left (by simp [Ty.hasShadow])
    cases ho : s.shadowedTy? with
    | none => exact .inl (by rw [Shadow.shadowedTy, ho]; rfl)
    | some ty => exact .inr (by rw [Shadow.shadowedTy, ho]; exact .shadowed hs ho)
  discriminant s h := .inr (.discriminant (h.resolve_left (by simp [Ty.hasShadow])))
  field s f hf h := .inr (.field (h.resolve_left (by simp [Ty.hasShadow])) hf)

/-- `P` holds of the types of the nodes in `S`, and of everything bound. -/
structure TypedIn (P : Ty → Prop) (t : Tree) (S : Set Nat) : Prop where
  ty : ∀ x ∈ S, ∀ ty ∈ t.ty x, P ty
  env : t.env.All P

theorem typedIn_occurs (t : Tree) : TypedIn (Occurs t) t { x | t.Reachable x } :=
  ⟨fun _ hx _ hty => .node hx hty, fun _ _ _ hb => .var hb, fun _ _ _ hb => .name hb⟩

theorem TypedIn.imp {P Q : Ty → Prop} {t : Tree} {S : Set Nat} (h : TypedIn P t S) (hPQ : ∀ ty, P ty → Q ty) : TypedIn Q t S :=
  ⟨fun x hx ty hty => hPQ ty (h.ty x hx ty hty), fun u n ty hb => hPQ ty (h.env.vars u n ty hb),
    fun u n ty hb => hPQ ty (h.env.types u n ty hb)⟩

/-- What occurs in a tree has every property that its types have and that passes
to their parts. -/
theorem Occurs.of_inherited {P : Ty → Prop} (hP : Inherited P) {t : Tree} (hI : TypedIn P t { x | t.Reachable x }) {ty : Ty}
    (h : Occurs t ty) : P ty := by
  induction h with
  | node reachable typed => exact hI.ty _ reachable _ typed
  | var bound => exact hI.env.vars _ _ _ bound
  | name bound => exact hI.env.types _ _ _ bound
  | @shadowed s ty _ override ih =>
    have hs := hP.shadowed s ih
    rwa [Shadow.shadowedTy, override] at hs
  | discriminant _ ih => exact hP.discriminant _ ih
  | field _ mem ih => exact hP.field _ _ mem ih

/-! ## Checking the types of a given tree -/

/-- `P` holds of the type of every node, reachable or not, and of all types that
the scopes list. -/
def Tree.ListsTypes (P : Ty → Prop) (t : Tree) : Prop :=
  (∀ x : Nat, x < t.size → ∀ ty ∈ t.ty x, P ty) ∧
    ∀ c ∈ t.env.scopes.toList, (∀ b ∈ c.vars.entries, P b.2) ∧ ∀ b ∈ c.types.entries, P b.2

instance {P : Ty → Prop} [DecidablePred P] {t : Tree} : Decidable (t.ListsTypes P) :=
  inferInstanceAs (Decidable ((∀ x : Nat, x < t.size → ∀ ty ∈ t.ty x, P ty) ∧
    ∀ c ∈ t.env.scopes.toList, (∀ b ∈ c.vars.entries, P b.2) ∧ ∀ b ∈ c.types.entries, P b.2))

theorem Tree.ListsTypes.typedIn {P : Ty → Prop} {t : Tree} (h : t.ListsTypes P) (S : Set Nat) : TypedIn P t S := by
  have hscope : ∀ u : Nat, t.env.scope u = {} ∨ t.env.scope u ∈ t.env.scopes.toList := fun u => by
    by_cases hu : u < t.env.scopes.size
    · exact .inr (by simp [Env.scope, Array.getD, hu])
    · exact .inl (by simp [Env.scope, Array.getD, hu])
  refine ⟨fun x _ ty hty => ?_, fun u name ty hb => ?_, fun u name ty hb => ?_⟩
  · by_cases hx : x < t.size
    · exact h.1 x hx ty hty
    · rw [Tree.ty, node_of_size_le (Nat.le_of_not_lt hx)] at hty
      cases hty
  · rcases hscope u with he | hmem
    · rw [he] at hb
      cases hb
    · exact (h.2 _ hmem).1 _ (Bindings.get?_eq_some_iff.mp hb)
  · rcases hscope u with he | hmem
    · rw [he] at hb
      cases hb
    · exact (h.2 _ hmem).2 _ (Bindings.get?_eq_some_iff.mp hb)

/-- No array has a shadow type inside, neither the type itself nor a part of the shadow
type that it is. -/
def Ty.flat : Ty → Bool
  | .array elem => !elem.hasShadow
  | .shadow s => !s.shadowedTy.hasShadow && !s.discriminantTy.hasShadow && s.fields.all fun f => !f.ty.hasShadow
  | _ => true

theorem inherited_flat : Inherited fun ty => ty.flat = true := by
  have hconcrete : ∀ ty : Ty, ty.hasShadow = false → ty.flat = true := fun ty h => by
    cases ty with
    | array elem => simpa [Ty.flat, Ty.hasShadow] using h
    | shadow => cases h
    | _ => rfl
  refine ⟨hconcrete, fun s h => hconcrete _ ?_, fun s h => hconcrete _ ?_, fun s f hf h => hconcrete _ ?_⟩ <;>
    simp only [Ty.flat, Bool.and_eq_true, Bool.not_eq_true', List.all_eq_true] at h
  · exact h.1.1
  · exact h.1.2
  · exact h.2 f hf

section Types

variable {P : Ty → Prop} {t t' v v' : Tree} {S : Set Nat} {x y n : Nat} {f : Family}

theorem TypedIn.shadow? (h : TypedIn P t S) (hx : x ∈ S) {s : Shadow Ty} (hs : t.shadow? x = .some s) :
    P (.shadow s) := by
  rw [Tree.shadow?, Option.bind_eq_some_iff] at hs
  obtain ⟨ty, hty, hs⟩ := hs
  cases ty with
  | shadow s' =>
    obtain rfl := Option.some.inj hs
    exact h.ty x hx _ hty
  | _ => cases hs

theorem TypedIn.declaredShadow? (h : TypedIn P t S) {owner ascription : Nat} (ho : owner ∈ S) (ha : ascription ∈ S)
    {s : Shadow Ty} (hs : t.declaredShadow? owner ascription = .some s) : P (.shadow s) := by
  rw [Tree.declaredShadow?, Option.bind_eq_some_iff] at hs
  obtain ⟨ty, hty, hs⟩ := hs
  have hshadow : ty = .shadow s := by
    cases ty with
    | shadow s' => rw [Option.some.inj hs]
    | _ => cases hs
  subst hshadow
  rw [declaredTy?] at hty
  cases howner : t.ty owner with
  | some ty =>
    rw [howner] at hty
    exact h.ty owner ho _ (howner.trans hty)
  | none =>
    cases hasc : t.ty ascription with
    | some ty =>
      rw [howner, hasc] at hty
      exact h.ty ascription ha _ (hasc.trans hty)
    | none =>
      rw [howner, hasc, Option.none_or, Option.none_or, Option.bind_eq_some_iff] at hty
      obtain ⟨token, -, hty⟩ := hty
      exact h.env.getType? hty

/-- Every arm of a visitor in the set has a type with `P`. -/
theorem TypedIn.shadowArm? (h : TypedIn P t S) (hS : t.Closed S) (hx : x ∈ S) {p : Phase} {a : ShadowArm}
    (ha : t.shadowArm? x = .ok (.some (p, a))) : P (.shadow a.shadow) := by
  obtain ⟨p', c, body, name, ascription, hkx, hkc, hr⟩ := shadowArm?_ok.mp ha
  obtain ⟨shadow, binder, hd, -, heq⟩ := hr.resolve_left (by simp)
  have hc : c ∈ S := hS.child x hx c (binder_mem_children hkx)
  have hasc : ascription ∈ S := hS.child c hc ascription (ascription_mem_children hkc)
  obtain ⟨-, rfl⟩ := Prod.mk.inj (Option.some.inj heq)
  exact h.declaredShadow? hc hasc hd

theorem TypedIn.rebind (hP : Inherited P) {e : Env} (he : e.All P) (hf : ∀ a ∈ f.arms, P (.shadow a.shadow)) :
    (f.rebind e).All P := by
  have hfold : ∀ (arms : List ShadowArm) (e : Env), e.All P → (∀ a ∈ arms, P (.shadow a.shadow)) →
      (arms.foldl (fun e a => e.set a.scope a.binder a.shadow.shadowedTy) e).All P := by
    intro arms
    induction arms with
    | nil => exact fun e he _ => he
    | cons a arms ih =>
      intro e he ha
      exact ih _ (he.set (hP.shadowed _ (ha a (by simp)))) fun b hb => ha b (by simp [hb])
  exact hfold f.arms e he hf

theorem kept_typed (hP : Inherited P) : Kept (TypedIn P) fun a => P (.shadow a.shadow) where
  armed f vs v S hS hG hI := by
    have hfirst := hP.shadowed _ (hG f.first List.mem_cons_self)
    refine ⟨fun x hx ty hty => ?_, ?_⟩
    · rcases hx with hx | hx
      · rw [(f.extends_armed vs).ty x (hS.bounded x hx)] at hty
        exact hI.ty x hx ty hty
      · obtain ⟨m, hm, -, -, hmty, -⟩ := new_addAll (t := v.modifyEnv (f.bindNew vs)) hx.1 hx.2
        rw [Family.armed, hmty] at hty
        simp only [Family.armNodes, List.mem_cons, List.not_mem_nil, or_false] at hm
        rcases hm with rfl | rfl | rfl | rfl | rfl
        · exact Option.some.inj hty ▸ hfirst
        · exact Option.some.inj hty ▸ hfirst
        · exact Option.some.inj hty ▸ hfirst
        · cases hty
        · cases hty
    · rw [Family.armed, env_addAll, env_modifyEnv]
      exact hI.env.child.declare hfirst
  mirrored v v' S φ hS hφ hI := by
    refine ⟨fun x hx ty hty => ?_, hφ.env ▸ hI.env⟩
    rcases hx with hx | hx
    · rw [hφ.grows.ty x (hS.bounded x hx)] at hty
      exact hI.ty x hx ty hty
    · rw [hφ.ty x hx.1 hx.2] at hty
      exact hI.ty (φ x) (hφ.origin x hx.1 hx.2) ty hty
  merged f binder target default v v' S hS hG h hI := by
    have hfirst := hG f.first List.mem_cons_self
    refine ⟨fun x hx ty hty => ?_, ?_⟩
    · rw [h.ty] at hty
      rcases hx with hx | hx
      · rw [Family.switched, (Extends.addAll ..).ty x (hS.bounded x hx)] at hty
        exact hI.ty x hx ty hty
      · have hlt : x < (f.switched binder target default v).size := by
          have := hx.2
          obtain ⟨k, -, rfl⟩ := h
          simpa using this
        obtain ⟨m, hm, -, -, hmty, -⟩ := new_addAll hx.1 hlt
        rw [Family.switched, hmty] at hty
        rcases f.mem_switchNodes binder default hm with rfl | rfl | rfl | rfl | ⟨a, ha, rfl | ⟨l, rfl⟩⟩ | rfl
        · exact Option.some.inj hty ▸ hP.shadowed _ hfirst
        · cases hty
        · cases hty
        · exact Option.some.inj hty ▸ hP.discriminant _ hfirst
        · exact Option.some.inj hty ▸ hP.discriminant _ (hG a ha)
        · cases hty
        · cases hty
    · rw [h.env]
      exact TypedIn.rebind hP hI.env hG

/-- Lowering the visitors of a program keeps `P`. -/
theorem TypedIn.lowered (hP : Inherited P) {l : List Nat} (h : Chain VisitorLowered l t t') (hS : t.Closed S)
    (hl : ∀ x ∈ l, x ∈ S) (hI : TypedIn P t S) : ∃ S', S ⊆ S' ∧ t'.Closed S' ∧ TypedIn P t' S' := by
  induction h generalizing S with
  | nil => exact ⟨S, subset_rfl, hS, hI⟩
  | @cons V l t t₁ t' first rest ih =>
    have hV := hl V (by simp)
    have hkept := first.kept (kept_typed hP) (fun v S arms w _ _ hI => ⟨fun x hx ty hty => hI.ty x hx ty (by simpa using hty),
      by simpa using hI.env⟩) (fun arms wildcard hk arm harm p a ha => hI.shadowArm? hS
        (hS.child V hV arm (arm_mem_children hk harm)) ha) hS hV hI
    obtain ⟨S', hsub, hS', hI'⟩ := ih ((first.step hS hV).closed hS) (fun x hx => .inl (hl x (by simp [hx]))) hkept
    exact ⟨S', fun x hx => hsub (.inl hx), hS', hI'⟩

/-! ## Making nodes concrete -/

theorem Inherited.erased (hP : Inherited P) {ty : Ty} (h : P ty) : P ty.erased := by
  cases ty with
  | shadow s => exact hP.shadowed s h
  | _ => exact h

theorem Inherited.expandedTy (hP : Inherited P) {s : Shadow Ty} {field : String} {vf : VirtualField Ty}
    (hs : P (.shadow s)) (hf : s.field? field = .some vf) : ∀ ty ∈ s.expandedTy vf, P ty := by
  intro ty hty
  rw [Shadow.expandedTy] at hty
  split at hty
  · obtain rfl := Option.some.inj hty
    split
    · exact hP.concrete _ rfl
    · exact hP.field s vf (List.mem_of_find?_eq_some hf) hs
  · cases hty

theorem Tree.ty_accessed (t : Tree) (x : Nat) (s : Shadow Ty) (field : VirtualField Ty) (var : String)
    (rest : List NodeId) (y : Nat) (hx : x < t.size) :
    (t.accessed x s field var rest).ty y =
      if y = x then if rest.isEmpty then s.expandedTy field else (t.ty x).map Ty.erased
      else (t.addAll (t.accessNodes x s field var)).ty y := by
  have hx' : x < t.size + (t.accessNodes x s field var).length := by omega
  simp [accessed, ty_setTy?, hx']

theorem TypedIn.accessed (hP : Inherited P) {s : Shadow Ty} {field var : String} {vf : VirtualField Ty}
    (rest : List NodeId) (h : TypedIn P t S) (hS : t.Closed S) (hx : x ∈ S) (hs : P (.shadow s))
    (hf : s.field? field = .some vf) :
    TypedIn P (t.accessed x s vf var rest) (S ∪ fresh t (t.accessed x s vf var rest)) := by
  have hexp := hP.expandedTy hs hf
  refine ⟨fun y hy ty hty => ?_, by simpa [Tree.accessed] using h.env⟩
  rw [ty_accessed t x s vf var rest y (hS.bounded x hx)] at hty
  split at hty
  · split at hty
    · exact hexp ty hty
    · obtain ⟨old, hold, rfl⟩ := Option.mem_map.mp hty
      exact hP.erased (h.ty x hx old hold)
  · rcases hy with hy | hy
    · rw [(Extends.addAll ..).ty y (hS.bounded y hy)] at hty
      exact h.ty y hy ty hty
    · have hlt := hy.2
      rw [size_accessed, ← size_addAll] at hlt
      obtain ⟨m, hm, -, -, hmty, -⟩ := new_addAll hy.1 hlt
      rw [hmty] at hty
      rcases (mem_accessNodes hm).2 with ⟨-, hm | hm⟩ | ⟨hm, -⟩ | ⟨hm, -⟩ | ⟨hm, -⟩ | ⟨hm, -⟩ <;> rw [hm] at hty
      · exact Option.some.inj hty ▸ hP.concrete _ rfl
      · exact hexp ty hty
      · cases hty
      · exact Option.some.inj hty ▸ hP.concrete _ rfl
      · cases hty
      · exact hexp ty hty

/-- The shadow type of a declaration, wherever it was found. -/
theorem TypedIn.shadowDecl? (h : TypedIn P t S) (hS : t.Closed S) (hx : x ∈ S) {name : NodeId}
    {ascription : Option NodeId} {s : Shadow Ty} (hd : t.shadowDecl? x = .some (name, ascription, s)) :
    P (.shadow s) := by
  have hchild : ∀ {k c}, t.kind x = k → c ∈ k.children → c ∈ S := fun hk hc =>
    hS.child x hx _ (by rw [Tree.children, hk]; exact hc)
  unfold Tree.shadowDecl? at hd
  split at hd
  next n a hk =>
    obtain ⟨s', hs', heq⟩ := Option.map_eq_some_iff.mp hd
    obtain ⟨-, -, rfl⟩ := Prod.mk.inj heq |>.imp_right Prod.mk.inj
    exact h.declaredShadow? hx (hchild hk (by simp [Kind.children])) hs'
  next n a init hk =>
    obtain ⟨s', hs', heq⟩ := Option.map_eq_some_iff.mp hd
    obtain ⟨-, -, rfl⟩ := Prod.mk.inj heq |>.imp_right Prod.mk.inj
    exact h.declaredShadow? hx (hchild hk (by simp [Kind.children])) hs'
  next n init hk =>
    obtain ⟨s', hs', heq⟩ := Option.map_eq_some_iff.mp hd
    obtain ⟨-, -, rfl⟩ := Prod.mk.inj heq |>.imp_right Prod.mk.inj
    exact h.shadow? hx hs'
  next => cases hd

theorem Tree.ty_redeclared (t : Tree) (x name : NodeId) (ascription : Option NodeId) (s : Shadow Ty) (token : String)
    (y : Nat) : (t.redeclared x name ascription s token).ty y = .some s.shadowedTy ∨
      (t.redeclared x name ascription s token).ty y = t.ty y := by
  cases ascription <;> simp only [redeclared, reascribed, setTy, ty_modifyEnv, ty_setTy?, ty_setKind] <;>
    repeat' split
  all_goals simp

theorem NodeConcrete.typed (hP : Inherited P) (h : NodeConcrete x t t') (hS : t.Closed S) (hx : x ∈ S)
    (hI : TypedIn P t S) : TypedIn P t' (S ∪ fresh t t') := by
  cases h with
  | plain =>
    rw [fresh_self, Set.union_empty]
    exact hI
  | @access operand first rest s fieldId field var vf kind shadow selector token root known =>
    have ho : operand ∈ S := hS.child x hx operand (by rw [Tree.children, kind]; simp [Kind.children])
    exact hI.accessed hP rest hS hx (hI.shadow? ho shadow) known
  | @declaration name ascription s token decl written named =>
    have hs := hP.shadowed _ (hI.shadowDecl? hS hx decl)
    have hnone : fresh t (t.redeclared x name ascription s token) = ∅ := by
      rw [fresh, size_redeclared, ← fresh, fresh_self]
    rw [hnone, Set.union_empty]
    refine ⟨fun y hy ty hty => ?_, ?_⟩
    · rcases t.ty_redeclared x name ascription s token y with h | h <;> rw [h] at hty
      · exact Option.some.inj hty ▸ hs
      · exact hI.ty y hy ty hty
    · have henv : (t.redeclared x name ascription s token).env = t.env.set (t.scope x) token s.shadowedTy := by
        cases ascription <;> simp [redeclared, reascribed, setTy]
      rw [henv]
      exact hI.env.set hs
  | @identifier token s kind shadow =>
    have hs := hP.shadowed _ (hI.shadow? hx shadow)
    have hnone : fresh t (t.setTy x s.shadowedTy) = ∅ := by
      rw [fresh, setTy, size_setTy?, ← fresh, fresh_self]
    rw [hnone, Set.union_empty]
    refine ⟨fun y hy ty hty => ?_, hI.env⟩
    rw [setTy, ty_setTy?] at hty
    split at hty
    · exact Option.some.inj hty ▸ hs
    · exact hI.ty y hy ty hty

theorem Concreted.typed (hP : Inherited P) (h : Concreted n x t t') (hS : t.Closed S) (hx : x ∈ S)
    (hI : TypedIn P t S) : TypedIn P t' (S ∪ fresh t t') := by
  induction n generalizing x t t' S with
  | zero => exact h.elim
  | succ n ih =>
    obtain ⟨t₁, hnode, hbelow⟩ := h
    have hev := hnode.evolves
    have hS₁ := hev.closed hS
    have hI₁ := hnode.typed hP hS hx hI
    have hchain : ∀ (l : List Nat) (u u' : Tree) (S : Set Nat), Chain (Concreted n) l u u' → u.Closed S →
        (∀ c ∈ l, c ∈ S) → TypedIn P u S → TypedIn P u' (S ∪ fresh u u') := by
      intro l u u' S hc
      induction hc generalizing S with
      | nil =>
        intro _ _ hI
        rw [fresh_self, Set.union_empty]
        exact hI
      | @cons c l u u₁ u' first rest ihl =>
        intro hS hl hI
        have hI' := ihl _ (first.evolves.closed hS) (fun d hd => .inl (hl d (by simp [hd])))
          (ih first hS (hl c (by simp)) hI)
        rw [Set.union_assoc, ← fresh_trans first.evolves.size_le (rest.evolves fun _ _ _ h => h.evolves_grounded).1.size_le]
          at hI'
        exact hI'
    have hI' := hchain _ t₁ t' _ hbelow hS₁ (fun c hc => hS₁.child x (.inl hx) c hc) hI₁
    rw [Set.union_assoc, ← fresh_trans hev.size_le (hbelow.evolves fun _ _ _ h => h.evolves_grounded).1.size_le] at hI'
    exact hI'

/-! ## What is left -/

/-- The type found for the node, or bound to the identifier that it is if that
refers to a variable. -/
def Tree.TypedAt (t : Tree) (x : NodeId) (ty : Ty) : Prop :=
  t.ty x = .some ty ∨
    t.isReference x = true ∧ ∃ token, t.kind x = .ident token ∧ t.env.get? (t.scope x) token = .some ty

/-- Some node of the program has `x` as its field or its label. -/
def Tree.FieldOrLabel (t : Tree) (x : NodeId) : Prop :=
  ∃ y, t.Reachable y ∧ (t.kind y = .selector x ∨ ∃ body, t.kind y = .case x body)

/-- The parent link of `x`, if there is one, leads to a node of the program that
names it. -/
def Tree.LinkHolds (t : Tree) (x : NodeId) : Prop :=
  ∀ p, t.parent x = .some p → t.Reachable p ∧ x ∈ t.children p

theorem Tree.Clean.typedAt (h : t.Clean) (hx : t.Reachable x) {ty : Ty} (hty : t.TypedAt x ty) :
    ty.isShadow = false := by
  rcases hty with hty | ⟨href, token, hk, hget⟩
  · exact h.ty hx ty hty
  · have hm := h x hx
    simp only [mentionsShadow, Bool.or_eq_false_iff] at hm
    have hrefers := hm.2
    rw [refersToShadow, token?_eq_some.mpr hk] at hrefers
    simpa [href, hget] using hrefers

theorem TypedIn.typedAt (h : TypedIn P t S) (hx : x ∈ S) {ty : Ty} (hty : t.TypedAt x ty) : P ty := by
  rcases hty with hty | ⟨-, token, -, hget⟩
  · exact h.ty x hx ty hty
  · exact h.env.get? hget

/-- All types of the program after a run of `erase` have every property that
passes from a shadow type to its parts and that all types had before. -/
theorem Tree.erased_typed (hP : Inherited P) (hac : t.Acyclic) (h : t.erase.result = .ok ())
    (hI : TypedIn P t { x | t.Reachable x }) : ∃ S, t.erase.tree.Closed S ∧ TypedIn P t.erase.tree S ∧ root ∈ S := by
  obtain ⟨t₁, hl, hc, -⟩ := Pass.leads_erase.mp (Pass.outcome_ok.mp h)
  have hclosed : t.Closed { x | t.Reachable x } := .below hac.bounded
  obtain ⟨S, hsub, hS, hI₁⟩ := hI.lowered hP hl hclosed fun x hx =>
    reaches_of_mem_postOrder (List.mem_of_mem_filter hx)
  have hroot : root ∈ S := hsub (Reaches.refl t root)
  exact ⟨_, hc.evolves.closed hS, hc.typed hP hS hroot hI₁, .inl hroot⟩

theorem Tree.LinkHolds.isReference (h : t.LinkHolds x) (hx : ¬ t.FieldOrLabel x) : t.isReference x = true := by
  unfold Tree.isReference
  cases hp : t.parent x with
  | none => rfl
  | some p =>
    obtain ⟨hreach, hmem⟩ := h p hp
    rw [Option.map_some]
    split
    next field hk =>
      have hk : t.kind p = .selector field := Option.some.inj hk
      obtain rfl : x = field := by simpa [Tree.children, hk, Kind.children] using hmem
      exact absurd ⟨p, hreach, .inl hk⟩ hx
    next label body hk =>
      have hk : t.kind p = .case label body := Option.some.inj hk
      refine bne_iff_ne.mpr fun he => hx ⟨p, hreach, .inr ⟨body, ?_⟩⟩
      rw [hk, he]
    next => rfl

theorem Tree.Owned.linkHolds (h : t.Owned) (hx : t.Reachable x) (hne : x ≠ root) : t.LinkHolds x := by
  intro p hp
  obtain ⟨z, hz, hmem⟩ := hx.casesTail.resolve_left hne
  rw [h.parent z hz x hmem] at hp
  obtain rfl := Option.some.inj hp
  exact ⟨hz, hmem⟩

theorem Tree.Owned.erased (ho : t.Owned) (hf : t.Formed) (h : t.erase.result = .ok ()) : t.erase.tree.Owned := by
  obtain ⟨t₁, hl, hc, -⟩ := Pass.leads_erase.mp (Pass.outcome_ok.mp h)
  obtain ⟨hf₁, ho₁, -⟩ := ho.lowered (I := fun _ => True) hf (fun _ _ _ _ _ _ _ _ => trivial) trivial hl
  exact (ho₁.concreted (I := fun _ => True) (fun _ _ _ _ _ _ _ _ => trivial) hf₁ (.refl t₁ root) trivial hc).2.1

/-- Erasing leaves no shadow type as the type of a node, nor bound to an
identifier that refers to a variable. A shadow type that is left lies inside an
array, and the tree had that array type from the start. So without arrays of shadow
types none is left at any depth, as far as parent links are right, which they are in
an owned program. -/
theorem Tree.erase_leaves_only_arrays (hac : t.Acyclic) (h : t.erase.result = .ok ()) :
    (∀ x, t.erase.tree.Reachable x → ∀ ty, t.erase.tree.TypedAt x ty → ty.hasShadow = true →
      ∃ elem, ty = .array elem ∧ Occurs t ty) ∧
    ((∀ elem, Occurs t (.array elem) → elem.hasShadow = false) → ∀ x, t.erase.tree.Reachable x →
      (∀ ty, t.erase.tree.ty x = .some ty → ty.hasShadow = false) ∧
      ∀ token ty, t.erase.tree.kind x = .ident token → ¬ t.erase.tree.FieldOrLabel x → t.erase.tree.LinkHolds x →
        t.erase.tree.env.get? (t.erase.tree.scope x) token = .some ty → ty.hasShadow = false) ∧
    (t.Formed → t.Owned → ∀ x, t.erase.tree.Reachable x → x ≠ root → t.erase.tree.LinkHolds x) := by
  have harrays : ∀ x, t.erase.tree.Reachable x → ∀ ty, t.erase.tree.TypedAt x ty → ty.hasShadow = true →
      ∃ elem, ty = .array elem ∧ Occurs t ty := fun x hx ty hty hshadow => by
    obtain ⟨-, hclean, -⟩ := erased_shape hac h
    obtain ⟨S, hS, hI, hroot⟩ := erased_typed (inherited_occurs t) hac h ((typedIn_occurs t).imp fun _ => .inr)
    have hoccurs : Occurs t ty := (hI.typedAt (hS.reaches hroot hx) hty).resolve_left (by simp [hshadow])
    obtain ⟨elem, rfl⟩ := Ty.eq_array_of_hasShadow hshadow (hclean.typedAt hx hty)
    exact ⟨elem, rfl, hoccurs⟩
  refine ⟨harrays, fun hnone x hx => ?_, fun hf ho x => (ho.erased hf h).linkHolds⟩
  have hfree : ∀ ty, t.erase.tree.TypedAt x ty → ty.hasShadow = false := fun ty hty => by
    refine Bool.eq_false_iff.mpr fun hshadow => ?_
    obtain ⟨elem, rfl, hoccurs⟩ := harrays x hx ty hty hshadow
    exact Bool.eq_false_iff.mp (hnone elem hoccurs) hshadow
  exact ⟨fun ty hty => hfree ty (.inl hty), fun token ty hk hplace hlink hget =>
    hfree ty (.inr ⟨hlink.isReference hplace, token, hk, hget⟩)⟩

end Types

/-! ## Samples -/

namespace Sample

/-- The program `xs;`, for a variable whose type is an array of a shadow type. -/
def arrays : Tree := built do
  let xs ← Build.typed (.array (.shadow Statement.exprStmt)) (Build.ident "xs" Env.global)
  attach (← Build.exprStmt xs Env.global)

/-- The program `s;`, for a variable of a shadow type; the parent link of `s`
leads to a selector outside of the program. -/
def strayed : Tree := built do
  modify (·.modifyEnv (·.declare Env.global "s" (.shadow Statement.exprStmt)))
  let selector ← Build.selector "field" Env.global
  let s ← Build.ident "s" Env.global
  attach (← Build.exprStmt s Env.global)
  modify (·.setParent s selector)

theorem acyclic_arrays : arrays.Acyclic := BuiltUp.acyclic (by decide +kernel)

theorem erase_arrays : arrays.erase.result = .ok () := Outcome.ok_of_isOk (by decide +kernel)

theorem reachable_arrays : arrays.erase.tree.Reachable 1 :=
  .head (c := 2) (by decide +kernel) (.head (c := 1) (by decide +kernel) (.refl _ _))

/-- Two programs that erasing leaves with a shadow type: one inside the type of
a node, and one bound to an identifier that is neither a field nor a label. -/
theorem shadow_survives :
    (arrays.Acyclic ∧ arrays.erase.result = .ok () ∧ arrays.erase.tree.Reachable 1 ∧
      (arrays.erase.tree.ty 1).any Ty.hasShadow = true) ∧
    (strayed.Acyclic ∧ strayed.erase.result = .ok () ∧ strayed.erase.tree.Reachable 3 ∧
      strayed.erase.tree.kind 3 = .ident "s" ∧
      (∀ y < strayed.erase.tree.size, strayed.erase.tree.kind y ≠ .selector 3 ∧
        (strayed.erase.tree.kind y).name ≠ (Kind.case 3 3).name) ∧
      (strayed.erase.tree.env.get? (strayed.erase.tree.scope 3) "s").any Ty.hasShadow = true) := by
  refine ⟨⟨acyclic_arrays, erase_arrays, reachable_arrays, by decide +kernel⟩,
    BuiltUp.acyclic (by decide +kernel), Outcome.ok_of_isOk (by decide +kernel), ?_, by decide +kernel,
    by decide +kernel, by decide +kernel⟩
  exact .head (c := 4) (by decide +kernel) (.head (c := 3) (by decide +kernel) (.refl _ _))

/-- What is left in the first program was there from the start. In the sample there is
no array, and nothing is left. -/
theorem arrays_had_the_array :
    (arrays.Acyclic ∧ arrays.erase.result = .ok () ∧ arrays.erase.tree.Reachable 1 ∧
      arrays.erase.tree.TypedAt 1 (.array (.shadow Statement.exprStmt))) ∧
    (∃ elem, Ty.array (.shadow Statement.exprStmt) = .array elem ∧ Occurs arrays (.array (.shadow Statement.exprStmt))) ∧
    (tree.Acyclic ∧ tree.erase.result = .ok () ∧ tree.residue ≠ [] ∧
      ∀ elem, Occurs tree (.array elem) → elem.hasShadow = false) ∧
    ∀ x, tree.erase.tree.Reachable x → x ≠ Tree.root →
      (∀ ty, tree.erase.tree.ty x = .some ty → ty.hasShadow = false) ∧
      ∀ token ty, tree.erase.tree.kind x = .ident token → ¬ tree.erase.tree.FieldOrLabel x →
        tree.erase.tree.env.get? (tree.erase.tree.scope x) token = .some ty → ty.hasShadow = false := by
  have hlists : tree.ListsTypes fun ty => ty.flat = true := by decide +kernel
  have hnone : ∀ elem, Occurs tree (.array elem) → elem.hasShadow = false := fun elem h => by
    simpa [Ty.flat] using h.of_inherited inherited_flat (hlists.typedIn _)
  obtain ⟨-, hfree, hlinks⟩ := Tree.erase_leaves_only_arrays builtUp_tree.acyclic erase_tree
  refine ⟨⟨acyclic_arrays, erase_arrays, reachable_arrays, .inl rfl⟩,
    (Tree.erase_leaves_only_arrays acyclic_arrays erase_arrays).1 1 reachable_arrays _ (.inl rfl) rfl,
    ⟨builtUp_tree.acyclic, erase_tree, by decide +kernel, hnone⟩, fun x hx hne => ⟨(hfree hnone x hx).1, ?_⟩⟩
  intro token ty hk hplace hget
  exact (hfree hnone x hx).2 token ty hk hplace (hlinks linked_tree.formed linked_tree.owned x hx hne) hget

end Sample

end Penumbra
