/-
Shadow types that nothing looks at.

Making a program concrete gives other types to identifiers, binders and
declarations, and to chains on a variable of a shadow type that begin with a
field. A shadow type found for any other node, such as parentheses or a call,
is overlooked. Both passes leave exactly these types: what was overlooked and
is still there keeps its shadow type, and no node gets a shadow type that
nothing had that was overlooked (`passes_leave_overlooked`).
-/
import Penumbra.Proofs.Concrete.TermRefinement

namespace Penumbra

open Tree

namespace Tree

variable {t t' : Tree} {x y : Nat} {S : Set Nat}

/-- The node is a step that selects a field. -/
def selects (t : Tree) (x : NodeId) : Bool :=
  match t.kind x with
  | .selector _ => true
  | _ => false

/-- The node has a shadow type that making it concrete does not look at. -/
def overlooks (t : Tree) (x : NodeId) : Bool :=
  (t.shadow? x).isSome && match t.kind x with
    | .ident _ | .component _ _ | .varDecl _ _ _ => false
    | .factor operand (first :: _) => !((t.shadow? operand).isSome && t.selects first)
    | _ => true

theorem any_isShadow (t : Tree) (x : NodeId) : (t.ty x).any Ty.isShadow = (t.shadow? x).isSome := by
  rw [shadow?]
  cases t.ty x with
  | none => rfl
  | some ty => cases ty <;> rfl

theorem overlooks_of_shadow?_eq_none (h : t.shadow? x = .none) : t.overlooks x = false := by
  rw [overlooks, h]
  rfl

/-- Whether a node is overlooked depends on it and its children only, whatever
numbers these have. -/
theorem overlooks_of_map {φ : Nat → Nat} (hk : (t'.kind y).map φ = t.kind x) (hs : t'.shadow? y = t.shadow? x)
    (hc : ∀ c ∈ t'.children y, t'.shadow? c = t.shadow? (φ c) ∧ t'.selects c = t.selects (φ c)) :
    t'.overlooks y = t.overlooks x := by
  rw [overlooks, overlooks, hs, ← hk]
  rw [Tree.children] at hc
  generalize t'.kind y = k at hc
  congr 1
  cases k with
  | factor operand steps =>
    cases steps with
    | nil => rfl
    | cons first rest =>
      obtain ⟨ho, -⟩ := hc operand List.mem_cons_self
      obtain ⟨-, hf⟩ := hc first (List.mem_cons_of_mem _ List.mem_cons_self)
      simp only [Kind.map, List.map_cons, ho, hf]
  | _ => rfl

theorem overlooks_congr (hx : t'.node x = t.node x) (hc : ∀ c ∈ t.children x, t'.node c = t.node c) :
    t'.overlooks x = t.overlooks x := by
  refine overlooks_of_map (φ := fun c => c) (by rw [Kind.map_id, Tree.kind, hx]; rfl) (by rw [shadow?, Tree.ty, hx]; rfl) ?_
  intro c hcx
  rw [Tree.children, Tree.kind, hx] at hcx
  exact ⟨by rw [shadow?, Tree.ty, hc c hcx]; rfl, by rw [selects, Tree.kind, hc c hcx]; rfl⟩

theorem SameBelow.overlooks_eq (h : SameBelow x t t') (hy : t.Reaches x y) : t'.overlooks y = t.overlooks y :=
  overlooks_congr (h y hy) fun c hc => h c (hy.tail hc)

end Tree

/-! ## Lowering -/

section Lowering

variable {t t' u v v' : Tree} {x y V : Nat} {S : Set Nat}

theorem Tree.Keeps.shadow? (h : t.Keeps t') (hx : x < t.size) : t'.shadow? x = t.shadow? x := by
  rw [Tree.shadow?, h.ty x hx]
  rfl

theorem Tree.Grows.selects (h : t.Grows t') (hx : x < t.size) : t'.selects x = t.selects x := by
  have hk := h.kind x hx
  rw [Tree.selects, Tree.selects]
  generalize t.kind x = k at hk
  generalize t'.kind x = k' at hk
  cases hk <;> rfl

/-- Lowering overlooks no other old nodes than before. -/
theorem Tree.Grows.overlooks (h : t.Grows t') (hx : x < t.size) (hc : ∀ c ∈ t.children x, c < t.size) :
    t'.overlooks x = t.overlooks x := by
  have hsame : t'.kind x = t.kind x → t'.overlooks x = t.overlooks x := fun hk => by
    refine overlooks_of_map (φ := fun c => c) (by rw [Kind.map_id, hk]) (h.shadow? hx) fun c hcx => ?_
    rw [Tree.children, hk] at hcx
    exact ⟨h.shadow? (hc c hcx), h.selects (hc c hcx)⟩
  have hk := h.kind x hx
  have hs := h.shadow? hx
  generalize hkx : t.kind x = k at hk
  generalize hkx' : t'.kind x = k' at hk
  cases hk with
  | same => exact hsame (hkx'.trans hkx.symm)
  | _ => simp only [Tree.overlooks, hs, hkx, hkx']

theorem Tree.Mirrored.overlooks {φ : Nat → Nat} (h : Mirrored v S v v' φ) (hy : y ∈ fresh v v') :
    v'.overlooks y = v.overlooks (φ y) := by
  refine overlooks_of_map (h.kind y hy.1 hy.2) (by rw [Tree.shadow?, h.ty y hy.1 hy.2]; rfl) fun c hc => ?_
  rcases Nat.lt_or_ge c v.size with hlt | hge
  · rw [h.old c hlt]
    exact ⟨h.grows.toKeeps.shadow? hlt, h.grows.grows.selects hlt⟩
  · have hcv : c < v'.size := by
      rcases h.child y hy.1 hy.2 c hc with hc | hc
      · omega
      · exact hc.2.trans hy.2
    refine ⟨by rw [Tree.shadow?, h.ty c hge hcv]; rfl, ?_⟩
    rw [Tree.selects, Tree.selects, ← h.kind c hge hcv]
    cases v'.kind c <;> rfl

theorem Tree.overlooks_withArms {arms : List NodeId} {w : Option NodeId} (hV : v.isVisitor V = true) :
    (v.withArms V arms w).overlooks y = v.overlooks y := by
  obtain ⟨arms', w', hk⟩ := isVisitor_iff.mp hV
  have hs : ∀ x : Nat, (v.withArms V arms w).shadow? x = v.shadow? x := fun x => by simp [Tree.shadow?]
  have hsel : ∀ x : Nat, (v.withArms V arms w).selects x = v.selects x := fun x => by
    rw [Tree.selects, Tree.selects, kind_withArms]
    by_cases hx : x = V ∧ V < v.size
    · rw [if_pos hx, hx.1, hk]
    · rw [if_neg hx]
  by_cases hyV : y = V ∧ V < v.size
  · rw [Tree.overlooks, Tree.overlooks, hs, kind_withArms, if_pos hyV, hyV.1, hk]
  · exact overlooks_of_map (φ := fun c => c) (by rw [Kind.map_id, kind_withArms, if_neg hyV]) (hs y)
      fun c _ => ⟨hs c, hsel c⟩

/-- The nodes that merging adds have concrete types or none, unless they are
copies. -/
theorem kept_overlooked (Q : Prop) : Kept (fun v S => ∀ y ∈ S, v.overlooks y = true → Q) fun a => a.shadow.Shallow where
  armed f vs v S hS hG hI := by
    rintro y (hy | hy) ho
    · rw [(f.extends_armed vs).grows.overlooks (hS.bounded y hy) fun c hc => hS.bounded c (hS.child y hy c hc)] at ho
      exact hI y hy ho
    · obtain ⟨m, hm, hk, -, hty, -⟩ := new_addAll (t := v.modifyEnv (f.bindNew vs)) hy.1 hy.2
      rw [Tree.overlooks, Tree.shadow?, Family.armed, hk, hty] at ho
      simp only [Family.armNodes, List.mem_cons, List.not_mem_nil, or_false] at hm
      rcases hm with rfl | rfl | rfl | rfl | rfl <;> simp at ho
  mirrored v v' S φ hS hφ hI := by
    rintro y (hy | hy) ho
    · rw [hφ.grows.grows.overlooks (hS.bounded y hy) fun c hc => hS.bounded c (hS.child y hy c hc)] at ho
      exact hI y hy ho
    · rw [hφ.overlooks hy] at ho
      exact hI (φ y) (hφ.origin y hy.1 hy.2) ho
  merged f binder target default v v' S hS hG h hI := by
    rintro y (hy | hy) ho
    · rw [h.grows.overlooks (hS.bounded y hy) fun c hc => hS.bounded c (hS.child y hy c hc)] at ho
      exact hI y hy ho
    · have hlt : y < (f.switched binder target default v).size := by
        have := hy.2
        obtain ⟨k, -, rfl⟩ := h
        simpa using this
      have hdisc := Ty.shadow?_eq_none (hG f.first List.mem_cons_self).discriminant
      obtain ⟨m, hm, hk, -, hty, -⟩ := new_addAll hy.1 hlt
      rw [Tree.overlooks, Tree.shadow?, h.ty, h.kind_other (by have := h.target_lt; have := hy.1; omega), Family.switched, hk,
        hty] at ho
      rcases f.mem_switchNodes binder default hm with rfl | rfl | rfl | rfl | ⟨a, ha, rfl | ⟨l, rfl⟩⟩ | rfl <;>
        simp [hdisc] at ho

/-- What a tree `u` that lowering has come to has of the tree `t` it started with. -/
structure Watched (t u : Tree) : Prop where
  typed : TypedIn Ty.Shallow u { y | u.Reachable y }
  grows : t.Grows u
  back : ∀ y < t.size, u.Reachable y → t.Reachable y
  origin : ∀ y, u.Reachable y → u.overlooks y = true → ∃ z, t.Reachable z ∧ t.overlooks z = true

theorem Watched.next {u' : Tree} (h : Watched t u) (hf : u.Formed) (hV : u.Reachable V) (hl : VisitorLowered V u u') :
    Watched t u' := by
  have hS : u.Closed { y | u.Reachable y } := hf.program_closed
  have hreach : ∀ y, u'.Reachable y → y ∈ { y | u.Reachable y } ∪ fresh u u' := fun y hy =>
    ((hl.step hS hV).closed hS).reaches (.inl (.refl u root)) hy
  have hG : ∀ arms wildcard, u.kind V = .visitor arms wildcard → ∀ arm ∈ arms, ∀ p a,
      u.shadowArm? arm = .ok (.some (p, a)) → a.shadow.Shallow := fun arms wildcard hk arm harm p a ha =>
    h.typed.shadowArm? hS (hS.child V hV arm (arm_mem_children hk harm)) ha
  have htyped := hl.kept (kept_typed inherited_shallow) (fun v S arms w _ _ hI => ⟨fun x hx ty hty => hI.ty x hx ty (by
    simpa using hty), by simpa using hI.env⟩) hG hS hV h.typed
  have horigin := hl.kept (kept_overlooked (∃ z, t.Reachable z ∧ t.overlooks z = true))
    (fun v S arms w hv _ hI y hy ho => hI y hy (overlooks_withArms hv ▸ ho)) hG hS hV h.origin
  refine ⟨⟨fun y hy => htyped.ty y (hreach y hy), htyped.env⟩, h.grows.trans hl.grows, fun y hy hy' => ?_, fun y hy =>
    horigin y (hreach y hy)⟩
  rcases hreach y hy' with hold | hnew
  · exact h.back y hy hold
  · exact absurd hnew.1 (by have := h.grows.size_le; omega)

end Lowering

/-! ## Making nodes concrete -/

section Concrete

variable {t t' t₁ : Tree} {n x y c : Nat} {types : ScopeId → String → Option Ty}

theorem Tree.shadow?_of_ty {ty : Ty} (h : t.ty x = .some ty) (hty : ty.isShadow = false) : t.shadow? x = .none := by
  rw [Tree.shadow?, h]
  exact Ty.shadow?_eq_none hty

theorem Tree.declaredShadow?_of_shadow? {s : Shadow Ty} {a : NodeId} (h : t.shadow? x = .some s) :
    t.declaredShadow? x a = .some s := by
  rw [Tree.shadow?] at h
  rw [Tree.declaredShadow?, Tree.declaredTy?]
  obtain ⟨ty, hty, hs⟩ := Option.bind_eq_some_iff.mp h
  rw [hty]
  exact hs

theorem Tree.Plain.overlooks_eq (h : t.Plain x) : t.overlooks x = (t.shadow? x).isSome := by
  rw [Tree.overlooks]
  cases hs : t.shadow? x with
  | none => rfl
  | some s =>
    have hdecl := h.decl
    rw [Tree.shadowDecl?] at hdecl
    split
    next token hk => simp [h.ident token hk] at hs
    next name a hk => simp [hk, declaredShadow?_of_shadow? hs] at hdecl
    next name a init hk =>
      cases a with
      | none => simp [hk, hs] at hdecl
      | some a => simp [hk, declaredShadow?_of_shadow? hs] at hdecl
    next operand first rest hk =>
      rcases h.chain operand _ hk with ho | ⟨_, _, heq, hsel⟩
      · simp [ho]
      · obtain ⟨rfl, rfl⟩ := List.cons.inj heq
        have : t.selects first = false := by
          rw [selects]
          split
          next f hf => exact absurd hf (hsel f)
          next => rfl
        simp [this]
    next => rfl

section Node

variable (h : NodeConcrete x t t₁) (hf : t.Formed) (ho : t.Owned) (hx : t.Reachable x)
  (hty : TypedIn Ty.Shallow t { y | t.Reachable y })
include h hf hx hty

/-- A node keeps its shadow type if it is overlooked. -/
theorem NodeConcrete.isSome_shadow? : (t₁.shadow? x).isSome = t.overlooks x := by
  have hclosed : t.Closed { y | t.Reachable y } := hf.program_closed
  cases h with
  | plain h => exact h.overlooks_eq.symm
  | @access operand first rest s fieldId field var vf kind shadow selector token root known =>
    have hs : s.Shallow := hty.shadow? (hclosed.child x hx operand (by simp [Tree.children, kind, Kind.children])) shadow
    have hnone : (t.accessed x s vf var rest).shadow? x = .none := by
      rw [Tree.shadow?, ty_accessed t x s vf var rest x (hf.bounded hx), if_pos rfl, Option.bind_eq_none_iff]
      intro ty hmem
      split at hmem
      · exact Ty.shadow?_eq_none (hs.expandedTy known ty hmem)
      · obtain ⟨old, hold, rfl⟩ := Option.map_eq_some_iff.mp hmem
        exact Ty.shadow?_eq_none (hty.ty x hx old hold).erased
    simp [hnone, Tree.overlooks, kind, shadow, Tree.selects, selector]
  | @declaration name ascription s token decl written named =>
    have hs : s.Shallow := hty.shadowDecl? hclosed hx decl
    have hself : (t.redeclared x name ascription s token).ty x = .some s.shadowedTy :=
      ty_redeclared_of_mem (hf.bounded hx) (.inl rfl)
    rw [shadow?_of_ty hself hs.shadowed, Tree.overlooks]
    rcases shadowDecl?_eq_some.mp decl with ⟨a, -, hk, -⟩ | ⟨a, init, -, hk, -⟩ | ⟨init, -, hk, -⟩ <;> simp [hk]
  | @identifier token s kind shadow =>
    have hs : s.Shallow := hty.shadow? hx shadow
    have hnone : (t.setTy x s.shadowedTy).shadow? x = .none :=
      shadow?_of_ty (by rw [setTy, ty_setTy?, if_pos ⟨rfl, hf.bounded hx⟩]) hs.shadowed
    simp [hnone, Tree.overlooks, kind]

/-- What is added has no shadow type. -/
theorem NodeConcrete.shadow?_new (hy : y ∈ fresh t t₁) : t₁.shadow? y = .none := by
  have hclosed : t.Closed { y | t.Reachable y } := hf.program_closed
  have hsize : t₁.size ≠ t.size := fun he => absurd hy.2 (by have := hy.1; omega)
  cases h with
  | plain => exact absurd rfl hsize
  | declaration => exact absurd (size_redeclared ..) hsize
  | identifier => exact absurd (by simp [setTy]) hsize
  | @access operand first rest s fieldId field var vf kind shadow selector token root known =>
    have hs : s.Shallow := hty.shadow? (hclosed.child x hx operand (by simp [Tree.children, kind, Kind.children])) shadow
    have hexp : (s.expandedTy vf).bind Ty.shadow? = .none :=
      Option.bind_eq_none_iff.mpr fun ty hmem => Ty.shadow?_eq_none (hs.expandedTy known ty hmem)
    have hxlt := hf.bounded hx
    have hlt := hy.2
    rw [size_accessed, ← size_addAll] at hlt
    obtain ⟨m, hm, -, -, hmty, -⟩ := new_addAll hy.1 hlt
    rw [Tree.shadow?, ty_accessed t x s vf var rest y hxlt, if_neg (by have := hy.1; omega), hmty]
    rcases (mem_accessNodes hm).2 with ⟨-, hm | hm⟩ | ⟨hm, -⟩ | ⟨hm, -⟩ | ⟨hm, -⟩ | ⟨hm, -⟩ <;> rw [hm]
    · rfl
    · exact hexp
    · rfl
    · rfl
    · rfl
    · exact hexp

omit hf hx hty in
/-- Of the other nodes, only the name and the written type of a declaration are
changed. -/
theorem NodeConcrete.node_eq_or_ident (hy : y < t.size) (hyx : y ≠ x) :
    t₁.node y = t.node y ∨ y ∈ t.children x ∧ (∃ token, t.kind y = .ident token) ∧ ∃ token, t₁.kind y = .ident token := by
  cases h with
  | plain => exact .inl rfl
  | access => exact .inl (node_accessed hy hyx)
  | identifier => exact .inl (by rw [setTy, setTy?, node_update, if_neg fun h => hyx h.1])
  | @declaration name ascription s token decl written named =>
    obtain ⟨hname, hasc⟩ := children_shadowDecl decl
    by_cases hya : y ∈ ascription
    · refine .inr ⟨hasc y hya, written y hya, s.shadowedName, ?_⟩
      rw [kind_redeclared, kind_reascribed, if_pos ⟨hya, hy⟩]
    · by_cases hyn : y = name
      · subst hyn
        rw [kind_reascribed, if_neg fun h => hya h.1] at named
        refine .inr ⟨hname, ⟨token, named⟩, token, ?_⟩
        rw [kind_redeclared, kind_reascribed, if_neg fun h => hya h.1, named]
      · exact .inl (node_redeclared hyx hyn hya)

omit hty in
include ho in
/-- What is below the node is overlooked as it was before its turn. -/
theorem NodeConcrete.overlooks_below (hxy : Relation.TransGen t.Child x y) : t₁.overlooks y = t.overlooks y := by
  have hyr : t.Reachable y := hx.trans hxy.to_reflTransGen
  have hyx : y ≠ x := fun he => ho.noCircle hx (he ▸ hxy)
  rcases h.node_eq_or_ident (hf.bounded hyr) hyx with hnode | ⟨-, ⟨_, hk⟩, _, hk₁⟩
  · refine overlooks_congr hnode fun c hc => ?_
    have hcx : c ≠ x := fun he => ho.noCircle hx (.tail hxy (he ▸ hc))
    refine (h.node_eq_or_ident (hf.child y (hf.bounded hyr) c hc) hcx).resolve_right fun hr => hyx ?_
    exact Option.some.inj ((ho.parent y hyr c hc).symm.trans (ho.parent x hx c hr.1))
  · simp [Tree.overlooks, hk, hk₁]

end Node

/-- The pass leaves a shadow type exactly at what it overlooks. -/
theorem Concreted.isSome_shadow? (h : Concreted n x t t') (ht : Regular Ty.Shallow types t) (hx : t.Reachable x)
    (hxy : t'.Reaches x y) : (t'.shadow? y).isSome = true ↔ y < t.size ∧ t.overlooks y = true := by
  induction n generalizing x t t' with
  | zero => exact h.elim
  | succ n ih =>
    obtain ⟨t₁, hnode, hchain⟩ := h
    have ht₁ := ht.nodeConcrete inherited_shallow hnode hx
    have hx₁ := hnode.reachable_self ht.formed ht.owned hx
    obtain ⟨⟨ht', -, -, hnx⟩, hturns⟩ := ht₁.turns inherited_shallow hchain hx₁
    have hty : ∀ {y}, t'.node y = t₁.node y → t'.shadow? y = t₁.shadow? y := fun hn => by
      rw [Tree.shadow?, Tree.ty, hn]
      rfl
    rcases hxy.cases with rfl | ⟨c, hc, hcy⟩
    · rw [hty hnx, hnode.isSome_shadow? ht.formed hx ht.typed]
      exact ⟨fun h => ⟨ht.formed.bounded hx, h⟩, fun h => h.2⟩
    have hcx : c ∈ t₁.children x := by rwa [Tree.children, Tree.kind, hnx] at hc
    obtain ⟨v, v', hcv, hv, hcr, hle, hle', hbefore, hafter⟩ := hturns c hcx
    have hcy' := hafter.reaches_iff.mp hcy
    have hlater : t'.shadow? y = v'.shadow? y := by
      rw [Tree.shadow?, Tree.ty, hafter y hcy']
      rfl
    rw [hlater, ih hcv hv hcr hcy']
    have hback : y < v.size → t₁.Reaches c y := fun hy => hbefore.reaches_iff.mp (hcv.evolves.reaches hy hcy').2
    have hsame : y < t.size → t₁.Reaches c y → t₁.overlooks y = t.overlooks y := fun hy hcy₁ => by
      obtain ⟨hc, hcy⟩ := hnode.evolves.reaches hy hcy₁
      have hcx := (hnode.evolves.child x (ht.formed.bounded hx) c hcx).resolve_right fun hnew => absurd hnew.1 (by omega)
      exact hnode.overlooks_below ht.formed ht.owned hx (.head' hcx hcy)
    constructor
    · rintro ⟨hy, hov⟩
      have hcy₁ := hback hy
      rw [hbefore.overlooks_eq hcy₁] at hov
      rcases Nat.lt_or_ge y t.size with hlt | hge
      · exact ⟨hlt, hsame hlt hcy₁ ▸ hov⟩
      · have hnew := hnode.shadow?_new ht.formed hx ht.typed ⟨hge, ht₁.formed.bounded ((Reaches.tail hx₁ hcx).trans hcy₁)⟩
        rw [overlooks_of_shadow?_eq_none hnew] at hov
        cases hov
    · rintro ⟨hy, hov⟩
      have hy' : y < v.size := (hy.trans_le hnode.evolves.size_le).trans_le hle
      have hcy₁ := hback hy'
      exact ⟨hy', by rwa [hbefore.overlooks_eq hcy₁, hsame hy hcy₁]⟩

end Concrete

/-- After both passes, a node of the program that is still there has a shadow
type exactly if it was overlooked from the start, and if nothing was, no node
has one. -/
theorem Tree.passes_leave_overlooked {t : Tree} (hf : t.Formed) (ho : t.Owned)
    (hs : ∀ s, Occurs t (.shadow s) → s.Shallow) (hl : t.lower.result = .ok ())
    (hc : t.lower.tree.concretize.result = .ok ()) :
    (∀ x < t.size, t.lower.tree.concretize.tree.Reachable x →
      ((t.lower.tree.concretize.tree.ty x).any Ty.isShadow = true ↔ t.Reachable x ∧ t.overlooks x = true)) ∧
    ((∀ x, t.Reachable x → t.overlooks x = false) →
      ∀ x, t.lower.tree.concretize.tree.Reachable x → (t.lower.tree.concretize.tree.ty x).any Ty.isShadow = false) := by
  have hlowered := Pass.leads_lower.mp (Pass.outcome_ok.mp hl)
  have hconcreted := Pass.leads_concretize.mp (Pass.outcome_ok.mp hc)
  change Chain VisitorLowered _ t t.lower.tree at hlowered
  change Concreted _ root t.lower.tree t.lower.tree.concretize.tree at hconcreted
  generalize t.lower.tree.concretize.tree = t₂ at hconcreted ⊢
  generalize t.lower.tree = t₁ at hlowered hconcreted
  obtain ⟨hf₁, ho₁, hw⟩ := ho.lowered (I := Watched t) hf (fun V u u' hfu _ hV hVu hu => hu.next hfu hV hVu)
    ⟨typedIn_shallow hs, .refl t, fun _ _ hy => hy, fun y hy hov => ⟨y, hy, hov⟩⟩ hlowered
  have hregular : Regular Ty.Shallow t₁.env.getType? t₁ := ⟨hf₁, ho₁, hw.typed, rfl⟩
  have hleft : ∀ x, t₂.Reachable x → ((t₂.ty x).any Ty.isShadow = true ↔ x < t₁.size ∧ t₁.overlooks x = true) := fun x hx => by
    rw [any_isShadow]
    exact hconcreted.isSome_shadow? hregular (.refl t₁ root) hx
  refine ⟨fun x hx hreach => ?_, fun hnone x hreach => ?_⟩
  · rw [hleft x hreach, hw.grows.overlooks hx (hf.child x hx)]
    refine ⟨fun h => ⟨?_, h.2⟩, fun h => ⟨hx.trans_le hw.grows.size_le, h.2⟩⟩
    exact hw.back x hx (hconcreted.evolves.reaches h.1 hreach).2
  · refine Bool.eq_false_iff.mpr fun hshadow => ?_
    obtain ⟨hx, hov⟩ := (hleft x hreach).mp hshadow
    obtain ⟨z, hz, hzov⟩ := hw.origin x (hconcreted.evolves.reaches hx hreach).2 hov
    rw [hnone z hz] at hzov
    cases hzov

/-! ## Samples -/

namespace Sample

/-- In the sample nothing is overlooked, and no shadow type is left. -/
theorem passes_tree :
    (tree.Formed ∧ tree.Owned ∧ (∀ s, Occurs tree (.shadow s) → s.Shallow) ∧ tree.lower.result = .ok () ∧
      tree.lower.tree.concretize.result = .ok () ∧ ∀ x, tree.Reachable x → tree.overlooks x = false) ∧
    ∀ x, tree.lower.tree.concretize.tree.Reachable x →
      (tree.lower.tree.concretize.tree.ty x).any Ty.isShadow = false := by
  have hs : ∀ s, Occurs tree (.shadow s) → s.Shallow := fun s h => listsTypes_tree.occurs h
  obtain ⟨hl, hc⟩ := passes_of_erase erase_tree
  have hall : ∀ x : Nat, x < tree.size → tree.overlooks x = false := by decide +kernel
  have hnone : ∀ x, tree.Reachable x → tree.overlooks x = false := fun x hx => hall x (linked_tree.formed.bounded hx)
  exact ⟨⟨linked_tree.formed, linked_tree.owned, hs, hl, hc, hnone⟩,
    (Tree.passes_leave_overlooked linked_tree.formed linked_tree.owned hs hl hc).2 hnone⟩

/-- The program `(s);`, where `s` and the parentheses have a shadow type. -/
def parenthesized : Tree := built do
  let s ← Build.typed (.shadow Statement.exprStmt) (Build.ident "s" Env.global)
  let paren ← Build.typed (.shadow Statement.exprStmt) (Build.paren s Env.global)
  attach (← Build.exprStmt paren Env.global)

/-- Both passes succeed, the identifier gets a concrete type, and the
parentheses around it keep the shadow type, so `erase` fails. -/
theorem parentheses_keep_shadow :
    (parenthesized.Formed ∧ parenthesized.Owned ∧ (∀ s, Occurs parenthesized (.shadow s) → s.Shallow) ∧
      parenthesized.kind 1 = .ident "s" ∧ parenthesized.kind 2 = .paren 1 ∧ parenthesized.kind 3 = .exprStmt 2 ∧
      parenthesized.kind 0 = .program [3] ∧ (parenthesized.ty 1).isSome = true ∧ (parenthesized.ty 2).isSome = true) ∧
    parenthesized.lower.result = .ok () ∧ parenthesized.lower.tree.concretize.result = .ok () ∧
    (parenthesized.lower.tree.concretize.tree.ty 1).any Ty.isShadow = false ∧
    parenthesized.lower.tree.concretize.tree.Reachable 2 ∧
    (parenthesized.lower.tree.concretize.tree.ty 2).any Ty.isShadow = true ∧
    parenthesized.erase.result.isOk = false := by
  have hlinked : parenthesized.Linked := by decide +kernel
  have hlists : parenthesized.ListsTypes Ty.Shallow := by decide +kernel
  exact ⟨⟨hlinked.formed, hlinked.owned, fun s h => hlists.occurs h, by decide +kernel, by decide +kernel, by decide +kernel,
      by decide +kernel, by decide +kernel, by decide +kernel⟩,
    Outcome.ok_of_isOk (by decide +kernel), Outcome.ok_of_isOk (by decide +kernel), by decide +kernel,
    .head (c := 3) (by decide +kernel) (.head (c := 2) (by decide +kernel) (.refl _ _)), by decide +kernel, by decide +kernel⟩

end Sample

end Penumbra
