/-
Programs fit for erasing.

A program is erased without a fault where visitors have the shape that merging
asks for, shadow types stand in the places that are made concrete, and what is
made in their place names no shadow type. `Fit` says so of one node and its
children. It speaks of kinds, types and the names of types only, so it holds
after lowering of every node whose kind has stayed (`Fit.later`), and of copies
(`Resembles.fit`).
-/
import Penumbra.Proofs.Concrete.NodeChange
import Penumbra.Proofs.Lower.KeptNodes
import Penumbra.Proofs.Tree.Terms

namespace Penumbra

namespace Kind

variable {α β : Type} {k : Kind α} {c : α}

/-- The children that have to be identifiers. -/
def names : Kind α → List α
  | .component name ascription => [name, ascription]
  | .varDecl name ascription _ => name :: ascription.toList
  | .selector field => [field]
  | _ => []

/-- The written type of a binder or declaration. -/
def ascription? : Kind α → Option α
  | .component _ ascription => .some ascription
  | .varDecl _ ascription _ => ascription
  | _ => .none

/-- All children but the written type. -/
def others : Kind α → List α
  | .component name _ => [name]
  | .varDecl name _ init => name :: init.toList
  | k => k.children

/-- The children that, as identifiers, refer to variables. -/
def references : Kind α → List α
  | .selector _ => []
  | .case _ body => [body]
  | k => k.children

theorem names_map (f : α → β) : (k.map f).names = k.names.map f := by
  cases k with
  | varDecl _ ascription => cases ascription <;> rfl
  | _ => rfl

theorem ascription?_map (f : α → β) : (k.map f).ascription? = k.ascription?.map f := by
  cases k <;> rfl

theorem others_map (f : α → β) : (k.map f).others = k.others.map f := by
  have hchildren := children_map f k
  cases k with
  | varDecl _ _ init => cases init <;> rfl
  | component => rfl
  | _ => exact hchildren

theorem references_map (f : α → β) : (k.map f).references = k.references.map f := by
  have hchildren := children_map f k
  cases k with
  | selector | case => rfl
  | _ => exact hchildren

theorem mem_children_of_names (h : c ∈ k.names) : c ∈ k.children := by
  cases k with
  | component => exact h
  | selector => exact h
  | varDecl =>
    simp only [names, children, List.mem_cons, List.mem_append] at h ⊢
    exact h.imp_right .inl
  | _ => cases h

theorem mem_children_of_ascription? (h : c ∈ k.ascription?) : c ∈ k.children := by
  cases k with
  | component => exact .tail _ (by rw [Option.mem_def.mp h |> Option.some.inj]; exact .head _)
  | varDecl =>
    simp only [ascription?, Option.mem_def] at h
    simp [children, h]
  | _ => cases h

theorem mem_children_of_others (h : c ∈ k.others) : c ∈ k.children := by
  cases k with
  | component => exact List.mem_cons.mpr (.inl (List.mem_singleton.mp h))
  | varDecl =>
    simp only [others, children, List.mem_cons, List.mem_append] at h ⊢
    exact h.imp_right .inr
  | _ => exact h

theorem mem_children_of_references (h : c ∈ k.references) : c ∈ k.children := by
  cases k with
  | selector => cases h
  | case => exact .tail _ h
  | _ => exact h

/-- Every child is the written type or not. -/
theorem mem_children_iff : c ∈ k.children ↔ c ∈ k.others ∨ c ∈ k.ascription? := by
  refine ⟨fun h => ?_, fun h => h.elim mem_children_of_others mem_children_of_ascription?⟩
  cases k with
  | component =>
    simp only [children, List.mem_cons, List.not_mem_nil, or_false] at h
    exact h.imp (fun h => by simp [others, h]) fun h => by simp [ascription?, h]
  | varDecl =>
    simp only [children, List.mem_cons, List.mem_append, Option.mem_toList] at h
    simp only [others, ascription?, List.mem_cons, Option.mem_toList]
    tauto
  | _ => exact .inl h

/-- No child is both where none is named twice. -/
theorem not_mem_ascription? (hnodup : k.children.Nodup) (hc : c ∈ k.others) :
    c ∉ k.ascription? := by
  cases k with
  | component name ascription =>
    simp only [others, List.mem_singleton] at hc
    simp only [children, List.nodup_cons, List.mem_singleton] at hnodup
    simp only [ascription?, Option.mem_def, Option.some.injEq]
    rintro rfl
    exact hnodup.1 hc.symm
  | varDecl name ascription init =>
    simp only [children, List.nodup_cons, List.mem_append, List.nodup_append] at hnodup
    intro ha
    have hmem : c ∈ ascription.toList := Option.mem_toList.mpr ha
    rcases List.mem_cons.mp hc with rfl | hc
    · exact hnodup.1 (.inl hmem)
    · exact hnodup.2.2.2 c hmem c hc rfl
  | _ => simp [ascription?]

end Kind

/-- A shadow type that leaves nothing behind: it stands for a tuple type, its
parts are concrete, and what is written in its place names no shadow type, with
`R` for the names of shadow types. -/
structure Shadow.Erasable (R : Set String) (s : Shadow Ty) : Prop where
  shadowed : s.shadowedTy = .named s.shadowedName
  discriminantTy : s.discriminantTy.isShadow = false
  field : ∀ f ∈ s.fields, f.ty.isShadow = false
  shadowedName : s.shadowedName ∉ R
  discriminant : s.discriminant ∉ R
  discriminantField : s.discriminantField ∉ R
  path : ∀ f ∈ s.fields, ∀ name, .field name ∈ f.path → name ∉ R

/-- The name of the concrete type is written where names of variables, `N`, may
stand as well. -/
structure Shadow.Sound (N R : Set String) (s : Shadow Ty) : Prop extends s.Erasable R where
  used : s.shadowedName ∈ N

theorem Shadow.Sound.isShadow {N R : Set String} {s : Shadow Ty} (h : s.Sound N R) : s.shadowedTy.isShadow = false := by
  rw [h.shadowed]
  rfl

namespace Tree

variable {N R : Set String} {t t' : Tree} {x y : Nat}

/-- An arm that can be sorted, and merged into. -/
def Mergeable (t : Tree) (arm : NodeId) : Prop :=
  ∃ p c b name ascription, t.kind arm = .arm p (.some c) b ∧ t.kind c = .component name ascription ∧ t.stmts? b ≠ .none

/-- What erasing asks of a node and its children. -/
structure Fit (N R : Set String) (t : Tree) (x : NodeId) : Prop where
  arms : ∀ arms wildcard, t.kind x = .visitor arms wildcard → ∀ a ∈ arms, t.Mergeable a
  wildcard : ∀ arms w, t.kind x = .visitor arms (.some w) → ∃ p b, t.kind w = .arm p .none b
  names : ∀ c ∈ (t.kind x).names, ∃ n, t.kind c = .ident n
  shadow : t.shadow? x ≠ .none → (∃ n, t.kind x = .ident n) ∨ t.shadowDecl? x ≠ .none ∨
    ∃ o first rest f, t.kind x = .factor o (first :: rest) ∧ t.shadow? o ≠ .none ∧ t.kind first = .selector f
  operand : ∀ o steps, t.kind x = .factor o steps → t.shadow? o ≠ .none → ∃ v, t.kind o = .ident v
  steps : ∀ o steps s, t.kind x = .factor o steps → t.shadow? o = .some s → ∃ first rest, steps = first :: rest ∧
    ∀ f n, t.kind first = .selector f → t.kind f = .ident n → s.field? n ≠ .none
  sound : ∀ s, t.shadow? x = .some s → s.Sound N R
  declared : ∀ name ascription s, t.shadowDecl? x = .some (name, ascription, s) → s.Sound N R
  others : ∀ c ∈ (t.kind x).others, ∀ n, t.kind c = .ident n → n ∉ R
  ascribed : ∀ a ∈ (t.kind x).ascription?, ∀ n, t.kind a = .ident n → n ∈ R → t.shadowDecl? x ≠ .none
  references : ∀ c ∈ (t.kind x).references, ∀ n, t.kind c = .ident n → n ∈ N

/-- A node without a shadow type that is no visitor. -/
theorem Fit.of_plain (hv : t.isVisitor x = false) (hs : t.shadow? x = .none) (hd : t.shadowDecl? x = .none)
    (ho : ∀ o steps, t.kind x = .factor o steps → t.shadow? o = .none)
    (hn : ∀ c ∈ (t.kind x).names, ∃ n, t.kind c = .ident n)
    (hr : ∀ c ∈ t.children x, ∀ n, t.kind c = .ident n → n ∉ R)
    (href : ∀ c ∈ (t.kind x).references, ∀ n, t.kind c = .ident n → n ∈ N) : Fit N R t x where
  arms arms wildcard hk := by rw [isVisitor_iff.mpr ⟨arms, wildcard, hk⟩] at hv; cases hv
  wildcard arms w hk := by rw [isVisitor_iff.mpr ⟨arms, .some w, hk⟩] at hv; cases hv
  names := hn
  shadow h := absurd hs h
  operand o steps hk h := absurd (ho o steps hk) h
  steps o steps s hk h := by rw [ho o steps hk] at h; cases h
  sound s h := by rw [hs] at h; cases h
  declared name ascription s h := by rw [hd] at h; cases h
  others c hc := hr c (Kind.mem_children_of_others hc)
  ascribed a ha n hk hmem := absurd hmem (hr a (Kind.mem_children_of_ascription? ha) n hk)
  references := href

theorem Fit.of_ident {token : String} (hk : t.kind x = .ident token) (hs : t.shadow? x = .none) : Fit N R t x :=
  .of_plain (by simp [isVisitor, hk]) hs (by simp [shadowDecl?, hk]) (by simp [hk]) (by simp [hk, Kind.names])
    (by simp [Tree.children, hk, Kind.children]) (by simp [hk, Kind.references, Kind.children])

/-- A visitor whose arms and wildcard are as merging asks. -/
theorem Fit.of_visitor {arms : List NodeId} {wildcard : Option NodeId} (hk : t.kind x = .visitor arms wildcard)
    (hs : t.shadow? x = .none) (harms : ∀ a ∈ arms, t.Mergeable a)
    (hwild : ∀ w ∈ wildcard, ∃ p b, t.kind w = .arm p .none b) : Fit N R t x := by
  have hident : ∀ c ∈ t.children x, ∀ n, t.kind c ≠ .ident n := by
    intro c hc n hkc
    rw [Tree.children, hk] at hc
    rcases List.mem_append.mp hc with hc | hc
    · obtain ⟨p, _, b, _, _, hkarm, -⟩ := harms c hc
      rw [hkarm] at hkc
      cases hkc
    · obtain ⟨p, b, hkw⟩ := hwild c (Option.mem_toList.mp hc)
      rw [hkw] at hkc
      cases hkc
  refine ⟨fun arms' wildcard' hk' => ?_, fun arms' w hk' => ?_, by simp [hk, Kind.names], fun h => absurd hs h,
    by simp [hk], by simp [hk], fun s h => ?_, by simp [shadowDecl?, hk], fun c hc n hkc => ?_, by simp [hk, Kind.ascription?],
    fun c hc n hkc => ?_⟩
  · rw [hk] at hk'
    cases hk'
    exact harms
  · rw [hk] at hk'
    cases hk'
    exact hwild w rfl
  · rw [hs] at h
    cases h
  · exact absurd hkc (hident c (Kind.mem_children_of_others hc) n)
  · exact absurd hkc (hident c (Kind.mem_children_of_references hc) n)

/-- A visitor has no shadow type. -/
theorem Fit.shadow?_visitor {arms : List NodeId} {wildcard : Option NodeId} (h : Fit N R t x)
    (hk : t.kind x = .visitor arms wildcard) : t.shadow? x = .none := by
  by_contra hne
  rcases h.shadow hne with ⟨n, hn⟩ | hd | ⟨o, first, rest, f, hf, -⟩
  · rw [hk] at hn
    cases hn
  · exact hd (by simp [shadowDecl?, hk])
  · rw [hk] at hf
    cases hf

/-! ## After lowering -/

section Later

variable (h : t.Later t') (hf : t.Formed) (hx : x < t.size)
include h hx

theorem Later.shadow? : t'.shadow? x = t.shadow? x := by
  rw [Tree.shadow?, Tree.shadow?, h.grows.ty x hx]

include hf

theorem Later.shadowDecl? (hk : t'.kind x = t.kind x) : t'.shadowDecl? x = t.shadowDecl? x := by
  have hchild : ∀ {k c}, t.kind x = k → c ∈ k.children → c < t.size := fun hk hc =>
    hf.child x hx _ (by rw [Tree.children, hk]; exact hc)
  unfold Tree.shadowDecl?
  rw [hk]
  split
  next name ascription hk =>
    rw [declaredShadow?, declaredShadow?, h.declaredTy? hf hx (hchild hk (by simp [Kind.children]))]
  next name ascription init hk =>
    rw [declaredShadow?, declaredShadow?, h.declaredTy? hf hx (hchild hk (by simp [Kind.children]))]
  next => rw [h.shadow? hx]
  next => rfl

theorem Later.mergeable (hm : t.Mergeable x) : t'.Mergeable x := by
  obtain ⟨p, c, b, name, ascription, hk, hkc, hb⟩ := hm
  have hclt := hf.child x hx c (binder_mem_children hk)
  have hblt := hf.child x hx b (body_mem_children hk)
  refine ⟨p, c, b, name, ascription, (h.grows.kind_iff hx rfl (by simp)).mpr hk,
    (h.grows.kind_iff hclt rfl (by simp)).mpr hkc, fun hnone => hb ?_⟩
  exact (h.grows.kind b hblt).stmts?_eq_none.mp hnone

/-- A node whose kind has stayed. -/
theorem Fit.later (hfit : Fit N R t x) (hk : t'.kind x = t.kind x) : Fit N R t' x := by
  have hchild : ∀ c ∈ (t.kind x).children, c < t.size := fun c hc => hf.child x hx c hc
  have hident : ∀ c ∈ (t.kind x).children, ∀ n, t'.kind c = .ident n ↔ t.kind c = .ident n := fun c hc n =>
    h.grows.kind_iff (hchild c hc) rfl (by simp)
  have hoperand : ∀ o steps, t'.kind x = .factor o steps → t'.shadow? o = t.shadow? o := fun o steps hko =>
    h.shadow? (hchild o (by rw [← hk, hko]; simp [Kind.children]))
  have hdecl := h.shadowDecl? hf hx hk
  have hshadow := h.shadow? hx
  refine ⟨fun arms wildcard hkx a ha => ?_, fun arms w hkx => ?_, fun c hc => ?_, fun hs => ?_, fun o steps hkx ho => ?_,
    fun o steps s hkx ho => ?_, fun s hs => hfit.sound s (hshadow ▸ hs),
    fun name ascription s hs => hfit.declared name ascription s (hdecl ▸ hs), fun c hc n hkc => ?_, fun a ha n hka => ?_,
    fun c hc n hkc => ?_⟩
  · rw [hk] at hkx
    exact h.mergeable hf (hf.child x hx a (arm_mem_children hkx ha)) (hfit.arms arms wildcard hkx a ha)
  · rw [hk] at hkx
    obtain ⟨p, b, hw⟩ := hfit.wildcard arms w hkx
    exact ⟨p, b, (h.grows.kind_iff (hf.child x hx w (wildcard_mem_children hkx)) rfl (by simp)).mpr hw⟩
  · rw [hk] at hc
    obtain ⟨n, hn⟩ := hfit.names c hc
    exact ⟨n, (hident c (Kind.mem_children_of_names hc) n).mpr hn⟩
  · rw [hshadow] at hs
    rw [hk, hdecl]
    refine (hfit.shadow hs).imp_right (·.imp_right ?_)
    rintro ⟨o, first, rest, f, hkx, ho, hfirst⟩
    refine ⟨o, first, rest, f, hkx, ?_, ?_⟩
    · rw [hoperand o _ (hk.trans hkx)]
      exact ho
    · exact (h.grows.kind_iff (hchild first (by rw [hkx]; simp [Kind.children])) rfl (by simp)).mpr hfirst
  · rw [hoperand o steps hkx] at ho
    rw [hk] at hkx
    obtain ⟨v, hv⟩ := hfit.operand o steps hkx ho
    exact ⟨v, (hident o (by rw [hkx]; simp [Kind.children]) v).mpr hv⟩
  · rw [hoperand o steps hkx] at ho
    rw [hk] at hkx
    obtain ⟨first, rest, rfl, hfield⟩ := hfit.steps o steps s hkx ho
    have hlt := hchild first (by rw [hkx]; simp [Kind.children])
    refine ⟨first, rest, rfl, fun f n hkf hn => ?_⟩
    rw [h.grows.kind_iff hlt rfl (by simp)] at hkf
    have hflt := hf.child first hlt f (by rw [Tree.children, hkf]; simp [Kind.children])
    exact hfield f n hkf ((h.grows.kind_iff hflt rfl (by simp)).mp hn)
  · rw [hk] at hc
    exact hfit.others c hc n ((hident c (Kind.mem_children_of_others hc) n).mp hkc)
  · rw [hk] at ha
    rw [hdecl]
    exact hfit.ascribed a ha n ((hident a (Kind.mem_children_of_ascription? ha) n).mp hka)
  · rw [hk] at hc
    exact hfit.references c hc n ((hident c (Kind.mem_children_of_references hc) n).mp hkc)

/-- A block that has got statements which are no identifiers. -/
theorem Fit.grown (hfit : Fit N R t x) (hs : t.stmts? x ≠ .none)
    (hc : ∀ c ∈ t'.children x, c ∈ t.children x ∨ ∀ n, t'.kind c ≠ .ident n) : Fit N R t' x := by
  have hold : ∀ c ∈ t.children x, ∀ n, t'.kind c = .ident n → t.kind c = .ident n := fun c hmem n =>
    (h.grows.kind_iff (hf.child x hx c hmem) rfl (by simp)).mp
  have hlist : ∀ u : Tree, u.stmts? x ≠ .none → u.isVisitor x = false ∧ u.shadowDecl? x = .none ∧
      (∀ o steps, u.kind x ≠ .factor o steps) ∧ (∀ n, u.kind x ≠ .ident n) ∧ (u.kind x).names = [] ∧
      (u.kind x).others = u.children x ∧ (u.kind x).references = u.children x := by
    intro u hs
    unfold Tree.isVisitor Tree.shadowDecl? Tree.children
    unfold Tree.stmts? at hs
    generalize u.kind x = k at hs
    cases k with
    | block | program => simp [Kind.names, Kind.others, Kind.references]
    | _ => exact absurd rfl hs
  obtain ⟨-, hdecl, hfactor, hident, -, hothers, hrefs⟩ := hlist t hs
  obtain ⟨hv, hdecl', hfactor', -, hnames, -, hrefs'⟩ := hlist t' fun hnone =>
    hs ((h.grows.kind x hx).stmts?_eq_none.mp hnone)
  refine .of_plain hv ?_ hdecl' (fun o steps hk => absurd hk (hfactor' o steps)) (by simp [hnames]) (fun c hmem n hk => ?_)
    fun c hmem n hk => ?_
  · rw [h.shadow? hx]
    by_contra hne
    rcases hfit.shadow hne with ⟨n, hn⟩ | hd | ⟨o, first, rest, f, hk, -⟩
    · exact hident n hn
    · exact hd hdecl
    · exact hfactor _ _ hk
  · rcases hc c hmem with hmem | hnot
    · exact hfit.others c (hothers ▸ hmem) n (hold c hmem n hk)
    · exact absurd hk (hnot n)
  · rcases hc c (hrefs' ▸ hmem) with hmem | hnot
    · exact hfit.references c (hrefs ▸ hmem) n (hold c hmem n hk)
    · exact absurd hk (hnot n)

end Later

/-! ## Copies -/

/-- The nodes in `D` of `t'` say what their images in `t` say, and type names mean
the same in both. -/
structure Resembles (t t' : Tree) (φ : Nat → Nat) (D : Set Nat) : Prop where
  child : ∀ y ∈ D, ∀ c ∈ t'.children y, c ∈ D
  kind : ∀ y ∈ D, (t'.kind y).map φ = t.kind (φ y)
  scope : ∀ y ∈ D, t'.scope y = t.scope (φ y)
  ty : ∀ y ∈ D, t'.ty y = t.ty (φ y)
  types : t'.env.getType? = t.env.getType?

theorem Folds.under {φ : Nat → Nat} {D : Set Nat} (h : t.Folds φ D) (e : Env) : (t.under e).Folds φ D :=
  ⟨h.child, h.kind, h.scope, h.ty, h.span⟩

theorem Folds.resembles {φ : Nat → Nat} {D : Set Nat} (h : t.Folds φ D) : Resembles t t φ D :=
  ⟨h.child, h.kind, h.scope, h.ty, rfl⟩

namespace Resembles

variable {φ : Nat → Nat} {D : Set Nat} {owner ascription : Nat} (h : Resembles t t' φ D)
include h

theorem shadow? (hy : y ∈ D) : t'.shadow? y = t.shadow? (φ y) := by
  rw [Tree.shadow?, Tree.shadow?, h.ty y hy]

theorem ident (hy : y ∈ D) {n : String} : t'.kind y = .ident n ↔ t.kind (φ y) = .ident n := by
  rw [← h.kind y hy, Kind.map_eq_ident]

theorem declaredTy? (ho : owner ∈ D) (ha : ascription ∈ D) :
    t'.declaredTy? owner ascription = t.declaredTy? (φ owner) (φ ascription) := by
  have htoken : t'.token? ascription = t.token? (φ ascription) := by
    refine Option.ext fun n => ?_
    rw [token?_eq_some, token?_eq_some, h.ident ha]
  rw [Tree.declaredTy?, Tree.declaredTy?, h.ty owner ho, h.ty ascription ha, h.scope ascription ha, htoken, h.types]

/-- A copy declares what its original declares. -/
theorem shadowDecl? (hy : y ∈ D) :
    t.shadowDecl? (φ y) = (t'.shadowDecl? y).map fun d => (φ d.1, d.2.1.map φ, d.2.2) := by
  have hchild : ∀ {k c}, t'.kind y = k → c ∈ k.children → c ∈ D := fun hk hc =>
    h.child y hy _ (by rw [Tree.children, hk]; exact hc)
  have hkind := h.kind y hy
  unfold Tree.shadowDecl?
  rw [← hkind]
  cases hk : t'.kind y with
  | component name ascription =>
    have ha : ascription ∈ D := hchild hk (by simp [Kind.children])
    simp only [Kind.map, declaredShadow?, h.declaredTy? hy ha, Option.map_map]
    rfl
  | varDecl name ascription init =>
    cases ascription with
    | none =>
      simp only [Kind.map, Option.map_none, ← h.shadow? hy, Option.map_map]
      rfl
    | some a =>
      have ha : a ∈ D := hchild hk (by simp [Kind.children])
      simp only [Kind.map, Option.map_some, declaredShadow?, h.declaredTy? hy ha, Option.map_map]
      rfl
  | _ => rfl

theorem shadowDecl?_eq_none (hy : y ∈ D) : t.shadowDecl? (φ y) = .none ↔ t'.shadowDecl? y = .none := by
  rw [h.shadowDecl? hy, Option.map_eq_none_iff]

theorem mergeable (hy : y ∈ D) (hm : t.Mergeable (φ y)) : t'.Mergeable y := by
  obtain ⟨p, c', b', name', ascription', hk, hkc, hb⟩ := hm
  obtain ⟨c, b, hk', rfl, rfl⟩ := Kind.map_eq_arm ((h.kind y hy).trans hk)
  obtain ⟨name, ascription, hkc', -⟩ := Kind.map_eq_component ((h.kind c (h.child y hy c (binder_mem_children hk'))).trans hkc)
  refine ⟨p, c, b, name, ascription, hk', hkc', fun hnone => hb ?_⟩
  rw [Tree.stmts?] at hnone ⊢
  rw [← h.kind b (h.child y hy b (body_mem_children hk'))]
  generalize t'.kind b = k at hnone
  cases k with
  | block | program => cases hnone
  | _ => rfl

/-- What erasing asks of a node it asks of copies. -/
theorem fit (hy : y ∈ D) (hfit : Fit N R t (φ y)) : Fit N R t' y := by
  have hkind := h.kind y hy
  have hchild : ∀ c ∈ (t'.kind y).children, c ∈ D := h.child y hy
  refine ⟨fun arms wildcard hk a ha => ?_, fun arms w hk => ?_, fun c hc => ?_, fun hs => ?_, fun o steps hk ho => ?_,
    fun o steps s hk ho => ?_, fun s hs => hfit.sound s (h.shadow? hy ▸ hs), fun name ascription s hs => ?_,
    fun c hc n hkc => ?_, fun a ha n hka => ?_, fun c hc n hkc => ?_⟩
  · rw [hk] at hkind
    exact h.mergeable (h.child y hy a (arm_mem_children hk ha)) (hfit.arms _ _ hkind.symm (φ a) (List.mem_map_of_mem ha))
  · rw [hk] at hkind
    obtain ⟨p, b', hw⟩ := hfit.wildcard _ _ hkind.symm
    obtain ⟨b, hw', -⟩ := Kind.map_eq_arm_none ((h.kind w (h.child y hy w (wildcard_mem_children hk))).trans hw)
    exact ⟨p, b, hw'⟩
  · obtain ⟨n, hn⟩ := hfit.names (φ c) (by rw [← hkind, Kind.names_map]; exact List.mem_map_of_mem hc)
    exact ⟨n, (h.ident (hchild c (Kind.mem_children_of_names hc))).mpr hn⟩
  · rw [h.shadow? hy] at hs
    refine (hfit.shadow hs).imp (fun ⟨n, hn⟩ => ⟨n, (h.ident hy).mpr hn⟩) (·.imp ?_ ?_)
    · exact fun hd hnone => hd ((h.shadowDecl?_eq_none hy).mpr hnone)
    · rintro ⟨o', first', rest', f', hk, ho, hfirst⟩
      obtain ⟨o, l, hk', rfl, hl⟩ := Kind.map_eq_factor (hkind.trans hk)
      obtain ⟨first, rest, rfl, rfl, rfl⟩ := List.map_eq_cons_iff.mp hl
      have hmem : ∀ c ∈ o :: first :: rest, c ∈ D := fun c hc => hchild c (by rw [hk']; exact hc)
      obtain ⟨f, hf, -⟩ := Kind.map_eq_selector ((h.kind first (hmem first (by simp))).trans hfirst)
      refine ⟨o, first, rest, f, hk', ?_, hf⟩
      rw [h.shadow? (hmem o (by simp))]
      exact ho
  · have hoD : o ∈ D := hchild o (by rw [hk]; simp [Kind.children])
    rw [hk] at hkind
    rw [h.shadow? hoD] at ho
    obtain ⟨v, hv⟩ := hfit.operand _ _ hkind.symm ho
    exact ⟨v, (h.ident hoD).mpr hv⟩
  · have hmem : ∀ c ∈ o :: steps, c ∈ D := fun c hc => hchild c (by rw [hk]; exact hc)
    rw [hk] at hkind
    rw [h.shadow? (hmem o (by simp))] at ho
    obtain ⟨first', rest', hl, hfield⟩ := hfit.steps _ _ s hkind.symm ho
    obtain ⟨first, rest, rfl, rfl, rfl⟩ := List.map_eq_cons_iff.mp hl
    refine ⟨first, rest, rfl, fun f n hkf hn => ?_⟩
    have hfirst := hmem first (by simp)
    have hkf' := h.kind first hfirst
    rw [hkf] at hkf'
    exact hfield (φ f) n hkf'.symm ((h.ident (h.child first hfirst f (by rw [Tree.children, hkf]; simp [Kind.children]))).mp hn)
  · refine hfit.declared (φ name) (ascription.map φ) s ?_
    rw [h.shadowDecl? hy, hs]
    rfl
  · refine hfit.others (φ c) ?_ n ((h.ident (hchild c (Kind.mem_children_of_others hc))).mp hkc)
    rw [← hkind, Kind.others_map]
    exact List.mem_map_of_mem hc
  · intro hmem hnone
    refine hfit.ascribed (φ a) ?_ n ((h.ident (hchild a (Kind.mem_children_of_ascription? ha))).mp hka) hmem
      ((h.shadowDecl?_eq_none hy).mpr hnone)
    rw [← hkind, Kind.ascription?_map]
    exact Option.mem_map_of_mem φ ha
  · refine hfit.references (φ c) ?_ n ((h.ident (hchild c (Kind.mem_children_of_references hc))).mp hkc)
    rw [← hkind, Kind.references_map]
    exact List.mem_map_of_mem hc

end Resembles

end Tree

end Penumbra
