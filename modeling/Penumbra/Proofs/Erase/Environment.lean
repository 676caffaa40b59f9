/-
The environment after erasing.

Both passes give variables concrete types by changing the nearest binding, so
such a change is meant for a binder but may hit a variable further out. Where
every binder and declaration of a shadow type sees a variable of that type,
whatever is hit had that shadow type (`Rebound.set`), also when it is hit twice,
by copies or by arms in one scope. The scopes that are added belong to the arms
made for families, in the order in which these were made (`Enlarged`), and no
later change reaches them.
-/
import Penumbra.Proofs.Lower.EnclosingArms
import Penumbra.Proofs.Lower.NoShadowArms
import Penumbra.Proofs.Concrete.TermRefinement
import Penumbra.Proofs.Env.ConcreteBindings
import Mathlib.Data.List.Find

namespace Penumbra

open Tree

theorem getElem?_snoc {α : Type} {l : List α} {a b : α} {i : Nat} (h : (l ++ [a])[i]? = .some b) :
    i < l.length ∧ l[i]? = .some b ∨ i = l.length ∧ a = b := by
  rcases Nat.lt_trichotomy i l.length with hlt | rfl | hgt
  · rw [List.getElem?_append_left hlt] at h
    exact .inl ⟨hlt, h⟩
  · rw [List.getElem?_append_right le_rfl, Nat.sub_self] at h
    exact .inr ⟨rfl, Option.some.inj h⟩
  · rw [List.getElem?_eq_none (by rw [List.length_append]; exact hgt)] at h
    cases h

namespace Env

variable {e e' : Env} {s vs : Nat} {n : String} {ty : Ty} {S : Shadow Ty} {new : List Scope}

/-- `e'` has the scopes of `e`, where variables of shadow types may have got the
concrete types in place of these, and after them the scopes of `new`. -/
structure Rebound (e e' : Env) (new : List Scope) : Prop extends SameTypes e e' where
  size : e'.size = e.size + new.length
  vars : ∀ u : Nat, u < e.size → ∀ n, (e'.scope u).vars.get? n = (e.scope u).vars.get? n ∨
    ∃ S : Shadow Ty, (e.scope u).vars.get? n = .some (.shadow S) ∧ (e'.scope u).vars.get? n = .some S.shadowedTy
  added : ∀ (i : Nat) scope, new[i]? = .some scope → e'.scope (e.size + i) = scope

namespace Rebound

theorem refl (e : Env) : e.Rebound e [] :=
  ⟨.refl e, rfl, fun _ _ _ => .inl rfl, by simp⟩

variable (h : e.Rebound e' new) (hn : e.Nested)
include h hn

/-- A look-up ends in the same scope as before. -/
theorem binder?_eq (hs : s < e.size) : e'.binder? s n = e.binder? s n := by
  rw [binder?, binder?, h.outward hn hs]
  refine List.find?_congr fun u hu => ?_
  have hlt : u < e.size := (hn.mem_outwardUpTo hu).trans_lt hs
  rcases h.vars u hlt n with heq | ⟨S, hS, hS'⟩
  · rw [heq]
  · rw [hS, hS']
    rfl

/-- A look-up finds what it found before, or the concrete type in its place. -/
theorem get? (hs : s < e.size) : e'.get? s n = e.get? s n ∨
    ∃ S : Shadow Ty, e.get? s n = .some (.shadow S) ∧ e'.get? s n = .some S.shadowedTy := by
  rw [get?_eq, get?_eq, h.binder?_eq hn hs]
  cases hb : e.binder? s n with
  | none => exact .inl rfl
  | some b => exact h.vars b ((hn.le_of_binder? hb).trans_lt hs) n

/-- Giving a variable the concrete type of the shadow type that it had. -/
theorem set (hs : s < e.size) (hget : e.get? s n = .some (.shadow S)) : e.Rebound (e'.set s n S.shadowedTy) new := by
  rw [get?_eq] at hget
  obtain ⟨b, hb, hS⟩ := Option.bind_eq_some_iff.mp hget
  have hlt : b < e.size := (hn.le_of_binder? hb).trans_lt hs
  rw [Env.set, h.binder?_eq hn hs, hb, Option.getD_some]
  refine ⟨h.toSameTypes.trans (.declare ..), by rw [size_declare, h.size], fun u hu m => ?_, fun i scope hi => ?_⟩
  · rw [vars_declare]
    split
    next hcase =>
      obtain ⟨rfl, -, rfl⟩ := hcase
      exact .inr ⟨S, hS, rfl⟩
    next => exact h.vars u hu m
  · have hne : e.size + i ≠ b := Nat.ne_of_gt (hlt.trans_le (Nat.le_add_right _ _))
    rw [scope_declare, if_neg fun hcase => hne hcase.1]
    exact h.added i scope hi

omit hn in
/-- Adding a scope that binds one variable. -/
theorem child (hvs : vs < e.size) : e.Rebound ((e'.child vs).2.declare e'.size n ty)
    (new ++ [{ parent := .some vs, vars := .insert {} n ty }]) := by
  have hsize := h.size
  refine ⟨h.toSameTypes.trans ((SameTypes.child (hvs.trans_le h.size_le)).trans (.declare ..)), ?_, fun u hu m => ?_,
    fun i scope hi => ?_⟩
  · rw [size_declare, size_child, hsize, List.length_append, List.length_singleton, Nat.add_assoc]
  · rw [vars_declare, if_neg (by omega), scope_child, if_neg (by omega)]
    exact h.vars u hu m
  · rw [scope_declare, scope_child, size_child]
    rcases getElem?_snoc hi with ⟨hlt, hi⟩ | ⟨rfl, rfl⟩
    · rw [if_neg (by omega), if_neg (by omega)]
      exact h.added i scope hi
    · rw [if_pos ⟨hsize.symm, Nat.lt_succ_self _⟩, if_pos hsize.symm]

end Rebound

end Env

variable {t u u' v v' : Tree} {e e' : Env} {V x y n : Nat} {f : Family} {fs : List Family} {new : List Scope}
  {wildcard : Option (Phase × NodeId)} {m m' : Merged}

/-- The binders of a family's arms are variables of their shadow types. -/
def Family.BoundIn (e : Env) (f : Family) : Prop :=
  ∀ a ∈ f.arms, a.scope < e.size ∧ e.get? a.scope a.binder = .some (.shadow a.shadow)

theorem Family.BoundIn.rebind (hf : f.BoundIn e) (h : e.Rebound e' new) (hn : e.Nested) : e.Rebound (f.rebind e') new := by
  have hfold : ∀ (arms : List ShadowArm) (e' : Env), e.Rebound e' new →
      (∀ a ∈ arms, a.scope < e.size ∧ e.get? a.scope a.binder = .some (.shadow a.shadow)) →
      e.Rebound (arms.foldl (fun e a => e.set a.scope a.binder a.shadow.shadowedTy) e') new := by
    intro arms
    induction arms with
    | nil => exact fun _ h _ => h
    | cons a arms ih =>
      intro e' h hget
      obtain ⟨hs, ha⟩ := hget a List.mem_cons_self
      exact ih _ (h.set hn hs ha) fun b hb => hget b (List.mem_cons_of_mem _ hb)
  exact hfold f.arms e' h hf

/-! ## Binders and declarations -/

namespace Tree

/-- What is read off a child of a binder or declaration is the same. -/
structure SameReading (t t' : Tree) (c : NodeId) : Prop where
  ty : t'.ty c = t.ty c
  scope : t'.scope c = t.scope c
  token : t'.token? c = t.token? c

/-- If the node declares a variable of a shadow type, with the type names of `e`,
then `e` has that variable with that type. -/
structure Bound (e : Env) (t : Tree) (x : NodeId) : Prop where
  scope : ∀ a ∈ (t.kind x).ascription?, t.ty x = .none → t.scope a < e.size
  concrete : ∀ name a S, (t.under e).shadowDecl? x = .some (name, a, S) → S.shadowedTy.isShadow = false
  get? : ∀ name a S token, (t.under e).shadowDecl? x = .some (name, a, S) → t.token? name = .some token →
    t.scope x < e.size ∧ e.get? (t.scope x) token = .some (.shadow S)

theorem shadowDecl?_under (h : e.SameTypes t.env) (hn : e.Nested)
    (hs : ∀ a ∈ (t.kind x).ascription?, t.ty x = .none → t.scope a < e.size) :
    (t.under e).shadowDecl? x = t.shadowDecl? x := by
  unfold shadowDecl?
  rw [kind_under]
  split
  next name a hk =>
    rw [declaredShadow?, declaredShadow?, declaredTy?_under h hn (hs a (by rw [hk]; rfl))]
  next name a init hk =>
    rw [declaredShadow?, declaredShadow?, declaredTy?_under h hn (hs a (by rw [hk]; rfl))]
  next => rw [shadow?, shadow?, ty_under]
  next => rfl

namespace Bound

theorem of_none (hs : ∀ a ∈ (t.kind x).ascription?, t.ty x = .none → t.scope a < e.size)
    (hnone : (t.under e).shadowDecl? x = .none) : t.Bound e x where
  scope := hs
  concrete _ _ _ hd := absurd (hnone.symm.trans hd) (by simp)
  get? _ _ _ _ hd := absurd (hnone.symm.trans hd) (by simp)

theorem of_plain (h : (t.kind x).isPlain = true ∨ t.isVisitor x = true) : t.Bound e x := by
  have hnone : (t.under e).shadowDecl? x = .none ∧ (t.kind x).ascription? = .none := by
    unfold shadowDecl?
    unfold isVisitor at h
    rw [kind_under]
    cases hk : t.kind x with
    | component | varDecl =>
      rw [hk] at h
      exact absurd h (by simp [Kind.isPlain])
    | _ => exact ⟨rfl, rfl⟩
  exact .of_none (fun a ha => by rw [hnone.2] at ha; cases ha) hnone.1

/-- Nothing else about the tree matters. -/
theorem congr (h : t.Bound e x) (hk : u.kind x = t.kind x) (hx : SameReading t u x)
    (hchild : ∀ c ∈ t.children x, SameReading t u c) : u.Bound e x := by
  have hdeclared : ∀ a ∈ t.children x, (u.under e).declaredShadow? x a = (t.under e).declaredShadow? x a := fun a ha => by
    have htoken : (u.under e).token? a = (t.under e).token? a := (hchild a ha).token
    rw [declaredShadow?, declaredShadow?, declaredTy?, declaredTy?, htoken, ty_under, ty_under, ty_under, ty_under,
      scope_under, scope_under, hx.ty, (hchild a ha).ty, (hchild a ha).scope, env_under, env_under]
  have hdecl : (u.under e).shadowDecl? x = (t.under e).shadowDecl? x := by
    unfold shadowDecl?
    rw [kind_under, kind_under, hk]
    split
    next name a hk => rw [hdeclared a (ascription_mem_children hk)]
    next name a init hk => rw [hdeclared a (by rw [Tree.children, hk]; simp [Kind.children])]
    next => rw [shadow?, shadow?, ty_under, ty_under, hx.ty]
    next => rfl
  refine ⟨fun a ha hty => ?_, fun name a S hd => h.concrete name a S (hdecl ▸ hd), fun name a S token hd htoken => ?_⟩
  · rw [hk] at ha
    rw [(hchild a (Kind.mem_children_of_ascription? ha)).scope]
    exact h.scope a ha (hx.ty ▸ hty)
  · rw [hdecl] at hd
    have hname : name ∈ (t.under e).children x := (children_shadowDecl hd).1
    rw [(hchild name hname).token] at htoken
    rw [hx.scope]
    exact h.get? name a S token hd htoken

theorem copies {φ : Nat → Nat} {D : Set Nat} (h : t.Folds φ D) (hx : x ∈ D) (hφ : t.Bound e (φ x)) : t.Bound e x := by
  have hdecl := (h.under e).resembles.shadowDecl? hx
  have hchild : ∀ c ∈ (t.kind x).children, c ∈ D := h.child x hx
  refine ⟨fun a ha hty => ?_, fun name a S hd => ?_, fun name a S token hd htoken => ?_⟩
  · rw [h.scope a (hchild a (Kind.mem_children_of_ascription? ha))]
    refine hφ.scope (φ a) ?_ (h.ty x hx ▸ hty)
    rw [← h.kind x hx, Kind.ascription?_map]
    exact Option.mem_map_of_mem φ ha
  · exact hφ.concrete (φ name) (a.map φ) S (by rw [hdecl, hd]; rfl)
  · rw [h.scope x hx]
    refine hφ.get? (φ name) (a.map φ) S token (by rw [hdecl, hd]; rfl) ?_
    have hname : name ∈ (t.under e).children x := (children_shadowDecl hd).1
    rw [token?_eq_some] at htoken ⊢
    exact (h.resembles.ident (hchild name hname)).mp htoken

end Bound

/-- The binder of an arm made for a family has a concrete type of its own. -/
theorem Bound.of_madeArm (h : MadeArm f n v) (hty : f.first.shadow.shadowedTy.isShadow = false) : v.Bound e (n + 2) := by
  have hnone : (v.under e).shadowDecl? (n + 2) = .none := by
    unfold shadowDecl?
    rw [kind_under, h.component]
    simp only [declaredShadow?, declaredTy?, ty_under, h.ty]
    simpa [Ty.isShadow] using hty
  refine .of_none (fun a _ hty => ?_) hnone
  rw [h.ty] at hty
  cases hty

theorem lasting_bound (e : Env) : Lasting (Bound e) fun a => a.shadow.shadowedTy.isShadow = false where
  plain _ _ h := .of_plain (.inl h)
  made f vs v hG := .of_madeArm (f.madeArm_armed vs v) (hG f.first List.mem_cons_self)
  grows t t' x hg hk hlt h := by
    have hread : ∀ y : Nat, y < t.size → SameReading t t' y := fun y hy =>
      ⟨hg.ty y hy, hg.scope y hy, (hg.kind y hy).token?⟩
    exact h.congr hk (hread x (hlt x (.refl t x))) fun c hc => hread c (hlt c (.single hc))
  copies _ _ _ _ := .copies

section Program

variable (hb : NodesIn (Bound e) u { x | u.Reachable x }) (he : e.SameTypes u.env) (hn : e.Nested)
include hb he hn

theorem NodesIn.shadowDecl? {name : NodeId} {a : Option NodeId} {S : Shadow Ty} {token : String} (hx : u.Reachable x)
    (hd : u.shadowDecl? x = .some (name, a, S)) (htoken : u.kind name = .ident token) :
    S.shadowedTy.isShadow = false ∧ u.scope x < e.size ∧ e.get? (u.scope x) token = .some (.shadow S) := by
  have hbx := hb x hx
  rw [← shadowDecl?_under he hn hbx.scope] at hd
  exact ⟨hbx.concrete name a S hd, hbx.get? name a S token hd (token?_eq_some.mpr htoken)⟩

/-- The binders of shadow arms are declarations among others. -/
theorem NodesIn.shadowArm? {arm : Nat} {p : Phase} {a : ShadowArm} (harm : u.Reachable arm)
    (hr : u.shadowArm? arm = .ok (.some (p, a))) :
    a.shadow.shadowedTy.isShadow = false ∧ a.scope < e.size ∧ e.get? a.scope a.binder = .some (.shadow a.shadow) := by
  obtain ⟨q, c, body, name, ascription, hk, hkc, hcase⟩ := shadowArm?_ok.mp hr
  obtain ⟨S, token, hd, htoken, heq⟩ := hcase.resolve_left (by simp)
  cases heq
  have hdecl : u.shadowDecl? c = .some (name, ascription, S) := shadowDecl?_eq_some.mpr (.inl ⟨ascription, rfl, hkc, hd⟩)
  exact NodesIn.shadowDecl? hb he hn (harm.tail (binder_mem_children hk)) hdecl htoken

end Program

end Tree

/-- Lowering keeps that for all binders and declarations of the program. -/
theorem Tree.Owned.bound_lowered (ho : t.Owned) (hf : t.Formed) (hb : NodesIn (Bound t.env) t { x | t.Reachable x })
    (h : Chain VisitorLowered ((t.postOrder root).filter t.isVisitor) t u) :
    t.env.SameTypes u.env ∧ NodesIn (Bound t.env) u { x | u.Reachable x } := by
  refine (ho.lowered hf (I := fun u => t.env.SameTypes u.env ∧ NodesIn (Bound t.env) u { x | u.Reachable x }) ?_
    ⟨.refl _, hb⟩ h).2.2
  rintro V u u' hfu - hV hVu ⟨he, hbu⟩
  refine ⟨he.trans (hVu.later_formed hfu).1.types, fun x hx => ?_⟩
  by_cases hxV : x = V
  · subst hxV
    cases hv : u.isVisitor x with
    | true => exact .of_plain (.inr ((hVu.grows.isVisitor (hfu.bounded hV)).trans hv))
    | false =>
      obtain rfl := hVu.eq_of_not_visitor hv
      exact hbu x hx
  · refine hVu.lasting (lasting_bound t.env) (fun arms wildcard hk arm harm p a hr => ?_) hfu.program_closed
      (hfu.program_closed.child V hV) hbu (hVu.reachable hfu hV hx) hxV
    exact (NodesIn.shadowArm? hbu he hf.nested (hV.tail (arm_mem_children hk harm)) hr).1

/-! ## Arms made for families -/

/-- An arm made for a family of a visitor, by the first of its nodes. -/
structure Made where
  visitor : NodeId
  start : NodeId
  family : Family

namespace Made

def arm (m : Made) : NodeId := m.start + 4

/-- The scope that is added with the arm. -/
def scope (t : Tree) (m : Made) : Scope :=
  { parent := .some (t.scope m.visitor), vars := .insert {} m.family.first.binder m.family.first.shadow.shadowedTy }

end Made

/-- In `u` the arm is in its place, and its binder is in the `i`th scope that was
added to those of `t`. -/
structure Made.Placed (t u : Tree) (i : Nat) (m : Made) : Prop where
  new : t.size ≤ m.start
  made : MadeArm m.family m.start u
  scope : u.scope (m.start + 2) = t.env.size + i

theorem Made.Placed.mono {m : Made} {i : Nat} (h : m.Placed t u i) (hg : u.Grows u') : m.Placed t u' i :=
  ⟨h.new, h.made.mono hg, (hg.scope _ (lt_size_of_kind h.made.component (by simp))).trans h.scope⟩

/-- The scopes that `u` has besides those of `t` belong to the arms of the list,
one to each. -/
structure Enlarged (t u : Tree) (made : List Made) : Prop where
  env : t.env.Rebound u.env (made.map (Made.scope t))
  arm : ∀ (i : Nat) m, made[i]? = .some m → m.Placed t u i

theorem Family.scope_binder_armed (f : Family) (vs : ScopeId) (v : Tree) :
    (f.armed vs v).scope (v.size + 2) = v.env.size := by
  have hi : (f.armNodes vs v.env.size v.size)[2]? = .some
      { kind := .component v.size (v.size + 1), scope := v.env.size, ty := .some f.first.shadow.shadowedTy } := rfl
  exact (node_addAll (t := v.modifyEnv (f.bindNew vs)) hi).2.1

section Enlarged

variable {made : List Made}

theorem Enlarged.mono (h : Enlarged t u made) (hg : u.Grows u') (he : t.env.Rebound u'.env (made.map (Made.scope t))) :
    Enlarged t u' made :=
  ⟨he, fun i m hi => (h.arm i m hi).mono hg⟩

variable (hn : t.env.Nested) (hV : t.scope V < t.env.size)
include hn hV

theorem FamilyMerged.enlarged (h : FamilyMerged (t.scope V) wildcard f m v m' v') (hE : Enlarged t v made)
    (hle : t.size ≤ v.size) (hb : f.BoundIn t.env) :
    ∃ new, Enlarged t v' (made ++ new) ∧ m'.arms = m.arms ++ new.map Made.arm ∧
      ∀ x ∈ new, x.visitor = V ∧ x.family = f := by
  have hgrows := h.grows
  cases h with
  | existing _ _ merged =>
    refine ⟨[], ?_, by simp, by simp⟩
    rw [List.append_nil]
    exact hE.mono hgrows (merged.env ▸ hb.rebind hE.env hn)
  | made _ copied merged =>
    have henv : t.env.Rebound v'.env ((made ++ [(⟨V, v.size, f⟩ : Made)]).map (Made.scope t)) := by
      rw [merged.env, copied.env, f.env_armed, List.map_append]
      exact hb.rebind (hE.env.child hV) hn
    have hscope : v'.scope (v.size + 2) = t.env.size + made.length := by
      have hlt := lt_size_of_kind (f.madeArm_armed (t.scope V) v).component (by simp)
      rw [merged.grows.scope _ (hlt.trans_le copied.grows.size_le), copied.grows.scope _ hlt, f.scope_binder_armed,
        hE.env.size, List.length_map]
    refine ⟨[⟨V, v.size, f⟩], ⟨henv, fun i x hi => ?_⟩, rfl, by simp⟩
    rcases getElem?_snoc hi with ⟨-, hi⟩ | ⟨rfl, rfl⟩
    · exact (hE.arm i x hi).mono hgrows
    · exact ⟨hle, ((f.madeArm_armed _ v).mono copied.grows.grows).mono merged.grows, hscope⟩

theorem FamiliesMerged.enlarged (h : FamiliesMerged (t.scope V) wildcard fs m v m' v') (hE : Enlarged t v made)
    (hle : t.size ≤ v.size) (hb : ∀ f ∈ fs, f.BoundIn t.env) :
    ∃ new, Enlarged t v' (made ++ new) ∧ m'.arms = m.arms ++ new.map Made.arm ∧
      ∀ x ∈ new, x.visitor = V ∧ x.family ∈ fs := by
  induction h generalizing made with
  | nil => exact ⟨[], by rwa [List.append_nil], by simp, by simp⟩
  | @cons f fs m m₁ m' v v₁ v' first rest ih =>
    obtain ⟨new, hE₁, harms, hnew⟩ := first.enlarged hn hV hE hle (hb f List.mem_cons_self)
    obtain ⟨new', hE', harms', hnew'⟩ := ih hE₁ (hle.trans first.grows.size_le) fun g hg => hb g (List.mem_cons_of_mem _ hg)
    refine ⟨new ++ new', by rwa [← List.append_assoc], by rw [harms', harms, List.map_append, List.append_assoc],
      fun x hx => ?_⟩
    rcases List.mem_append.mp hx with hx | hx
    · obtain ⟨hxV, rfl⟩ := hnew x hx
      exact ⟨hxV, List.mem_cons_self⟩
    · exact (hnew' x hx).imp_right (List.mem_cons_of_mem _)

/-- What lowering a visitor adds. Its arms are then those without a shadow type and
the arms made. -/
theorem VisitorLowered.enlarged {arms : List NodeId} {wild? : Option NodeId} (h : VisitorLowered V u u')
    (hE : Enlarged t u made) (hk : u.kind V = .visitor arms wild?) (hscope : u.scope V = t.scope V) (hle : t.size ≤ u.size)
    (hb : ∀ arm ∈ arms, ∀ p a, u.shadowArm? arm = .ok (.some (p, a)) →
      a.scope < t.env.size ∧ t.env.get? a.scope a.binder = .some (.shadow a.shadow)) :
    ∃ new, Enlarged t u' (made ++ new) ∧
      (∀ x ∈ new, x.visitor = V ∧ ∃ arm ∈ arms, u.shadowArm? arm = .ok (.some (x.family.phase, x.family.first))) ∧
      ∀ a, u'.HasArm V a ↔ (a ∈ arms ∧ u.shadowArm? a = .ok .none) ∨ ∃ x ∈ new, x.arm = a := by
  have hgrows := h.grows
  cases h with
  | other hv => simp [isVisitor, hk] at hv
  | plain kind sorted none =>
    obtain ⟨rfl, rfl⟩ := Kind.visitor.inj (hk.symm.trans kind)
    have hread := (sorts sorted).families_eq_nil.mp none
    refine ⟨[], by rwa [List.append_nil], by simp, fun a => ?_⟩
    rw [hasArm_iff hk]
    exact ⟨fun ha => .inl ⟨ha, hread a ha⟩, fun ha => (ha.resolve_right (by simp)).1⟩
  | @merged _ _ s w m v kind sorted some wild families =>
    obtain ⟨rfl, rfl⟩ := Kind.visitor.inj (hk.symm.trans kind)
    have hs := sorts sorted
    rw [hscope] at families
    obtain ⟨new, hE', harms, hnew⟩ := families.enlarged hn hV hE hle fun f hf a ha => by
      obtain ⟨arm, harm, hr, -⟩ := hs.mem_family hf ha
      exact hb arm harm _ _ hr
    have hlt := (lt_size_of_kind kind (by simp)).trans_le families.grows.size_le
    generalize (if m.usedWildcard then .none else wild? : Option NodeId) = wild' at *
    refine ⟨new, hE'.mono (.withArms v V m.arms wild' (families.isVisitor kind)) (by rw [env_withArms]; exact hE'.env),
      fun x hx => ⟨(hnew x hx).1, ?_⟩, fun a => ?_⟩
    · obtain ⟨arm, harm, hr, -⟩ := hs.mem_family (hnew x hx).2 (List.mem_cons_self : x.family.first ∈ x.family.arms)
      exact ⟨arm, harm, hr⟩
    · have hkind : (v.withArms V m.arms wild').kind V = .visitor m.arms wild' := by
        rw [kind_withArms, if_pos ⟨rfl, hlt⟩]
      rw [hasArm_iff hkind, harms, List.mem_append, List.mem_map]
      exact or_congr_left ⟨hs.mem_kept, fun ha => hs.kept_of_read ha.1 ha.2⟩

end Enlarged

/-- Lowering a visitor leaves the arms of the others alone. -/
theorem VisitorLowered.hasArm_other {W a : Nat} (h : VisitorLowered V u u') (hW : W < u.size) (hWV : W ≠ V) :
    u'.HasArm W a ↔ u.HasArm W a := by
  cases hv : u.isVisitor W with
  | true =>
    have hk := h.kind_eq hW hWV (Pending.not_bodyOf hv)
    rw [HasArm, HasArm, hk]
  | false =>
    have hv' := (h.grows.isVisitor hW).trans hv
    refine iff_of_false (fun ⟨arms, w, hk, _⟩ => ?_) fun ⟨arms, w, hk, _⟩ => ?_
    · rw [isVisitor_iff.mpr ⟨arms, w, hk⟩] at hv'
      cases hv'
    · rw [isVisitor_iff.mpr ⟨arms, w, hk⟩] at hv
      cases hv

/-- A run on `t` has come to `u`, with the visitors of `l` still to be gone
through. The new arms of visitors of `t` are those of the list `made`. -/
structure Growing (t u : Tree) (l : List Nat) (made : List Made) : Prop extends Pending t u l where
  reachable : ∀ W ∈ l, t.Reachable W
  enlarged : Enlarged t u made
  arms : ∀ V a, (∃ x ∈ made, x.visitor = V ∧ x.arm = a) ↔ t.Reachable V ∧ t.size ≤ a ∧ u.HasArm V a
  shadow : ∀ x ∈ made, t.HasShadowArm x.visitor x.family.phase x.family.first.shadow

namespace Growing

variable {l : List Nat} {made : List Made} (hf : t.Formed) (hb : NodesIn (Bound t.env) t { x | t.Reachable x })
include hf hb

theorem next (h : Growing t u (V :: l) made) (hVu : VisitorLowered V u u') : ∃ new, Growing t u' l (made ++ new) := by
  have hVr := h.reachable V List.mem_cons_self
  have hVlt := hf.bounded hVr
  obtain ⟨arms, wild?, hkt⟩ := isVisitor_iff.mp (h.visitor V List.mem_cons_self)
  have hk := (h.kind V List.mem_cons_self).trans hkt
  have harm : ∀ a : Nat, a ∈ arms → a < t.size := fun a ha => hf.child V hVlt a (arm_mem_children hkt ha)
  have hread : ∀ a ∈ arms, ∀ r, u.shadowArm? a = .ok r → t.shadowArm? a = .ok r := fun a ha r =>
    (h.later.shadowArm? hf (harm a ha)).mp
  obtain ⟨new, hE, hnew, hlist⟩ := hVu.enlarged hf.nested (hf.scope V hVlt) h.enlarged hk (h.later.grows.scope V hVlt)
    h.later.grows.size_le fun arm ha p a hr =>
      (NodesIn.shadowArm? hb (.refl _) hf.nested (hVr.tail (arm_mem_children hkt ha)) (hread arm ha _ hr)).2
  refine ⟨new, h.toPending.next hf hVu, fun W hW => h.reachable W (List.mem_cons_of_mem _ hW), hE, fun W a => ?_,
    fun x hx => ?_⟩
  · by_cases hWV : W = V
    · subst hWV
      -- no arm that the visitor has had so far is new
      have hold : ∀ a : Nat, t.size ≤ a → a ∉ arms := fun a hge ha => absurd (harm a ha) (by omega)
      constructor
      · rintro ⟨x, hx, hxW, rfl⟩
        rcases List.mem_append.mp hx with hx | hx
        · obtain ⟨-, hge, hmem⟩ := (h.arms W x.arm).mp ⟨x, hx, hxW, rfl⟩
          exact absurd ((hasArm_iff hk).mp hmem) (hold _ hge)
        · obtain ⟨i, hi⟩ := List.mem_iff_getElem?.mp (List.mem_append_right made hx)
          exact ⟨hVr, (hE.arm i x hi).new.trans (Nat.le_add_right _ _), (hlist _).mpr (.inr ⟨x, hx, rfl⟩)⟩
      · rintro ⟨-, hge, hmem⟩
        rcases (hlist a).mp hmem with ⟨ha, -⟩ | ⟨x, hx, rfl⟩
        · exact absurd ha (hold a hge)
        · exact ⟨x, List.mem_append_right _ hx, (hnew x hx).1, rfl⟩
    · have hmade : (∃ x ∈ made ++ new, x.visitor = W ∧ x.arm = a) ↔ ∃ x ∈ made, x.visitor = W ∧ x.arm = a := by
        refine exists_congr fun x => and_congr_left fun hx => ?_
        rw [List.mem_append]
        exact or_iff_left fun hmem => hWV (hx.1.symm.trans (hnew x hmem).1)
      rw [hmade, h.arms W a]
      refine and_congr_right fun hW => and_congr_right fun _ => ?_
      exact (hVu.hasArm_other ((hf.bounded hW).trans_le h.later.grows.size_le) hWV).symm
  · rcases List.mem_append.mp hx with hx | hx
    · exact h.shadow x hx
    · obtain ⟨rfl, arm, ha, hr⟩ := hnew x hx
      exact .of_read hkt ha (hread arm ha _ hr)

theorem run (h : Growing t u l made) (hc : Chain VisitorLowered l u u') : ∃ made', Growing t u' [] made' := by
  induction hc generalizing made with
  | nil => exact ⟨made, h⟩
  | cons first _ ih =>
    obtain ⟨new, hnext⟩ := h.next hf hb first
    exact ih hnext

omit hb in
theorem start (ho : t.Owned) : Growing t t ((t.postOrder root).filter t.isVisitor) [] := by
  refine ⟨⟨.refl t, hf, ho.nodup_postOrder.filter _, fun W hW => (List.mem_filter.mp hW).2, fun _ _ => rfl⟩,
    fun W hW => reaches_of_mem_postOrder (List.mem_filter.mp hW).1, ⟨.refl _, by simp⟩, fun V a => ?_, by simp⟩
  refine iff_of_false (by simp) fun ⟨hV, hge, ha⟩ => ?_
  exact absurd (hf.child V (hf.bounded hV) a ha.mem) (Nat.not_lt.mpr hge)

end Growing

/-! ## Making the program concrete -/

theorem Tree.isPlain_of_ident {c : Nat} {token : String} (hk : u.kind c = .ident token) (hy : u.Reaches c y) :
    (u.kind y).isPlain = true := by
  rcases hy.cases with rfl | ⟨d, hd, -⟩
  · rw [hk]
    rfl
  · rw [Tree.children, hk] at hd
    cases hd

/-- All that replaces an access is plain. -/
theorem Tree.isPlain_accessed {s : Shadow Ty} {field : VirtualField Ty} {var : String} {rest : List NodeId} (hx : x < t.size)
    (hy : y ∈ fresh t (t.accessed x s field var rest)) : ((t.accessed x s field var rest).kind y).isPlain = true := by
  have hge := hy.1
  have hlt := hy.2
  rw [size_accessed, ← size_addAll] at hlt
  obtain ⟨m, hm, hkind, -⟩ := new_addAll hge hlt
  rw [kind_accessed t x s field var rest y hx, if_neg (by omega), hkind]
  rcases (mem_accessNodes hm).2 with ⟨hk, -⟩ | ⟨-, name, -, hk | ⟨i, hk⟩⟩ | ⟨-, i, hk⟩ | ⟨-, i, hk⟩ | ⟨-, ⟨l, hk⟩ | ⟨i, hk⟩⟩ <;>
    rw [hk] <;> rfl

/-- What a node that was made concrete has below it is either without declarations
or as it was. -/
theorem NodeConcrete.below (h : NodeConcrete x u u') (hf : u.Formed) (ho : u.Owned) (hx : u.Reachable x) {c : Nat}
    (hc : c ∈ u'.children x) :
    (∀ y, u'.Reaches c y → (u'.kind y).isPlain = true) ∨ c ∈ u.children x ∧ SameBelow c u u' := by
  have hev := h.evolves
  have hxlt := hf.bounded hx
  -- the node is not below its children, nor is one child below another
  have hnot : ∀ {c y : Nat}, c ∈ u.children x → u.Reaches c y → y < u.size ∧ y ≠ x ∧ ∀ d ∈ u.children x, d ≠ c → y ≠ d :=
    fun {c y} hc hy => ⟨hf.bounded ((Reaches.tail hx hc).trans hy), fun he => ho.noCircle hx (.head' hc (he ▸ hy)),
      fun d hd hdc he => hdc (ho.disjoint hx hd hc (he ▸ .refl u y) hy)⟩
  cases h with
  | plain => exact .inr ⟨hc, .refl c u⟩
  | @access operand first rest s fieldId field var vf kind =>
    rw [Tree.children, kind_accessed u x s vf var rest x hxlt, if_pos rfl, Kind.children, List.mem_cons] at hc
    rcases hc with rfl | hc
    · refine .inl fun y hy => isPlain_accessed hxlt ?_
      exact hy.mem (fun z hz => (hev.new z hz).2) (parenId_fresh u x s vf var rest)
    · have hcx : c ∈ u.children x := by simp [Tree.children, kind, Kind.children, hc]
      exact .inr ⟨hcx, fun y hy => node_accessed (hnot hcx hy).1 (hnot hcx hy).2.1⟩
  | @declaration name ascription s token decl written named =>
    rw [children_redeclared written] at hc
    obtain ⟨hname, hasc⟩ := children_shadowDecl decl
    by_cases hcn : c = name
    · exact .inl fun y => isPlain_of_ident ((kind_redeclared ..).trans (hcn ▸ named))
    · by_cases hca : c ∈ ascription
      · have hkind : (u.redeclared x name ascription s token).kind c = .ident s.shadowedName := by
          rw [kind_redeclared, kind_reascribed, if_pos ⟨hca, hf.child x hxlt c hc⟩]
        exact .inl fun y => isPlain_of_ident hkind
      · refine .inr ⟨hc, fun y hy => ?_⟩
        obtain ⟨-, hyx, hyd⟩ := hnot hc hy
        refine node_redeclared hyx (hyd name hname fun he => hcn he.symm) fun hmem => ?_
        exact hyd y (hasc y hmem) (fun he => hca (he ▸ hmem)) rfl
  | identifier kind =>
    rw [Tree.children, setTy, kind_setTy?, kind] at hc
    cases hc

theorem Tree.Bound.of_sameBelow {c : Nat} (h : u.Bound e y) (hs : SameBelow c u u') (hy : u.Reaches c y) : u'.Bound e y := by
  have hread : ∀ z, u.Reaches c z → SameReading u u' z := fun z hz => by
    have hnode := hs z hz
    exact ⟨congrArg Node.ty hnode, congrArg Node.scope hnode, congrArg (fun m : Node => m.kind.token?) hnode⟩
  exact h.congr (congrArg Node.kind (hs y hy)) (hread y hy) fun d hd => hread d (hy.tail hd)

/-- The work on the children of a node. What is done for one child leaves all that is
below the others alone. -/
theorem Chain.rebound {l : List Nat}
    (hR : ∀ {c u u'}, Concreted n c u u' → u.Formed → u.Owned → u.Reachable c → (∀ y, u.Reaches c y → u.Bound e y) →
      e.Rebound u.env new → e.Rebound u'.env new)
    (h : Chain (Concreted n) l u u') (hf : u.Formed) (ho : u.Owned) (hx : u.Reachable x) (hl : ∀ c ∈ l, c ∈ u.children x)
    (hnodup : l.Nodup) (hb : ∀ c ∈ l, ∀ y, u.Reaches c y → u.Bound e y) (he : e.Rebound u.env new) :
    e.Rebound u'.env new := by
  induction h with
  | nil => exact he
  | @cons d l u u₁ u' first _ ih =>
    obtain ⟨hdl, hnodup⟩ := List.nodup_cons.mp hnodup
    have hd := hl d List.mem_cons_self
    have hdx : ¬ u.Reaches d x := fun hdx => ho.noCircle hx (.head' hd hdx)
    obtain ⟨hf₁, ho₁, -⟩ := ho.concreted (I := fun _ => True) (fun _ _ _ _ _ _ _ _ => trivial) hf (hx.tail hd) trivial first
    have hchildren : u₁.children x = u.children x :=
      congrArg (fun m : Node => m.kind.children) (first.node_eq (hf.bounded hx) hdx)
    have hsame : ∀ c ∈ l, SameBelow c u u₁ := fun c hc y hy => by
      have hcx := hl c (List.mem_cons_of_mem _ hc)
      refine first.node_eq (hf.bounded ((hx.tail hcx).trans hy)) fun hdy => hdl ?_
      exact ho.disjoint hx hd hcx hdy hy ▸ hc
    refine ih hf₁ ho₁ ((first.confined hf).stays x hx hdx) (fun c hc => hchildren ▸ hl c (List.mem_cons_of_mem _ hc)) hnodup
      (fun c hc y hy => ?_) (hR first hf ho (hx.tail hd) (hb d List.mem_cons_self) he)
    have hy' := (hsame c hc).reaches_iff.mp hy
    exact (hb c (List.mem_cons_of_mem _ hc) y hy').of_sameBelow (hsame c hc) hy'

section Concretizing

variable (hn : e.Nested)
include hn

/-- Making a binder or declaration concrete changes the variable that it sees. -/
theorem NodeConcrete.rebound (h : NodeConcrete x u u') (ho : u.Owned) (hx : u.Reachable x) (hb : u.Bound e x)
    (he : e.Rebound u.env new) : e.Rebound u'.env new := by
  cases h with
  | plain => exact he
  | access => simpa [accessed] using he
  | @declaration name ascription S token decl written named =>
    have hname : u.kind name = .ident token := by
      rwa [kind_reascribed, if_neg fun h => (ho.shadowDecl_distinct hx decl).1 h.1] at named
    rw [← shadowDecl?_under he.toSameTypes hn hb.scope] at decl
    obtain ⟨hs, hget⟩ := hb.get? name ascription S token decl (token?_eq_some.mpr hname)
    rw [env_redeclared]
    exact he.set hn hs hget
  | identifier => simpa [setTy] using he

theorem Concreted.rebound (h : Concreted n x u u') (hf : u.Formed) (ho : u.Owned) (hx : u.Reachable x)
    (hb : ∀ y, u.Reaches x y → u.Bound e y) (he : e.Rebound u.env new) : e.Rebound u'.env new := by
  induction n generalizing x u u' with
  | zero => exact h.elim
  | succ n ih =>
    obtain ⟨u₁, hnode, hchain⟩ := h
    have hrw := hnode.reworks hf ho hx
    have hx₁ := hnode.reachable_self hf ho hx
    refine hchain.rebound ih hrw.formed hrw.isOwned hx₁ (fun c hc => hc) (hrw.isOwned.nodup x hx₁) (fun c hc y hy => ?_)
      (hnode.rebound hn ho hx (hb x (.refl u x)) he)
    rcases hnode.below hf ho hx hc with hplain | ⟨hcx, hsame⟩
    · exact .of_plain (.inl (hplain y hy))
    · have hy' := hsame.reaches_iff.mp hy
      exact (hb y (.head hcx hy')).of_sameBelow hsame hy'

end Concretizing

/-! ## The whole environment -/

/-- The scope `s` of `e` was added for an arm `a` that `t'` has in place of shadow arms
of the visitor `V` of `t`: it lies right inside the visitor's, and it has the arm's
binder, with the concrete type, and nothing else. -/
def Tree.AddedFor (t t' : Tree) (e : Env) (V a : NodeId) (s : ScopeId) : Prop :=
  ∃ p c body name ascription binder S, t'.kind a = .arm p (.some c) body ∧ t'.kind c = .component name ascription ∧
    t'.kind name = .ident binder ∧ t'.scope c = s ∧ t.HasShadowArm V p S ∧ t'.ty c = .some S.shadowedTy ∧
    e.scope s = { parent := .some (t.scope V), vars := .insert {} binder S.shadowedTy }

theorem Growing.addedFor {made : List Made} {i : Nat} {x : Made} (h : Growing t u [] made)
    (he : t.env.Rebound e (made.map (Made.scope t))) (hi : made[i]? = .some x) :
    t.AddedFor u e x.visitor x.arm (t.env.size + i) := by
  obtain ⟨-, hmade, hscope⟩ := h.enlarged.arm i x hi
  refine ⟨x.family.phase, _, _, _, _, x.family.first.binder, x.family.first.shadow, hmade.arm, hmade.component, hmade.name,
    hscope, h.shadow x (List.mem_of_getElem? hi), hmade.ty, he.added i (x.scope t) ?_⟩
  rw [List.getElem?_map, hi]
  rfl

/-- No arm is made twice: their binders are in different scopes. -/
theorem Enlarged.nodup {made : List Made} (h : Enlarged t u made) : (made.map fun x => (x.visitor, x.arm)).Nodup := by
  rw [List.nodup_iff_getElem?_ne_getElem?]
  intro i j hij hj heq
  rw [List.length_map] at hj
  rw [List.getElem?_map, List.getElem?_map, List.getElem?_eq_getElem hj, List.getElem?_eq_getElem (hij.trans hj)] at heq
  have hstart : made[i].start = made[j].start := Nat.add_right_cancel (Prod.mk.inj (Option.some.inj heq)).2
  have hi := (h.arm i _ (List.getElem?_eq_getElem (hij.trans hj))).scope
  rw [hstart, (h.arm j _ (List.getElem?_eq_getElem hj)).scope] at hi
  exact absurd (Nat.add_left_cancel hi) (Nat.ne_of_gt hij)

/-- Erasing leaves the environment as it was, but for variables that had a shadow
type, which may have got the concrete type, and for one new scope for each arm that
was made for shadow arms. -/
theorem Tree.erase_environment (hf : t.Formed) (ho : t.Owned)
    (hty : ∀ x name a S, t.Reachable x → t.shadowDecl? x = .some (name, a, S) → S.shadowedTy.isShadow = false)
    (hget : ∀ x name a S token, t.Reachable x → t.shadowDecl? x = .some (name, a, S) → t.kind name = .ident token →
      t.env.get? (t.scope x) token = .some (.shadow S))
    (hok : t.erase.result = .ok ()) :
    (∀ s : Nat, s < t.env.size → t.erase.tree.env.parent s = t.env.parent s ∧ ∀ n,
      t.erase.tree.env.getType? s n = t.env.getType? s n ∧
      (t.erase.tree.env.get? s n).isSome = (t.env.get? s n).isSome ∧
      (t.erase.tree.env.get? s n = t.env.get? s n ∨
        ∃ S : Shadow Ty, t.env.get? s n = .some (.shadow S) ∧ t.erase.tree.env.get? s n = .some S.shadowedTy)) ∧
    ∃ made : List (NodeId × NodeId), made.Nodup ∧
      (∀ V a, (V, a) ∈ made ↔ t.Reachable V ∧ t.size ≤ a ∧ t.lower.tree.HasArm V a) ∧
      t.erase.tree.env.size = t.env.size + made.length ∧
      ∀ (i : Nat) V a, made[i]? = .some (V, a) → t.AddedFor t.lower.tree t.erase.tree.env V a (t.env.size + i) := by
  have hb : NodesIn (Bound t.env) t { x | t.Reachable x } := fun x hx => by
    have hchild := fun a ha => hf.child x (hf.bounded hx) a (Kind.mem_children_of_ascription? ha)
    refine ⟨fun a ha _ => hf.scope a (hchild a ha), fun name a S => hty x name a S hx, fun name a S token hd htoken => ?_⟩
    exact ⟨hf.scope x (hf.bounded hx), hget x name a S token hx hd (token?_eq_some.mp htoken)⟩
  obtain ⟨hlower, hconcrete⟩ := erasing_run hok
  have hchain := t.lowering_chain hlower
  obtain ⟨made, hmade⟩ := (Growing.start hf ho).run hf hb hchain
  obtain ⟨hf', ho', -⟩ := ho.lowered hf (I := fun _ => True) (fun _ _ _ _ _ _ _ _ => trivial) trivial hchain
  have henv := hconcrete.rebound hf.nested hf' ho' (.refl _ root) (fun y hy => (ho.bound_lowered hf hb hchain).2 y hy)
    hmade.enlarged.env
  refine ⟨fun s hs => ⟨henv.parent s hs, fun n => ⟨henv.getType? hf.nested hs n, ?_, henv.get? hf.nested hs⟩⟩,
    made.map fun x => (x.visitor, x.arm), hmade.enlarged.nodup, fun V a => ?_, ?_, fun i V a hi => ?_⟩
  · rcases henv.get? hf.nested hs (n := n) with heq | ⟨S, hS, hS'⟩
    · rw [heq]
    · rw [hS, hS']
      rfl
  · rw [← hmade.arms V a, List.mem_map]
    simp only [Prod.mk.injEq]
  · rw [henv.size, List.length_map, List.length_map]
  · rw [List.getElem?_map, Option.map_eq_some_iff] at hi
    obtain ⟨x, hi, heq⟩ := hi
    cases heq
    exact hmade.addedFor henv hi

namespace Sample

theorem shadowDecl?_nested {x name : Nat} {a : Option NodeId} {S : Shadow Ty}
    (h : nested.shadowDecl? x = .some (name, a, S)) :
    S = Statement.returnStatement ∧ (x = 6 ∧ name = 4 ∨ x = 15 ∧ name = 13) := by
  have hx : ∀ x < nested.size, (nested.shadowDecl? x).isSome = true → x = 6 ∨ x = 15 := by decide +kernel
  rcases hx x (lt_size_of_mem_children (children_shadowDecl h).1) (by rw [h]; rfl) with rfl | rfl
  · have h₆ : nested.shadowDecl? 6 = .some (4, .some 5, Statement.returnStatement) := rfl
    rw [h₆] at h
    cases h
    exact ⟨rfl, .inl ⟨rfl, rfl⟩⟩
  · have h₁₅ : nested.shadowDecl? 15 = .some (13, .some 14, Statement.returnStatement) := rfl
    rw [h₁₅] at h
    cases h
    exact ⟨rfl, .inr ⟨rfl, rfl⟩⟩

/-- Both visitors of the sample get an arm and a scope for it. The copy of the inner
one, although it has an arm as well, gets none. -/
theorem nested_environment :
    (nested.Formed ∧ nested.Owned ∧ nested.erase.result = .ok () ∧ nested.Reachable 6 ∧
      nested.shadowDecl? 6 = .some (4, .some 5, Statement.returnStatement) ∧
      (∀ x name a S, nested.Reachable x → nested.shadowDecl? x = .some (name, a, S) → S.shadowedTy.isShadow = false) ∧
      ∀ x name a S token, nested.Reachable x → nested.shadowDecl? x = .some (name, a, S) → nested.kind name = .ident token →
        nested.env.get? (nested.scope x) token = .some (.shadow S)) ∧
    (∀ s : Nat, s < nested.env.size → ∀ n,
      (nested.erase.tree.env.get? s n).isSome = (nested.env.get? s n).isSome) ∧
    ∃ made : List (NodeId × NodeId), made.length = 2 ∧ ∀ (i : Nat) V a, made[i]? = .some (V, a) →
      nested.AddedFor nested.lower.tree nested.erase.tree.env V a (nested.env.size + i) := by
  have hlinked : nested.Linked := by decide +kernel
  have hok : nested.erase.result = .ok () := Outcome.ok_of_isOk (by decide +kernel)
  have hty : ∀ x name a S, nested.Reachable x → nested.shadowDecl? x = .some (name, a, S) →
      S.shadowedTy.isShadow = false := fun x name a S _ hd => by
    rw [(shadowDecl?_nested hd).1]
    rfl
  have hget : ∀ x name a S token, nested.Reachable x → nested.shadowDecl? x = .some (name, a, S) →
      nested.kind name = .ident token → nested.env.get? (nested.scope x) token = .some (.shadow S) := by
    intro x name a S token _ hd hk
    obtain ⟨rfl, ⟨rfl, rfl⟩ | ⟨rfl, rfl⟩⟩ := shadowDecl?_nested hd <;> cases hk <;> rfl
  have hsize : nested.erase.tree.env.size = nested.env.size + 2 := by decide +kernel
  obtain ⟨hold, made, -, -, hlength, hadded⟩ :=
    Tree.erase_environment hlinked.formed hlinked.owned hty hget hok
  refine ⟨⟨hlinked.formed, hlinked.owned, hok, reaches_of_mem_postOrder (by decide +kernel), rfl, hty, hget⟩,
    fun s hs n => ((hold s hs).2 n).2.1, made, ?_, hadded⟩
  exact Nat.add_left_cancel (hlength.symm.trans hsize)

end Sample

end Penumbra
