/-
Programs that are fit for erasing can be made concrete.

A fit node can be made concrete (`exists_nodeConcrete`), and all below it is fit
again, the expression put in the place of an access included (`fit_below`). So
the pass goes on down to the leaves without a fault. It has to go four levels
deeper than the program did before, at the most (`Regular.exists_concreted`).
-/
import Penumbra.Proofs.Erase.FitNodes
import Penumbra.Proofs.Erase.OverlookedTypes

namespace Penumbra

open Tree

variable {N R : Set String} {t t₁ u u' v v' : Tree} {n x y c : Nat} {s : Shadow Ty} {field : VirtualField Ty} {var : String}
  {rest : List NodeId}

/-! ## What replaces an access -/

/-- What a step of a path is built on. -/
def PathStep.leaf : PathStep → Kind NodeId
  | .field name => .ident name
  | .index i => .literal (.int i)

/-- The step itself. -/
def PathStep.over (c : NodeId) : PathStep → Kind NodeId
  | .field _ => .selector c
  | .index _ => .index c

/-- The nodes of the expression of a virtual field in parentheses, of which the
first comes at index `n`. -/
structure AccessAt (path : List PathStep) (var : String) (n : Nat) (v : Tree) : Prop where
  var : v.kind n = .ident var
  step : ∀ j step, path[j]? = .some step → v.kind (n + 1 + 2 * j) = step.leaf ∧
    v.kind (n + 1 + 2 * j + 1) = step.over (n + 1 + 2 * j)
  bare : path = [] → v.kind (n + 1) = .paren n
  chain : path ≠ [] → v.kind (n + 1 + 2 * path.length) = .factor n (pairIds (n + 1) path.length) ∧
    v.kind (n + 1 + 2 * path.length + 1) = .paren (n + 1 + 2 * path.length)

theorem Shadow.getElem?_pathNodes (scope : ScopeId) (n : Nat) {path : List PathStep} {j : Nat} {step : PathStep}
    (h : path[j]? = .some step) :
    ∃ m m', (pathNodes scope n path)[2 * j]? = .some m ∧ m.kind = step.leaf ∧
      (pathNodes scope n path)[2 * j + 1]? = .some m' ∧ m'.kind = step.over (n + 2 * j) := by
  induction path generalizing n j with
  | nil => simp at h
  | cons first path ih =>
    cases j with
    | zero =>
      obtain rfl : first = step := by simpa using h
      cases first <;> exact ⟨_, _, rfl, rfl, rfl, rfl⟩
    | succ j =>
      have hrec := ih (n + 2) (by simpa using h)
      rw [show n + 2 + 2 * j = n + 2 * (j + 1) by omega] at hrec
      cases first <;> exact hrec

namespace AccessAt

theorem of_accessed (rest : List NodeId) (hx : x < t.size) :
    AccessAt field.path var t.size (t.accessed x s field var rest) := by
  have hkind : ∀ i m, (t.accessNodes x s field var)[i]? = .some m → (t.accessed x s field var rest).kind (t.size + i) = m.kind :=
    fun i m hi => (read_accessed rest hx hi).1
  generalize t.accessed x s field var rest = v at hkind
  by_cases hp : field.path = []
  · have hnodes : t.accessNodes x s field var = [{ kind := .ident var, scope := t.scope x, ty := s.expandedTy field },
        { kind := .paren t.size, scope := t.scope x, ty := s.expandedTy field }] := by
      simp [accessNodes, Shadow.expandNodes, hp]
    rw [hnodes] at hkind
    exact ⟨hkind 0 _ rfl, by simp [hp], fun _ => hkind 1 _ rfl, fun h => absurd hp h⟩
  · rw [accessNodes_of_path hp] at hkind
    have hlen := Shadow.length_pathNodes (t.scope x) (t.size + 1) field.path
    generalize hnodes : Shadow.pathNodes (t.scope x) (t.size + 1) field.path = nodes at hkind hlen
    refine ⟨hkind 0 _ rfl, fun j step hj => ?_, fun h => absurd h hp, fun _ => ⟨?_, ?_⟩⟩
    · have hnode : ∀ i m, nodes[i]? = .some m → v.kind (t.size + 1 + i) = m.kind := fun i m hi => by
        have hlt := (List.getElem?_eq_some_iff.mp hi).1
        rw [Nat.add_assoc, Nat.add_comm 1 i]
        refine hkind _ m ?_
        rw [List.getElem?_cons_succ, List.getElem?_append_left hlt]
        exact hi
      obtain ⟨m, m', hm, hk, hm', hk'⟩ := Shadow.getElem?_pathNodes (t.scope x) (t.size + 1) hj
      rw [hnodes] at hm hm'
      exact ⟨(hnode _ m hm).trans hk, (hnode _ m' hm').trans hk'⟩
    · have hnode := hkind (2 * field.path.length + 1) _ (by
        rw [List.getElem?_cons_succ, List.getElem?_append_right hlen.le, hlen, Nat.sub_self, List.getElem?_cons_zero])
      rwa [show t.size + (2 * field.path.length + 1) = t.size + 1 + 2 * field.path.length by omega] at hnode
    · have hnode := hkind (2 * field.path.length + 2) _ (by
        rw [List.getElem?_cons_succ, List.getElem?_append_right (by omega), hlen, Nat.add_sub_cancel_left,
          List.getElem?_cons_succ, List.getElem?_cons_zero])
      rw [show t.size + (2 * field.path.length + 2) = t.size + 1 + 2 * field.path.length + 1 by omega,
        show t.size + (2 * field.path.length + 1) = t.size + 1 + 2 * field.path.length by omega] at hnode
      exact hnode

/-- The index of the parentheses. -/
def last (path : List PathStep) (n : Nat) : Nat :=
  if path = [] then n + 1 else n + 1 + 2 * path.length + 1

theorem last_eq : last field.path t.size = t.parenId x s field var := by
  by_cases hp : field.path = []
  · simp [last, parenId, Shadow.expandNodes, hp]
  · simp [last, parenId, Shadow.expandNodes, hp, Shadow.length_pathNodes]
    omega

variable {path : List PathStep} (h : AccessAt path var n v)

theorem cases (hy : n ≤ y) (hy' : y ≤ last path n) :
    y = n ∨ (∃ j step, path[j]? = .some step ∧ (y = n + 1 + 2 * j ∨ y = n + 1 + 2 * j + 1)) ∨
      path ≠ [] ∧ y = n + 1 + 2 * path.length ∨ y = last path n := by
  by_cases hp : path = []
  · rw [last, if_pos hp] at hy' ⊢
    omega
  · rw [last, if_neg hp] at hy' ⊢
    rcases Nat.lt_or_ge y (n + 1 + 2 * path.length) with hlt | hge
    · rcases Nat.eq_or_lt_of_le hy with rfl | hlt'
      · exact .inl rfl
      · have hj : (y - n - 1) / 2 < path.length := by omega
        exact .inr (.inl ⟨_, _, List.getElem?_eq_getElem hj, by omega⟩)
    · right
      right
      rcases Nat.eq_or_lt_of_le hge with heq | hlt'
      · exact .inl ⟨hp, heq.symm⟩
      · exact .inr (by omega)

include h

theorem paren : ∃ e, v.kind (last path n) = .paren e ∧
    (v.kind e = .ident var ∨ v.kind e = .factor n (pairIds (n + 1) path.length)) := by
  by_cases hp : path = []
  · rw [last, if_pos hp]
    exact ⟨n, h.bare hp, .inl h.var⟩
  · rw [last, if_neg hp]
    exact ⟨_, (h.chain hp).2, .inr (h.chain hp).1⟩

theorem kind_step (hc : c ∈ pairIds (n + 1) path.length) :
    ∃ step ∈ path, ∃ e, v.kind e = step.leaf ∧ v.kind c = step.over e := by
  obtain ⟨j, hj, rfl⟩ := mem_pairIds.mp hc
  obtain ⟨hleaf, hover⟩ := h.step j _ (List.getElem?_eq_getElem hj)
  rw [Nat.add_right_comm] at hover
  exact ⟨_, List.getElem_mem hj, _, hleaf, hover⟩

/-- Four levels of nodes are added. -/
theorem endsWithin : v.EndsWithin 4 (last path n) := by
  have hleaf : ∀ {e : Nat} {step : PathStep}, v.kind e = step.leaf → v.EndsWithin 1 e := fun {e step} hk c hc => by
    rw [Tree.children, hk] at hc
    cases step <;> cases hc
  have hident : ∀ {e : Nat} {token : String}, v.kind e = .ident token → v.EndsWithin 1 e := fun {e token} hk =>
    hleaf (show v.kind e = (PathStep.field token).leaf from hk)
  have hover : ∀ {c e : Nat} {step : PathStep}, v.kind e = step.leaf → v.kind c = step.over e → v.EndsWithin 2 c :=
    fun {c e step} he hk d hd => by
      rw [Tree.children, hk] at hd
      obtain rfl : d = e := by cases step <;> simpa [PathStep.over, Kind.children] using hd
      exact hleaf he
  obtain ⟨e, hk, he⟩ := h.paren
  intro d hd
  obtain rfl : d = e := by rw [Tree.children, hk] at hd; simpa [Kind.children] using hd
  rcases he with he | he
  · exact (hident he).mono (show 1 ≤ 3 by decide)
  · intro c hc
    rw [Tree.children, he] at hc
    rcases List.mem_cons.mp hc with rfl | hc
    · exact (hident h.var).mono (show 1 ≤ 2 by decide)
    · obtain ⟨step, -, e', he', hk'⟩ := h.kind_step hc
      exact hover he' hk'

section Shadowless

variable (hshadow : ∀ y : Nat, n ≤ y → y ≤ last path n → v.shadow? y = .none)
include hshadow

/-- All that is added is left alone later on, and its names are the variable's and
those of the path. -/
theorem fit (hN : var ∈ N) (hR : var ∉ R) (hpath : ∀ name, .field name ∈ path → name ∉ R) (hy : n ≤ y) (hy' : y ≤ last path n) :
    Fit N R v y ∧ v.Plain y := by
  have hfirst : v.shadow? n = .none := hshadow n le_rfl (by rw [last]; split <;> omega)
  have hnone := hshadow y hy hy'
  have hwrap : (v.isVisitor y = false ∧ v.shadowDecl? y = .none ∧ (∀ o steps, v.kind y = .factor o steps → o = n) ∧
      (∀ c ∈ (v.kind y).names, ∃ n, v.kind c = .ident n) ∧
      (∀ c ∈ v.children y, ∀ token, v.kind c = .ident token → token ∉ R) ∧
      ∀ c ∈ (v.kind y).references, ∀ token, v.kind c = .ident token → token ∈ N) := by
    rcases cases hy hy' with rfl | ⟨j, step, hj, rfl | rfl⟩ | ⟨hp, rfl⟩ | rfl
    · simp [isVisitor, shadowDecl?, Tree.children, h.var, Kind.names, Kind.children, Kind.references]
    · have hk := (h.step j step hj).1
      cases step <;>
        simp [isVisitor, shadowDecl?, Tree.children, hk, PathStep.leaf, Kind.names, Kind.children, Kind.references]
    · obtain ⟨hleaf, hk⟩ := h.step j step hj
      have hmem := List.mem_of_getElem? hj
      cases step with
      | field name =>
        simp [isVisitor, shadowDecl?, Tree.children, hk, PathStep.over, Kind.names, Kind.children, Kind.references, hleaf,
          PathStep.leaf, hpath name hmem]
      | index i =>
        simp [isVisitor, shadowDecl?, Tree.children, hk, PathStep.over, Kind.names, Kind.children, Kind.references, hleaf,
          PathStep.leaf]
    · have hk := (h.chain hp).1
      have hstep : ∀ c ∈ pairIds (n + 1) path.length, ∀ token, v.kind c ≠ .ident token := fun c hc token hkc => by
        obtain ⟨step, -, e, -, hover⟩ := h.kind_step hc
        rw [hover] at hkc
        cases step <;> cases hkc
      have htoken : ∀ c ∈ n :: pairIds (n + 1) path.length, ∀ token, v.kind c = .ident token → token = var := by
        intro c hc token hkc
        rcases List.mem_cons.mp hc with rfl | hc
        · rw [h.var] at hkc
          exact (Kind.ident.inj hkc).symm
        · exact absurd hkc (hstep c hc token)
      refine ⟨by simp [isVisitor, hk], by simp [shadowDecl?, hk], fun o steps hko => ?_, by simp [hk, Kind.names],
        fun c hc token hkc => ?_, fun c hc token hkc => ?_⟩
      · rw [hk] at hko
        exact (Kind.factor.inj hko).1.symm
      · rw [Tree.children, hk] at hc
        exact htoken c hc token hkc ▸ hR
      · rw [hk] at hc
        exact htoken c hc token hkc ▸ hN
    · obtain ⟨e, hk, he⟩ := h.paren
      rcases he with he | he <;>
        simp [isVisitor, shadowDecl?, Tree.children, hk, Kind.names, Kind.children, Kind.references, he, hN, hR]
  obtain ⟨hv, hdecl, hfactor, hnames, hchildren, hrefs⟩ := hwrap
  have hoperand : ∀ o steps, v.kind y = .factor o steps → v.shadow? o = .none := fun o steps hk => by
    rw [hfactor o steps hk]
    exact hfirst
  exact ⟨.of_plain hv hnone hdecl hoperand hnames hchildren hrefs,
    ⟨hdecl, fun _ _ => hnone, fun o steps hk => .inl (hoperand o steps hk)⟩⟩

end Shadowless

end AccessAt

/-! ## One node -/

theorem exists_nodeConcrete (hfit : ∀ y, t.Reaches x y → Fit N R t y) : ∃ t₁, NodeConcrete x t t₁ := by
  have hx := hfit x (.refl t x)
  cases hd : t.shadowDecl? x with
  | some d =>
    obtain ⟨name, ascription, s⟩ := d
    have hnames : ∀ c, c = name ∨ c ∈ ascription → ∃ n, t.kind c = .ident n := fun c hc => by
      refine hx.names c ?_
      rcases shadowDecl?_eq_some.mp hd with ⟨a, rfl, hk, -⟩ | ⟨a, init, rfl, hk, -⟩ | ⟨init, rfl, hk, -⟩ <;>
        simpa [hk, Kind.names, eq_comm] using hc
    have hname : ∃ token, (t.reascribed ascription s).kind name = .ident token := by
      rw [kind_reascribed]
      split
      · exact ⟨_, rfl⟩
      · exact hnames name (.inl rfl)
    obtain ⟨token, hname⟩ := hname
    exact ⟨_, .declaration hd (fun a ha => hnames a (.inr ha)) hname⟩
  | none =>
    by_cases hident : ∃ token, t.kind x = .ident token
    · obtain ⟨token, hk⟩ := hident
      cases hs : t.shadow? x with
      | none => exact ⟨t, .plain ⟨hd, fun _ _ => hs, by simp [hk]⟩⟩
      | some s => exact ⟨_, .identifier hk hs⟩
    · have hplain : ∀ o steps, t.kind x = .factor o steps → (t.shadow? o = .none ∨
          ∃ first rest, steps = first :: rest ∧ ∀ field, t.kind first ≠ .selector field) → NodeConcrete x t t :=
        fun o steps hk hcase => .plain ⟨hd, fun token hk => absurd ⟨token, hk⟩ hident, fun o' steps' hk' => by
          rw [hk] at hk'
          cases hk'
          exact hcase⟩
      by_cases hfactor : ∃ o steps, t.kind x = .factor o steps
      · obtain ⟨o, steps, hk⟩ := hfactor
        cases hs : t.shadow? o with
        | none => exact ⟨t, hplain o steps hk (.inl hs)⟩
        | some s =>
          obtain ⟨first, rest, rfl, hfield⟩ := hx.steps o steps s hk hs
          by_cases hsel : ∃ f, t.kind first = .selector f
          · obtain ⟨f, hf⟩ := hsel
            have hfirst := hfit first (.single (by simp [Child, Tree.children, hk, Kind.children]))
            obtain ⟨name, hname⟩ := hfirst.names f (by simp [hf, Kind.names])
            obtain ⟨var, hvar⟩ := hx.operand o _ hk (by simp [hs])
            obtain ⟨vf, hvf⟩ := Option.ne_none_iff_exists'.mp (hfield f name hf hname)
            exact ⟨_, .access hk hs hf hname hvar hvf⟩
          · exact ⟨t, hplain o _ hk (.inr ⟨first, rest, rfl, fun f hf => hsel ⟨f, hf⟩⟩)⟩
      · exact ⟨t, .plain ⟨hd, fun token hk => absurd ⟨token, hk⟩ hident, fun o steps hk => absurd ⟨o, steps, hk⟩ hfactor⟩⟩

theorem Tree.SameBelow.resembles (h : SameBelow c u u') (htypes : u'.env.getType? = u.env.getType?) :
    Resembles u u' (fun y => y) { y | u.Reaches c y } where
  child y hy d hd := Reaches.tail hy (by rwa [h.children_eq hy] at hd)
  kind y hy := by rw [Kind.map_id, Tree.kind, h y hy]; rfl
  scope y hy := by rw [Tree.scope, h y hy]; rfl
  ty y hy := by rw [Tree.ty, h y hy]; rfl
  types := htypes

theorem Tree.Resembles.plain {φ : Nat → Nat} {D : Set Nat} (h : Resembles t u φ D) (hy : y ∈ D) (hplain : t.Plain (φ y)) :
    u.Plain y := by
  refine ⟨(h.shadowDecl?_eq_none hy).mp hplain.decl, fun token hk => ?_, fun o steps hk => ?_⟩
  · rw [h.shadow? hy]
    exact hplain.ident token ((h.ident hy).mp hk)
  · have hmem : ∀ c ∈ o :: steps, c ∈ D := fun c hc => h.child y hy c (by rw [Tree.children, hk]; exact hc)
    have hkind := h.kind y hy
    rw [hk] at hkind
    rcases hplain.chain _ _ hkind.symm with hnone | ⟨first', rest', hl, hsel⟩
    · exact .inl (by rw [h.shadow? (hmem o List.mem_cons_self)]; exact hnone)
    · obtain ⟨first, rest, rfl, rfl, rfl⟩ := List.map_eq_cons_iff.mp hl
      refine .inr ⟨first, rest, rfl, fun f hf => ?_⟩
      have hkf := h.kind first (hmem first (by simp))
      rw [hf] at hkf
      exact hsel (φ f) hkf.symm

theorem Tree.SameBelow.endsWithin (h : SameBelow c u u') {m : Nat} (hy : u.Reaches c y) (hm : u.EndsWithin m y) :
    u'.EndsWithin m y := by
  induction m generalizing y with
  | zero => exact hm
  | succ m ih =>
    intro d hd
    rw [h.children_eq hy] at hd
    exact ih (hy.tail hd) (hm d hd)

section Node

variable {types : ScopeId → String → Option Ty} (h : NodeConcrete x t t₁) (ht : Regular Ty.Shallow types t) (hx : t.Reachable x)
include h ht hx

/-- Below the node, nothing changes but identifiers. -/
theorem NodeConcrete.sameBelow (hxy : Relation.TransGen t.Child x y) :
    SameBelow y t t₁ ∨ ∃ token, t₁.kind y = .ident token ∧ t₁.shadow? y = .none := by
  have hyr : ∀ z, t.Reaches y z → t.Reachable z := fun z hz => (Reaches.trans hx hxy.to_reflTransGen).trans hz
  have hne : ∀ z, t.Reaches y z → z ≠ x := fun z hz he => ht.owned.noCircle hx (hxy.trans_left (he ▸ hz))
  cases h with
  | plain => exact .inl (.refl y t)
  | access => exact .inl fun z hz => node_accessed (ht.formed.bounded (hyr z hz)) (hne z hz)
  | identifier kind =>
    refine .inl fun z hz => ?_
    rw [setTy, setTy?, node_update, if_neg fun h => hne z hz h.1]
  | @declaration name ascription s token decl written named =>
    have hs : s.Shallow := ht.typed.shadowDecl? ht.formed.program_closed hx decl
    obtain ⟨hname, hasc⟩ := children_shadowDecl decl
    have hylt := ht.formed.bounded (hyr y (.refl t y))
    by_cases hy : y = name ∨ y ∈ ascription
    · refine .inr ?_
      have hty : (t.redeclared x name ascription s token).ty y = .some s.shadowedTy := ty_redeclared_of_mem hylt (.inr hy)
      have hnone := shadow?_of_ty hty hs.shadowed
      rcases hy with rfl | hya
      · exact ⟨token, by rw [kind_redeclared]; exact named, hnone⟩
      · exact ⟨s.shadowedName, by rw [kind_redeclared, kind_reascribed, if_pos ⟨hya, hylt⟩], hnone⟩
    · -- a child of the node lies below another one only if it is the same
      have hbelow : ∀ d ∈ t.children x, t.Reaches y d → d = y := fun d hd hyd => by
        rcases hyd.cases_tail with rfl | ⟨p, hyp, hdp⟩
        · rfl
        · have hpx := (ht.owned.parent p (hyr p hyp) d hdp).symm.trans (ht.owned.parent x hx d hd)
          exact absurd (Option.some.inj hpx) (hne p hyp)
      refine .inl fun z hz => node_redeclared (hne z hz) (fun he => hy (.inl ?_)) fun hmem => hy (.inr ?_)
      · subst he
        exact (hbelow z hname hz).symm
      · rw [← hbelow z (hasc z hmem) hz]
        exact hmem

/-- What is added is fit and left alone later on. -/
theorem NodeConcrete.fit_new (hfit : ∀ y, t.Reaches x y → Fit N R t y) (hy : y ∈ fresh t t₁) :
    Fit N R t₁ y ∧ t₁.Plain y := by
  have hnone := fun y hy => h.shadow?_new ht.formed hx ht.typed (y := y) hy
  have hsize : t₁.size ≠ t.size := fun he => absurd hy.2 (by have := hy.1; omega)
  cases h with
  | plain => exact absurd rfl hsize
  | declaration => exact absurd (size_redeclared ..) hsize
  | identifier => exact absurd (by simp [setTy]) hsize
  | @access operand first rest s fieldId field var vf kind shadow selector token root known =>
    have hfx := hfit x (.refl t x)
    have hchild : operand ∈ (t.kind x).children := by simp [kind, Kind.children]
    have hs := (hfit operand (.single hchild)).sound s shadow
    have hparen : AccessAt.last vf.path t.size = t.parenId x s vf var := AccessAt.last_eq
    have hlast : (t.accessed x s vf var rest).size = AccessAt.last vf.path t.size + 1 := by
      rw [hparen, size_accessed, parenId, accessNodes, List.length_append]
      rfl
    have hrange : ∀ {z : Nat}, z < (t.accessed x s vf var rest).size ↔ z ≤ AccessAt.last vf.path t.size := fun {z} => by
      rw [hlast, Nat.lt_succ_iff]
    refine (AccessAt.of_accessed rest (ht.formed.bounded hx)).fit (fun z hz hz' => hnone z ⟨hz, hrange.mpr hz'⟩) ?_ ?_
      (fun name hmem => hs.path vf (List.mem_of_find?_eq_some known) name hmem) hy.1 (hrange.mp hy.2)
    · exact hfx.references operand (by simp [kind, Kind.references, Kind.children]) var root
    · exact hfx.others operand (by simp [kind, Kind.others, Kind.children]) var root

theorem NodeConcrete.fit_below (hfit : ∀ y, t.Reaches x y → Fit N R t y) (hc : c ∈ t₁.children x) (hcy : t₁.Reaches c y) :
    Fit N R t₁ y := by
  have hev := h.evolves
  rcases Nat.lt_or_ge y t.size with hlt | hge
  · obtain ⟨hclt, hcy⟩ := hev.reaches hlt hcy
    have hcx := (hev.child x (ht.formed.bounded hx) c hc).resolve_right fun hnew => absurd hnew.1 (by omega)
    have hxy : Relation.TransGen t.Child x y := .head' hcx hcy
    rcases h.sameBelow ht hx hxy with hsame | ⟨token, hk, hnone⟩
    · exact (hsame.resembles h.getType?_eq).fit (Reaches.refl t y) (hfit y hxy.to_reflTransGen)
    · exact .of_ident hk hnone
  · have hx₁ := h.reachable_self ht.formed ht.owned hx
    exact (h.fit_new ht hx hfit ⟨hge, (h.formed ht.formed).bounded ((hx₁.tail hc).trans hcy)⟩).1

theorem NodeConcrete.fit_turn (hfit : ∀ y, t.Reaches x y → Fit N R t y) (hc : c ∈ t₁.children x)
    (hv : Regular Ty.Shallow types v) (hsame : SameBelow c t₁ v) : ∀ y, v.Reaches c y → Fit N R v y := fun y hy => by
  have hy₁ := hsame.reaches_iff.mp hy
  have htypes := hv.types.trans (ht.nodeConcrete inherited_shallow h hx).types.symm
  exact (hsame.resembles htypes).fit hy₁ (h.fit_below ht hx hfit hc hy₁)

/-- A child ends where it ended before, or is one of those added. -/
theorem NodeConcrete.endsWithin {m : Nat} (hfit : ∀ y, t.Reaches x y → Fit N R t y) (hm : t.EndsWithin (m + 1) x)
    (hc : c ∈ t₁.children x) :
    t₁.EndsWithin m c ∨ t₁.EndsWithin 4 c ∧ ∀ y, t₁.Reaches c y → t₁.Plain y := by
  have hev := h.evolves
  rcases hev.child x (ht.formed.bounded hx) c hc with hold | hnew
  · rcases h.sameBelow ht hx (.single hold) with hsame | ⟨token, hk, -⟩
    · exact .inl (hsame.endsWithin (.refl t c) (hm c hold))
    · refine .inl ?_
      cases m with
      | zero => exact (hm c hold).elim
      | succ m =>
        intro d hd
        rw [Tree.children, hk] at hd
        cases hd
  · have hclosed : t₁.Closed (∅ ∪ fresh t t₁) := hev.closed ⟨fun _ h => h.elim, fun _ h => h.elim⟩
    refine .inr ⟨?_, fun y hy => (h.fit_new ht hx hfit ?_).2⟩
    · have hsize : t₁.size ≠ t.size := fun he => absurd hnew.2 (by have := hnew.1; omega)
      cases h with
      | plain => exact absurd rfl hsize
      | declaration => exact absurd (size_redeclared ..) hsize
      | identifier => exact absurd (by simp [setTy]) hsize
      | @access operand first rest s fieldId field var vf kind =>
        have hxlt := ht.formed.bounded hx
        rw [Tree.children, kind_accessed t x s vf var rest x hxlt, if_pos rfl] at hc
        rcases List.mem_cons.mp hc with rfl | hc
        · rw [← AccessAt.last_eq]
          exact (AccessAt.of_accessed rest hxlt).endsWithin
        · have hlt := ht.formed.child x hxlt c (by simp [Tree.children, kind, Kind.children, hc])
          exact absurd hnew.1 (by omega)
    · exact (hclosed.reaches (.inr hnew) hy).resolve_left fun h => h.elim

end Node

/-! ## All below a node -/

section Below

variable {types : ScopeId → String → Option Ty} {l : List Nat}

/-- Where the work on each child can be done whatever has become of the others, it
can be done on all of them. -/
theorem Regular.exists_chain {P : Ty → Prop} (hP : Inherited P) (hu : Regular P types u) (hx : u.Reachable x)
    (hl : ∀ c ∈ l, c ∈ u.children x) (hnodup : l.Nodup)
    (hc : ∀ c ∈ l, ∀ v, Regular P types v → v.Reachable c → SameBelow c u v → ∃ v', Concreted n c v v') :
    ∃ u', Chain (Concreted n) l u u' := by
  induction l generalizing u with
  | nil => exact ⟨u, .nil⟩
  | cons d l ih =>
    obtain ⟨hdl, hnodup⟩ := List.nodup_cons.mp hnodup
    have hd := hl d List.mem_cons_self
    obtain ⟨u₁, hfirst⟩ := hc d List.mem_cons_self u hu (Reaches.tail hx hd) (.refl d u)
    have hdx : ¬ u.Reaches d x := fun hdx => hu.owned.noCircle hx (.head' hd hdx)
    have hchildren : u₁.children x = u.children x :=
      congrArg (fun m : Node => m.kind.children) (hfirst.node_eq (hu.formed.bounded hx) hdx)
    obtain ⟨u', hrest⟩ := ih (hu.concreted hP hfirst (Reaches.tail hx hd)) ((hfirst.confined hu.formed).stays x hx hdx)
      (fun c hmem => hchildren ▸ hl c (List.mem_cons_of_mem _ hmem)) hnodup fun c hmem v hv hcv hsame => by
        refine hc c (List.mem_cons_of_mem _ hmem) v hv hcv (SameBelow.trans ?_ hsame)
        exact hu.apart hx (hl c (List.mem_cons_of_mem _ hmem)) hd (fun he => hdl (he ▸ hmem)) fun y => hfirst.node_eq
    exact ⟨u', .cons hfirst hrest⟩

/-- A fit part of a program can be made concrete. What replaces an access takes up
to four levels more than the depth of the part. -/
theorem Regular.exists_concreted {m : Nat} (hu : Regular Ty.Shallow types u) (hx : u.Reachable x) (hm : u.EndsWithin m x)
    (hfit : ∀ y, u.Reaches x y → Fit N R u y) : ∃ u', Concreted (m + 4) x u u' := by
  induction m generalizing x u with
  | zero => exact hm.elim
  | succ m ih =>
    obtain ⟨u₁, hnode⟩ := exists_nodeConcrete hfit
    have hu₁ := hu.nodeConcrete inherited_shallow hnode hx
    have hx₁ := hnode.reachable_self hu.formed hu.owned hx
    obtain ⟨u', hchain⟩ := hu₁.exists_chain (n := m + 4) inherited_shallow hx₁ (fun _ hc => hc) (hu₁.owned.nodup x hx₁)
      fun c hc v hv hcv hsame => by
        rcases hnode.endsWithin hu hx hfit hm hc with hends | ⟨hends, hplain⟩
        · exact ih hv hcv (hsame.endsWithin (.refl u₁ c) hends) (hnode.fit_turn hu hx hfit hc hv hsame)
        · refine ⟨v, concreted_of_plain (fun y hy => ?_) ((hsame.endsWithin (.refl u₁ c) hends).mono (by omega))⟩
          have hy₁ := hsame.reaches_iff.mp hy
          exact (hsame.resembles (hv.types.trans hu₁.types.symm)).plain hy₁ (hplain y hy₁)
    rw [Nat.add_right_comm]
    exact ⟨u', u₁, hnode, hchain⟩

end Below

end Penumbra
