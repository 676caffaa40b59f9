/-
The types of virtual fields.

The expression of a virtual field has the type that the field was declared with,
unless its path is empty: then it is the variable, which has the concrete type.
Making a program concrete hands the type on to the parentheses around the expression
and to the chain (`access_typed`). The proof follows the loop of the pass. Until its
turn comes, the chain is below one of the nodes still to come, and nobody else leads
to what it is made of (`Awaited`). From its turn on, what has taken its place is left
alone (`Placed`). Parent links play no part.
-/
import Penumbra.Proofs.Concrete.FieldExpression
import Penumbra.Proofs.Concrete.WorkList
import Penumbra.Proofs.Concrete.FitPrograms
import Penumbra.Proofs.Concrete.NodeTurns

namespace Penumbra

open Tree

namespace Tree

variable {t t' u u₁ v : Tree} {x y z c p operand step name : Nat} {s : Shadow Ty} {vf : VirtualField Ty}
  {field var : String} {rest pending : List NodeId}

/-- No two nodes of the program name the same child. -/
def Unshared (t : Tree) : Prop :=
  ∀ y z c, t.Reachable y → t.Reachable z → c ∈ t.children y → c ∈ t.children z → y = z

theorem Owned.unshared (h : t.Owned) : t.Unshared := fun y z c hy hz hcy hcz =>
  Option.some.inj ((h.parent y hy c hcy).symm.trans (h.parent z hz c hcz))

/-- The chain `x` takes one step, which selects `field`, from a variable of the shadow
type `s`. -/
structure Accesses (t : Tree) (x operand step name : NodeId) (s : Shadow Ty) (field : String) : Prop where
  chain : t.kind x = .factor operand [step]
  var : ∃ var, t.kind operand = .ident var
  shadow : t.shadow? operand = .some s
  step : t.kind step = .selector name
  name : t.kind name = .ident field

/-! ## Before its turn -/

theorem not_reaches_of_ident {token : String} {steps : List NodeId} (hc : t.kind c = .ident token)
    (hx : t.kind x = .factor operand steps) : ¬ t.Reaches c x := fun hcx => by
  rcases hcx.cases with rfl | ⟨d, hd, -⟩
  · cases hc.symm.trans hx
  · rw [Tree.children, hc] at hd
    cases hd

theorem not_reaches_of_selector {token : String} {steps : List NodeId} (hc : t.kind c = .selector name)
    (hn : t.kind name = .ident token) (hx : t.kind x = .factor operand steps) : ¬ t.Reaches c x := fun hcx => by
  rcases hcx.cases with rfl | ⟨d, hd, hdx⟩
  · cases hc.symm.trans hx
  · rw [Tree.children, hc] at hd
    obtain rfl := List.mem_singleton.mp hd
    exact not_reaches_of_ident hn hx hdx

/-- Of the nodes still to come and all below them, only `p` names `c`, which is none
of the former. -/
structure Alone (pending : List NodeId) (t : Tree) (c p : NodeId) : Prop where
  later : c ∉ pending
  only : ∀ q ∈ pending, ∀ z, t.Reaches q z → c ∈ t.children z → z = p

/-- After a turn the children of its node are still to come. -/
theorem Alone.turn (h : Alone (y :: pending) t c p) (hev : t.Evolves t') (hc : c < t.size) (hy : y ≠ p) :
    Alone (t'.children y ++ pending) t' c p := by
  refine ⟨fun hmem => ?_, fun q hq z hz hcz => ?_⟩
  · rcases List.mem_append.mp hmem with hchild | hmem
    · exact hy (h.only y List.mem_cons_self y (.refl t y) (hev.child_of_lt hc hchild).2)
    · exact h.later (List.mem_cons_of_mem y hmem)
  · obtain ⟨hzlt, hcz⟩ := hev.child_of_lt hc hcz
    obtain ⟨hqlt, hqz⟩ := hev.reaches hzlt hz
    rcases List.mem_append.mp hq with hchild | hq
    · exact h.only y List.mem_cons_self z (.head (hev.child_of_lt hqlt hchild).2 hqz) hcz
    · exact h.only q (List.mem_cons_of_mem y hq) z hqz hcz

/-- The turn of the chain is still to come. -/
structure Awaited (pending : List NodeId) (t : Tree) (x operand step name : NodeId) (s : Shadow Ty) (field : String) :
    Prop where
  access : t.Accesses x operand step name s field
  below : ∃ q ∈ pending, t.Reaches q x
  aloneOperand : Alone pending t operand x
  aloneStep : Alone pending t step x
  aloneName : Alone pending t name step

end Tree

namespace NodeConcrete

variable {t t₁ : Tree} {x y z c q operand step name : Nat} {s : Shadow Ty} {vf : VirtualField Ty}
  {field var : String} {steps pending : List NodeId}

/-- A child that is dropped is an identifier, or selects a field. -/
theorem child_kept (h : NodeConcrete y t t₁) (hc : c ∈ t.children z) :
    c ∈ t₁.children z ∨ (∃ token, t.kind c = .ident token) ∨
      ∃ n token, t.kind c = .selector n ∧ t.kind n = .ident token := by
  by_cases hzy : z = y
  · subst hzy
    cases h with
    | plain => exact .inl hc
    | @access operand first rest s fieldId field var vf kind shadow selector token root known =>
      rw [Tree.children, kind] at hc
      rcases List.mem_cons.mp hc with rfl | hc
      · exact .inr (.inl ⟨var, root⟩)
      · rcases List.mem_cons.mp hc with rfl | hc
        · exact .inr (.inr ⟨fieldId, field, selector, token⟩)
        · refine .inl ?_
          rw [Tree.children, kind_accessed t z s vf var rest z (lt_size_of_kind kind (by simp)), if_pos rfl]
          exact List.mem_cons_of_mem _ hc
    | declaration decl written => exact .inl (by rwa [children_redeclared written])
    | identifier kind =>
      rw [Tree.children, kind] at hc
      cases hc
  · rcases h.node_eq_or_ident (lt_size_of_mem_children hc) hzy with hnode | ⟨-, ⟨token, hk⟩, -⟩
    · exact .inl (by rwa [Tree.children, Tree.kind, hnode])
    · rw [Tree.children, hk] at hc
      cases hc

theorem reaches_chain (h : NodeConcrete y t t₁) (hx : t.kind x = .factor operand steps) (hqx : t.Reaches q x) :
    t₁.Reaches q x := by
  induction hqx using Relation.ReflTransGen.head_induction_on with
  | refl => exact .refl t₁ x
  | @head q c hc hcx ih =>
    rcases h.child_kept hc with hkept | ⟨token, hk⟩ | ⟨n, token, hk, hn⟩
    · exact .head hkept ih
    · exact absurd hcx (not_reaches_of_ident hk hx)
    · exact absurd hcx (not_reaches_of_selector hk hn hx)

theorem awaited (h : NodeConcrete y t t₁) (hx : Awaited (y :: pending) t x operand step name s field) (hyx : y ≠ x) :
    Awaited (t₁.children y ++ pending) t₁ x operand step name s field := by
  have hev := h.evolves
  obtain ⟨⟨hchain, ⟨var, hvar⟩, hshadow, hstep, hname⟩, ⟨q, hq, hqx⟩, haop, hast, hana⟩ := hx
  have hys : y ≠ step := fun he => hast.later (he ▸ List.mem_cons_self)
  have hoplt := lt_size_of_kind hvar (by simp)
  have hstlt := lt_size_of_kind hstep (by simp)
  have hnalt := lt_size_of_kind hname (by simp)
  -- the nodes of the chain are neither declarations nor the names in one
  have hxnode : t₁.node x = t.node x := by
    refine (h.node_eq_or_ident (lt_size_of_kind hchain (by simp)) hyx.symm).resolve_right ?_
    rintro ⟨-, ⟨token, hk⟩, -⟩
    cases hk.symm.trans hchain
  have hopnode : t₁.node operand = t.node operand := by
    refine (h.node_eq_or_ident hoplt fun he => haop.later (he ▸ List.mem_cons_self)).resolve_right ?_
    exact fun hmem => hyx (haop.only y List.mem_cons_self y (.refl t y) hmem.1)
  have hstnode : t₁.node step = t.node step := by
    refine (h.node_eq_or_ident hstlt hys.symm).resolve_right ?_
    exact fun hmem => hyx (hast.only y List.mem_cons_self y (.refl t y) hmem.1)
  have hnanode : t₁.node name = t.node name := by
    refine (h.node_eq_or_ident hnalt fun he => hana.later (he ▸ List.mem_cons_self)).resolve_right ?_
    exact fun hmem => hys (hana.only y List.mem_cons_self y (.refl t y) hmem.1)
  refine ⟨⟨?_, ⟨var, ?_⟩, ?_, ?_, ?_⟩, ?_, haop.turn hev hoplt hyx, hast.turn hev hstlt hyx, hana.turn hev hnalt hys⟩
  · rwa [Tree.kind, hxnode]
  · rwa [Tree.kind, hopnode]
  · rwa [Tree.shadow?, Tree.ty, hopnode]
  · rwa [Tree.kind, hstnode]
  · rwa [Tree.kind, hnanode]
  · rcases List.mem_cons.mp hq with rfl | hq
    · obtain ⟨c, hc, hcx⟩ := (Reaches.cases (h.reaches_chain hchain hqx)).resolve_left hyx.symm
      exact ⟨c, List.mem_append_left _ hc, hcx⟩
    · exact ⟨q, List.mem_append_right _ hq, h.reaches_chain hchain hqx⟩

/-- The chain's own turn replaces it. -/
theorem eq_accessed (h : NodeConcrete x t t₁) (hx : t.Accesses x operand step name s field) :
    ∃ vf var, s.field? field = .some vf ∧ t₁ = t.accessed x s vf var [] := by
  obtain ⟨hchain, ⟨var, hvar⟩, hshadow, hstep, hname⟩ := hx
  cases h with
  | plain h =>
    rcases h.chain operand _ hchain with hnone | ⟨first, rest, heq, hno⟩
    · cases hnone.symm.trans hshadow
    · obtain ⟨rfl, -⟩ := List.cons.inj heq
      exact absurd hstep (hno name)
  | @access operand' first rest s' fieldId field' var' vf kind shadow selector token root known =>
    obtain ⟨rfl, heq⟩ := Kind.factor.inj (hchain.symm.trans kind)
    obtain ⟨rfl, rfl⟩ := List.cons.inj heq
    obtain rfl := Kind.selector.inj (hstep.symm.trans selector)
    obtain rfl := Kind.ident.inj (hname.symm.trans token)
    obtain rfl := Option.some.inj (hshadow.symm.trans shadow)
    exact ⟨vf, var', known, rfl⟩
  | declaration decl => simp [shadowDecl?, hchain] at decl
  | identifier kind => cases kind.symm.trans hchain

end NodeConcrete

/-! ## From its turn on -/

namespace Tree

variable {t t' u u₁ v : Tree} {x y z c p operand step name : Nat} {s : Shadow Ty} {vf : VirtualField Ty}
  {field var : String}

/-- What has taken the place of the chain `x` in `v` is as it was put there, and
nobody else names it. -/
structure Placed (v : Tree) (x : Nat) (s : Shadow Ty) (vf : VirtualField Ty) (var : String) (u : Tree) : Prop where
  evolves : v.Evolves (v.accessed x s vf var [])
  lt : x < v.size
  types : u.env.getType? = (v.accessed x s vf var []).env.getType?
  size_le : (v.accessed x s vf var []).size ≤ u.size
  kept : ∀ z : Nat, z = x ∨ z ∈ fresh v (v.accessed x s vf var []) → u.node z = (v.accessed x s vf var []).node z
  named : ∀ q z : Nat, z ∈ fresh v (v.accessed x s vf var []) → z ∈ u.children q →
    q = x ∨ q ∈ fresh v (v.accessed x s vf var [])

theorem Accesses.placed (h : v.Accesses x operand step name s field) (hf : v.Formed) (vf : VirtualField Ty)
    (var : String) : Placed v x s vf var (v.accessed x s vf var []) where
  evolves := evolves_accessed v x s vf var [] h.chain
  lt := lt_size_of_kind h.chain (by simp)
  types := rfl
  size_le := le_rfl
  kept _ _ := rfl
  named q z hz hqz := by
    by_cases hq : q = x
    · exact .inl hq
    · refine .inr ⟨?_, lt_size_of_mem_children hqz⟩
      by_contra hlt
      have hq' : q < v.size := by omega
      rw [Tree.children, Tree.kind, node_accessed hq' hq] at hqz
      exact absurd (hf.child q hq' z hqz) (by have := hz.1; omega)

theorem Placed.lt_size (h : Placed v x s vf var u) (hz : z = x ∨ z ∈ fresh v (v.accessed x s vf var [])) : z < u.size := by
  have hle := h.size_le
  have hlt := h.lt
  have hsize := size_accessed v x s vf var []
  rcases hz with rfl | hz
  · omega
  · exact hz.2.trans_le hle

theorem Placed.chain (h : Placed v x s vf var u) : u.kind x = .factor (v.parenId x s vf var) [] := by
  rw [Tree.kind, h.kept x (.inl rfl)]
  exact (kind_accessed v x s vf var [] x h.lt).trans (if_pos rfl)

theorem Placed.plain (h : Placed v x s vf var u) (hz : z ∈ fresh v (v.accessed x s vf var [])) : u.Plain z := by
  have hsame : SameBelow z (v.accessed x s vf var []) u := fun y hy =>
    h.kept y (.inr (hy.mem (fun q hq c hc => (h.evolves.new q hq).2 c hc) hz))
  exact (hsame.resembles h.types).plain (Reaches.refl _ z) (plain_accessed h.lt hz)

theorem Placed.turn (h : Placed v x s vf var u) (hn : NodeConcrete y u u₁) : Placed v x s vf var u₁ := by
  have hev := hn.evolves
  have hchain := h.chain
  by_cases hy : y = x ∨ y ∈ fresh v (v.accessed x s vf var [])
  · -- the chain has no steps any more, and nothing has to be done about the rest
    have hsame : u₁ = u := by
      rcases hy with rfl | hy
      · cases hn with
        | plain => rfl
        | access kind => cases kind.symm.trans hchain
        | declaration decl => simp [shadowDecl?, hchain] at decl
        | identifier kind => cases kind.symm.trans hchain
      · exact hn.eq_of_plain (h.plain hy)
    rw [hsame]
    exact h
  · refine ⟨h.evolves, h.lt, hn.getType?_eq.trans h.types, h.size_le.trans hev.size_le, fun z hz => ?_, fun q z hz hqz => ?_⟩
    · rw [← h.kept z hz]
      refine (hn.node_eq_or_ident (h.lt_size hz) fun he => hy (he ▸ hz)).resolve_right fun hmem => ?_
      rcases hz with rfl | hz
      · obtain ⟨-, ⟨token, hk⟩, -⟩ := hmem
        cases hk.symm.trans hchain
      · exact hy (h.named y z hz hmem.1)
    · exact h.named q z hz (hev.child_of_lt (h.lt_size (.inr hz)) hqz).2

/-- The chain, the parentheses and the expression have the type of the expression. -/
theorem Placed.typed (h : Placed v x s vf var u) :
    ∃ paren inner, u.kind x = .factor paren [] ∧ u.kind paren = .paren inner ∧ u.ty x = s.expandedTy vf ∧
      u.ty paren = s.expandedTy vf ∧ u.ty inner = s.expandedTy vf := by
  have hread : ∀ i m, (v.accessNodes x s vf var)[i]? = .some m → u.kind (v.size + i) = m.kind ∧ u.ty (v.size + i) = m.ty := by
    intro i m hi
    have hlt := (List.getElem?_eq_some_iff.mp hi).1
    have hfresh : v.size + i ∈ fresh v (v.accessed x s vf var []) :=
      ⟨Nat.le_add_right .., by rw [size_accessed]; omega⟩
    obtain ⟨hk, -, hty, -⟩ := read_accessed [] h.lt hi
    rw [Tree.kind, Tree.ty, h.kept _ (.inr hfresh)]
    exact ⟨hk, hty⟩
  obtain ⟨init, last, hnodes, hlast⟩ := s.expandNodes_snoc vf var (v.scope x) v.size
  have hid : v.size + (s.expandNodes vf var (v.scope x) v.size).length - 1 = v.size + init.length := by
    rw [hnodes]
    simp
  have hparen := hread (s.expandNodes vf var (v.scope x) v.size).length _ List.getElem?_concat_length
  have hinner := hread init.length last (by simp [accessNodes, hnodes])
  refine ⟨v.parenId x s vf var, v.size + init.length, h.chain, ?_, ?_, hparen.2, hinner.2.trans hlast⟩
  · rw [← hid]
    exact hparen.1
  · rw [Tree.ty, h.kept x (.inl rfl)]
    exact (ty_accessed v x s vf var [] x h.lt).trans (if_pos rfl)

end Tree

/-! ## The whole pass -/

section Pass

variable {t : Tree} {x operand step name : Nat} {s : Shadow Ty} {field : String}

/-- The chain waits for its turn, or has been replaced. -/
def Tree.Handled (x operand step name : NodeId) (s : Shadow Ty) (field : String) (l : Pass.Loop) : Prop :=
  l.work.tree.Formed ∧ (Awaited l.pending l.work.tree x operand step name s field ∨
    ∃ vf, s.field? field = .some vf ∧ ∃ v var, Placed v x s vf var l.work.tree)

theorem Tree.Handled.turn {l l₁ : Pass.Loop} (h : Handled x operand step name s field l) (hturn : Pass.Loop.Turn l l₁) :
    Handled x operand step name s field l₁ := by
  obtain ⟨hf, hx⟩ := h
  cases hturn with
  | @node y pending w w₁ change visits hyields =>
    have hn : NodeConcrete y w.tree w₁.tree := Pass.leads_concreteNode.mp ⟨change, w₁, hyields, rfl⟩
    refine ⟨hn.formed hf, ?_⟩
    rcases hx with hx | ⟨vf, hvf, v, var, hx⟩
    · by_cases hyx : y = x
      · subst hyx
        obtain ⟨vf, var, hvf, heq⟩ := hn.eq_accessed hx.access
        refine .inr ⟨vf, hvf, w.tree, var, ?_⟩
        rw [heq]
        exact hx.access.placed hf vf var
      · exact .inl (hn.awaited hx hyx)
    · exact .inr ⟨vf, hvf, v, var, hx.turn hn⟩

theorem Tree.Handled.turns {l l₁ : Pass.Loop} (h : Handled x operand step name s field l)
    (hturns : Pass.Loop.Turns l l₁) : Handled x operand step name s field l₁ := by
  induction hturns with
  | refl => exact h
  | tail _ hturn ih => exact ih.turn hturn

theorem Tree.Accesses.awaited (h : t.Accesses x operand step name s field) (hs : t.Unshared) (hx : t.Reachable x) :
    Awaited [root] t x operand step name s field := by
  have hop : operand ∈ t.children x := by simp [Tree.children, h.chain, Kind.children]
  have hst : step ∈ t.children x := by simp [Tree.children, h.chain, Kind.children]
  have hna : name ∈ t.children step := by simp [Tree.children, h.step, Kind.children]
  have hstr : t.Reachable step := hx.tail hst
  have halone : ∀ {c p : Nat}, ¬ t.Reaches c x → t.Reachable p → c ∈ t.children p → Alone [root] t c p := by
    intro c p hcx hp hcp
    refine ⟨fun hmem => hcx ?_, fun q hq z hz hcz => ?_⟩
    · rw [List.mem_singleton.mp hmem]
      exact hx
    · rw [List.mem_singleton.mp hq] at hz
      exact hs z p c hz hp hcz hcp
  obtain ⟨var, hvar⟩ := h.var
  exact ⟨h, ⟨root, List.mem_singleton.mpr rfl, hx⟩, halone (not_reaches_of_ident hvar h.chain) hx hop,
    halone (not_reaches_of_selector h.step h.name h.chain) hx hst, halone (not_reaches_of_ident h.name h.chain) hstr hna⟩

theorem Tree.Accesses.typed (h : t.Accesses x operand step name s field) (hf : t.Formed) (hs : t.Unshared)
    (hx : t.Reachable x) (hok : t.concretize.result = .ok ()) :
    ∃ vf, s.field? field = .some vf ∧ ∃ paren inner, t.concretize.tree.kind x = .factor paren [] ∧
      t.concretize.tree.kind paren = .paren inner ∧ t.concretize.tree.ty x = s.expandedTy vf ∧
      t.concretize.tree.ty paren = s.expandedTy vf ∧ t.concretize.tree.ty inner = s.expandedTy vf := by
  rcases t.concretize_cases with ⟨visits, w, hyields, heq⟩ | ⟨e, w, -, heq⟩
  · have hstart : Handled x operand step name s field ⟨[root], { tree := t }, []⟩ := ⟨hf, .inl (h.awaited hs hx)⟩
    have hend := hstart.turns (Pass.turns_of_yields hyields [] [])
    rw [heq]
    rcases hend.2 with hwait | ⟨vf, hvf, v, var, hplaced⟩
    · obtain ⟨q, hq, -⟩ := hwait.below
      cases hq
    · exact ⟨vf, hvf, hplaced.typed⟩
  · rw [heq] at hok
    cases hok

end Pass

/-- The expression of a field, and after the pass every access to it, has the type
that the field was declared with, or the concrete type if the path is empty. -/
theorem Tree.access_typed (name shadowedName discriminant : String) (discriminantTy : Ty)
    (before : List (VirtualField Ty)) (f : VirtualField Ty) (after : List (VirtualField Ty))
    (hfirst : ∀ g ∈ before, g.name ≠ f.name) :
    let s := Shadow.table name shadowedName discriminant discriminantTy (before ++ f :: after)
    let ty := if f.path = [] then .named shadowedName else f.ty
    (ty = f.ty ↔ f.path ≠ [] ∨ f.ty = .named shadowedName) ∧
    (∀ var scope t, ∃ id t', s.expand f.name var scope t = .ok (id, t') ∧ t'.ty id = .some ty) ∧
    ∀ (t : Tree) (x operand step id : NodeId), t.Formed → t.Unshared → t.concretize.result = .ok () → t.Reachable x →
      t.Accesses x operand step id s f.name →
      ∃ paren inner, t.concretize.tree.kind x = .factor paren [] ∧ t.concretize.tree.kind paren = .paren inner ∧
        t.concretize.tree.ty x = .some ty ∧ t.concretize.tree.ty paren = .some ty ∧
        t.concretize.tree.ty inner = .some ty := by
  intro s ty
  have hs : s = { name, shadowedName, discriminant, discriminantTy, fields := before ++ f :: after } := Shadow.table_eq ..
  have hf : s.field? f.name = .some f := Shadow.field?_eq_some_of_first (by rw [hs]) rfl hfirst
  have hty : s.expandedTy f = .some ty := by
    rw [Shadow.expandedTy, hs]
    rfl
  refine ⟨?_, fun var scope t => ?_, fun t x operand step id hformed hunshared hok hx ha => ?_⟩
  · by_cases hp : f.path = []
    · simp only [ty, if_pos hp, hp, ne_eq, not_true, false_or]
      exact eq_comm
    · simp [ty, hp]
  · refine ⟨_, _, Shadow.expand_of_field? hf var scope t, ?_⟩
    rw [s.ty_expandNodes, hty]
  · obtain ⟨vf, hvf, htyped⟩ := ha.typed hformed hunshared hx hok
    obtain rfl := Option.some.inj (hf.symm.trans hvf)
    rwa [hty] at htyped

namespace Sample

/-- The statements `c.value;` and `c.self;`. -/
def cells : Tree := built do
  attach (← access "c" "value" (.shadow cell) Env.global)
  attach (← access "c" "self" (.shadow cell) Env.global)

/-- The first of the fields named `value` is an integer. -/
theorem access_typed_cells :
    (cells.Formed ∧ cells.Unshared ∧ cells.concretize.result = .ok () ∧ cells.Reachable 4 ∧
      cells.Accesses 4 1 3 2 cell "value") ∧
    ∃ paren inner, cells.concretize.tree.kind 4 = .factor paren [] ∧ cells.concretize.tree.kind paren = .paren inner ∧
      cells.concretize.tree.ty 4 = .some .int ∧ cells.concretize.tree.ty paren = .some .int ∧
      cells.concretize.tree.ty inner = .some .int := by
  have hlinked : cells.Linked := by decide +kernel
  have hok : cells.concretize.result = .ok () := Outcome.ok_of_isOk (by decide +kernel)
  have hreach : cells.Reachable 4 := .head (c := 5) (by decide +kernel) (.head (c := 4) (by decide +kernel) (.refl _ _))
  have haccess : cells.Accesses 4 1 3 2 cell "value" := ⟨rfl, ⟨"c", rfl⟩, rfl, rfl, rfl⟩
  exact ⟨⟨hlinked.formed, hlinked.owned.unshared, hok, hreach, haccess⟩,
    (Tree.access_typed "Cell" "Node" "cell" .string [] ⟨"value", [.field "slots", .index 2], .int⟩ _ (by simp)).2.2
      cells 4 1 3 2 hlinked.formed hlinked.owned.unshared hok hreach haccess⟩

/-- The field `self` was declared as an integer too, but its expression has the
concrete type, and so has the access after the pass. -/
theorem self_keeps_concrete_type :
    (cell.field? "self").map (·.ty) = .some .int ∧
    (∃ id t', cell.expand "self" "c" Env.global cells = .ok (id, t') ∧ t'.ty id = .some (.named "Node")) ∧
    cells.Formed ∧ cells.Unshared ∧ cells.concretize.result = .ok () ∧ cells.Reachable 9 ∧
    cells.Accesses 9 6 8 7 cell "self" ∧ (cells.concretize.tree.ty 9).any (Ty.isNamed "Node") = true := by
  have hlinked : cells.Linked := by decide +kernel
  have hreach : cells.Reachable 9 := .head (c := 10) (by decide +kernel) (.head (c := 9) (by decide +kernel) (.refl _ _))
  exact ⟨rfl, ⟨_, _, rfl, rfl⟩, hlinked.formed, hlinked.owned.unshared, Outcome.ok_of_isOk (by decide +kernel), hreach,
    ⟨rfl, ⟨"c", rfl⟩, rfl, rfl, rfl⟩, by decide +kernel⟩

end Sample

end Penumbra
