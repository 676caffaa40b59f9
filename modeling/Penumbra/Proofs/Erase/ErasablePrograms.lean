/-
Programs whose shadow types can be erased.

`Erasable` says what erasing asks of a program, in terms of the program before
any pass: the shape of visitors, where shadow types may stand, and that all that
has to do with a shadow type is reached from a place where it is made concrete.
Such a program is prepared for both passes (`Erasable.prepared`). For a given
tree the conditions can be checked node by node (`Admitted.erasable`).
-/
import Penumbra.Proofs.Lower.KeptDeclarations
import Penumbra.Proofs.Erase.OverlookedTypes

namespace Penumbra

open Tree

variable {t : Tree} {x c : Nat}

/-! ## Erasable programs -/

/-- The name is an identifier of the program or may be written into it for the
concrete type of a shadow type. -/
def Tree.Uses (t : Tree) (n : String) : Prop :=
  (∃ x, t.Reachable x ∧ t.kind x = .ident n) ∨ ∃ s, Occurs t (.shadow s) ∧ s.shadowedName = n

/-- A program whose shadow types can be erased. -/
structure Tree.Erasable (t : Tree) : Prop where
  formed : t.Formed
  owned : t.Owned
  /-- The arms of visitors have binders, and their bodies take statements. -/
  arms : ∀ x, t.Reachable x → ∀ arms wildcard, t.kind x = .visitor arms wildcard → ∀ a ∈ arms, t.Mergeable a
  /-- Wildcards have no binders. -/
  wildcard : ∀ x, t.Reachable x → ∀ arms w, t.kind x = .visitor arms (.some w) → ∃ p b, t.kind w = .arm p .none b
  /-- The names and written types of binders and declarations and the fields of
  selectors are identifiers. -/
  names : ∀ x, t.Reachable x → ∀ c ∈ (t.kind x).names, ∃ n, t.kind c = .ident n
  /-- Shadow types leave nothing behind. -/
  shadows : ∀ s, Occurs t (.shadow s) → s.Erasable { n | t.env.Registered n }
  /-- Shadow types stand where they are looked for. -/
  typed : ∀ x, t.Reachable x → t.overlooks x = false
  /-- A chain on a shadow type begins with a variable and, if it selects a
  field, with a field of that type. -/
  chains : ∀ x, t.Reachable x → ∀ o steps s, t.kind x = .factor o steps → t.shadow? o = .some s →
    (∃ var, t.kind o = .ident var) ∧ ∃ first rest, steps = first :: rest ∧
      ∀ f n, t.kind first = .selector f → t.kind f = .ident n → s.field? n ≠ .none
  /-- Names of shadow types are written only where they go away. -/
  ascriptions : ∀ x, t.Reachable x → ∀ n, t.kind x = .ident n → t.env.Registered n →
    ∃ p, t.Reachable p ∧ x ∈ (t.kind p).ascription? ∧ t.shadowDecl? p ≠ .none
  /-- Variables of shadow types that the program can refer to have declarations. -/
  declared : Declared { n | t.Uses n } t

namespace Tree.Erasable

variable (h : t.Erasable)
include h

theorem sound {s : Shadow Ty} (hs : Occurs t (.shadow s)) : s.Sound { n | t.Uses n } { n | t.env.Registered n } :=
  ⟨h.shadows s hs, .inr ⟨s, hs, rfl⟩⟩

/-- A written type that is a shadow type's name belongs to a declaration. -/
theorem ascribed (hx : t.Reachable x) (hc : c ∈ t.children x) {n : String} (hk : t.kind c = .ident n) (hn : t.env.Registered n) :
    c ∈ (t.kind x).ascription? ∧ t.shadowDecl? x ≠ .none := by
  obtain ⟨p, hp, ha, hd⟩ := h.ascriptions c (Reaches.tail hx hc) n hk hn
  obtain rfl := h.owned.eq_of_mem hx hp hc (Kind.mem_children_of_ascription? ha)
  exact ⟨ha, hd⟩

theorem fit (hx : t.Reachable x) : Fit { n | t.Uses n } { n | t.env.Registered n } t x where
  arms := h.arms x hx
  wildcard := h.wildcard x hx
  names := h.names x hx
  shadow hs := by
    obtain ⟨s, hs⟩ := Option.ne_none_iff_exists'.mp hs
    have hov := h.typed x hx
    rw [Tree.overlooks, hs] at hov
    split at hov
    next n hk => exact .inl ⟨n, hk⟩
    next name a hk => exact .inr (.inl (by simp [shadowDecl?, hk, declaredShadow?_of_shadow? hs]))
    next name a init hk =>
      refine .inr (.inl ?_)
      cases a with
      | none => simp [shadowDecl?, hk, hs]
      | some a => simp [shadowDecl?, hk, declaredShadow?_of_shadow? hs]
    next o first rest hk =>
      simp only [Option.isSome_some, Bool.true_and, Bool.not_eq_false', Bool.and_eq_true] at hov
      refine .inr (.inr ⟨o, first, rest, ?_⟩)
      obtain ⟨ho, hsel⟩ := hov
      rw [selects] at hsel
      split at hsel
      next f hf => exact ⟨f, hk, Option.isSome_iff_ne_none.mp ho, hf⟩
      next => cases hsel
    next => cases hov
  operand o steps hk ho := by
    obtain ⟨s, hs⟩ := Option.ne_none_iff_exists'.mp ho
    exact (h.chains x hx o steps s hk hs).1
  steps o steps s hk hs := (h.chains x hx o steps s hk hs).2
  sound s hs := h.sound ((typedIn_occurs t).shadow? hx hs)
  declared name ascription s hs := h.sound ((typedIn_occurs t).shadowDecl? h.formed.program_closed hx hs)
  others c hc n hk hn :=
    Kind.not_mem_ascription? (h.owned.nodup x hx) hc (h.ascribed hx (Kind.mem_children_of_others hc) hk hn).1
  ascribed a ha n hk hn := (h.ascribed hx (Kind.mem_children_of_ascription? ha) hk hn).2
  references c hc n hk := .inl ⟨c, Reaches.tail hx (Kind.mem_children_of_references hc), hk⟩

theorem prepared : t.Prepared { n | t.Uses n } { n | t.env.Registered n } :=
  ⟨h.formed, h.owned, fun _ hx => h.fit hx, h.declared⟩

end Tree.Erasable

/-! ## Checking a given tree -/

/-- Names that some scope has for shadow types. -/
def Env.shadowNames (e : Env) : List String :=
  e.scopes.toList.flatMap fun c => (c.types.entries.filter (·.2.isShadow)).map (·.1)

theorem Env.mem_shadowNames {e : Env} {n : String} (h : e.Registered n) : n ∈ e.shadowNames := by
  obtain ⟨s, ty, hty, hs⟩ := h
  have hlt : s < e.scopes.size := by
    by_contra hge
    have hempty : e.scope s = {} := by simp [scope, Array.getD, hge]
    rw [hempty] at hty
    cases hty
  refine List.mem_flatMap.mpr ⟨e.scope s, by simp [scope, Array.getD, hlt], List.mem_map.mpr ⟨(n, ty), ?_, rfl⟩⟩
  exact List.mem_filter.mpr ⟨Bindings.get?_eq_some_iff.mp hty, hs⟩

theorem Ty.isNamed_iff {ty : Ty} {name : String} : ty.isNamed name = true ↔ ty = .named name := by
  cases ty with
  | named => simp [isNamed]
  | _ => simp [isNamed]

theorem Shadow.Erasable.mono {R R' : Set String} {s : Shadow Ty} (h : s.Erasable R') (hR : R ⊆ R') : s.Erasable R :=
  ⟨h.shadowed, h.discriminantTy, h.field, fun hn => h.shadowedName (hR hn), fun hn => h.discriminant (hR hn),
    fun hn => h.discriminantField (hR hn), fun f hf name hmem hn => h.path f hf name hmem (hR hn)⟩

instance (names : List String) (s : Shadow Ty) : Decidable (s.Erasable { n | n ∈ names }) :=
  decidable_of_iff (s.shadowedTy.isNamed s.shadowedName = true ∧ s.discriminantTy.isShadow = false ∧
      (∀ f ∈ s.fields, f.ty.isShadow = false) ∧ s.shadowedName ∉ names ∧ s.discriminant ∉ names ∧
      s.discriminantField ∉ names ∧ ∀ f ∈ s.fields, ∀ n ∈ names, .field n ∉ f.path)
    ⟨fun ⟨hs, hd, hf, hn, hl, hdf, hp⟩ =>
      ⟨Ty.isNamed_iff.mp hs, hd, hf, hn, hl, hdf, fun f hf n hmem hn => hp f hf n hn hmem⟩,
      fun h => ⟨Ty.isNamed_iff.mpr h.shadowed, h.discriminantTy, h.field, h.shadowedName, h.discriminant,
        h.discriminantField, fun f hf n hn hmem => h.path f hf n hmem hn⟩⟩

/-- The type is no shadow type, or one that leaves nothing behind. -/
def Ty.Erasable (R : Set String) : Ty → Prop
  | .shadow s => s.Erasable R
  | _ => True

instance (names : List String) : DecidablePred (Ty.Erasable { n | n ∈ names })
  | .shadow s => inferInstanceAs (Decidable (s.Erasable _))
  | .int | .float | .bool | .string | .named _ | .enum _ | .array _ | .function | .visitor => .isTrue trivial

theorem Ty.Erasable.of_concrete {R : Set String} {ty : Ty} (h : ty.isShadow = false) : ty.Erasable R := by
  cases ty with
  | shadow => cases h
  | _ => trivial

theorem inherited_erasable (R : Set String) : Inherited (Ty.Erasable R) where
  concrete ty h := .of_concrete (by cases ty <;> first | rfl | cases h)
  shadowed s h := .of_concrete (by rw [(show s.Erasable R from h).shadowed]; rfl)
  discriminant _ h := .of_concrete h.discriminantTy
  field _ f hf h := .of_concrete (h.field f hf)

namespace Tree

def isMergeable (t : Tree) (arm : NodeId) : Bool :=
  match t.kind arm with
  | .arm _ (.some c) body => (match t.kind c with | .component _ _ => true | _ => false) && (t.stmts? body).isSome
  | _ => false

theorem mergeable_of_isMergeable {arm : NodeId} (h : t.isMergeable arm = true) : t.Mergeable arm := by
  unfold isMergeable at h
  split at h
  next p c b hk =>
    rw [Bool.and_eq_true, Option.isSome_iff_ne_none] at h
    obtain ⟨hc, hb⟩ := h
    split at hc
    next name ascription hkc => exact ⟨p, c, b, name, ascription, hk, hkc, hb⟩
    next => cases hc
  next => cases h

/-- The arm has no binder. -/
def isDefault (t : Tree) (arm : NodeId) : Bool :=
  match t.kind arm with
  | .arm _ .none _ => true
  | _ => false

/-- The steps of a chain on a shadow type do not begin with an unknown field. -/
def begins (t : Tree) (s : Shadow Ty) : List NodeId → Bool
  | [] => false
  | first :: _ =>
    match t.kind first with
    | .selector f => (t.token? f).all fun n => (s.field? n).isSome
    | _ => true

/-- What is asked of a single node. -/
def admits (t : Tree) (x : NodeId) : Bool :=
  ((t.kind x).names.all fun c => (t.token? c).isSome) && !t.overlooks x &&
    match t.kind x with
    | .visitor arms wildcard => arms.all t.isMergeable && wildcard.all t.isDefault
    | .factor o steps => (t.shadow? o).all fun s => (t.token? o).isSome && t.begins s steps
    | .ident n => n ∉ t.env.shadowNames || (t.parent x).any fun p => (t.kind p).ascription? = .some x && (t.shadowDecl? p).isSome
    | _ => true

/-- The node declares the variable that the scope binds. -/
def declaresAt (t : Tree) (n : String) (b : ScopeId) (d : NodeId) : Bool :=
  (t.shadowDecl? d).any fun (name, _) => t.token? name = .some n && t.env.binder? (t.scope d) n = .some b

/-- The conditions for erasing, checked at all nodes and for all variables of
shadow types. -/
def Admitted (t : Tree) : Prop :=
  t.Linked ∧ t.ListsTypes (Ty.Erasable { n | n ∈ t.env.shadowNames }) ∧ (∀ x : Nat, x < t.size → t.admits x = true) ∧
    ∀ b : Nat, b < t.env.size → ∀ e ∈ (t.env.scope b).vars.entries, e.2.isShadow = true →
      ∃ d ∈ t.postOrder root, t.declaresAt e.1 b d = true

instance : Decidable t.Admitted :=
  inferInstanceAs (Decidable (t.Linked ∧ t.ListsTypes (Ty.Erasable { n | n ∈ t.env.shadowNames }) ∧
    (∀ x : Nat, x < t.size → t.admits x = true) ∧
    ∀ b : Nat, b < t.env.size → ∀ e ∈ (t.env.scope b).vars.entries, e.2.isShadow = true →
      ∃ d ∈ t.postOrder root, t.declaresAt e.1 b d = true))

section Admits

variable (h : t.admits x = true)
include h

theorem names_of_admits : ∀ c ∈ (t.kind x).names, ∃ n, t.kind c = .ident n := by
  simp only [admits, Bool.and_eq_true, List.all_eq_true] at h
  intro c hc
  obtain ⟨n, hn⟩ := Option.isSome_iff_exists.mp (h.1.1 c hc)
  exact ⟨n, token?_eq_some.mp hn⟩

theorem overlooks_of_admits : t.overlooks x = false := by
  simp only [admits, Bool.and_eq_true, Bool.not_eq_true'] at h
  exact h.1.2

theorem visitor_of_admits {arms : List NodeId} {wildcard : Option NodeId} (hk : t.kind x = .visitor arms wildcard) :
    (∀ a ∈ arms, t.Mergeable a) ∧ ∀ w ∈ wildcard, ∃ p b, t.kind w = .arm p .none b := by
  simp only [admits, hk, Bool.and_eq_true, List.all_eq_true, Option.all_eq_true] at h
  refine ⟨fun a ha => mergeable_of_isMergeable (h.2.1 a ha), fun w hw => ?_⟩
  have hdefault := h.2.2 w hw
  unfold isDefault at hdefault
  split at hdefault
  next p b hkw => exact ⟨p, b, hkw⟩
  next => cases hdefault

theorem chain_of_admits {o : NodeId} {steps : List NodeId} {s : Shadow Ty} (hk : t.kind x = .factor o steps)
    (hs : t.shadow? o = .some s) : (∃ var, t.kind o = .ident var) ∧ ∃ first rest, steps = first :: rest ∧
      ∀ f n, t.kind first = .selector f → t.kind f = .ident n → s.field? n ≠ .none := by
  simp only [admits, hk, hs, Bool.and_eq_true, Option.all_some] at h
  obtain ⟨-, hvar, hbegins⟩ := h
  obtain ⟨var, hvar⟩ := Option.isSome_iff_exists.mp hvar
  refine ⟨⟨var, token?_eq_some.mp hvar⟩, ?_⟩
  cases steps with
  | nil => cases hbegins
  | cons first rest =>
    refine ⟨first, rest, rfl, fun f n hf hn => ?_⟩
    simp only [begins, hf, token?_eq_some.mpr hn, Option.all_some] at hbegins
    exact Option.isSome_iff_ne_none.mp hbegins

theorem ascription_of_admits {n : String} (hk : t.kind x = .ident n) (hn : t.env.Registered n) :
    ∃ p, t.parent x = .some p ∧ x ∈ (t.kind p).ascription? ∧ t.shadowDecl? p ≠ .none := by
  simp only [admits, hk, Bool.and_eq_true, Bool.or_eq_true, decide_eq_true_eq, Option.any_eq_true] at h
  obtain ⟨p, hp, ha, hd⟩ := h.2.resolve_left fun hnot => hnot (Env.mem_shadowNames hn)
  exact ⟨p, hp, ha, Option.isSome_iff_ne_none.mp hd⟩

end Admits

theorem declaresAt_iff {n : String} {b : ScopeId} {d : NodeId} : t.declaresAt n b d = true ↔ t.DeclaresAt d n b := by
  simp only [declaresAt, DeclaresAt, Option.any_eq_true, Bool.and_eq_true, decide_eq_true_eq, token?_eq_some]
  constructor
  · rintro ⟨⟨name, ascription, s⟩, hd, hname, hb⟩
    exact ⟨name, ascription, s, hd, hname, hb⟩
  · rintro ⟨name, ascription, s, hd, hname, hb⟩
    exact ⟨(name, ascription, s), hd, hname, hb⟩

theorem Admitted.erasable (h : t.Admitted) : t.Erasable := by
  obtain ⟨hlinked, htypes, hnodes, hvars⟩ := h
  have ho := hlinked.owned
  have hnode : ∀ x, t.Reachable x → t.admits x = true := fun x hx => hnodes x (hlinked.formed.bounded hx)
  refine ⟨hlinked.formed, ho, fun x hx arms wildcard hk => (visitor_of_admits (hnode x hx) hk).1,
    fun x hx arms w hk => (visitor_of_admits (hnode x hx) hk).2 w rfl, fun x hx => names_of_admits (hnode x hx),
    fun s hs => ?_, fun x hx => overlooks_of_admits (hnode x hx), fun x hx o steps s hk => chain_of_admits (hnode x hx) hk,
    fun x hx n hk hn => ?_, fun x hx n _ b _ hv => ?_⟩
  · have hty : Ty.Erasable { n | n ∈ t.env.shadowNames } (.shadow s) := hs.of_inherited (inherited_erasable _) (htypes.typedIn _)
    exact Shadow.Erasable.mono hty fun n => Env.mem_shadowNames
  · obtain ⟨p, hp, ha, hd⟩ := ascription_of_admits (hnode x hx) hk hn
    refine ⟨p, ?_, ha, hd⟩
    rcases hx.cases_tail with rfl | ⟨q, hq, hxq⟩
    · rw [hlinked.2.1] at hp
      cases hp
    · obtain rfl := Option.some.inj (hp.symm.trans (ho.parent q hq x hxq))
      exact hq
  · obtain ⟨ty, hty, hs⟩ := hv
    obtain ⟨d, hd, hdecl⟩ := hvars b (Env.lt_size_of_shadowVar ⟨ty, hty, hs⟩) (n, ty) (Bindings.get?_eq_some_iff.mp hty) hs
    exact ⟨d, reaches_of_mem_postOrder hd, declaresAt_iff.mp hdecl⟩

end Tree

theorem Sample.admitted_tree : tree.Admitted := by decide +kernel

end Penumbra
