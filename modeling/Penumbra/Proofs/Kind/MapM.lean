/-
Mapping a layer, child by child.

`mapM` and `children` are two definitions over the same constructs. They never part:
`mapM` calls a function that keeps a state on the children one after the other
(`Calls`), the results are the children of the new layer, and the rest of the layer is
as it was (`Alike`). Nothing else can be said of the new layer (`run_mapM_iff`), so the
laws of mapping follow from those of calling (`mapM_follows_children`).
-/
import Penumbra.Proofs.Kind.Refill

namespace Penumbra.Kind

variable {α β γ σ τ : Type}

/-! ## Layers that differ in their children only -/

/-- The same construct, with as many entries in its lists, the same optional parts
present and the same words. -/
inductive Alike : Kind α → Kind β → Prop where
  | program {l l'} (stmts : l'.length = l.length) : Alike (.program l) (.program l')
  | block {l l'} (stmts : l'.length = l.length) : Alike (.block l) (.block l')
  | varDecl {n n' a a' i i'} (ascription : a'.isSome = a.isSome) (init : i'.isSome = i.isSome) :
      Alike (.varDecl n a i) (.varDecl n' a' i')
  | assign {l l' r r'} : Alike (.assign l r) (.assign l' r')
  | exprStmt {e e'} : Alike (.exprStmt e) (.exprStmt e')
  | ifStmt {c c' y y' n n'} (no : n'.isSome = n.isSome) : Alike (.ifStmt c y n) (.ifStmt c' y' n')
  | returnStmt {v v'} (value : v'.isSome = v.isSome) : Alike (.returnStmt v) (.returnStmt v')
  | switch {s s' cs cs' d d'} (cases : cs'.length = cs.length) (default : d'.isSome = d.isSome) :
      Alike (.switch s cs d) (.switch s' cs' d')
  | case {l l' b b'} : Alike (.case l b) (.case l' b')
  | visitor {as as' w w'} (arms : as'.length = as.length) (wildcard : w'.isSome = w.isSome) :
      Alike (.visitor as w) (.visitor as' w')
  | arm {p c c' b b'} (binder : c'.isSome = c.isSome) : Alike (.arm p c b) (.arm p c' b')
  | component {n n' a a'} : Alike (.component n a) (.component n' a')
  | function {ps ps' b b'} (params : ps'.length = ps.length) : Alike (.function ps b) (.function ps' b')
  | ident {token} : Alike (.ident token) (.ident token)
  | literal {l} : Alike (.literal l) (.literal l)
  | factor {o o' ss ss'} (steps : ss'.length = ss.length) : Alike (.factor o ss) (.factor o' ss')
  | selector {f f'} : Alike (.selector f) (.selector f')
  | index {i i'} : Alike (.index i) (.index i')
  | call {c c' as as'} (args : as'.length = as.length) : Alike (.call c as) (.call c' as')
  | paren {i i'} : Alike (.paren i) (.paren i')
  | binary {op l l' r r'} : Alike (.binary op l r) (.binary op l' r')

theorem Alike.trans {k : Kind α} {k' : Kind β} {k'' : Kind γ} (h : k.Alike k') (h' : k'.Alike k'') : k.Alike k'' := by
  cases h <;> cases h' <;> constructor <;> simp_all

theorem Alike.symm {k : Kind α} {k' : Kind β} (h : k.Alike k') : k'.Alike k := by
  cases h <;> constructor <;> simp_all

theorem alike_map (f : α → β) (k : Kind α) : k.Alike (k.map f) := by
  cases k <;> constructor <;> simp

/-- A layer like `k` is `k` with other children. -/
theorem Alike.eq_refill {k : Kind α} {k' : Kind β} (h : k.Alike k') : k' = k.refill k'.children := by
  cases h with
  | @varDecl n n' a a' i i' ha hi => cases a <;> cases a' <;> cases i <;> cases i' <;> simp_all [refill, children]
  | @ifStmt c c' y y' n n' hn => cases n <;> cases n' <;> simp_all [refill, children]
  | @returnStmt v v' hv => cases v' <;> rfl
  | @switch s s' cs cs' d d' hcs hd => cases d' <;> simp [refill, children, ← hcs, List.take_of_length_le]
  | @visitor as as' w w' has hw => cases w' <;> simp [refill, children, ← has, List.take_of_length_le]
  | @arm p c c' b b' hc => cases c <;> cases c' <;> simp_all [refill, children]
  | @function ps ps' b b' hps => simp [refill, children, ← hps]
  | _ => rfl

theorem alike_refill (k : Kind α) {cs : List β} (h : cs.length = k.children.length) : k.Alike (k.refill cs) := by
  -- both layers come from one whose children are positions, by looking these up
  let numbered : Kind (Fin cs.length) := k.refill (List.finRange cs.length)
  have hpositions : (List.finRange cs.length).map (fun i => k.children.get (i.cast h)) = k.children :=
    List.ext_getElem (by simp [h]) (by simp)
  have hold : numbered.map (fun i => k.children.get (i.cast h)) = k := by
    rw [map_refill, hpositions, refill_children]
  have hnew : numbered.map cs.get = k.refill cs := by
    rw [map_refill, List.map_get_finRange]
  have hback : k.Alike numbered := by
    have halike := alike_map (fun i => k.children.get (i.cast h)) numbered
    rw [hold] at halike
    exact halike.symm
  rw [← hnew]
  exact hback.trans (alike_map _ numbered)

/-! ## Calls -/

/-- Calling `f` on the entries one after the other, the first time in the state `s`,
gives these results and leaves the state `s'`. -/
inductive Calls (f : α → StateM σ β) : σ → List α → List β → σ → Prop where
  | nil {s} : Calls f s [] [] s
  | cons {s s₁ s' a as b bs} (call : (f a).run s = (b, s₁)) (rest : Calls f s₁ as bs s') :
      Calls f s (a :: as) (b :: bs) s'

section Calls

variable {f : α → StateM σ β} {g : β → StateM τ γ} {s s' : σ} {u u' : τ} {as : List α} {bs : List β} {cs : List γ}

theorem Calls.length (h : Calls f s as bs s') : bs.length = as.length := by
  induction h with
  | nil => rfl
  | cons _ _ ih => simp [ih]

theorem run_list_mapM_iff : (as.mapM f).run s = (bs, s') ↔ Calls f s as bs s' := by
  induction as generalizing s bs with
  | nil =>
    constructor
    · intro h
      cases h
      exact .nil
    · intro h
      cases h
      rfl
  | cons a as ih =>
    have hrun : ((a :: as).mapM f).run s =
        (((f a).run s).1 :: ((as.mapM f).run ((f a).run s).2).1, ((as.mapM f).run ((f a).run s).2).2) := by
      rw [List.mapM_cons]
      rfl
    rw [hrun]
    constructor
    · intro h
      cases h
      exact .cons rfl (ih.mp rfl)
    · intro h
      cases h with
      | cons call rest => rw [call, ih.mpr rest]

/-- Two functions with a state of their own each, one called on the results of the
other. -/
def andThen (f : α → StateM σ β) (g : β → StateM τ γ) (a : α) : StateM (σ × τ) γ := fun w =>
  let r := (f a).run w.1
  let q := (g r.1).run w.2
  (q.1, r.2, q.2)

theorem Calls.andThen (h : Calls f s as bs s') (h' : Calls g u bs cs u') :
    Calls (andThen f g) (s, u) as cs (s', u') := by
  induction h generalizing u cs with
  | nil =>
    cases h'
    exact .nil
  | @cons s s₁ s' a as b bs call _ ih =>
    cases h' with
    | @cons _ u₁ _ _ _ c cs call' rest' =>
      have hboth : (Kind.andThen f g a).run (s, u) = (c, s₁, u₁) := by
        show (((g ((f a).run s).1).run u).1, ((f a).run s).2, ((g ((f a).run s).1).run u).2) = _
        rw [call, call']
      exact .cons hboth (ih rest')

end Calls

/-! ## Mapping -/

theorem run_mapM_iff {f : α → StateM σ β} {k : Kind α} {k' : Kind β} {s s' : σ} :
    (k.mapM f).run s = (k', s') ↔ k.Alike k' ∧ Calls f s k.children k'.children s' := by
  have hrun : (k.mapM f).run s =
      (k.refill ((k.children.mapM f).run s).1, ((k.children.mapM f).run s).2) := by
    rw [mapM_eq_refill]
    rfl
  rw [hrun]
  constructor
  · intro h
    cases h
    have hcalls : Calls f s k.children ((k.children.mapM f).run s).1 ((k.children.mapM f).run s).2 :=
      run_list_mapM_iff.mp rfl
    rw [children_refill k hcalls.length]
    exact ⟨alike_refill k hcalls.length, hcalls⟩
  · intro h
    obtain ⟨halike, hcalls⟩ := h
    rw [run_list_mapM_iff.mpr hcalls, ← halike.eq_refill]

/-- Where the function keeps no state, `mapM` is `map`. -/
theorem mapM_pure {m : Type → Type} [Monad m] [LawfulMonad m] (h : α → β) (k : Kind α) :
    k.mapM (m := m) (fun a => pure (h a)) = pure (k.map h) := by
  rw [mapM_eq_refill, List.mapM_pure, map_pure, refill_map_children]

/-- Mapping calls the function once for each child, in order, and puts the results in
the place of the children. So to map with no change is to change nothing, and to map
twice is to map once with one function after the other. -/
theorem mapM_follows_children (f : α → StateM σ β) (g : β → StateM τ γ) (k : Kind α) :
    (∀ s k' s', (k.mapM f).run s = (k', s') ↔ k.Alike k' ∧ Calls f s k.children k'.children s') ∧
    k.mapM (m := StateM σ) pure = pure k ∧
    (∀ s k' s' u k'' u', (k.mapM f).run s = (k', s') → (k'.mapM g).run u = (k'', u') →
      (k.mapM (andThen f g)).run (s, u) = (k'', s', u')) ∧
    ∀ (p : α → β) (q : β → γ), k.mapM (m := StateM σ) (fun a => pure (p a)) = pure (k.map p) ∧
      (k.map p).map q = k.map fun a => q (p a) := by
  refine ⟨fun _ _ _ => run_mapM_iff, ?_, fun s k' s' u k'' u' hf hg => ?_, fun p q => ⟨mapM_pure p k, map_map q p k⟩⟩
  · exact (mapM_pure (fun a => a) k).trans (congrArg pure (map_id k))
  · obtain ⟨halike, hcalls⟩ := run_mapM_iff.mp hf
    obtain ⟨halike', hcalls'⟩ := run_mapM_iff.mp hg
    exact run_mapM_iff.mpr ⟨halike.trans halike', hcalls.andThen hcalls'⟩

end Penumbra.Kind

namespace Penumbra.Sample

/-- Hands out one number after the other. -/
def numbering (_ : Nat) : StateM Nat Nat := fun n => (n, n + 1)

/-- Answers with the sum of what it was called on. -/
def totalling (a : Nat) : StateM Nat Nat := fun n => (n + a, n + a)

/-- A child that stands in three places is replaced by three different ones. -/
theorem switch_follows_children :
    ((Kind.switch 5 [5, 6] (.some 5)).mapM numbering).run 10 = (.switch 10 [11, 12] (.some 13), 14) ∧
    ((Kind.switch 10 [11, 12] (.some 13)).mapM totalling).run 0 = (.switch 10 [21, 33] (.some 46), 46) ∧
    (Kind.switch 5 [5, 6] (.some 5)).Alike (Kind.switch 10 [11, 12] (.some 13)) ∧
    Kind.Calls numbering 10 [5, 5, 6, 5] [10, 11, 12, 13] 14 ∧
    ((Kind.switch 5 [5, 6] (.some 5)).mapM (Kind.andThen numbering totalling)).run (10, 0) =
      (.switch 10 [21, 33] (.some 46), 14, 46) := by
  have hfirst : ((Kind.switch 5 [5, 6] (.some 5)).mapM numbering).run 10 = (.switch 10 [11, 12] (.some 13), 14) := rfl
  have hsecond : ((Kind.switch 10 [11, 12] (.some 13)).mapM totalling).run 0 =
      (.switch 10 [21, 33] (.some 46), 46) := rfl
  obtain ⟨hmapped, -, htwice, -⟩ :=
    Kind.mapM_follows_children numbering totalling (.switch 5 [5, 6] (.some 5))
  obtain ⟨halike, hcalls⟩ := (hmapped _ _ _).mp hfirst
  exact ⟨hfirst, hsecond, halike, hcalls, htwice _ _ _ _ _ _ hfirst hsecond⟩

end Penumbra.Sample
