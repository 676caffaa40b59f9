/-
Copies are exact and stand on their own.

A copy has one node for each visit that a walk from the original makes, so a node
that several child lists name is copied once for each of them. The nodes added are
those below the copy and no others, each is named once and by its parent, and
nothing that was there before has changed (`Appended`). The copy stands for the same
term (`Duplicate`). This holds of every node below which child lists lead in no circle
(`copy_duplicates`).
-/
import Penumbra.Proofs.Tree.OrderEquations
import Penumbra.Proofs.Tree.Terms
import Penumbra.Proofs.Tree.CheckedTrees

namespace Penumbra

open Tree

/-! ## The nodes of a copy -/

namespace Build

variable {t u u' : Tree} {n x c : Nat} {xs cs : List Nat}

theorem filled_list (htu : t.Extends u)
    (hf : ∀ x ∈ xs, ∀ (u : Tree) (c : Nat) (u' : Tree), t.Extends u → (copyDown n x).run u = (c, u') →
      u'.size = u.size + (t.fold (fun id k => k.children.flatten ++ [id]) [] n x).length ∧
        ∀ y ∈ fresh u u', u'.Reaches c y)
    (h : (xs.mapM (copyDown n)).run u = (cs, u')) :
    cs.length = xs.length ∧
      u'.size = u.size + (xs.map (t.fold (fun id k => k.children.flatten ++ [id]) [] n)).flatten.length ∧
      ∀ y ∈ fresh u u', ∃ c ∈ cs, u'.Reaches c y := by
  induction xs generalizing u cs with
  | nil =>
    obtain ⟨rfl, rfl⟩ := run_mapM_nil.mp h
    exact ⟨rfl, rfl, fun y hy => absurd hy (by simp [fresh_self])⟩
  | cons x xs ih =>
    obtain ⟨c, u₁, cs, h₁, h₂, rfl⟩ := run_mapM_cons.mp h
    obtain ⟨hsize, hbelow⟩ := hf x List.mem_cons_self u c u₁ htu h₁
    have hext := (extends_copyDown h₁).1
    have hext' := (extends_list (fun _ _ _ _ => extends_copyDown) h₂).1
    obtain ⟨hlen, hsize', hbelow'⟩ := ih (htu.trans hext) (fun d hd => hf d (List.mem_cons_of_mem x hd)) h₂
    refine ⟨by rw [List.length_cons, List.length_cons, hlen], ?_, fun y hy => ?_⟩
    · rw [List.map_cons, List.flatten_cons, List.length_append]
      omega
    · rw [fresh_trans hext.size_le hext'.size_le] at hy
      rcases hy with hy | hy
      · exact ⟨c, List.mem_cons_self, hext'.reaches (hbelow y hy)⟩
      · obtain ⟨d, hd, hreach⟩ := hbelow' y hy
        exact ⟨d, List.mem_cons_of_mem c hd, hreach⟩

/-- A copy that met no bound has a node for each visit of a walk, and the nodes added
lie below it. -/
theorem filled (hb : ∀ y : Nat, t.Reaches x y → y < t.size) (htu : t.Extends u) (hx : t.EndsWithin n x)
    (h : (copyDown n x).run u = (c, u')) :
    u'.size = u.size + (t.fold (fun id k => k.children.flatten ++ [id]) [] n x).length ∧
      ∀ y ∈ fresh u u', u'.Reaches c y := by
  induction n generalizing u u' x c with
  | zero => exact hx.elim
  | succ n ih =>
    obtain ⟨⟨cs, u₁⟩, hcs⟩ : ∃ r, ((u.children x).mapM (copyDown n)).run u = r := ⟨_, rfl⟩
    rw [run_copyDown_succ hcs] at h
    cases h
    have hxt := hb x (.refl t x)
    rw [htu.children hxt] at hcs
    obtain ⟨hlen, hsize, hbelow⟩ := filled_list htu
      (fun d hd u c u' htu => ih (fun y hy => hb y (.head hd hy)) htu (hx d hd)) hcs
    have hkids : ((u.kind x).refill cs).children = cs :=
      Kind.children_refill _ (hlen.trans (by rw [← htu.children hxt]; rfl))
    refine ⟨?_, fun y hy => ?_⟩
    · rw [size_add, fold, Kind.children_map, List.length_append, List.length_singleton, hsize, Nat.add_assoc]
      rfl
    · have hy' := hy.2
      rw [size_add] at hy'
      rcases Nat.lt_succ_iff_lt_or_eq.mp hy' with hlt | rfl
      · obtain ⟨d, hd, hreach⟩ := hbelow y ⟨hy.1, hlt⟩
        refine .head ?_ ((Extends.add u₁ _).reaches hreach)
        rwa [Tree.children, kind_add, if_pos rfl, hkids]
      · exact .refl _ _

end Build

namespace Tree

variable {t t' : Tree} {x y c : Nat}

theorem Extends.unfold_eq (h : t.Extends t') (hb : ∀ y : Nat, t.Reaches x y → y < t.size) (n : Nat) :
    t'.unfold n x = t.unfold n x := by
  unfold Tree.unfold
  induction n generalizing x with
  | zero => rfl
  | succ n ih =>
    have hx := hb x (.refl t x)
    rw [fold, fold, h.kind x hx, h.scope x hx, h.ty x hx, h.span x hx]
    congr 1
    exact Kind.map_congr fun c hc => ih fun y hy => hb y (.head hc hy)

theorem Separate.mem_fresh (h : Separate [] t t') (hy : y ∈ fresh t t') (hc : c ∈ t'.children y) :
    c ∈ fresh t t' ∧ t'.parent c = .some y := by
  obtain ⟨hnew, hparent⟩ := h.child y hy.1 hy.2 c hc
  have hlt := hnew.resolve_right (by simp)
  exact ⟨⟨hlt.1, hlt.2.trans hy.2⟩, hparent⟩

/-- A node is named by the parent that its link gives, or was named before it was there. -/
theorem Separate.named (h : Separate [] t t') (hext : t.Extends t') (hc : c ∈ t'.children y) :
    t'.parent c = .some y ∨ c ∈ t.children y := by
  rcases Nat.lt_or_ge y t.size with hlt | hge
  · exact .inr (hext.children hlt ▸ hc)
  · exact .inl (h.mem_fresh ⟨hge, lt_size_of_mem_children hc⟩ hc).2

/-- `t'` is `t` with the nodes below `c` added, which are linked to each other and to
nothing else. -/
structure Appended (t t' : Tree) (c : NodeId) : Prop where
  env : t'.env = t.env
  old : ∀ y : Nat, y < t.size → t'.node y = t.node y
  below : ∀ y, t'.Reaches c y ↔ y ∈ fresh t t'
  top : t'.parent c = .none ∧ ∀ q, c ∈ t'.children q → c ∈ t.children q
  /-- Nothing else names a new node, unless it named what was not there. -/
  owner : ∀ y, t'.Reaches c y → y ≠ c → ∃ p, t'.Reaches c p ∧ t'.parent y = .some p ∧
    (t'.children p).count y = 1 ∧ ∀ q, y ∈ t'.children q → q = p ∨ y ∈ t.children q

theorem Separate.appended (h : Separate [] t t') (hext : t.Extends t') (henv : t'.env = t.env) (hc : c ∈ fresh t t')
    (hparent : t'.parent c = .none) (hreach : ∀ y ∈ fresh t t', t'.Reaches c y) : Appended t t' c := by
  have hnew : ∀ y, t'.Reaches c y → y ∈ fresh t t' := fun y hy =>
    hy.mem (fun z hz d hd => (h.mem_fresh hz hd).1) hc
  refine ⟨henv, fun y hy => hext.node_eq hy (h.parent y hy (by simp)), fun y => ⟨hnew y, hreach y⟩,
    ⟨hparent, fun q hq => (h.named hext hq).resolve_left (by simp [hparent])⟩, fun y hy hne => ?_⟩
  obtain ⟨p, hp, hyp⟩ := hy.casesTail.resolve_left hne
  have hpnew := hnew p hp
  have hyparent := (h.mem_fresh hpnew hyp).2
  refine ⟨p, hp, hyparent, List.count_eq_one_of_mem (h.nodup p hpnew.1 hpnew.2) hyp, fun q hq => ?_⟩
  exact (h.named hext hq).imp_left fun hq => Option.some.inj (hq.symm.trans hyparent)

/-- In `t'`, which is `t` with nodes added, `c` is a copy of `x` that shares nothing with
what was there. -/
structure Duplicate (t : Tree) (x : NodeId) (t' : Tree) (c : NodeId) : Prop extends Appended t t' c where
  size : t'.size = t.size + (t.postOrder x).length
  term : ∀ depth, t'.unfold depth c = t.unfold depth x

/-- Below a node of which all descendants are there and lead in no circle, a copy is
exact, whether or not nodes are shared. -/
theorem copy_duplicates (hb : ∀ y : Nat, t.Reaches x y → y < t.size)
    (hc : ∀ y, t.Reaches x y → ¬ Relation.TransGen t.Child y y) :
    Duplicate t x ((Build.copy x).run t).2 ((Build.copy x).run t).1 := by
  obtain ⟨⟨c, t'⟩, hrun⟩ : ∃ r, (Build.copyDown t.size x).run t = r := ⟨_, rfl⟩
  have hcopy : (Build.copy x).run t = (c, t') := hrun
  rw [hcopy]
  have hends := endsWithin_size hb hc
  have hR : t.Closed { y | t.Reaches x y } := .below hb
  obtain ⟨hext, hsep, hle, hlt, hparent⟩ := Build.separate hb (.refl t) hends hrun
  obtain ⟨-, φ, hφ, hφc⟩ := Build.mirrored hR.child hR.bounded (.refl t) (.refl t x) hrun
  obtain ⟨hsize, hreach⟩ := Build.filled hb (.refl t) hends hrun
  refine ⟨hsep.appended hext hφ.env ⟨hle, hlt⟩ hparent hreach, hsize, fun depth => ?_⟩
  have hfolds := hφ.folds hR (.refl t') (fun y hy => hext.kind y (hR.bounded y hy)) fun _ _ => rfl
  have hterm := hfolds.unfold_eq (.inr ⟨hle, hlt⟩) depth
  rw [hφc] at hterm
  exact hterm.trans (hext.unfold_eq hb depth)

end Tree

namespace Sample

/-- The declaration `let d = s.expression + s.expression`, with one node for both
operands. -/
def doubled : Tree := built do
  let var ← Build.typed (.shadow Statement.exprStmt) (Build.ident "s" Env.global)
  let step ← Build.selector "expression" Env.global
  let chain ← Build.factor var [step] Env.global
  let sum ← Build.binary .add chain chain Env.global
  attach (← Build.varDecl "d" .none (.some sum) Env.global)

/-- The shared operand has two copies. -/
theorem doubled_duplicates :
    (∀ y : Nat, doubled.Reaches 7 y → y < doubled.size) ∧
    (∀ y, doubled.Reaches 7 y → ¬ Relation.TransGen doubled.Child y y) ∧
    doubled.postOrder 7 = [6, 1, 2, 3, 4, 1, 2, 3, 4, 5, 7] ∧ doubled.size = 8 ∧
    Duplicate doubled 7 ((Build.copy 7).run doubled).2 ((Build.copy 7).run doubled).1 := by
  have hbuilt : doubled.BuiltUp := by decide +kernel
  have hacyclic := hbuilt.acyclic
  have hends := hacyclic.endsWithin (.refl doubled Tree.root)
  have hreach : doubled.Reachable 7 := (mem_preOrder hends).mp (by decide +kernel)
  have hb : ∀ y : Nat, doubled.Reaches 7 y → y < doubled.size := fun y hy => hacyclic.bounded y (hreach.trans hy)
  have hc : ∀ y, doubled.Reaches 7 y → ¬ Relation.TransGen doubled.Child y y := fun y hy =>
    hacyclic.noCircle y (hreach.trans hy)
  exact ⟨hb, hc, by decide +kernel, by decide +kernel, copy_duplicates hb hc⟩

end Sample

end Penumbra
