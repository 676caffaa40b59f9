/-
The fault that the second pass stops at.

A node can be faulty in one way only (`Faulty.unique`). The walk goes through the
nodes of the input in their order, so it stops at the first faulty node among
them if there is one (`Walked.report`), and at nodes that come after it, or that
are not reachable, nothing has been done by then.
-/
import Penumbra.Proofs.Concrete.NodeTurns
import Penumbra.Proofs.Tree.CheckedTrees

namespace Penumbra

open Tree

variable {t u u₁ u' : Tree} {m n x : Nat} {l l' nodes : List NodeId} {e e' : Fault} {r : Except Fault (List Visit)}

/-- There is one thing wrong with a faulty node. -/
theorem Tree.Faulty.unique (h : t.Faulty x e) (h' : t.Faulty x e') : e = e' := by
  have htoken : ∀ y token, t.kind y = .ident token → t.token? y = .some token := fun _ _ => token?_eq_some.mpr
  have hdecl : ∀ operand steps, t.kind x = .factor operand steps → t.shadowDecl? x = .none := fun operand steps hk => by
    simp [shadowDecl?, hk]
  cases h <;> cases h' <;> grind [Option.mem_some_self]

/-- How a walk over nodes of `t` has turned out, which it came to in this order:
none of them is faulty, or it has stopped at the first that is. It has changed
none but these, and none from there on unless the fault is in the tree. -/
inductive Report (t : Tree) (nodes : List NodeId) (u u' : Tree) : Except Fault (List Visit) → Prop where
  | ended {visits} (sound : ∀ y ∈ nodes, ∀ e, ¬ t.Faulty y e)
      (same : ∀ z : Nat, z < u.size → z ∉ nodes → u'.node z = u.node z) : Report t nodes u u' (.ok visits)
  | stopped {before after y e} (split : nodes = before ++ y :: after) (sound : ∀ z ∈ before, ∀ e, ¬ t.Faulty z e)
      (fault : t.Faulty y e)
      (same : e.cause.isUserError = true → ∀ z : Nat, z < u.size → z ∉ before → u'.node z = u.node z) :
      Report t nodes u u' (.error e)

namespace Report

theorem map {f : List Visit → List Visit} (h : Report t nodes u u' r) : Report t nodes u u' (r.map f) := by
  cases h with
  | ended sound same => exact .ended sound same
  | stopped split sound fault same => exact .stopped split sound fault same

theorem append {visits : List Visit} (h : Report t l u u₁ (.ok visits)) (hsize : u.size ≤ u₁.size)
    (h' : Report t l' u₁ u' r) : Report t (l ++ l') u u' r := by
  cases h with
  | ended sound same =>
  cases h' with
  | ended sound' same' =>
    refine .ended (fun y hy => (List.mem_append.mp hy).elim (sound y) (sound' y)) fun z hz hnot => ?_
    rw [List.mem_append, not_or] at hnot
    rw [same' z (hz.trans_le hsize) hnot.2, same z hz hnot.1]
  | @stopped before after y e split sound' fault same' =>
    have hsplit : l ++ l' = (l ++ before) ++ y :: after := by rw [split, List.append_assoc]
    refine .stopped hsplit (fun y hy => (List.mem_append.mp hy).elim (sound y) (sound' y)) fault
      fun huser z hz hnot => ?_
    rw [List.mem_append, not_or] at hnot
    rw [same' huser z (hz.trans_le hsize) hnot.2, same z hz hnot.1]

theorem stop (h : Report t l u u' (.error e)) : Report t (l ++ l') u u' (.error e) := by
  cases h with
  | @stopped before after y e split sound fault same =>
    exact .stopped (by rw [split, List.append_assoc, List.cons_append]) sound fault same

end Report

theorem NodeHalted.eq_of_isUserError (h : NodeHalted x u e u') (he : e.cause.isUserError = true) : u' = u := by
  cases h with
  | untouched => rfl
  | retyped => cases he

theorem Along.report {R : NodeId → Tree → Except Fault (List Visit) → Tree → Prop}
    (hR : ∀ c ∈ l, ∀ u r u', R c u r u' → u.size ≤ u'.size ∧ Report t (t.subtree c) u u' r)
    (h : Along R l u r u') : Report t (l.flatMap t.subtree) u u' r := by
  induction h with
  | nil => exact .ended (fun _ hy => absurd hy List.not_mem_nil) fun _ _ _ => rfl
  | @cons c l u u₁ u' visits r first _ ih =>
    obtain ⟨hsize, hc⟩ := hR c List.mem_cons_self _ _ _ first
    rw [List.flatMap_cons]
    exact hc.append hsize (ih fun d hd => hR d (List.mem_cons_of_mem _ hd)).map
  | @stop c l u u' e first =>
    rw [List.flatMap_cons]
    exact (hR c List.mem_cons_self _ _ _ first).2.stop

/-- The turn of a node that is not faulty changes the node and the children that
it deals with. -/
theorem NodeWalked.report {v : Tree} {done kept : List NodeId} {quiet : List Visit}
    (h : NodeWalked x t u v done kept quiet) (hx : ∀ e, ¬ t.Faulty x e) (hends : ∀ c ∈ done, t.EndsWithin t.size c) :
    Report t (x :: done.flatMap t.subtree) u v (.ok quiet) := by
  refine .ended (fun y hy e => ?_) fun z hz hnot => ?_
  · rcases List.mem_cons.mp hy with rfl | hy
    · exact hx e
    · obtain ⟨c, hc, hcy⟩ := List.mem_flatMap.mp hy
      exact not_faulty_of_leaf (h.leaf c hc y (lists_pre.reaches hcy))
  · rw [List.mem_cons, not_or] at hnot
    refine h.others z hz hnot.1 fun hdone => hnot.2 (List.mem_flatMap.mpr ⟨z, hdone, ?_⟩)
    exact lists_pre.mem (hends z hdone) (.refl t z)

/-- The walk over all below a node goes through the subtree that the node had in
the input. -/
theorem Walked.report (hr : t.Rooted) (hx : t.Reachable x) (hu : Intact x t u) (hm : t.EndsWithin m x) (hn : m + 4 ≤ n)
    (h : Walked n x u r u') : Report t (t.subtree x) u u' r := by
  -- one level of the input for each level of the walk; the four more are for what is put in
  induction m generalizing n x u r u' with
  | zero => exact hm.elim
  | succ m ih =>
    obtain ⟨n, rfl⟩ : ∃ n', n = n' + 1 := ⟨n - 1, by omega⟩
    rw [subtree_eq (hr.endsWithin hx)]
    rcases h.turn hr hx hu (by omega) with ⟨e, rfl, hhalt⟩ | ⟨v, done, kept, quiet, r₁, hsound, hturn, hrest, rfl⟩
    · refine .stopped (List.nil_append _).symm (fun _ hz => absurd hz List.not_mem_nil) (hu.faulty.mp hhalt.faulty)
        fun huser _ _ _ => ?_
      rw [hhalt.eq_of_isUserError huser]
    · have hchild : ∀ c ∈ done ++ kept, t.Reachable c ∧ t.EndsWithin m c := by
        intro c hc
        rw [← hturn.children] at hc
        exact ⟨Reaches.tail hx hc, hm c hc⟩
      have hkept := hrest.report fun c hc v r v' hcv =>
        have hc := hchild c (List.mem_append_right _ hc)
        ⟨hcv.2.worked.evolves.size_le, ih hc.1 hcv.1 hc.2 (by omega) hcv.2⟩
      have hdone := hturn.report hsound fun c hc => hr.endsWithin (hchild c (List.mem_append_left _ hc)).1
      rw [hturn.children, List.flatMap_append, ← List.cons_append]
      exact (hdone.append hturn.worked.evolves.size_le hkept).map

/-- The whole pass goes through the nodes of the program in their order. -/
theorem Tree.concretize_report (hr : t.Rooted) :
    ∃ r, Report t (t.preOrder root) t t.concretize.tree r ∧ ∀ e, r = .error e ↔ t.concretize.result = .error e := by
  have hroot : t.Reachable root := .refl t root
  have hreport : ∀ {r t'}, Walked (Pass.depthBound t) root t r t' → Report t (t.preOrder root) t t' r := fun h => by
    rw [preOrder_eq (hr.endsWithin hroot)]
    exact h.report hr hroot (.refl root t) (hr.endsWithin hroot) (Nat.le_refl _)
  rcases t.concretize_cases with ⟨visits, w, h, heq⟩ | ⟨e, w, h, heq⟩
  · refine ⟨.ok visits, ?_, fun e => ?_⟩
    · rw [heq]
      exact hreport (Pass.walked_of_yields h)
    · simp [heq]
  · refine ⟨.error e, ?_, fun e' => ?_⟩
    · rw [heq]
      exact hreport (Pass.walked_of_stops h)
    · simp [heq]

/-- The second pass stops if and only if some node of the program is faulty. Its
fault is that of the first such node, and if the program is at fault and not the
tree, nothing has been done to that node, to those after it and to those that
are not reachable. -/
theorem Tree.concretize_error_iff_faulty (hr : t.Rooted) :
    ((∃ e, t.concretize.result = .error e) ↔ ∃ x e, t.Reachable x ∧ t.Faulty x e) ∧
    ∀ e, t.concretize.result = .error e → ∃ before x after, t.preOrder root = before ++ x :: after ∧
      (∀ y ∈ before, ∀ e', ¬ t.Faulty y e') ∧ (∀ e', t.Faulty x e' ↔ e' = e) ∧
      (e.cause.isUserError = true → ∀ y : Nat, y < t.size → y ∉ before → t.concretize.tree.node y = t.node y) := by
  have hmem : ∀ {x}, x ∈ t.preOrder root ↔ t.Reachable x := mem_preOrder (hr.endsWithin (.refl t root))
  obtain ⟨r, hreport, hresult⟩ := concretize_report hr
  simp only [← hresult]
  cases hreport with
  | ended sound =>
    refine ⟨⟨fun h => ?_, fun h => ?_⟩, fun e h => ?_⟩
    · obtain ⟨e, he⟩ := h
      cases he
    · obtain ⟨x, e, hx, he⟩ := h
      exact absurd he (sound x (hmem.mpr hx) e)
    · cases h
  | @stopped before after x e split sound fault same =>
    refine ⟨⟨fun _ => ⟨x, e, hmem.mp ?_, fault⟩, fun _ => ⟨e, rfl⟩⟩, fun e' h => ?_⟩
    · rw [split]
      exact List.mem_append_right _ List.mem_cons_self
    · cases h
      exact ⟨before, x, after, split, sound, fun e' => ⟨fun h => h.unique fault, fun h => h ▸ fault⟩, same⟩

namespace Sample

/-- Three accesses, of which the second is to a field that the type does not have
and the third to a field of that name too. -/
def mistaken : Tree := built do
  modify (·.modifyEnv (Statement.declare · Env.global))
  attach (← access "s" "expression" (.shadow Statement.exprStmt) Env.global)
  attach (← access "s" "value" (.shadow Statement.exprStmt) Env.global)
  attach (← access "s" "value" (.shadow Statement.exprStmt) Env.global)

/-- The fault names the field and the type. The accesses from the second on are
still as they were. -/
theorem mistaken_stops :
    mistaken.Rooted ∧
    mistaken.concretize.result = .error ⟨.lookup (.unknownField "value" "ExprStmt"), .none⟩ ∧
    (∃ x e, mistaken.Reachable x ∧ mistaken.Faulty x e) ∧
    ∃ before x after, mistaken.preOrder Tree.root = before ++ x :: after ∧
      (∀ y ∈ before, ∀ e', ¬ mistaken.Faulty y e') ∧
      (∀ e', mistaken.Faulty x e' ↔ e' = ⟨.lookup (.unknownField "value" "ExprStmt"), .none⟩) ∧
      ∀ y : Nat, y < mistaken.size → y ∉ before → mistaken.concretize.tree.node y = mistaken.node y := by
  have hlinked : mistaken.Linked := by decide +kernel
  have hr := hlinked.owned.rooted hlinked.formed
  have herror : mistaken.concretize.result = .error ⟨.lookup (.unknownField "value" "ExprStmt"), .none⟩ := by
    decide +kernel
  obtain ⟨hiff, hfirst⟩ := Tree.concretize_error_iff_faulty hr
  obtain ⟨before, x, after, hsplit, hsound, hfault, hsame⟩ := hfirst _ herror
  exact ⟨hr, herror, hiff.mp ⟨_, herror⟩, before, x, after, hsplit, hsound, hfault, hsame rfl⟩

end Sample

end Penumbra
