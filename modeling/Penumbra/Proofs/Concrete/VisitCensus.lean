/-
The visits of the second pass and what it counts.

In the loop of the pass a node is replaced by the children that it has after its own
turn. So the nodes put in place of an access are visited and those they replace are
not. All in all the loop comes to every node of the final tree once and in order, and
it makes each change that the input calls for once (`Visited`). How often it makes
which is a census of the input (`census`).
-/
import Penumbra.Proofs.Concrete.WorkList
import Penumbra.Proofs.Concrete.NodeTurns
import Penumbra.Proofs.Tree.CheckedTrees

namespace Penumbra

open Tree

/-! ## The census -/

namespace Tree

variable {t : Tree} {x y z c : Nat}

/-- The nodes that are dealt with together with `x`. -/
def handled (t : Tree) (x : NodeId) : List NodeId :=
  (match t.kind x with
    | .factor operand (first :: _) =>
      if (t.shadow? operand).isSome && t.selects first then operand :: t.preOrder first else []
    | _ => []) ++
  match t.shadowDecl? x with
  | .some (name, ascription, _) => name :: ascription.toList
  | .none => []

/-- The changes that the program calls for. An identifier that is dealt with
together with another node is not counted. -/
def census (t : Tree) : Tally :=
  let nodes := t.preOrder root
  let handled := nodes.flatMap t.handled
  { accesses := nodes.countP fun x => t.change? x == .some .access
    binders := nodes.countP fun x => t.change? x == .some .binder
    declarations := nodes.countP fun x => t.change? x == .some .declaration
    identifiers := nodes.countP fun x => t.change? x == .some .identifier && !handled.contains x }

/-- What is counted at one node. -/
def counted? (t : Tree) (x : NodeId) : Option Change :=
  (t.change? x).filter fun c => !(c == .identifier && ((t.preOrder root).flatMap t.handled).contains x)

theorem ofVisits_eq_census {visits : List Visit}
    (h : visits.filterMap Visit.change = (t.preOrder root).filterMap t.counted?) : .ofVisits visits = t.census := by
  have hcount : ∀ change p, (∀ x, (t.counted? x == .some change) = p x) →
      (visits.filterMap Visit.change).count change = (t.preOrder root).countP p := by
    intro change p hp
    rw [h, List.count_filterMap, funext hp]
  unfold Tally.ofVisits census
  rw [Tally.mk.injEq]
  refine ⟨hcount _ _ fun x => ?_, hcount _ _ fun x => ?_, hcount _ _ fun x => ?_, hcount _ _ fun x => ?_⟩
  all_goals
    unfold counted?
    generalize ((t.preOrder root).flatMap t.handled).contains x = together
    rcases t.change? x with _ | (_ | _ | _ | _) <;> cases together <;> rfl

theorem mem_handled (hends : ∀ c ∈ t.children x, t.EndsWithin t.size c) : y ∈ t.handled x ↔ t.Handles x y := by
  unfold handled Handles
  rw [List.mem_append]
  refine or_congr ?_ ?_
  · split
    next operand first rest hk =>
      have hfirst := mem_preOrder (y := y) (hends first (by simp [Tree.children, hk, Kind.children]))
      split
      next hchain =>
        rw [Bool.and_eq_true] at hchain
        simp [hk, hchain, hfirst, and_assoc]
      next hchain =>
        refine iff_of_false List.not_mem_nil fun h => hchain ?_
        obtain ⟨operand', first', rest', hk', hs, hsel, -⟩ := h
        rw [hk] at hk'
        cases hk'
        rw [hs, hsel]
        rfl
    next hk =>
      refine iff_of_false List.not_mem_nil fun h => ?_
      obtain ⟨operand, first, rest, hk', -⟩ := h
      exact hk operand first rest hk'
  · split
    next name ascription s hd => simp [hd]
    next hd => simp [hd]

theorem Handles.cases (h : t.Handles x y) : y ∈ t.children x ∨ ∃ p, t.Handles x p ∧ t.Reaches x p ∧ y ∈ t.children p := by
  rcases h with ⟨operand, first, rest, hk, hs, hsel, rfl | hy⟩ | ⟨name, ascription, s, hd, hy⟩
  · exact .inl (by simp [Tree.children, hk, Kind.children])
  · rcases hy.casesTail with rfl | ⟨p, hp, hy⟩
    · exact .inl (by simp [Tree.children, hk, Kind.children])
    · exact .inr ⟨p, .inl ⟨operand, first, rest, hk, hs, hsel, .inr hp⟩,
        .head (by simp [Tree.children, hk, Kind.children]) hp, hy⟩
  · obtain ⟨hname, hasc⟩ := children_shadowDecl hd
    rcases hy with rfl | hy
    · exact .inl hname
    · exact .inl (hasc y hy)

end Tree

/-! ## A walk that ends -/

/-- The visits of a walk over `l`, in whose place the nodes `pending` are now. Each
of these and all below them has been visited once, in order, and the changes made are
those that the nodes of the input call for. -/
structure Visited (t : Tree) (l pending : List NodeId) (u u' : Tree) (visits : List Visit) : Prop where
  order : u'.Ordered pending (visits.map Visit.node)
  nodup : (visits.map Visit.node).Nodup
  within : ∀ y ∈ visits.map Visit.node, (∃ c ∈ l, t.Reaches c y) ∨ u.size ≤ y ∧ y < u'.size
  changes : visits.filterMap Visit.change = (l.flatMap t.subtree).filterMap t.counted?

section Walk

variable {t u u₁ u' v : Tree} {m n x c : Nat} {l l' pending pending' done kept : List NodeId}
  {visits visits' quiet : List Visit} (hr : t.Rooted)

/-- Nothing that has been visited is changed by a walk beside it. -/
theorem Visited.append (h : Visited t l pending u u₁ visits) (h' : Visited t l' pending' u₁ u' visits')
    (hu : t.size ≤ u.size) (hle : u.size ≤ u₁.size) (hl : ∀ c ∈ l, ∀ y, t.Reaches c y → y < t.size)
    (hw : Worked l' u₁ u') (hl' : ∀ d ∈ l', (∀ y, t.Reaches d y → y < t.size) ∧ Intact d t u₁)
    (hapart : ∀ c ∈ l, ∀ d ∈ l', ∀ y, t.Reaches c y → ¬ t.Reaches d y) :
    Visited t (l ++ l') (pending ++ pending') u u' (visits ++ visits') := by
  have hlt : ∀ y ∈ visits.map Visit.node, y < u₁.size := fun y hy => by
    rcases h.within y hy with ⟨c, hc, hcy⟩ | hnew
    · exact (hl c hc y hcy).trans_le (hu.trans hle)
    · exact hnew.2
  have hnot : ∀ y ∈ visits.map Visit.node, ∀ d ∈ l', ¬ t.Reaches d y := fun y hy d hd hdy => by
    rcases h.within y hy with ⟨c, hc, hcy⟩ | hnew
    · exact hapart c hc d hd y hcy hdy
    · exact absurd ((hl' d hd).1 y hdy) (Nat.not_lt.mpr (hu.trans hnew.1))
  refine ⟨?_, ?_, fun y hy => ?_, ?_⟩
  · rw [List.map_append]
    refine (h.order.congr fun y hy => ?_).append h'.order
    have hnode := hw.apart y (hlt y hy) fun d hd hdy => hnot y hy d hd ((hl' d hd).2.below.reaches_iff.mp hdy)
    rw [Tree.children, Tree.kind, hnode]
    rfl
  · rw [List.map_append, List.nodup_append]
    refine ⟨h.nodup, h'.nodup, fun y hy z hz he => ?_⟩
    subst he
    rcases h'.within y hz with ⟨d, hd, hdy⟩ | hnew
    · exact hnot y hy d hd hdy
    · exact absurd (hlt y hy) (Nat.not_lt.mpr hnew.1)
  · rw [List.map_append, List.mem_append] at hy
    rcases hy with hy | hy
    · refine (h.within y hy).imp (fun hc => ?_) fun hnew => ⟨hnew.1, hnew.2.trans_le hw.evolves.size_le⟩
      obtain ⟨c, hc, hcy⟩ := hc
      exact ⟨c, List.mem_append_left _ hc, hcy⟩
    · refine (h'.within y hy).imp (fun hd => ?_) fun hnew => ⟨hle.trans hnew.1, hnew.2⟩
      obtain ⟨d, hd, hdy⟩ := hd
      exact ⟨d, List.mem_append_right _ hd, hdy⟩
  · rw [List.filterMap_append, List.flatMap_append, List.filterMap_append, h.changes, h'.changes]

/-- Something is counted only once: not where it is dealt with together with
another node. -/
theorem counted?_of_handles (hr : t.Rooted) (hx : t.Reachable x) (h : t.Handles x c)
    (hleaf : (∃ token, t.kind c = .ident token) ∨ t.selects c = true) : t.counted? c = .none := by
  have hmem : ((t.preOrder root).flatMap t.handled).contains c = true := by
    rw [List.contains_iff_mem, List.mem_flatMap]
    refine ⟨x, (mem_preOrder (hr.endsWithin (.refl t root))).mpr hx, (mem_handled fun d hd => ?_).mpr h⟩
    exact hr.endsWithin (Reaches.tail hx hd)
  have hchange : t.change? c = .none ∨ t.change? c = .some .identifier := by
    unfold Tree.change?
    rcases hleaf with ⟨token, hk⟩ | hsel
    · rw [hk]
      by_cases hs : (t.shadow? c).isSome <;> simp [hs]
    · unfold selects at hsel
      split at hsel
      next field hk => simp [hk]
      next => cases hsel
  unfold counted?
  rw [hmem]
  rcases hchange with hc | hc <;> rw [hc] <;> rfl

theorem counted?_of_not_handles (hr : t.Rooted) (h : ∀ z, t.Reachable z → ¬ t.Handles z c) :
    t.counted? c = t.change? c := by
  have hnot : ((t.preOrder root).flatMap t.handled).contains c = false := by
    rw [← Bool.not_eq_true, List.contains_iff_mem, List.mem_flatMap]
    intro hmem
    obtain ⟨z, hz, hc⟩ := hmem
    have hz := (mem_preOrder (hr.endsWithin (.refl t root))).mp hz
    exact h z hz ((mem_handled fun d hd => hr.endsWithin (Reaches.tail hz hd)).mp hc)
  unfold counted?
  rw [hnot]
  cases t.change? c <;> simp [Option.filter]

section Turn

variable (hx : t.Reachable x) (hturn : NodeWalked x t u v done kept quiet)
include hr hx hturn

theorem NodeWalked.not_handles (hfree : ∀ z, t.Reachable z → ¬ t.Handles z x) (hc : c ∈ kept) :
    ∀ z, t.Reachable z → ¬ t.Handles z c := by
  intro z hz hzc
  have hcx : c ∈ t.children x := by
    rw [hturn.children]
    exact List.mem_append_right _ hc
  rcases hzc.cases with hcz | ⟨p, hp, hzp, hcp⟩
  · -- then `z` is `x`, and `c` is below a child that was dealt with
    obtain rfl := hr.eq_of_mem hz hx hcz hcx
    obtain ⟨d, hd, hdc⟩ := (hturn.handles c).mp hzc
    have hdx : d ∈ t.children z := by
      rw [hturn.children]
      exact List.mem_append_left _ hd
    obtain rfl := hr.disjoint hx hdx hcx hdc (.refl t c)
    have hnodup := hr.nodup z hx
    rw [hturn.children, List.nodup_append] at hnodup
    exact hnodup.2.2 d hd d hc rfl
  · obtain rfl := hr.eq_of_mem (Reaches.trans hz hzp) hx hcp hcx
    exact hfree z hz hp

theorem NodeWalked.visited (hty : ∀ name a s, t.shadowDecl? x = .some (name, a, s) → s.shadowedTy.isShadow = false) :
    ∃ replaced, v.children x = replaced ++ kept ∧ Visited t done replaced u v quiet := by
  obtain ⟨replaced, hchildren, horder⟩ := hturn.order
  refine ⟨replaced, hchildren, horder, hturn.nodup, fun y hy => ?_, ?_⟩
  · exact (hturn.visits y hy).imp_left fun hd => ⟨y, hd, .refl t y⟩
  · have hquiet : quiet.filterMap Visit.change = [] := List.filterMap_eq_nil_iff.mpr (hturn.calm hty)
    rw [hquiet]
    refine (List.filterMap_eq_nil_iff.mpr fun y hy => ?_).symm
    obtain ⟨c, hc, hcy⟩ := List.mem_flatMap.mp hy
    have hcy := lists_pre.reaches hcy
    exact counted?_of_handles hr hx ((hturn.handles y).mpr ⟨c, hc, hcy⟩) (hturn.leaf c hc y hcy)

theorem NodeWalked.visited_cons {replaced : List NodeId} (hfree : ∀ z, t.Reachable z → ¬ t.Handles z x)
    (hu : t.size ≤ u.size) (hkind : u'.children x = replaced ++ kept)
    (h : Visited t (done ++ kept) (replaced ++ kept) u u' visits) :
    Visited t [x] [x] u u' (⟨x, t.change? x⟩ :: visits) := by
  rw [← hturn.children] at h
  refine ⟨?_, ?_, fun y hy => ?_, ?_⟩
  · have hbelow : u'.Ordered (u'.children x) (visits.map Visit.node) := hkind ▸ h.order
    have horder := Ordered.cons hbelow (.nil (t := u'))
    rwa [List.append_nil] at horder
  · rw [List.map_cons, List.nodup_cons]
    refine ⟨fun hmem => ?_, h.nodup⟩
    rcases h.within x hmem with ⟨c, hc, hcx⟩ | hnew
    · exact hr.not_reaches_self hx hc hcx
    · have := hr.bounded x hx
      omega
  · rw [List.map_cons, List.mem_cons] at hy
    rcases hy with hy | hy
    · exact .inl ⟨x, List.mem_singleton.mpr rfl, hy ▸ .refl t x⟩
    · refine (h.within y hy).imp_left fun hc => ?_
      obtain ⟨c, hc, hcy⟩ := hc
      exact ⟨x, List.mem_singleton.mpr rfl, .head hc hcy⟩
  · rw [List.flatMap_singleton, subtree_eq (hr.endsWithin hx), List.filterMap_cons, List.filterMap_cons,
      counted?_of_not_handles hr hfree, h.changes]

end Turn

include hr

theorem Along.visited {r : Except Fault (List Visit)} (h : Along (fun c u r u' => Intact c t u ∧ Walked n c u r u') l v r u')
    (hr' : r = .ok visits) (hl : ∀ c ∈ l, t.Reachable c ∧ Intact c t v)
    (hapart : l.Pairwise fun a b => ∀ y, t.Reaches a y → ¬ t.Reaches b y) (hv : t.size ≤ v.size)
    (ih : ∀ c ∈ l, ∀ u visits u', Intact c t u → Walked n c u (.ok visits) u' → Visited t [c] [c] u u' visits) :
    Visited t l l v u' visits := by
  induction h generalizing visits with
  | nil =>
    cases hr'
    exact ⟨.nil, .nil, fun _ hy => absurd hy List.not_mem_nil, rfl⟩
  | @cons c l v v₁ u' first r hfirst hrest ihl =>
    obtain ⟨hc, hpair⟩ := List.pairwise_cons.mp hapart
    obtain ⟨hci, hwalk⟩ := hfirst
    cases r with
    | error e => cases hr'
    | ok rest =>
      cases hr'
      have hle := hwalk.worked.evolves.size_le
      have hl' : ∀ d ∈ l, t.Reachable d ∧ Intact d t v₁ := fun d hd => by
        obtain ⟨hdr, hdi⟩ := hl d (List.mem_cons_of_mem _ hd)
        exact ⟨hdr, hwalk.intact hr hci hdi hdr (hc d hd)⟩
      have hvisits := ihl rfl hl' hpair (hv.trans hle) fun d hd => ih d (List.mem_cons_of_mem _ hd)
      have hbelow : ∀ d, t.Reachable d → ∀ y, t.Reaches d y → y < t.size := fun d hd y hy =>
        hr.bounded y (Reaches.trans hd hy)
      refine (ih c List.mem_cons_self _ _ _ hci hwalk).append hvisits hv hle (fun d hd => ?_) ?_ (fun d hd => ?_)
        fun d hd => ?_
      · obtain rfl := List.mem_singleton.mp hd
        exact hbelow d (hl d List.mem_cons_self).1
      · exact hrest.worked fun _ _ _ _ hd => hd.2.worked
      · exact ⟨hbelow d (hl' d hd).1, (hl' d hd).2⟩
      · obtain rfl := List.mem_singleton.mp hd
        exact hc
  | stop => cases hr'

/-- A walk that ends has visited what the node and all below it have become. -/
theorem Walked.visited
    (hty : ∀ x name a s, t.Reachable x → t.shadowDecl? x = .some (name, a, s) → s.shadowedTy.isShadow = false)
    (hx : t.Reachable x) (hfree : ∀ z, t.Reachable z → ¬ t.Handles z x) (hu : Intact x t u) (hm : t.EndsWithin m x)
    (hn : m + 4 ≤ n) (h : Walked n x u (.ok visits) u') : Visited t [x] [x] u u' visits := by
  induction m generalizing n x u u' visits with
  | zero => exact hm.elim
  | succ m ih =>
    obtain ⟨n, rfl⟩ : ∃ n', n = n' + 1 := ⟨n - 1, by omega⟩
    rcases h.turn hr hx hu (by omega) with ⟨e, he, -⟩ | ⟨v, done, kept, quiet, r, -, hturn, hrest, hvisits⟩
    · cases he
    cases r with
    | error e => cases hvisits
    | ok rest =>
      cases hvisits
      have hchild : ∀ c ∈ done ++ kept, c ∈ t.children x := fun c hc => hturn.children ▸ hc
      have hkept : ∀ c ∈ kept, t.Reachable c ∧ Intact c t v := fun c hc =>
        ⟨Reaches.tail hx (hchild c (List.mem_append_right _ hc)), hturn.intact c hc⟩
      have hpair := hr.pairwise_children hx
      rw [hturn.children, List.pairwise_append] at hpair
      have hle := hturn.worked.evolves.size_le
      have hbelow := hrest.visited hr rfl hkept hpair.2.1 (hu.size_le.trans hle) fun c hc u visits u' hcu hw =>
        ih (hkept c hc).1 (hturn.not_handles hr hx hfree hc) hcu (hm c (hchild c (List.mem_append_right _ hc)))
          (by omega) hw
      obtain ⟨replaced, hchildren, hdone⟩ := hturn.visited hr hx fun name a s => hty x name a s hx
      have hworked := hrest.worked fun _ _ _ _ hc => hc.2.worked
      have hbound : ∀ c ∈ done ++ kept, ∀ y, t.Reaches c y → y < t.size := fun c hc y hy =>
        hr.bounded y (Reaches.trans (Reaches.tail hx (hchild c hc)) hy)
      have hboth := hdone.append hbelow hu.size_le hle (fun c hc => hbound c (List.mem_append_left _ hc)) hworked
        (fun d hd => ⟨hbound d (List.mem_append_right _ hd), (hkept d hd).2⟩) hpair.2.2
      refine hturn.visited_cons hr hx hfree hu.size_le ?_ hboth
      -- the node itself is not touched by the walks below it
      have hnode := hworked.apart x ((hr.bounded x hx).trans_le (hu.size_le.trans hle)) fun c hc hcx =>
        hr.not_reaches_self hx (hchild c (List.mem_append_right _ hc)) ((hkept c hc).2.below.reaches_iff.mp hcx)
      rw [← hchildren, Tree.children, Tree.children, Tree.kind, Tree.kind, hnode]

/-- If it ends, the loop of the second pass goes through the nodes of the final tree
in their order, each of them once, and what it counts is the census of the
input. -/
theorem Tree.concretize_visits_once
    (hty : ∀ x name a s, t.Reachable x → t.shadowDecl? x = .some (name, a, s) → s.shadowedTy.isShadow = false)
    (hok : t.concretize.result = .ok ()) :
    ∃ visits w, Pass.Loop.Turns ⟨[root], { tree := t }, []⟩ ⟨[], w, visits⟩ ∧
      Pass.Loop.Ends t.uri ⟨[], w, visits⟩ t.concretize ∧
      visits.map Visit.node = t.concretize.tree.preOrder root ∧ (t.concretize.tree.preOrder root).Nodup ∧
      Tally.ofVisits visits = t.census := by
  rcases t.concretize_cases with ⟨visits, w, h, heq⟩ | ⟨e, w, -, heq⟩
  · have hroot : t.Reachable root := .refl t root
    have hwalk := Pass.walked_of_yields h
    -- the root is a child of no node, and only below children others are dealt with
    have hfree : ∀ z, t.Reachable z → ¬ t.Handles z root := fun z hz hroot => by
      rcases hroot.cases with hmem | ⟨p, -, hp, hmem⟩
      · exact hr.root_free z hz hmem
      · exact hr.root_free p (Reaches.trans hz hp) hmem
    have hvisits := hwalk.visited hr hty hroot hfree (.refl root t) (hr.endsWithin hroot) le_rfl
    have hacyclic : w.tree.Acyclic := .of_closed (hwalk.worked.evolves.closed hr.closed) (.inl hroot)
      (hvisits.order.grounded root (List.mem_singleton.mpr rfl))
    have hends := hacyclic.endsWithin (.refl w.tree root)
    have horder := hvisits.order.eq_subtree fun x hx => List.mem_singleton.mp hx ▸ hends
    have hchanges := hvisits.changes
    rw [List.flatMap_singleton, ← preOrder_eq (hr.endsWithin hroot)] at hchanges
    rw [List.flatMap_singleton, ← preOrder_eq hends] at horder
    refine ⟨visits, w, Pass.turns_of_yields h [] [], heq ▸ .done, ?_, ?_, ofVisits_eq_census hchanges⟩
    · rw [heq, horder]
    · rw [heq, ← horder]
      exact hvisits.nodup
  · rw [heq] at hok
    cases hok

end Walk

namespace Sample

/-- A binder of a shadow type with an access below it, another access, a
declaration without a written type, and an identifier in it. -/
def various : Tree := built do
  modify (·.modifyEnv (Statement.declare · Env.global))
  let shadow ← arm .before "s" "ExprStmt" (.shadow Statement.exprStmt) fun scope =>
    return [← access "s" "expression" (.shadow Statement.exprStmt) scope]
  let visitor ← Build.visitor [shadow] .none Env.global
  attach (← Build.exprStmt visitor Env.global)
  attach (← access "r" "value" (.shadow Statement.returnStatement) Env.global)
  let init ← Build.typed (.shadow Statement.exprStmt) (Build.ident "s" Env.global)
  attach (← Build.typed (.shadow Statement.exprStmt) (Build.varDecl "d" .none (.some init) Env.global))

/-- Of the identifiers that have a shadow type, only the last is counted as one. -/
theorem various_counted :
    various.Rooted ∧ various.concretize.result = .ok () ∧ various.census = ⟨2, 1, 1, 1⟩ ∧
    (∀ x name a s, various.Reachable x → various.shadowDecl? x = .some (name, a, s) → s.shadowedTy.isShadow = false) ∧
    ∃ visits w, Pass.Loop.Turns ⟨[Tree.root], { tree := various }, []⟩ ⟨[], w, visits⟩ ∧
      Pass.Loop.Ends various.uri ⟨[], w, visits⟩ various.concretize ∧
      visits.map Visit.node = various.concretize.tree.preOrder Tree.root ∧
      (various.concretize.tree.preOrder Tree.root).Nodup ∧ Tally.ofVisits visits = various.census := by
  have hlinked : various.Linked := by decide +kernel
  have hr := hlinked.owned.rooted hlinked.formed
  have hok : various.concretize.result = .ok () := Outcome.ok_of_isOk (by decide +kernel)
  have hshadows : ∀ x : Nat, x < various.size → ∀ d ∈ various.shadowDecl? x, d.2.2.shadowedTy.isShadow = false := by
    decide +kernel
  have hty : ∀ x name a s, various.Reachable x → various.shadowDecl? x = .some (name, a, s) →
      s.shadowedTy.isShadow = false := fun x _ _ _ hx hd => hshadows x (hr.bounded x hx) _ hd
  exact ⟨hr, hok, by decide +kernel, hty, Tree.concretize_visits_once hr hty hok⟩

end Sample

end Penumbra
