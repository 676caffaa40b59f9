/-
The values that the wildcard of a visitor is for.

A value of a type that no arm of a visitor is for runs the visitor's wildcard.
The wildcard stays as it is as long as every family of its phase has an arm to be
merged into. Otherwise it turns into the default of the switches of the arms that
are made, which are for other types, and nothing is run any more for such a value
(`lower_wildcard_coverage`).
-/
import Penumbra.Proofs.Lower.VisitorOutline

namespace Penumbra

open Tree

namespace Tree

variable {t : Tree} {V : NodeId} {arms : List NodeId} {wildcard : Option NodeId} {p : Phase} {T d : String}

theorem codeBefore_uncovered (hk : t.kind V = .visitor arms wildcard) (hread : ∀ a ∈ arms, ∃ r, t.shadowArm? a = .ok r)
    (hshadow : t.familyArms arms (p, T) = []) (hnone : arms.findSome? (t.bindsConcrete? p T) = .none) :
    t.codeBefore V p T d = (t.wildcardFor? p wildcard).toList := by
  have hfind := findSome?_shadows (p := p) (T := T) (d := d) hread
  rw [← familyArms, hshadow] at hfind
  unfold codeBefore
  simp only [hk, armFor?_isNamed, hnone, hfind]
  rfl

theorem familyArms_eq_nil (hk : t.kind V = .visitor arms wildcard)
    (hshadow : ∀ s, t.HasShadowArm V p s → s.shadowedName ≠ T) : t.familyArms arms (p, T) = [] := by
  refine List.eq_nil_iff_forall_not_mem.mpr fun a ha => ?_
  obtain ⟨arm, harm, hmember⟩ := List.mem_filterMap.mp ha
  obtain ⟨q, hr, hq⟩ := memberOf?_eq_some.mp hmember
  obtain ⟨rfl, hname⟩ := Prod.mk.inj hq
  exact hshadow _ (.of_read hk harm hr) hname

theorem mem_familyKeys (hk : t.kind V = .visitor arms wildcard) (hread : ∀ a ∈ arms, ∃ r, t.shadowArm? a = .ok r) :
    (p, T) ∈ t.familyKeys arms ↔ ∃ s, t.HasShadowArm V p s ∧ s.shadowedName = T := by
  rw [familyKeys, List.mem_eraseDups, List.mem_filterMap]
  constructor
  · rintro ⟨arm, harm, hkey⟩
    obtain ⟨⟨q, a⟩, hr, hq⟩ := Option.map_eq_some_iff.mp hkey
    obtain ⟨rfl, hname⟩ := Prod.mk.inj hq
    exact ⟨a.shadow, .of_read hk harm (readArm?_eq_some.mp hr), hname⟩
  · rintro ⟨s, hs, hname⟩
    obtain ⟨arm, harm, a, hr, rfl⟩ := hs.mem hk hread
    refine ⟨arm, harm, ?_⟩
    rw [familyKey?, readArm?_eq_some.mpr hr, ← hname]
    rfl

theorem phase_of_wildcardFor? {q : Phase} {b b' : NodeId} (h : t.wildcardFor? p wildcard = .some b)
    (h' : t.wildcardFor? q wildcard = .some b') : q = p := by
  obtain ⟨w, hw, c, hkw⟩ := wildcardFor?_eq_some.mp h
  obtain ⟨w', hw', c', hkw'⟩ := wildcardFor?_eq_some.mp h'
  obtain rfl := Option.mem_unique hw hw'
  exact (Kind.arm.inj (hkw'.symm.trans hkw)).1

end Tree

namespace Turn

variable {t u u' t' : Tree} {pre post arms : List Nat} {V : Nat} {wildcard : Option Nat} {p : Phase} {T d : String}
  (h : Turn t pre V post) (hk : t.kind V = .visitor arms wildcard)
include h hk

/-- Nothing is put into the body of a wildcard. -/
theorem stmts?_wildcard {b : Nat} (hb : t.wildcardFor? p wildcard = .some b)
    (hall : Chain VisitorLowered (pre ++ V :: post) t t') : t'.stmts? b = t.stmts? b := by
  obtain ⟨w, hw, c, hkw⟩ := wildcardFor?_eq_some.mp hb
  obtain rfl := Option.mem_def.mp hw
  have hwV : w ∈ t.children V := wildcard_mem_children hk
  have hbw : b ∈ t.children w := body_mem_children hkw
  have hlt : b < t.size := h.formed.child w (h.wildcard_lt hk rfl) b hbw
  have hl := h.pending.later_run h.formed hall
  cases hs : t.stmts? b with
  | none => exact (hl.grows.kind b hlt).stmts?_eq_none.mpr hs
  | some l =>
    rw [Tree.stmts?, h.pending.kind_eq h.formed hall hlt fun W hW => ⟨?_, ?_⟩]
    · exact hs
    · rintro rfl
      obtain ⟨arms', wildcard', hkb⟩ := isVisitor_iff.mp (h.visitor b hW).2
      rw [Tree.stmts?, hkb] at hs
      cases hs
    · rintro ⟨-, arms', wildcard', arm, q, c', hkW, harm, hka⟩
      obtain ⟨rfl, rfl⟩ := h.owned.arm_eq h.reachable (h.visitor W hW).1 hwV (arm_mem_children hkW harm) hbw
        (body_mem_children hka)
      rw [hk] at hkW
      cases hkW
      have hnodup := h.owned.nodup V h.reachable
      rw [Tree.children, hk] at hnodup
      exact absurd rfl ((List.nodup_append.mp hnodup).2.2 w harm w (by simp))

section After

variable (hpre : Chain VisitorLowered pre t u) (hV : VisitorLowered V u u') (hpost : Chain VisitorLowered post u' t')
  (hnamed : ∀ q s, t.HasShadowArm V q s → s.shadowedTy = .named s.shadowedName)
include hpre hV hpost hnamed

/-- None of the arms that the run leaves `V` with is a shadow arm, and the types
that they are for are those there were and those of families. -/
theorem arm_after {arms' : List NodeId} {wildcard' : Option NodeId} (hk' : t'.kind V = .visitor arms' wildcard') {a : NodeId}
    (ha : a ∈ arms') : t'.shadowArm? a = .ok .none ∧
      (arms.findSome? (t.bindsConcrete? p T) = .none → t.familyArms arms (p, T) = [] → t'.bindsConcrete? p T a = .none) := by
  have hl := h.pending.later_run h.formed (hpre.join hV hpost)
  obtain ⟨fs, arms'', made, used, -, hmembers, hkind, rfl, hmade, -⟩ := h.added hk hpre hV hpost hnamed
  rw [hk'] at hkind
  cases hkind
  rcases List.mem_append.mp ha with hkept | hnew
  · obtain ⟨hmem, hread⟩ := List.mem_filter.mp hkept
    obtain ⟨r, hr⟩ := h.reads hk hpre hV a hmem
    rw [Option.isNone_iff_eq_none, readArm?, hr] at hread
    obtain rfl : r = .none := hread
    refine ⟨(hl.shadowArm? h.formed (h.arm_lt hk hmem)).mpr hr, fun hnone _ => ?_⟩
    rw [hl.bindsConcrete? h.formed (h.arm_lt hk hmem)]
    exact List.findSome?_eq_none_iff.mp hnone a hmem
  · obtain ⟨f, hf, j, k, default, rfl, -, -, -, harm, -⟩ := exists_left_of_forall₂ hmade hnew
    have harms := hmembers f (List.mem_of_mem_filter hf)
    have hty := shadowedTy_first hk hnamed harms
    refine ⟨harm.shadowArm? (by rw [hty]; rfl), fun _ hnil => ?_⟩
    rw [harm.bindsConcrete? hty, if_neg]
    intro hkey
    rw [hkey, hnil] at harms
    cases harms

/-- What `V` runs for a type that none of its arms is for depends on its wildcard alone. -/
theorem codeBefore_after {arms' : List NodeId} {wildcard' : Option NodeId} (hk' : t'.kind V = .visitor arms' wildcard')
    (hshadow : t.familyArms arms (p, T) = []) (hnone : arms.findSome? (t.bindsConcrete? p T) = .none) :
    t'.codeBefore V p T d = (t'.wildcardFor? p wildcard').toList := by
  have hafter := fun a ha => h.arm_after (p := p) (T := T) hk hpre hV hpost hnamed hk' (a := a) ha
  refine codeBefore_uncovered hk' (fun a ha => ⟨_, (hafter a ha).1⟩) ?_ ?_
  · refine List.filterMap_eq_nil_iff.mpr fun a ha => ?_
    rw [memberOf?, readArm?, (hafter a ha).1]
    rfl
  · exact List.findSome?_eq_none_iff.mpr fun a ha => (hafter a ha).2 hnone hshadow

end After

end Turn

/-- A value of a type that no arm of the visitor `V` is for, in the phase of its
wildcard, runs the body of the wildcard. After lowering it still does if there is
an arm for the concrete type of each shadow arm of the phase. If there is none for
one of them, the wildcard is gone and the value runs nothing; the body is the
default of the switch in the arm that is made. -/
theorem Tree.lower_wildcard_coverage {t : Tree} (hf : t.Formed) (ho : t.Owned) (hok : t.lower.result = .ok ())
    {V : NodeId} (hV : t.Reachable V) {arms : List NodeId} {wildcard : Option NodeId} (hk : t.kind V = .visitor arms wildcard)
    (hnamed : ∀ p s, t.HasShadowArm V p s → s.shadowedTy = .named s.shadowedName) {p : Phase} {b : NodeId}
    (hw : t.wildcardFor? p wildcard = .some b) {T : String} (hshadow : ∀ s, t.HasShadowArm V p s → s.shadowedName ≠ T)
    (hnone : arms.findSome? (t.bindsConcrete? p T) = .none) :
    (∀ d, t.codeBefore V p T d = [b]) ∧
      ((∀ s, t.HasShadowArm V p s → arms.findSome? (t.bindsConcrete? p s.shadowedName) ≠ .none) →
        (∃ arms', t.lower.tree.kind V = .visitor arms' wildcard) ∧ t.lower.tree.wildcardFor? p wildcard = .some b ∧
          t.lower.tree.stmts? b = t.stmts? b ∧ ∀ d, t.lower.tree.codeBefore V p T d = [b]) ∧
      ∀ s, t.HasShadowArm V p s → arms.findSome? (t.bindsConcrete? p s.shadowedName) = .none →
        ∃ arms', t.lower.tree.kind V = .visitor arms' .none ∧ (∀ d, t.lower.tree.codeBefore V p T d = []) ∧
          ∃ arm ∈ arms', t.IsMadeFor t.lower.tree arms wildcard (p, s.shadowedName) arm := by
  obtain ⟨pre, post, u, u', hturn, hpre, hlowered, hpost⟩ :=
    ho.lowering hf hok hV (isVisitor_iff.mpr ⟨arms, wildcard, hk⟩)
  have hnil := familyArms_eq_nil hk hshadow
  have hread := hturn.reads hk hpre hlowered
  obtain ⟨⟨made, hkind, hmade⟩, -⟩ := hturn.outlined hk hpre hlowered hpost hnamed
  have hafter := fun d => hturn.codeBefore_after (d := d) hk hpre hlowered hpost hnamed hkind hnil hnone
  refine ⟨fun d => by rw [codeBefore_uncovered hk hread hnil hnone, hw]; rfl, fun hcovered => ?_, fun s hs hnew => ?_⟩
  · have hall := hpre.join hlowered hpost
    have hw' : t.lower.tree.wildcardFor? p wildcard = .some b :=
      ((hturn.pending.later_run hf hall).wildcardFor? fun w => hturn.wildcard_lt hk).trans hw
    have hunused : ¬ ((t.newKeys arms).any fun k => (t.wildcardFor? k.1 wildcard).isSome) = true := by
      rw [List.any_eq_true]
      rintro ⟨⟨q, T'⟩, hnew, hsome⟩
      obtain ⟨hkey, hfree⟩ := List.mem_filter.mp hnew
      obtain ⟨b', hb'⟩ := Option.isSome_iff_exists.mp hsome
      obtain rfl := phase_of_wildcardFor? hw hb'
      obtain ⟨s, hs, rfl⟩ := (mem_familyKeys hk hread).mp hkey
      exact hcovered s hs (Option.isNone_iff_eq_none.mp hfree)
    rw [if_neg hunused] at hkind hafter
    exact ⟨⟨_, hkind⟩, hw', hturn.stmts?_wildcard hk hw hall, fun d => by rw [hafter, hw']; rfl⟩
  · have hkey : (p, s.shadowedName) ∈ t.newKeys arms :=
      List.mem_filter.mpr ⟨(mem_familyKeys hk hread).mpr ⟨s, hs, rfl⟩, Option.isNone_iff_eq_none.mpr hnew⟩
    rw [if_pos (List.any_eq_true.mpr ⟨_, hkey, by simp [hw]⟩)] at hkind hafter
    obtain ⟨arm, harm, hmadeFor⟩ := exists_right_of_forall₂ hmade hkey
    exact ⟨_, hkind, hafter, arm, List.mem_append_right _ harm, hmadeFor⟩

namespace Sample

/-- A visitor whose only family has an arm to be merged into. -/
def coveredProgram : Build Unit := do
  modify (·.modifyEnv (Statement.declare · Env.global))
  let first ← arm .before "s" "ExprStmt" (.shadow Statement.exprStmt) fun _ => return []
  let second ← arm .before "t" "Statement" Statement.ty fun _ => return []
  let call ← Build.call "done" [] Env.global
  let stmt ← Build.exprStmt call Env.global
  let body ← Build.block [stmt] Env.global
  let wildcard ← Build.arm .before .none body Env.global
  let visitor ← Build.visitor [first, second] (.some wildcard) Env.global
  attach (← Build.exprStmt visitor Env.global)

def covered : Tree := built coveredProgram

/-- The wildcard of that visitor stays, and expressions still run it. -/
theorem wildcard_stays :
    (covered.Formed ∧ covered.Owned ∧ covered.lower.result = .ok () ∧ covered.Reachable 16 ∧
      covered.kind 16 = .visitor [5, 10] (.some 15) ∧ covered.HasShadowArm 16 .before Statement.exprStmt ∧
      covered.wildcardFor? .before (.some 15) = .some 14 ∧
      (∀ s, covered.HasShadowArm 16 .before s → s.shadowedName ≠ "Expression") ∧
      [5, 10].findSome? (covered.bindsConcrete? .before "Expression") = .none ∧
      ∀ s, covered.HasShadowArm 16 .before s → [5, 10].findSome? (covered.bindsConcrete? .before s.shadowedName) ≠ .none) ∧
    (∃ arms', covered.lower.tree.kind 16 = .visitor arms' (.some 15)) ∧
      ∀ d, covered.lower.tree.codeBefore 16 .before "Expression" d = [14] := by
  have hlinked : covered.Linked := by decide +kernel
  have hlower : covered.lower.result = .ok () := Outcome.ok_of_isOk (by decide +kernel)
  have hreach : covered.Reachable 16 := Tree.reaches_of_mem_postOrder (by decide +kernel)
  have hkind : covered.kind 16 = .visitor [5, 10] (.some 15) := by decide +kernel
  have htable : covered.TableDriven := .of_declared (by decide +kernel) (by decide +kernel)
  have hother : ∀ s ∈ covered.declaredShadows, s.shadowedName ≠ "Expression" := by decide +kernel
  have harm : ∀ s ∈ covered.declaredShadows,
      [5, 10].findSome? (covered.bindsConcrete? .before s.shadowedName) ≠ .none := by decide +kernel
  have hw : covered.wildcardFor? .before (.some 15) = .some 14 := by decide +kernel
  have hnone : [5, 10].findSome? (covered.bindsConcrete? .before "Expression") = .none := by decide +kernel
  obtain ⟨-, hstays, -⟩ := Tree.lower_wildcard_coverage hlinked.formed hlinked.owned hlower hreach hkind
    (fun p s => htable.named 16 p s hreach) hw (fun s hs => hother s hs.mem_declaredShadows) hnone
  obtain ⟨hkind', -, -, hcode⟩ := hstays fun s hs => harm s hs.mem_declaredShadows
  refine ⟨⟨hlinked.formed, hlinked.owned, hlower, hreach, hkind, ?_, hw, fun s hs => hother s hs.mem_declaredShadows,
    hnone, fun s hs => harm s hs.mem_declaredShadows⟩, hkind', hcode⟩
  exact ⟨[5, 10], .some 15, hkind, 5, by simp, 3, 4, 1, 2, by decide +kernel, by decide +kernel, rfl⟩

/-- The sample's wildcard is lost. Expressions ran it after their parts, and after
lowering nothing is left for them to run. -/
theorem wildcard_lost :
    tree.Formed ∧ tree.Owned ∧ tree.TableDriven ∧ tree.lower.result = .ok () ∧ tree.Reachable 31 ∧
      tree.kind 31 = .visitor [10, 15, 25] (.some 30) ∧ tree.wildcardFor? .after (.some 30) = .some 29 ∧
      (∀ s, tree.HasShadowArm 31 .after s → s.shadowedName ≠ "Expression") ∧
      [10, 15, 25].findSome? (tree.bindsConcrete? .after "Expression") = .none ∧
      tree.lower.tree.kind 31 = .visitor [15, 44] .none ∧
      [15, 44].findSome? (tree.lower.tree.bindsConcrete? .after "Expression") = .none := by
  have hother : ∀ s ∈ tree.declaredShadows, s.shadowedName ≠ "Expression" := by decide +kernel
  exact ⟨linked_tree.formed, linked_tree.owned, tableDriven_tree, lower_tree,
    Tree.reaches_of_mem_postOrder (by decide +kernel), by decide +kernel, by decide +kernel,
    fun s hs => hother s hs.mem_declaredShadows, by decide +kernel, by decide +kernel, by decide +kernel⟩

end Sample

end Penumbra
