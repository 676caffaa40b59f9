/-
What a visitor does with a value, before and after lowering.

A visitor with shadow arms treats a value by its concrete type and by its
discriminant (`codeBefore`); a lowered one by its concrete type, and then by
the switch at the end of that arm (`codeAfter`). Lowering keeps the code that
is run for every value (`lower_preserves_dispatch`). The bodies run are the
same nodes, except that a wildcard's body is run as a copy, so what is compared
are the terms that the nodes stand for.
-/
import Penumbra.Erase.Dispatch
import Penumbra.Proofs.Lower.FamilySwitch
import Penumbra.Proofs.Lower.PendingVisitors
import Penumbra.Proofs.Tree.CheckedTrees

namespace Penumbra

/-- The shadow types for the values of the concrete type `T` with
discriminant `d`. -/
def Ty.shadows (T d : String) (ty : Ty) : Bool :=
  ty.shadow?.any fun s => s.shadowedName == T && s.discriminant == d

namespace Tree

/-! ## The code that is run -/

/-- The name and the body of an arm for that phase whose binder was given a
type that passes the test. -/
def armFor? (t : Tree) (phase : Phase) (test : Ty → Bool) (arm : NodeId) : Option (NodeId × NodeId) :=
  match t.kind arm with
  | .arm p (.some c) body =>
    match t.kind c with
    | .component name ascription =>
      if p == phase && (t.declaredTy? c ascription).any test then .some (name, body) else .none
    | _ => .none
  | _ => .none

/-- The body of a wildcard for that phase. -/
def wildcardFor? (t : Tree) (phase : Phase) (wildcard : Option NodeId) : Option NodeId :=
  wildcard.bind fun w =>
    match t.kind w with
    | .arm p _ body => if p = phase then .some body else .none
    | _ => .none

/-- What a visitor runs in a phase for a value of the concrete type `T` with
discriminant `d`: the arm for `T` and then the shadow arm for `d`, each if
there is one, and the wildcard if there is neither. -/
def codeBefore (t : Tree) (V : NodeId) (phase : Phase) (T d : String) : List NodeId :=
  match t.kind V with
  | .visitor arms wildcard =>
    let shadow := (arms.findSome? (t.armFor? phase (Ty.shadows T d))).map (·.2)
    match arms.findSome? (t.armFor? phase (Ty.isNamed T)) with
    | .some (_, body) => (t.stmts? body).getD [] ++ shadow.toList
    | .none => (shadow.or (t.wildcardFor? phase wildcard)).toList
  | _ => []

/-- The variable and the field that an access reads. -/
def fieldRead? (t : Tree) (x : NodeId) : Option (String × String) :=
  match t.kind x with
  | .factor operand [step] =>
    match t.kind step with
    | .selector field => do return (← t.token? operand, ← t.token? field)
    | _ => .none
  | _ => .none

/-- The body of a case with that label. -/
def caseBody? (t : Tree) (label : String) (x : NodeId) : Option NodeId :=
  match t.kind x with
  | .case l body => if t.token? l = .some label then .some body else .none
  | _ => .none

/-- What a switch on `var.field` runs if the value read is `d`, and that
it is such a switch. -/
def select? (t : Tree) (var field d : String) (x : NodeId) : Option (Option NodeId) :=
  match t.kind x with
  | .switch scrutinee cases default =>
    if t.fieldRead? scrutinee = .some (var, field) then
      .some ((cases.findSome? (t.caseBody? d)).or default)
    else .none
  | _ => .none

/-- What a lowered visitor runs in a phase for a value of the concrete type `T`
whose discriminant `field` is `d`: the statements of the arm for `T`, of which
the last is the switch. -/
def codeAfter (t : Tree) (V : NodeId) (phase : Phase) (T field d : String) : Option (List NodeId) :=
  match t.kind V with
  | .visitor arms _ => do
    let (name, body) ← arms.findSome? (t.armFor? phase (Ty.isNamed T))
    let stmts ← t.stmts? body
    let chosen ← t.select? (← t.token? name) field d (← stmts.getLast?)
    return stmts.dropLast ++ chosen.toList
  | _ => .none

/-- A binder of the visitor's arms in that phase was given the shadow type. -/
def HasShadowArm (t : Tree) (V : NodeId) (phase : Phase) (shadow : Shadow Ty) : Prop :=
  ∃ arms wildcard, t.kind V = .visitor arms wildcard ∧ ∃ arm ∈ arms, ∃ c body name ascription,
    t.kind arm = .arm phase (.some c) body ∧ t.kind c = .component name ascription ∧
      t.declaredShadow? c ascription = .some shadow

/-- Shadow types come from a table: their concrete types are tuple types, and
one concrete type has one discriminant. -/
structure TableDriven (t : Tree) : Prop where
  named : ∀ V p s, t.Reachable V → t.HasShadowArm V p s → s.shadowedTy = .named s.shadowedName
  field : ∀ V p s V' p' s', t.Reachable V → t.HasShadowArm V p s → t.Reachable V' → t.HasShadowArm V' p' s' →
    s.shadowedName = s'.shadowedName → s.discriminantField = s'.discriminantField

/-- The shadow types that binders were given. -/
def declaredShadows (t : Tree) : List (Shadow Ty) :=
  (List.range t.size).flatMap fun c =>
    match t.kind c with
    | .component _ ascription => (t.declaredShadow? c ascription).toList
    | _ => []

theorem HasShadowArm.mem_declaredShadows {t : Tree} {V : NodeId} {p : Phase} {shadow : Shadow Ty}
    (h : t.HasShadowArm V p shadow) : shadow ∈ t.declaredShadows := by
  obtain ⟨arms, wildcard, -, arm, -, c, body, name, ascription, -, hkc, hd⟩ := h
  refine List.mem_flatMap.mpr ⟨c, List.mem_range.mpr (lt_size_of_kind hkc (by simp)), ?_⟩
  simp [hkc, hd]

theorem TableDriven.of_declared {t : Tree} (hnamed : ∀ s ∈ t.declaredShadows, s.shadowedTy.isNamed s.shadowedName = true)
    (hfield : ∀ s ∈ t.declaredShadows, ∀ s' ∈ t.declaredShadows, s.shadowedName = s'.shadowedName →
      s.discriminantField = s'.discriminantField) : t.TableDriven where
  named V p s _ hs := by
    have htest := hnamed s hs.mem_declaredShadows
    cases hty : s.shadowedTy with
    | named name =>
      rw [hty, Ty.isNamed, beq_iff_eq] at htest
      rw [htest]
    | _ =>
      rw [hty] at htest
      cases htest
  field V p s V' p' s' _ hs _ hs' := hfield s hs.mem_declaredShadows s' hs'.mem_declaredShadows

/-! ## Reading the code off a tree -/

variable {t : Tree} {f : Family} {p : Phase} {T d : String} {arm : NodeId} {arms : List NodeId} {s : Sorted}

theorem armFor?_isNamed : t.armFor? p (Ty.isNamed T) = t.bindsConcrete? p T := rfl

theorem fieldRead?_switch {binder : String} {default : Option Nat} {n : Nat} (h : SwitchAt f binder default n t) :
    t.fieldRead? (n + 3) = .some (binder, f.first.shadow.discriminantField) := by
  unfold fieldRead?
  simp [h.scrutinee, h.step, token?, h.var, h.field, Kind.token?]

/-- A switch runs the body of the first arm with that discriminant. -/
theorem select?_switch {binder : String} {default : Option Nat} {n : Nat} (h : SwitchAt f binder default n t) :
    t.select? binder f.first.shadow.discriminantField d (n + 4 + 2 * f.arms.length) =
      .some (((f.arms.find? (·.shadow.discriminant == d)).map (·.body)).or default) := by
  have hread := fieldRead?_switch h
  have hcases : ∀ (as : List ShadowArm) (i : Nat),
      (∀ j a, as[j]? = .some a → t.kind (i + 2 * j) = .ident a.shadow.discriminant ∧
        t.kind (i + 2 * j + 1) = .case (i + 2 * j) a.body) →
      (pairIds i as.length).findSome? (t.caseBody? d) =
        (as.find? (·.shadow.discriminant == d)).map (·.body) := by
    intro as
    induction as with
    | nil => exact fun _ _ => rfl
    | cons a as ih =>
      intro i hi
      obtain ⟨hlabel, hcase⟩ := hi 0 a rfl
      have hrest := ih (i + 2) fun j b hb => by
        have hb' := hi (j + 1) b (by simpa using hb)
        rwa [show i + 2 * (j + 1) = i + 2 + 2 * j by omega] at hb'
      have hbody : t.caseBody? d (i + 1) = if a.shadow.discriminant = d then .some a.body else .none := by
        have hcase' : t.kind (i + 1) = .case i a.body := hcase
        have hlabel' : t.kind i = .ident a.shadow.discriminant := hlabel
        unfold caseBody?
        simp [hcase', token?, hlabel', Kind.token?]
      rw [List.length_cons, pairIds_succ, List.findSome?_cons, hbody, hrest]
      by_cases hd : a.shadow.discriminant = d
      · rw [if_pos hd, List.find?_cons_of_pos (by simpa using hd)]
        rfl
      · rw [if_neg hd, List.find?_cons_of_neg (by simpa using hd)]
  unfold select?
  simp only [h.switch, hread, if_true]
  rw [hcases f.arms (n + 4) fun j a ha => ⟨h.label j a ha, h.case j a ha⟩]

/-- The code of a visitor whose family has been merged. -/
theorem codeAfter_eq {V name body : Nat} {init : List NodeId} {default wildcard : Option Nat}
    (hV : t.kind V = .visitor arms wildcard) (h : Resolved f arms name body init default t) :
    t.codeAfter V f.phase f.shadowedName f.first.shadow.discriminantField d =
      .some (init ++ (((f.arms.find? (·.shadow.discriminant == d)).map (·.body)).or default).toList) := by
  obtain ⟨binder, n, hname, hstmts, hswitch⟩ := h.switch
  unfold codeAfter
  simp [hV, armFor?_isNamed, h.found, hstmts, token?, hname, Kind.token?, select?_switch hswitch]

/-- The arms that a shadow type keeps from binding the concrete type can be
left out of the search for it. -/
theorem Sorts.findSome?_kept (h : t.Sorts arms s) :
    s.kept.findSome? (t.bindsConcrete? p T) = arms.findSome? (t.bindsConcrete? p T) := by
  have hshadow : ∀ a, (t.readArm? a).isNone = false → t.bindsConcrete? p T a = .none := by
    intro a hread
    by_contra hb
    obtain ⟨⟨name, body⟩, hb⟩ := Option.ne_none_iff_exists'.mp hb
    obtain ⟨c, ascription, hk, hkc, hty⟩ := bindsConcrete?_eq_some.mp hb
    have hok : t.shadowArm? a = .ok .none :=
      shadowArm?_ok.mpr ⟨p, c, _, _, ascription, hk, hkc, .inl ⟨by rw [declaredShadow?, hty]; rfl, rfl⟩⟩
    rw [readArm?, hok] at hread
    cases hread
  rw [h.kept]
  clear h
  induction arms with
  | nil => rfl
  | cons a arms ih =>
    cases hread : (t.readArm? a).isNone with
    | true => rw [List.filter_cons, hread, if_pos rfl, List.findSome?_cons, List.findSome?_cons, ih]
    | false => rw [List.filter_cons, hread, if_neg Bool.false_ne_true, List.findSome?_cons, hshadow a hread, ih]

theorem armFor?_shadows (hread : ∃ r, t.shadowArm? arm = .ok r) :
    (t.armFor? p (Ty.shadows T d) arm).map (·.2) =
      (t.memberOf? (p, T) arm).bind fun a => if a.shadow.discriminant = d then .some a.body else .none := by
  obtain ⟨r, hr⟩ := hread
  have hreadArm : t.readArm? arm = r := by rw [readArm?, hr]; rfl
  obtain ⟨q, c, body, name, ascription, hk, hkc, ⟨hnone, rfl⟩ | ⟨shadow, binder, hsome, -, rfl⟩⟩ := shadowArm?_ok.mp hr
  · have htest : (t.declaredTy? c ascription).any (Ty.shadows T d) = false := by
      rw [declaredShadow?] at hnone
      cases hty : t.declaredTy? c ascription with
      | none => rfl
      | some ty =>
        rw [hty, Option.bind_some] at hnone
        simp [Ty.shadows, hnone]
    unfold armFor? memberOf?
    simp [hk, hkc, htest, hreadArm]
  · have htest : (t.declaredTy? c ascription).any (Ty.shadows T d) =
        (shadow.shadowedName == T && shadow.discriminant == d) := by
      rw [declaredShadow?] at hsome
      obtain ⟨ty, hty, hshadow⟩ := Option.bind_eq_some_iff.mp hsome
      simp [hty, Ty.shadows, hshadow]
    unfold armFor? memberOf?
    simp only [hk, hkc, htest, hreadArm]
    by_cases hq : q = p <;> by_cases hT : shadow.shadowedName = T <;> by_cases hd : shadow.discriminant = d <;>
      simp [hq, hT, hd]

/-- The arm that a shadow type of the discriminant leads to is the first of
its family with that discriminant. -/
theorem findSome?_shadows (hread : ∀ a ∈ arms, ∃ r, t.shadowArm? a = .ok r) :
    (arms.findSome? (t.armFor? p (Ty.shadows T d))).map (·.2) =
      ((arms.filterMap (t.memberOf? (p, T))).find? (·.shadow.discriminant == d)).map (·.body) := by
  induction arms with
  | nil => rfl
  | cons a arms ih =>
    have hrest := ih fun b hb => hread b (by simp [hb])
    have ha := armFor?_shadows (p := p) (T := T) (d := d) (hread a (by simp))
    rw [List.findSome?_cons, List.filterMap_cons]
    cases hm : t.memberOf? (p, T) a with
    | none =>
      rw [hm, Option.bind_none, Option.map_eq_none_iff] at ha
      rw [ha]
      exact hrest
    | some b =>
      rw [hm, Option.bind_some] at ha
      by_cases hd : b.shadow.discriminant = d
      · rw [if_pos hd] at ha
        obtain ⟨nb, hnb, hb⟩ := Option.map_eq_some_iff.mp ha
        rw [hnb]
        simp only
        rw [List.find?_cons_of_pos (by simpa using hd), Option.map_some, Option.map_some, hb]
      · rw [if_neg hd, Option.map_eq_none_iff] at ha
        rw [ha]
        simp only
        rw [List.find?_cons_of_neg (by simpa using hd)]
        exact hrest

theorem wildcardFor_eq {wildcard : Option NodeId} {w : Option (Phase × NodeId)} (h : t.wildcardArm? wildcard = .ok w) :
    wildcardFor p w = t.wildcardFor? p wildcard := by
  cases wildcard with
  | none =>
    cases h
    rfl
  | some x =>
    unfold wildcardArm? at h
    simp only at h
    split at h
    next q binder b hk =>
      cases h
      simp [wildcardFor, wildcardFor?, hk]
    next => cases h

end Tree

open Tree

section Lowered

variable {u u' : Tree} {V : Nat} {arms : List NodeId} {wildcard : Option NodeId} {p : Phase} {T : String} {Z : Set Nat}

/-- What is kept of an arm when its visitor gets other arms: its visitor is
not its body. -/
theorem Resolved.withArms {f : Family} {arms' init : List NodeId} {name body : Nat} {default wildcard' : Option Nat}
    (h : Resolved f arms' name body init default u) (hf : u.Formed) (hV : u.isVisitor V = true)
    (harms : ∀ a ∈ (arms' : List Nat), a < u.size) :
    Resolved f arms' name body init default (u.withArms V arms' wildcard') := by
  have hl : u.Later (u.withArms V arms' wildcard') := .of_env (.withArms u V arms' wildcard' hV) (by simp)
  refine h.mono hl.grows ?_ ?_
  · rw [← h.found]
    exact findSome?_congr fun a ha => hl.bindsConcrete? hf (harms a ha) f.phase f.shadowedName
  · rw [kind_withArms, if_neg]
    rintro ⟨rfl, -⟩
    obtain ⟨as, w, hk⟩ := isVisitor_iff.mp hV
    obtain ⟨binder, n, -, hstmts, -⟩ := h.switch
    rw [Tree.stmts?, hk] at hstmts
    cases hstmts

theorem VisitorLowered.reads (h : VisitorLowered V u u') (hV : u.kind V = .visitor arms wildcard) :
    ∀ a ∈ arms, ∃ r, u.shadowArm? a = .ok r := by
  cases h with
  | other hnot =>
    rw [isVisitor_iff.mpr ⟨arms, wildcard, hV⟩] at hnot
    cases hnot
  | plain kind sorted | merged kind sorted =>
    rw [hV] at kind
    cases kind
    exact (sorts sorted).read

/-- The families of a visitor whose arms have different bodies can be merged. -/
theorem Tree.Sorts.ready {s : Sorted} {w : Option (Phase × NodeId)} (hs : u.Sorts arms s) (hf : u.Formed)
    (hV : u.kind V = .visitor arms wildcard) (wild : u.wildcardArm? wildcard = .ok w)
    (hnamed : ∀ arm ∈ arms, ∀ q a, u.shadowArm? arm = .ok (.some (q, a)) →
      a.shadow.shadowedTy = .named a.shadow.shadowedName)
    (hdistinct : ∀ a ∈ arms, ∀ a' ∈ arms, ∀ p c q c' b, u.kind a = .arm p (.some c) b →
      u.kind a' = .arm q (.some c') b → a = a') :
    Ready (u.scope V) w s.families { arms := s.kept } u := by
  have hlt := lt_size_of_kind hV (by simp)
  refine ⟨hf, hf.scope V hlt, VisitorLowered.bodies_mem hf.closed (hf.child V hlt) hV hs,
    VisitorLowered.wildcard_mem hf.closed (hf.child V hlt) hV wild, fun g hg => ?_,
    fun a ha => shadowArm?_lt (hs.mem_kept ha).2, fun a ha a' ha' => ?_⟩
  · obtain ⟨arm, harm, hr, hname⟩ := hs.mem_family hg (List.mem_cons_self : g.first ∈ g.arms)
    rw [hnamed arm harm _ _ hr, hname]
  · exact hdistinct a (hs.mem_kept ha).1 a' (hs.mem_kept ha').1

/-- Lowering a visitor with a shadow arm for the phase and the concrete type. -/
theorem VisitorLowered.resolved (h : VisitorLowered V u u') (hf : u.Formed) (hV : u.kind V = .visitor arms wildcard)
    (hshadow : arms.filterMap (u.memberOf? (p, T)) ≠ [])
    (hnamed : ∀ arm ∈ arms, ∀ q a, u.shadowArm? arm = .ok (.some (q, a)) →
      a.shadow.shadowedTy = .named a.shadow.shadowedName)
    (hdistinct : ∀ a ∈ arms, ∀ a' ∈ arms, ∀ p c q c' b, u.kind a = .arm p (.some c) b →
      u.kind a' = .arm q (.some c') b → a = a')
    (hZ : u.Closed Z) (hVZ : V ∉ Z) (hbZ : ∀ b, u.BodyOf V b → b ∉ Z) (hwZ : ∀ b ∈ u.wildcardFor? p wildcard, b ∈ Z) :
    ∃ f arms' wildcard', u'.kind V = .visitor arms' wildcard' ∧ f.key = (p, T) ∧
      f.arms = arms.filterMap (u.memberOf? (p, T)) ∧
      ((∃ name body init, arms.findSome? (u.bindsConcrete? p T) = .some (name, body) ∧ u.stmts? body = .some init ∧
          Resolved f arms' name body init .none u') ∨
        (arms.findSome? (u.bindsConcrete? p T) = .none ∧ ∃ name body default,
          Resolved f arms' name body [] default u' ∧ u.size ≤ body ∧
          Copied Z (u.wildcardFor? p wildcard) default u.size u')) := by
  have hlt := lt_size_of_kind hV (by simp)
  have hvisitor : u.isVisitor V = true := isVisitor_iff.mpr ⟨arms, wildcard, hV⟩
  cases h with
  | other hnot =>
    rw [hvisitor] at hnot
    cases hnot
  | @plain arms₀ wildcard₀ s kind sorted none =>
    obtain ⟨rfl, rfl⟩ : arms = arms₀ ∧ wildcard = wildcard₀ := by simpa using hV.symm.trans kind
    refine absurd ?_ hshadow
    rw [← (sorts sorted).members, none]
    rfl
  | @merged arms₀ wildcard₀ s w m v kind sorted some wild families =>
    obtain ⟨rfl, rfl⟩ : arms = arms₀ ∧ wildcard = wildcard₀ := by simpa using hV.symm.trans kind
    have hs := sorts sorted
    rw [← hs.members] at hshadow
    obtain ⟨f, hmem, hkey⟩ := Family.exists_of_armsFor hshadow
    obtain ⟨rfl, rfl⟩ : f.phase = p ∧ f.shadowedName = T := by simpa [Family.key] using hkey
    obtain ⟨fs, fs', hsplit⟩ := List.append_of_mem hmem
    have hkeys : ∀ g ∈ fs ++ fs', g.key ≠ f.key := by
      have hnodup := hs.distinct
      rw [hsplit, List.map_append, List.map_cons, List.nodup_middle, List.nodup_cons, ← List.map_append] at hnodup
      exact fun g hg he => hnodup.1 (he ▸ List.mem_map_of_mem hg)
    have hready := hs.ready hf hV wild hnamed hdistinct
    rw [hsplit] at hready
    have hwild := wildcardFor_eq (p := f.phase) wild
    rw [hsplit] at families
    have hrun : Ready (u.scope V) w [] m v ∧ u.Later v := Ready.run (by simpa using hready) families
    obtain ⟨hready', hl⟩ := hrun
    have hvisitor' : v.isVisitor V = true := (hl.grows.isVisitor hlt).trans hvisitor
    have hg := Grows.withArms v V m.arms (if m.usedWildcard then .none else wildcard) hvisitor'
    refine ⟨f, m.arms, if m.usedWildcard then .none else wildcard, ?_, hkey, hs.arms_eq hmem, ?_⟩
    · rw [kind_withArms, if_pos ⟨rfl, hlt.trans_le hl.grows.size_le⟩]
    cases hfound : arms.findSome? (u.bindsConcrete? f.phase f.shadowedName) with
    | some nb =>
      obtain ⟨name, body⟩ := nb
      obtain ⟨init, hinit, hres⟩ := hready.merged_existing families hkeys (hs.findSome?_kept.trans hfound)
      exact .inl ⟨name, body, init, rfl, hinit, hres.withArms hready'.formed hvisitor' hready'.arm⟩
    | none =>
      obtain ⟨name, body, default, hres, hbody, hcopied⟩ := hready.merged_made families hkeys
        (hs.findSome?_kept.trans hfound) hZ (hwild ▸ hwZ) fun x hx arm harm q c hk => by
          by_contra hstmts
          exact hbZ x ⟨hstmts, arms, wildcard, arm, q, c, hV, (hs.mem_kept harm).1, hk⟩ hx
      refine .inr ⟨rfl, name, body, default, hres.withArms hready'.formed hvisitor' hready'.arm, hbody, ?_⟩
      rw [← hwild]
      refine hcopied.mono hg (fun y hy => ?_) fun y hy _ => ?_
      · rw [kind_withArms, if_neg]
        rintro ⟨rfl, -⟩
        exact hVZ hy
      · rw [kind_withArms, if_neg]
        rintro ⟨rfl, -⟩
        omega

end Lowered

/-! ## Through a run -/

namespace Tree

variable {t u : Tree} {V arm : Nat} {p : Phase} {shadow : Shadow Ty} {a : ShadowArm} {arms : List NodeId}
  {wildcard : Option NodeId}

theorem HasShadowArm.of_read (hV : t.kind V = .visitor arms wildcard) (harm : arm ∈ arms)
    (hr : t.shadowArm? arm = .ok (.some (p, a))) : t.HasShadowArm V p a.shadow := by
  obtain ⟨q, c, body, name, ascription, hk, hkc, ⟨-, hnone⟩ | ⟨shadow, binder, hd, -, hsome⟩⟩ := shadowArm?_ok.mp hr
  · cases hnone
  · cases hsome
    exact ⟨arms, wildcard, hV, arm, harm, c, body, name, ascription, hk, hkc, hd⟩

theorem HasShadowArm.mem (h : t.HasShadowArm V p shadow) (hV : t.kind V = .visitor arms wildcard)
    (hread : ∀ a ∈ arms, ∃ r, t.shadowArm? a = .ok r) :
    ∃ arm ∈ arms, ∃ a, t.shadowArm? arm = .ok (.some (p, a)) ∧ a.shadow = shadow := by
  obtain ⟨arms', wildcard', hV', arm, harm, c, body, name, ascription, hk, hkc, hd⟩ := h
  rw [hV] at hV'
  cases hV'
  obtain ⟨r, hr⟩ := hread arm harm
  obtain ⟨q, c', body', name', ascription', hk', hkc', hcase⟩ := shadowArm?_ok.mp hr
  rw [hk] at hk'
  cases hk'
  rw [hkc] at hkc'
  cases hkc'
  rcases hcase with ⟨hnone, -⟩ | ⟨shadow', binder, hd', -, rfl⟩
  · rw [hd] at hnone
    cases hnone
  · rw [hd] at hd'
    cases hd'
    exact ⟨arm, harm, _, hr, rfl⟩

theorem Later.memberOf? (h : t.Later u) (hf : t.Formed) (harm : arm < t.size) (k : Phase × String) :
    u.memberOf? k arm = t.memberOf? k arm := by
  refine Option.ext fun a => ?_
  rw [memberOf?_eq_some, memberOf?_eq_some]
  exact exists_congr fun q => and_congr_left fun _ => h.shadowArm? hf harm

theorem wildcardFor?_eq_some {b : NodeId} :
    t.wildcardFor? p wildcard = .some b ↔ ∃ w ∈ wildcard, ∃ c, t.kind w = .arm p c b := by
  unfold wildcardFor?
  cases wildcard with
  | none => simp
  | some w =>
    simp only [Option.bind_some, Option.mem_def, Option.some.injEq, exists_eq_left']
    split
    next q c b' hk => simp [hk, eq_comm]
    next hk => exact ⟨fun h => absurd h (by simp), fun ⟨c, hc⟩ => absurd hc (hk p c b)⟩

theorem Later.wildcardFor? (h : t.Later u) (hw : ∀ w ∈ (wildcard : Option Nat), w < t.size) :
    u.wildcardFor? p wildcard = t.wildcardFor? p wildcard := by
  refine Option.ext fun b => ?_
  rw [wildcardFor?_eq_some, wildcardFor?_eq_some]
  refine exists_congr fun w => and_congr_right fun hmem => exists_congr fun c => ?_
  exact h.grows.kind_iff (hw w hmem) rfl (by simp)

end Tree

namespace Turn

variable {t u u' t' : Tree} {pre post arms : List Nat} {V : Nat} {wildcard : Option Nat} {p : Phase} {T : String}
  (h : Turn t pre V post) (hk : t.kind V = .visitor arms wildcard)
include h hk

theorem arm_lt {a : Nat} (ha : a ∈ arms) : a < t.size :=
  h.formed.child V (h.formed.bounded h.reachable) a (arm_mem_children hk ha)

theorem wildcard_lt {w : Nat} (hw : w ∈ wildcard) : w < t.size := by
  obtain rfl := Option.mem_def.mp hw
  exact h.formed.child V (h.formed.bounded h.reachable) w (wildcard_mem_children hk)

/-- The body of an arm has the statements it had at first when the run comes to
its visitor. -/
theorem stmts?_body (hpre : Chain VisitorLowered pre t u) {arm q c body} {init : List NodeId} (harm : arm ∈ arms)
    (hka : t.kind arm = .arm q (.some c) body) (hstmts : u.stmts? body = .some init) :
    t.BodyOf V body ∧ t.stmts? body = .some init := by
  have hpend := h.pending.run h.formed hpre
  have hlt := h.formed.child arm (h.arm_lt hk harm) body (body_mem_children hka)
  have hbody : t.BodyOf V body := by
    refine ⟨fun hnone => ?_, arms, wildcard, arm, q, c, hk, harm, hka⟩
    rw [Tree.stmts?, (hpend.later.grows.kind body hlt).stmts?_eq_none.mpr hnone] at hstmts
    cases hstmts
  refine ⟨hbody, ?_⟩
  have hkind := h.pending_pre.kind_eq h.formed hpre hlt fun W hW => h.body_free hbody W (by simp [hW])
  rw [← hstmts, Tree.stmts?, Tree.stmts?, hkind]

/-- A set of nodes around what is below the wildcard for the phase, as long as
there is one. -/
theorem wildcard_set (hpre : Chain VisitorLowered pre t u) :
    ∃ Z, u.Closed Z ∧ (∀ b ∈ t.wildcardFor? p wildcard, b ∈ Z) ∧ V ∉ Z ∧ (∀ x, u.BodyOf V x → x ∉ Z) ∧
      ∀ x ∈ Z, ∀ W ∈ post, x ≠ W ∧ ¬ t.BodyOf W x := by
  cases hb : t.wildcardFor? p wildcard with
  | none => exact ⟨∅, ⟨by simp, by simp⟩, by simp, by simp, by simp, by simp⟩
  | some b =>
    obtain ⟨w, hw, c, hkw⟩ := wildcardFor?_eq_some.mp hb
    obtain rfl := Option.mem_def.mp hw
    obtain ⟨Z, hZ, hbZ, hV, hbody, hpost⟩ := h.wildcard_closed hpre hk hkw
    exact ⟨Z, hZ, by simpa using hbZ, hV, hbody, hpost⟩

theorem reads (hpre : Chain VisitorLowered pre t u) (hV : VisitorLowered V u u') :
    ∀ a ∈ arms, ∃ r, t.shadowArm? a = .ok r := by
  intro a ha
  have hpend := h.pending.run h.formed hpre
  obtain ⟨r, hr⟩ := hV.reads ((hpend.kind V (by simp)).trans hk) a ha
  exact ⟨r, (hpend.later.shadowArm? h.formed (h.arm_lt hk ha)).mp hr⟩

theorem named (hpre : Chain VisitorLowered pre t u)
    (hnamed : ∀ q s, t.HasShadowArm V q s → s.shadowedTy = .named s.shadowedName) :
    ∀ a ∈ arms, ∀ q b, u.shadowArm? a = .ok (.some (q, b)) → b.shadow.shadowedTy = .named b.shadow.shadowedName := by
  intro a ha q b hr
  have hl := (h.pending.run h.formed hpre).later
  exact hnamed q b.shadow (.of_read hk ha ((hl.shadowArm? h.formed (h.arm_lt hk ha)).mp hr))

theorem distinct (hpre : Chain VisitorLowered pre t u) :
    ∀ a ∈ arms, ∀ a' ∈ arms, ∀ q c q' c' b, u.kind a = .arm q (.some c) b → u.kind a' = .arm q' (.some c') b → a = a' := by
  intro a ha a' ha' q c q' c' b hka hka'
  have hl := (h.pending.run h.formed hpre).later
  rw [hl.grows.kind_iff (h.arm_lt hk ha) rfl (by simp)] at hka
  rw [hl.grows.kind_iff (h.arm_lt hk ha') rfl (by simp)] at hka'
  exact (h.owned.arm_eq h.reachable h.reachable (arm_mem_children hk ha) (arm_mem_children hk ha')
    (body_mem_children hka) (body_mem_children hka')).1

omit hk in
theorem kind_after (hpend : Pending t u' post) (hpost : Chain VisitorLowered post u' t') (hV : V < u'.size) :
    t'.kind V = u'.kind V := by
  refine hpend.kind_eq h.formed hpost hV fun W hW => ⟨?_, Pending.not_bodyOf (h.visitor V (by simp)).2⟩
  rintro rfl
  exact (List.nodup_cons.mp (List.nodup_append.mp h.nodup).2.1).1 hW

theorem resolved (hpre : Chain VisitorLowered pre t u) (hV : VisitorLowered V u u')
    (hpost : Chain VisitorLowered post u' t') (hnamed : ∀ q s, t.HasShadowArm V q s → s.shadowedTy = .named s.shadowedName)
    (hmem : arms.filterMap (t.memberOf? (p, T)) ≠ []) :
    ∃ f arms' wildcard' name body init default, t'.kind V = .visitor arms' wildcard' ∧ f.key = (p, T) ∧
      f.arms = arms.filterMap (t.memberOf? (p, T)) ∧ Resolved f arms' name body init default t' ∧
      (arms.findSome? (t.bindsConcrete? p T) = .some (name, body) ∧ t.stmts? body = .some init ∧ default = .none ∨
        arms.findSome? (t.bindsConcrete? p T) = .none ∧ init = [] ∧
          ∀ depth, default.map (t'.unfold depth) = (t.wildcardFor? p wildcard).map (t'.unfold depth)) := by
  have hpend := h.pending.run h.formed hpre
  have hl := hpend.later
  have hku := (hpend.kind V (by simp)).trans hk
  have hpend' := hpend.next h.formed hV
  have hl' := hpend'.later_run h.formed hpost
  have hmembers : arms.filterMap (u.memberOf? (p, T)) = arms.filterMap (t.memberOf? (p, T)) :=
    List.filterMap_congr fun a ha => hl.memberOf? h.formed (h.arm_lt hk ha) (p, T)
  have hfound : arms.findSome? (u.bindsConcrete? p T) = arms.findSome? (t.bindsConcrete? p T) :=
    findSome?_congr fun a ha => hl.bindsConcrete? h.formed (h.arm_lt hk ha) p T
  have hwild : u.wildcardFor? p wildcard = t.wildcardFor? p wildcard := hl.wildcardFor? fun w => h.wildcard_lt hk
  obtain ⟨Z, hZ, hwZ, hVZ, hbZ, hpostZ⟩ := h.wildcard_set (p := p) hk hpre
  obtain ⟨f, arms', wildcard', hk', hkey, hfarms, hcase⟩ := hV.resolved hpend.formed hku (hmembers ▸ hmem)
    (h.named hk hpre hnamed) (h.distinct hk hpre) hZ hVZ hbZ (hwild ▸ hwZ)
  have hkt' := (h.kind_after hpend' hpost (lt_size_of_kind hk' (by simp))).trans hk'
  have hkeep : ∀ {name body init default}, Resolved f arms' name body init default u' → t'.kind body = u'.kind body →
      Resolved f arms' name body init default t' := by
    intro name body init default hres hbody
    refine hres.mono hl'.grows ?_ hbody
    rw [← hres.found]
    exact findSome?_congr fun a ha => hl'.bindsConcrete? hpend'.formed
      (hpend'.formed.child V (lt_size_of_kind hk' (by simp)) a (arm_mem_children hk' ha)) f.phase f.shadowedName
  rw [hmembers] at hfarms
  rw [hfound] at hcase
  rcases hcase with ⟨name, body, init, hnb, hinit, hres⟩ | ⟨hnone, name, body, default, hres, hbody, hcopied⟩
  · obtain ⟨arm, harm, hb⟩ := List.exists_of_findSome?_eq_some hnb
    obtain ⟨c, ascription, hka, -⟩ := bindsConcrete?_eq_some.mp hb
    obtain ⟨hbodyOf, hstmts⟩ := h.stmts?_body hk hpre harm hka hinit
    have hlt : body < u'.size :=
      (Pending.bodyOf_lt h.formed hbodyOf).trans_le hpend'.later.grows.size_le
    exact ⟨f, arms', wildcard', name, body, init, .none, hkt', hkey, hfarms,
      hkeep hres (hpend'.kind_eq h.formed hpost hlt fun W hW => h.body_free hbodyOf W (by simp [hW])),
      .inl ⟨hnb, hstmts, rfl⟩⟩
  · have hle := hl.grows.size_le
    have hlt : body < u'.size := by
      obtain ⟨binder, n, -, hstmts, -⟩ := hres.switch
      exact lt_size_of_stmts? hstmts
    refine ⟨f, arms', wildcard', name, body, [], default, hkt', hkey, hfarms,
      hkeep hres (hpend'.kind_new h.formed hpost hlt (hle.trans hbody)), .inr ⟨hnone, rfl, fun depth => ?_⟩⟩
    rw [← hwild]
    refine (hcopied.mono hl'.grows (fun y hy => ?_) fun y hy hylt => ?_).unfold_eq depth
    · refine hpend'.kind_eq h.formed hpost ?_ (hpostZ y hy)
      exact (hZ.bounded y hy).trans_le (hV.later_formed hpend.formed).1.grows.size_le
    · exact hpend'.kind_new h.formed hpost hylt (hle.trans hy)

end Turn

/-- A value of a concrete type that the visitor `V` has a shadow arm for runs the
same code before and after lowering, whatever its discriminant. Nodes that are
run before and after are compared in the lowered tree. -/
theorem Tree.lower_preserves_dispatch {t : Tree} (hf : t.Formed) (ho : t.Owned) (htable : t.TableDriven)
    (hok : t.lower.result = .ok ()) {V : NodeId} (hV : t.Reachable V) {p : Phase} {shadow : Shadow Ty}
    (hs : t.HasShadowArm V p shadow) (d : String) :
    ∃ code, t.lower.tree.codeAfter V p shadow.shadowedName shadow.discriminantField d = .some code ∧
      ∀ depth, code.map (t.lower.tree.unfold depth) =
        (t.codeBefore V p shadow.shadowedName d).map (t.lower.tree.unfold depth) := by
  obtain ⟨arms, wildcard, hk, -⟩ := id hs
  obtain ⟨pre, post, hsplit, hturn⟩ := ho.turn hf hV (isVisitor_iff.mpr ⟨arms, wildcard, hk⟩)
  have hchain := Pass.leads_lower.mp (Pass.outcome_ok.mp hok)
  rw [hsplit] at hchain
  obtain ⟨u, u', hpre, hlowered, hpost⟩ := hchain.split
  have hpend := hturn.pending.run hf hpre
  have hread : ∀ a ∈ arms, ∃ r, t.shadowArm? a = .ok r := fun a ha => by
    obtain ⟨r, hr⟩ := hlowered.reads ((hpend.kind V (by simp)).trans hk) a ha
    exact ⟨r, (hpend.later.shadowArm? hf (hturn.arm_lt hk ha)).mp hr⟩
  obtain ⟨arm, harm, a, hr, rfl⟩ := hs.mem hk hread
  have hmem : arms.filterMap (t.memberOf? (p, a.shadow.shadowedName)) ≠ [] :=
    List.ne_nil_of_mem (List.mem_filterMap.mpr ⟨arm, harm, memberOf?_eq_some.mpr ⟨p, hr, rfl⟩⟩)
  obtain ⟨f, arms', wildcard', name, body, init, default, hk', hkey, hfarms, hres, hcase⟩ :=
    hturn.resolved hk hpre hlowered hpost (fun q s => htable.named V q s hV) hmem
  obtain ⟨rfl, hname⟩ : f.phase = p ∧ f.shadowedName = a.shadow.shadowedName := by simpa [Family.key] using hkey
  -- the switch reads the field of the first arm of the family, which is that of all its arms
  have hfield : f.first.shadow.discriminantField = a.shadow.discriminantField := by
    have hfirst : f.first ∈ arms.filterMap (t.memberOf? (f.phase, a.shadow.shadowedName)) :=
      hfarms ▸ List.mem_cons_self
    obtain ⟨arm', harm', hmember⟩ := List.mem_filterMap.mp hfirst
    obtain ⟨q, hr', hq⟩ := memberOf?_eq_some.mp hmember
    exact htable.field V q _ V f.phase _ hV (.of_read hk harm' hr') hV hs (Prod.mk.inj hq).2
  have hafter := codeAfter_eq (d := d) hk' hres
  rw [hfarms, ← findSome?_shadows hread, hname, hfield] at hafter
  refine ⟨_, hafter, fun depth => ?_⟩
  unfold codeBefore
  simp only [hk, armFor?_isNamed]
  rcases hcase with ⟨hfound, hstmts, rfl⟩ | ⟨hnone, rfl, hdefault⟩
  · simp only [hfound, hstmts, Option.getD_some, Option.or_none]
  · simp only [hnone, List.nil_append]
    cases (arms.findSome? (t.armFor? f.phase (Ty.shadows a.shadow.shadowedName d))).map (·.2) with
    | some b => rfl
    | none =>
      rw [Option.none_or, Option.none_or, ← Option.toList_map, ← Option.toList_map]
      exact congrArg Option.toList (hdefault depth)

namespace Sample

theorem tableDriven_tree : tree.TableDriven := .of_declared (by decide +kernel) (by decide +kernel)

/-- For statements that are no return statements the sample runs a copy of the
wildcard. -/
theorem dispatch_after :
    tree.Formed ∧ tree.Owned ∧ tree.TableDriven ∧ tree.lower.result = .ok () ∧ tree.Reachable 31 ∧
      tree.HasShadowArm 31 .after Statement.returnStatement ∧
      ∃ code, tree.lower.tree.codeAfter 31 .after "Statement" "kind" "EXPR" = .some code ∧
        ∀ depth, code.map (tree.lower.tree.unfold depth) =
          (tree.codeBefore 31 .after "Statement" "EXPR").map (tree.lower.tree.unfold depth) := by
  have hlower : tree.lower.result = .ok () := Outcome.ok_of_isOk (by decide +kernel)
  have hreach : tree.Reachable 31 := Tree.reaches_of_mem_postOrder (by decide +kernel)
  have harm : tree.HasShadowArm 31 .after Statement.returnStatement :=
    ⟨[10, 15, 25], .some 30, by decide +kernel, 25, by simp, 18, 24, 16, 17, by decide +kernel, by decide +kernel, rfl⟩
  exact ⟨linked_tree.formed, linked_tree.owned, tableDriven_tree, hlower, hreach, harm,
    Tree.lower_preserves_dispatch linked_tree.formed linked_tree.owned tableDriven_tree hlower hreach harm "EXPR"⟩

end Sample

end Penumbra
