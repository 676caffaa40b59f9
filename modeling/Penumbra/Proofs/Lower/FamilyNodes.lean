/-
The nodes that merging a family adds.

An arm made for a family is five nodes and a scope, the switch of a family
four nodes for its scrutinee, two for each arm, and itself. The builders add
exactly these (`run_makeArm`, `run_makeSwitch`). The switch takes over the
bodies of the family's arms and the default; where none of them is named
twice, all links between the new nodes and to those taken over are right.
-/
import Penumbra.Erase.Dispatch
import Penumbra.Proofs.Tree.Extension

namespace Penumbra

open Tree

/-- The indices of the second of each of `k` pairs of nodes, of which the first
comes at index `n`. -/
def pairIds (n k : Nat) : List Nat := (List.range k).map (n + 1 + 2 * ·)

theorem pairIds_succ (n k : Nat) : pairIds n (k + 1) = (n + 1) :: pairIds (n + 2) k := by
  simp only [pairIds, List.range_succ_eq_map, List.map_cons, List.map_map]
  refine congrArg₂ List.cons rfl (List.map_congr_left fun i _ => ?_)
  simp only [Function.comp_apply]
  omega

theorem mem_pairIds {n k c : Nat} : c ∈ pairIds n k ↔ ∃ j < k, c = n + 1 + 2 * j := by
  simp only [pairIds, List.mem_map, List.mem_range, eq_comm]

theorem nodup_pairIds (n k : Nat) : (pairIds n k).Nodup :=
  List.nodup_range.map fun i j h => by omega

namespace Family

variable (f : Family) (vs s : ScopeId) (n : Nat) (binder : String) (default : Option Nat)

def bodies : List Nat := f.arms.map (·.body)

/-! ## An arm for the concrete type -/

/-- Name, ascription, component, body and arm, of which the first comes at
index `n`. -/
def armNodes : List Node :=
  let ty := .some f.first.shadow.shadowedTy
  [{ kind := .ident f.first.binder, scope := s, ty },
    { kind := .ident f.shadowedName, scope := s, ty },
    { kind := .component n (n + 1), scope := s, ty },
    { kind := .block [], scope := s },
    { kind := .arm f.phase (.some (n + 2)) (n + 3), scope := vs }]

/-- The scope of the arm's binder is new. -/
def bindNew (e : Env) : Env :=
  (e.child vs).2.declare e.size f.first.binder f.first.shadow.shadowedTy

/-- The tree with an arm made for the family, not yet in its place. -/
def armed (t : Tree) : Tree :=
  (t.modifyEnv (f.bindNew vs)).addAll (f.armNodes vs t.env.size t.size)

theorem run_makeArm (t : Tree) : (f.makeArm vs).run t = ((t.size + 4, t.size + 3), f.armed vs t) := by
  obtain ⟨⟨r, t'⟩, h⟩ : ∃ r, (f.makeArm vs).run t = r := ⟨_, rfl⟩
  rw [h]
  simp only [makeArm, Build.arm, Build.block, Build.ident, Build.run_bind_iff, Build.run_childScope_iff,
    Build.run_modify_iff, Build.run_typed_iff, Build.run_alloc_iff, Build.run_pure_iff] at h
  obtain ⟨_, _, ⟨rfl, rfl⟩, _, _, rfl, _, _, ⟨rfl, rfl⟩, _, _, ⟨rfl, rfl⟩, _, _, ⟨rfl, rfl⟩, _, _,
    ⟨rfl, rfl⟩, _, _, ⟨rfl, rfl⟩, rfl, rfl⟩ := h
  simp only [size_add, size_modifyEnv]
  rfl

theorem separate_armNodes (t : Tree) : Separate [] t (t.addAll (f.armNodes vs s t.size)) := by
  refine .addAll (by simp) (by simp [armNodes, listed, Kind.children]) fun i m hi c hc => ?_
  match i with
  | 0 | 1 | 2 | 3 | 4 =>
    simp only [armNodes, List.getElem?_cons_zero, List.getElem?_cons_succ, Option.some.injEq] at hi
    subst hi
    simp [Kind.children] at hc ⊢
    try omega
  | i + 5 => simp [armNodes] at hi

/-! ## The switch -/

/-- Label and case of each arm, of which the first comes at index `n`. -/
def caseNodes : Nat → List ShadowArm → List Node
  | _, [] => []
  | n, a :: arms =>
    { kind := .ident a.shadow.discriminant, scope := s, ty := .some a.shadow.discriminantTy } ::
      { kind := .case n a.body, scope := s } :: caseNodes (n + 2) arms

def switchNodes : List Node :=
  [{ kind := .ident binder, scope := s, ty := .some f.first.shadow.shadowedTy },
    { kind := .ident f.first.shadow.discriminantField, scope := s },
    { kind := .selector (n + 1), scope := s },
    { kind := .factor n [n + 2], scope := s, ty := .some f.first.shadow.discriminantTy }] ++
  caseNodes s (n + 4) f.arms ++
  [{ kind := .switch (n + 3) (pairIds (n + 4) f.arms.length) default, scope := s }]

theorem run_makeCases {arms : List ShadowArm} {t t' : Tree} {cs : List NodeId}
    (h : (arms.mapM (makeCase s)).run t = (cs, t')) :
    cs = pairIds t.size arms.length ∧ t' = t.addAll (caseNodes s t.size arms) := by
  induction arms generalizing t cs with
  | nil => exact Build.run_mapM_nil.mp h
  | cons a arms ih =>
    simp only [Build.run_mapM_cons, makeCase, Build.ident, Build.case, Build.run_bind_iff,
      Build.run_typed_iff, Build.run_alloc_iff] at h
    obtain ⟨_, _, _, ⟨_, _, ⟨rfl, rfl⟩, rfl, rfl⟩, h, rfl⟩ := h
    obtain ⟨rfl, rfl⟩ := ih h
    simp only [size_add]
    exact ⟨(pairIds_succ t.size arms.length).symm, rfl⟩

@[simp] theorem length_caseNodes (arms : List ShadowArm) : (caseNodes s n arms).length = 2 * arms.length := by
  induction arms generalizing n with
  | nil => rfl
  | cons a arms ih => simp only [caseNodes, List.length_cons, ih]; omega

/-- The index at which the switch of a family comes. -/
def switchId (f : Family) (t : Tree) : Nat := t.size + 4 + 2 * f.arms.length

theorem run_makeSwitch (t : Tree) :
    (f.makeSwitch binder default s).run t =
      (f.switchId t, t.addAll (f.switchNodes s t.size binder default)) := by
  obtain ⟨⟨c, t'⟩, h⟩ : ∃ r, (f.makeSwitch binder default s).run t = r := ⟨_, rfl⟩
  rw [h]
  simp only [makeSwitch, Build.selector, Build.factor, Build.switch, Build.ident, Build.run_bind_iff,
    Build.run_typed_iff, Build.run_alloc_iff] at h
  obtain ⟨_, _, ⟨rfl, rfl⟩, _, _, ⟨_, _, ⟨rfl, rfl⟩, rfl, rfl⟩, _, _, ⟨rfl, rfl⟩, cs, t₁, h, rfl, rfl⟩ := h
  obtain ⟨rfl, rfl⟩ := run_makeCases s h
  simp only [size_addAll, size_add, length_caseNodes, switchNodes, addAll_append]
  rfl

variable {s n}

/-- A case's children are its label, which comes right before it, and the
body of its arm. -/
theorem mem_children_caseNodes {arms : List ShadowArm} {i c : Nat} {m : Node}
    (hi : (caseNodes s n arms)[i]? = .some m) (hc : c ∈ m.kind.children) :
    (c + 1 = n + i ∧ ∃ j, c = n + 2 * j) ∨ c ∈ arms.map (·.body) := by
  induction arms generalizing n i with
  | nil => simp [caseNodes] at hi
  | cons a arms ih =>
    match i with
    | 0 =>
      simp only [caseNodes, List.getElem?_cons_zero, Option.some.injEq] at hi
      subst hi
      simp [Kind.children] at hc
    | 1 =>
      simp only [caseNodes, List.getElem?_cons_succ, List.getElem?_cons_zero, Option.some.injEq] at hi
      subst hi
      simp only [Kind.children, List.mem_cons, List.not_mem_nil, or_false] at hc
      rcases hc with rfl | rfl
      · exact .inl ⟨rfl, 0, rfl⟩
      · exact .inr (by simp)
    | i + 2 =>
      simp only [caseNodes, List.getElem?_cons_succ] at hi
      rcases ih hi with ⟨hc, j, hj⟩ | hc
      · exact .inl ⟨by omega, j + 1, by omega⟩
      · exact .inr (by simp [hc])

theorem nodup_children_caseNodes {arms : List ShadowArm} (hb : (arms.map (·.body)).Nodup)
    (hn : ∀ b : Nat, b ∈ arms.map (·.body) → b < n) :
    (listed (caseNodes s n arms)).Nodup := by
  induction arms generalizing n with
  | nil => simp [caseNodes, listed]
  | cons a arms ih =>
    simp only [List.map_cons, List.nodup_cons] at hb
    have hbody := hn a.body (by simp)
    have hrest : ∀ c ∈ listed (caseNodes s (n + 2) arms), n + 2 ≤ c ∨ c ∈ arms.map (·.body) := by
      intro c hc
      obtain ⟨m, hm, hc⟩ := List.mem_flatMap.mp hc
      obtain ⟨i, hi⟩ := List.mem_iff_getElem?.mp hm
      rcases mem_children_caseNodes hi hc with ⟨-, j, hj⟩ | hc
      · exact .inl (by omega)
      · exact .inr hc
    have hlabel : n ∉ listed (caseNodes s (n + 2) arms) := fun hmem => by
      rcases hrest n hmem with h | h
      · omega
      · exact absurd (hn n (by simp [h])) (by omega)
    have hmoved : a.body ∉ listed (caseNodes s (n + 2) arms) := fun hmem => by
      rcases hrest _ hmem with h | h
      · omega
      · exact hb.1 h
    have hne : n ≠ a.body := by omega
    simp only [caseNodes, listed, List.flatMap_cons, Kind.children, List.nil_append, List.cons_append,
      List.nodup_cons, List.mem_cons, not_or]
    exact ⟨⟨hne, hlabel⟩, hmoved, ih hb.2 fun b hmem => by have := hn b (by simp [hmem]); omega⟩

theorem mem_caseNodes {arms : List ShadowArm} {m : Node} (h : m ∈ caseNodes s n arms) :
    ∃ a ∈ arms, m = { kind := .ident a.shadow.discriminant, scope := s, ty := .some a.shadow.discriminantTy } ∨
      ∃ label, m = { kind := .case label a.body, scope := s } := by
  induction arms generalizing n with
  | nil => simp [caseNodes] at h
  | cons a arms ih =>
    simp only [caseNodes, List.mem_cons] at h
    rcases h with rfl | rfl | h
    · exact ⟨a, by simp, .inl rfl⟩
    · exact ⟨a, by simp, .inr ⟨n, rfl⟩⟩
    · obtain ⟨a, ha, h⟩ := ih h
      exact ⟨a, by simp [ha], h⟩

/-- The nodes of a switch by what they are. -/
theorem mem_switchNodes {m : Node} (h : m ∈ f.switchNodes s n binder default) :
    m = { kind := .ident binder, scope := s, ty := .some f.first.shadow.shadowedTy } ∨
    m = { kind := .ident f.first.shadow.discriminantField, scope := s } ∨
    m = { kind := .selector (n + 1), scope := s } ∨
    m = { kind := .factor n [n + 2], scope := s, ty := .some f.first.shadow.discriminantTy } ∨
    (∃ a ∈ f.arms, m = { kind := .ident a.shadow.discriminant, scope := s, ty := .some a.shadow.discriminantTy } ∨
      ∃ label, m = { kind := .case label a.body, scope := s }) ∨
    m = { kind := .switch (n + 3) (pairIds (n + 4) f.arms.length) default, scope := s } := by
  simp only [switchNodes, List.mem_append, List.mem_cons, List.not_mem_nil, or_false] at h
  rcases h with ((h | h | h | h) | h) | h
  · exact .inl h
  · exact .inr (.inl h)
  · exact .inr (.inr (.inl h))
  · exact .inr (.inr (.inr (.inl h)))
  · exact .inr (.inr (.inr (.inr (.inl (mem_caseNodes h)))))
  · exact .inr (.inr (.inr (.inr (.inr h))))

theorem children_switchNodes {i c : Nat} {m : Node} (hi : (f.switchNodes s n binder default)[i]? = .some m)
    (hc : c ∈ m.kind.children) : n ≤ c ∧ c < n + i ∨ c ∈ f.bodies ++ default.toList := by
  rw [switchNodes, List.append_assoc] at hi
  match i with
  | 0 | 1 | 2 | 3 =>
    simp only [List.cons_append, List.getElem?_cons_zero, List.getElem?_cons_succ, Option.some.injEq] at hi
    subst hi
    simp [Kind.children] at hc ⊢
    try omega
  | i + 4 =>
    simp only [List.cons_append, List.nil_append, List.getElem?_cons_succ] at hi
    rcases Nat.lt_or_ge i (2 * f.arms.length) with hlt | hge
    · rw [List.getElem?_append_left (by simpa using hlt)] at hi
      rcases mem_children_caseNodes hi hc with ⟨hc, -⟩ | hc
      · exact .inl (by omega)
      · exact .inr (List.mem_append_left _ hc)
    · rw [List.getElem?_append_right (by simpa using hge), List.getElem?_singleton] at hi
      split at hi
      · cases hi
        simp only [Kind.children, List.mem_cons, List.mem_append, mem_pairIds] at hc
        rcases hc with rfl | ⟨j, hj, rfl⟩ | hc
        · exact .inl (by omega)
        · exact .inl (by omega)
        · exact .inr (List.mem_append_right _ hc)
      · cases hi

/-- The switch takes over the bodies and the default. -/
theorem separate_switchNodes {t : Tree} (hnodup : (f.bodies ++ default.toList).Nodup)
    (hold : ∀ b : Nat, b ∈ f.bodies ++ default.toList → b < t.size) :
    Separate (f.bodies ++ default.toList) t (t.addAll (f.switchNodes s t.size binder default)) := by
  refine .addAll hold ?_ fun i m hi c hc => children_switchNodes f binder default hi hc
  obtain ⟨hb, hd, hdisj⟩ := List.nodup_append.mp hnodup
  have hbodies : ∀ b : Nat, b ∈ f.bodies → b < t.size + 4 := fun b hb => by
    have := hold b (List.mem_append_left _ hb)
    omega
  have hcases : ∀ c : Nat, c ∈ listed (caseNodes s (t.size + 4) f.arms) →
      (∃ j, c = t.size + 4 + 2 * j) ∨ c ∈ f.bodies := by
    intro c hc
    obtain ⟨m, hm, hc⟩ := List.mem_flatMap.mp hc
    obtain ⟨i, hi⟩ := List.mem_iff_getElem?.mp hm
    exact (mem_children_caseNodes hi hc).imp_left (·.2)
  have hlast : ∀ c : Nat, c ∈ (t.size + 3) :: (pairIds (t.size + 4) f.arms.length ++ default.toList) →
      c = t.size + 3 ∨ (∃ j, c = t.size + 5 + 2 * j) ∨ c ∈ default.toList := by
    intro c hc
    simp only [List.mem_cons, List.mem_append, mem_pairIds] at hc
    exact hc.imp_right (·.imp_left fun ⟨j, _, hj⟩ => ⟨j, hj⟩)
  have hdefault : ∀ c : Nat, c ∈ default.toList → c < t.size ∧ c ∉ f.bodies := fun c hc =>
    ⟨hold c (List.mem_append_right _ hc), fun hmem => hdisj c hmem c hc rfl⟩
  have hhead : ∀ c : Nat, c ∈ [t.size + 1, t.size, t.size + 2] → t.size ≤ c ∧ c < t.size + 3 := by
    intro c hc
    simp only [List.mem_cons, List.not_mem_nil, or_false] at hc
    omega
  simp only [switchNodes, listed, List.flatMap_append, List.flatMap_cons, List.flatMap_nil, List.append_nil]
  refine List.nodup_append.mpr ⟨List.nodup_append.mpr ⟨by simp [Kind.children],
    nodup_children_caseNodes hb hbodies, fun c hc d hd => ?_⟩, ?_, fun c hc d hd => ?_⟩
  · have hc := hhead c hc
    rcases hcases d hd with ⟨j, rfl⟩ | hd
    · omega
    · have := hold d (List.mem_append_left _ hd)
      omega
  · refine List.nodup_cons.mpr ⟨fun hmem => ?_, List.nodup_append.mpr ⟨nodup_pairIds .., hd, fun c hc d hd' => ?_⟩⟩
    · rcases List.mem_append.mp hmem with hmem | hmem
      · obtain ⟨j, -, hj⟩ := mem_pairIds.mp hmem
        omega
      · have := hdefault _ hmem
        omega
    · obtain ⟨j, -, rfl⟩ := mem_pairIds.mp hc
      have := hdefault d hd'
      omega
  · have hd := hlast d hd
    rcases List.mem_append.mp hc with hc | hc
    · have hc := hhead c hc
      rcases hd with rfl | ⟨j, rfl⟩ | hd
      · omega
      · omega
      · have := hdefault d hd
        omega
    · rcases hcases c hc with ⟨j, rfl⟩ | hc
      · rcases hd with rfl | ⟨j', rfl⟩ | hd
        · omega
        · omega
        · have := hdefault d hd
          omega
      · have hlt := hold c (List.mem_append_left _ hc)
        rcases hd with rfl | ⟨j', rfl⟩ | hd
        · omega
        · omega
        · rintro rfl
          exact (hdefault c hd).2 hc

end Family

end Penumbra
