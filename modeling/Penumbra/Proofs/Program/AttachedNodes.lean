/-
Parent links against child lists.

Whether a node is attached is told by its parent links, each of which a child list
has to answer, and whether it belongs to the program by child lists alone. A node
that is attached belongs to the program in any tree (`reachable_of_attachedWithin`).
The other way round links have to be right, as they are in an owned program: there is
one way up from each node, and its parent links follow it (`Owned.pathUp_iff`). Nodes
that were taken out of a statement list keep a link to where they were, which no list
answers, so the two agree on them as well (`attached_iff_listed`).
-/
import Penumbra.Proofs.Program.Edits

namespace Penumbra

namespace Tree

/-! ## The way up -/

/-- Child lists lead from the root down to `x` by way of these nodes, nearest first. -/
inductive PathUp (t : Tree) : NodeId → List NodeId → Prop where
  | top : PathUp t root []
  | child {x p l} (listed : x ∈ t.children p) (rest : PathUp t p l) : PathUp t x (p :: l)

section Paths

variable {t : Tree} {x n : Nat} {l : List NodeId}

theorem PathUp.reachable (h : t.PathUp x l) : t.Reachable x := by
  induction h with
  | top => exact .refl t root
  | child listed _ ih => exact Reaches.tail ih listed

theorem Reachable.exists_pathUp (h : t.Reachable x) : ∃ l, t.PathUp x l := by
  induction h with
  | refl => exact ⟨[], .top⟩
  | @tail p x _ hx ih =>
    obtain ⟨l, hp⟩ := ih
    exact ⟨p :: l, .child hx hp⟩

/-- A way up is shorter than child lists are deep. -/
theorem PathUp.endsWithin (h : t.PathUp x l) (hroot : t.EndsWithin n root) : t.EndsWithin (n - l.length) x := by
  induction h with
  | top => exact hroot
  | @child x p l listed _ ih =>
    cases hm : n - l.length with
    | zero =>
      rw [hm] at ih
      exact ih.elim
    | succ m =>
      rw [hm] at ih
      have hlen : n - (p :: l).length = m := by
        rw [List.length_cons]
        omega
      rw [hlen]
      exact ih x listed

theorem PathUp.length_lt (h : t.PathUp x l) (hroot : t.EndsWithin n root) : l.length < n := by
  have hends := h.endsWithin hroot
  by_contra hle
  have hzero : n - l.length = 0 := by omega
  rw [hzero] at hends
  exact hends

/-- What is attached belongs to the program, whatever the links of other nodes are. -/
theorem reachable_of_attachedWithin (h : t.attachedWithin n x = true) : t.Reachable x := by
  induction n generalizing x with
  | zero => cases h
  | succ n ih =>
    rw [attachedWithin] at h
    cases hp : t.parent x with
    | none =>
      rw [hp] at h
      obtain rfl : x = root := by simpa using h
      exact .refl t root
    | some p =>
      rw [hp] at h
      simp only [Bool.and_eq_true, List.contains_iff_mem] at h
      exact Reaches.tail (ih h.2) h.1

namespace Owned

variable (ho : t.Owned)
include ho

theorem endsWithin_root (hf : t.Formed) : t.EndsWithin t.size root := (ho.acyclic hf).endsWithin (.refl t root)

variable (hroot : t.parent root = .none)
include hroot

/-- Parent links follow the way up. -/
theorem ancestorsUpTo_eq (h : t.PathUp x l) (hn : l.length ≤ n) : t.ancestorsUpTo n x = l := by
  induction h generalizing n with
  | top =>
    cases n with
    | zero => rfl
    | succ n => rw [ancestorsUpTo, hroot]
  | @child x p l listed rest ih =>
    rw [List.length_cons] at hn
    obtain ⟨n, rfl⟩ : ∃ m, n = m + 1 := ⟨n - 1, by omega⟩
    rw [ancestorsUpTo, ho.parent p rest.reachable x listed]
    exact congrArg (p :: ·) (ih (by omega))

theorem attachedWithin_eq (h : t.PathUp x l) (hn : l.length < n) : t.attachedWithin n x = true := by
  induction h generalizing n with
  | top =>
    obtain ⟨n, rfl⟩ : ∃ m, n = m + 1 := ⟨n - 1, by omega⟩
    rw [attachedWithin, hroot]
    rfl
  | @child x p l listed rest ih =>
    rw [List.length_cons] at hn
    obtain ⟨n, rfl⟩ : ∃ m, n = m + 1 := ⟨n - 1, by omega⟩
    rw [attachedWithin, ho.parent p rest.reachable x listed]
    simp only [Bool.and_eq_true, List.contains_iff_mem]
    exact ⟨listed, ih (by omega)⟩

variable (hf : t.Formed)
include hf

/-- There is one way up from a node of the program. -/
theorem pathUp_iff (hx : t.Reachable x) : t.PathUp x l ↔ l = t.ancestors x := by
  have hup : ∀ l, t.PathUp x l → t.ancestors x = l := fun l hl =>
    ho.ancestorsUpTo_eq hroot hl (hl.length_lt (ho.endsWithin_root hf)).le
  constructor
  · exact fun hl => (hup l hl).symm
  · rintro rfl
    obtain ⟨l, hl⟩ := hx.exists_pathUp
    rwa [hup l hl]

theorem isAttached_iff : t.isAttached x = true ↔ t.Reachable x := by
  constructor
  · exact reachable_of_attachedWithin
  · intro hx
    obtain ⟨l, hl⟩ := hx.exists_pathUp
    have hlen := hl.length_lt (ho.endsWithin_root hf)
    exact ho.attachedWithin_eq hroot hl (by omega)

end Owned

end Paths

/-! ## Shorter statement lists -/

/-- What may be done to a tree, where statements may also be left out of a list. -/
inductive Revision (t : Tree) : Tree → Prop where
  | edit {t'} (done : Edit t t') : Revision t t'
  | cut {block old stmts t'} (had : t.stmts? block = .some old) (fewer : stmts.Sublist old)
      (done : t.edit? block (Kind.withStmts stmts) = .some t') : Revision t t'

variable {t t' : Tree}

theorem Tidy.cut {block : NodeId} {old stmts : List NodeId} (h : t.Tidy) (had : t.stmts? block = .some old)
    (fewer : stmts.Sublist old) (done : t.edit? block (Kind.withStmts stmts) = .some t') : t'.Tidy := by
  obtain ⟨k, hk, rfl⟩ := Option.map_eq_some_iff.mp done
  have hkind : k.children = stmts ∧ t.children block = old := by
    rw [Tree.stmts?] at had
    rw [Tree.children]
    cases hb : t.kind block <;> rw [hb] at hk had <;> cases hk <;> cases had <;> exact ⟨rfl, rfl⟩
  refine h.setKind ?_
  rw [hkind.1, hkind.2]
  exact fewer

theorem Revision.tidy (hr : Revision t t') (h : t.Tidy) : t'.Tidy := by
  cases hr with
  | edit done => exact done.tidy h
  | cut had fewer done => exact h.cut had fewer done

theorem tidy_of_revisions {uri : String} (h : Relation.ReflTransGen Revision { uri } t) : t.Tidy := by
  induction h with
  | refl => exact tidy_empty uri
  | tail _ hr ih => exact hr.tidy ih

/-- What is attached is visited from the root, if child lists lead in no circle. In a tree
that was built up from nothing the converse holds of every node, in the program or
not, and the ancestors of a node are the one way up from it. -/
theorem attached_iff_listed :
    (∀ t : Tree, t.Acyclic → ∀ x, t.isAttached x = true → x ∈ t.preOrder root) ∧
    ∀ (uri : String) (t : Tree), Relation.ReflTransGen Revision { uri } t → ∀ x,
      (t.isAttached x = true ↔ x ∈ t.preOrder root) ∧
      (x ∈ t.preOrder root → ∀ l, t.PathUp x l ↔ l = t.ancestors x) := by
  refine ⟨fun t ht x hx => ?_, fun uri t ht x => ?_⟩
  · have hroot := ht.endsWithin (.refl t root)
    exact (mem_preOrder hroot).mpr (reachable_of_attachedWithin hx)
  · have htidy := tidy_of_revisions ht
    have ho := htidy.isOwned
    rw [mem_preOrder (ho.endsWithin_root htidy.formed)]
    exact ⟨ho.isAttached_iff htidy.root_parent htidy.formed, fun hx _ => ho.pathUp_iff htidy.root_parent htidy.formed hx⟩

end Tree

namespace Sample

open Tree

/-- The program with a second statement. -/
def longer : Tree := (([Part.ident "y", .exprStmt 12].foldl made attached).pushStmt? root 13).getD attached

/-- The program without the first statement. -/
def shorter : Tree := (longer.edit? root (Kind.withStmts [13])).getD longer

theorem revisions_shorter : Relation.ReflTransGen Revision { uri := "inmemory:///sample.shade" } shorter := by
  have hattached : Relation.ReflTransGen Revision { uri := "inmemory:///sample.shade" } attached :=
    Relation.ReflTransGen.mono (fun _ _ done => .edit done) _ _ edits_attached
  have hmade : Relation.ReflTransGen Revision attached ([Part.ident "y", .exprStmt 12].foldl made attached) :=
    .tail (.single (.edit (edit_made (by decide +kernel)))) (.edit (edit_made (by decide +kernel)))
  have hlonger : ([Part.ident "y", .exprStmt 12].foldl made attached).pushStmt? root 13 = .some longer := by
    rw [longer, ← Option.some_get (x := ([Part.ident "y", .exprStmt 12].foldl made attached).pushStmt? root 13)
      (by decide +kernel)]
    rfl
  have hshorter : longer.edit? root (Kind.withStmts [13]) = .some shorter := by
    rw [shorter, ← Option.some_get (x := longer.edit? root (Kind.withStmts [13])) (by decide +kernel)]
    rfl
  have hold : longer.stmts? root = .some [11, 13] := by decide +kernel
  exact ((hattached.trans hmade).tail (.edit (.push (by decide +kernel) hlonger))).tail
    (.cut hold (by decide) hshorter)

/-- The statement left out still has the program for its parent and is not attached. -/
theorem shorter_attached :
    attached.Acyclic ∧ 10 ∈ attached.preOrder root ∧
    Relation.ReflTransGen Revision { uri := "inmemory:///sample.shade" } shorter ∧
    shorter.parent 11 = .some root ∧ shorter.isAttached 11 = false ∧ 11 ∉ shorter.preOrder root ∧
    shorter.ancestors 12 = [13, root] ∧ ∀ l, shorter.PathUp 12 l ↔ l = shorter.ancestors 12 := by
  have hacyclic : attached.Acyclic := BuiltUp.acyclic (by decide +kernel)
  have hin := attached_iff_listed.1 attached hacyclic 10 (by decide +kernel)
  have hagree := attached_iff_listed.2 _ shorter revisions_shorter
  have hout : shorter.isAttached 11 = false := by decide +kernel
  have hlisted : 12 ∈ shorter.preOrder root := (hagree 12).1.mp (by decide +kernel)
  refine ⟨hacyclic, hin, revisions_shorter, by decide +kernel, hout, fun hmem => ?_, by decide +kernel,
    (hagree 12).2 hlisted⟩
  rw [(hagree 11).1.mpr hmem] at hout
  cases hout

end Sample

end Penumbra
