/-
Programs stay trees, whatever is done to them.

A program is put together from parts that have no parent yet, retyped, copied
and handed to the passes, in any order (`Edit`). Every one of these keeps the
tree tidy, so after any number of them the nodes of the program form a tree with
correct parent links (`program_forms_tree`).
-/
import Penumbra.Erase.Basic
import Penumbra.Proofs.Tree.CheckedTrees
import Penumbra.Proofs.Erase.Idempotence
import Penumbra.Proofs.Concrete.KeepsOwned
import Penumbra.Proofs.Program.Tidy

namespace Penumbra

/-! ## Parts -/

/-- What a builder can be asked for. -/
inductive Part where
  | node (kind : Kind NodeId)
  | ident (token : String)
  | literal (l : Literal)
  | selector (field : String)
  | index (position : NodeId)
  | factor (operand : NodeId) (steps : List NodeId)
  | paren (inner : NodeId)
  | call (callee : String) (args : List NodeId)
  | binary (op : BinOp) (lhs rhs : NodeId)
  | block (stmts : List NodeId)
  | varDecl (name : String) (ascription : Option String) (init : Option NodeId)
  | assign (lhs rhs : NodeId)
  | exprStmt (expr : NodeId)
  | ifStmt (test yes : NodeId) (no : Option NodeId)
  | returnStmt (value : Option NodeId)
  | switch (scrutinee : NodeId) (cases : List NodeId) (default : Option NodeId)
  | case (label body : NodeId)
  | component (name ascription : String)
  | arm (phase : Phase) (binder : Option NodeId) (body : NodeId)
  | visitor (arms : List NodeId) (wildcard : Option NodeId)
  | function (params : List NodeId) (body : NodeId)

namespace Part

def build (s : ScopeId) : Part → Build NodeId
  | .node kind => Build.alloc kind s
  | .ident token => Build.ident token s
  | .literal l => Build.literal l s
  | .selector field => Build.selector field s
  | .index position => Build.index position s
  | .factor operand steps => Build.factor operand steps s
  | .paren inner => Build.paren inner s
  | .call callee args => Build.call callee args s
  | .binary op lhs rhs => Build.binary op lhs rhs s
  | .block stmts => Build.block stmts s
  | .varDecl name ascription init => Build.varDecl name ascription init s
  | .assign lhs rhs => Build.assign lhs rhs s
  | .exprStmt expr => Build.exprStmt expr s
  | .ifStmt test yes no => Build.ifStmt test yes no s
  | .returnStmt value => Build.returnStmt value s
  | .switch scrutinee cases default => Build.switch scrutinee cases default s
  | .case label body => Build.case label body s
  | .component name ascription => Build.component name ascription s
  | .arm phase binder body => Build.arm phase binder body s
  | .visitor arms wildcard => Build.visitor arms wildcard s
  | .function params body => Build.function params body s

/-- The identifiers that are made first. -/
def names : Part → List String
  | .selector field => [field]
  | .call callee _ => [callee]
  | .varDecl name ascription _ => name :: ascription.toList
  | .component name ascription => [name, ascription]
  | _ => []

/-- The layer of the part, whose identifiers come from index `n` on. -/
def kind (n : Nat) : Part → Kind NodeId
  | .node kind => kind
  | .ident token => .ident token
  | .literal l => .literal l
  | .selector _ => .selector n
  | .index position => .index position
  | .factor operand steps => .factor operand steps
  | .paren inner => .paren inner
  | .call _ args => .call n args
  | .binary op lhs rhs => .binary op lhs rhs
  | .block stmts => .block stmts
  | .varDecl _ ascription init => .varDecl n (ascription.map fun _ => n + 1) init
  | .assign lhs rhs => .assign lhs rhs
  | .exprStmt expr => .exprStmt expr
  | .ifStmt test yes no => .ifStmt test yes no
  | .returnStmt value => .returnStmt value
  | .switch scrutinee cases default => .switch scrutinee cases default
  | .case label body => .case label body
  | .component _ _ => .component n (n + 1)
  | .arm phase binder body => .arm phase binder body
  | .visitor arms wildcard => .visitor arms wildcard
  | .function params body => .function params body

/-- The nodes that the part is to be put above. -/
def given : Part → List NodeId
  | .selector _ => []
  | .call _ args => args
  | .varDecl _ _ init => init.toList
  | .component _ _ => []
  | p => (p.kind 0).children

def ty : Part → Option Ty
  | .literal l => .some (Build.literalTy l)
  | .visitor _ _ => .some .visitor
  | .function _ _ => .some .function
  | _ => .none

/-- Identifiers and then the layer, of which the first comes at index `n`. -/
def nodes (s : ScopeId) (n : Nat) (p : Part) : List Node :=
  p.names.map (fun token => { kind := .ident token, scope := s }) ++ [{ kind := p.kind n, scope := s, ty := p.ty }]

/-- Two identifiers and a layer above them. -/
theorem run_idents (t : Tree) (s : ScopeId) (a b : String) (k : NodeId → NodeId → Kind NodeId) :
    ((do let x ← Build.ident a s
         let y ← Build.ident b s
         Build.alloc (k x y) s : Build NodeId).run t).2 =
      t.addAll [{ kind := .ident a, scope := s }, { kind := .ident b, scope := s },
        { kind := k t.size (t.size + 1), scope := s }] := by
  have hsize : (t.add { kind := .ident a, scope := s }).size = t.size + 1 := Tree.size_add ..
  rw [← hsize]
  rfl

theorem run_build (p : Part) (s : ScopeId) (t : Tree) : ((p.build s).run t).2 = t.addAll (p.nodes s t.size) := by
  cases p with
  | literal l => exact congrArg Prod.snd (Build.run_typed t (.literal l) s (Build.literalTy l))
  | visitor arms wildcard => exact congrArg Prod.snd (Build.run_typed t (.visitor arms wildcard) s .visitor)
  | function params body => exact congrArg Prod.snd (Build.run_typed t (.function params body) s .function)
  | component name ascription => exact run_idents t s name ascription .component
  | varDecl name ascription init =>
    cases ascription with
    | none => rfl
    | some a => exact run_idents t s name a fun x y => .varDecl x (.some y) init
  | _ => rfl

/-- The identifiers are the first children, and those given the others. -/
theorem children_kind (p : Part) (n : Nat) : (p.kind n).children.Perm ((List.range p.names.length).map (n + ·) ++ p.given) := by
  cases p with
  | varDecl name ascription init =>
    cases ascription <;> simp [kind, names, given, Kind.children, List.range_succ]
  | _ => simp [kind, names, given, Kind.children, List.range_succ]

open Tree

theorem listed_nodes (p : Part) (s : ScopeId) (n : Nat) : listed (p.nodes s n) = (p.kind n).children := by
  have hnames : ∀ l : List String, listed (l.map fun token => { kind := .ident token, scope := s }) = [] := by
    intro l
    induction l with
    | nil => rfl
    | cons token l ih => exact ih
  rw [nodes, listed, List.flatMap_append, ← listed, hnames]
  simp

/-- The part is put above what it is given, and linked to that. -/
theorem separate {t : Tree} {p : Part} (s : ScopeId) (hnodup : p.given.Nodup) (hlt : ∀ c ∈ (p.given : List Nat), c < t.size) :
    Separate p.given t (t.addAll (p.nodes s t.size)) := by
  have hperm := p.children_kind t.size
  refine .addAll hlt ?_ fun i n hi c hc => ?_
  · rw [listed_nodes, hperm.nodup_iff, List.nodup_append]
    refine ⟨List.nodup_range.map fun i j h => Nat.add_left_cancel h, hnodup, fun a ha c hc he => ?_⟩
    obtain ⟨i, -, rfl⟩ := List.mem_map.mp ha
    exact absurd (he ▸ hlt c hc) (Nat.not_lt.mpr (Nat.le_add_right _ _))
  · -- only the last of the nodes has children
    rw [nodes, List.getElem?_append] at hi
    split at hi
    · obtain ⟨token, -, rfl⟩ := List.mem_map.mp (List.mem_of_getElem? hi)
      simp [Kind.children] at hc
    next hge =>
      rw [List.length_map] at hge
      obtain rfl := List.mem_singleton.mp (List.mem_of_getElem? hi)
      rcases List.mem_append.mp (hperm.mem_iff.mp hc) with hmem | hmem
      · obtain ⟨j, hj, rfl⟩ := List.mem_map.mp hmem
        have := List.mem_range.mp hj
        exact .inl (by omega)
      · exact .inr hmem

end Part

/-! ## Edits -/

/-- What may be done to scopes. -/
inductive Env.Edit (e : Env) : Env → Prop where
  | child {s} (h : s < e.size) : Env.Edit e (e.child s).2
  | declare (s name ty) : Env.Edit e (e.declare s name ty)
  | set (s name ty) : Env.Edit e (e.set s name ty)
  | setType (s name ty) : Env.Edit e (e.setType s name ty)

theorem Env.Edit.nested {e e' : Env} (h : Env.Edit e e') (hn : e.Nested) : e.size ≤ e'.size ∧ e'.Nested := by
  cases h with
  | child hs => exact ⟨(SameTypes.child hs).size_le, (SameTypes.child hs).nested hn⟩
  | declare s name ty => exact ⟨(SameTypes.declare e s name ty).size_le, (SameTypes.declare e s name ty).nested hn⟩
  | set s name ty => exact ⟨(SameTypes.set e s name ty).size_le, (SameTypes.set e s name ty).nested hn⟩
  | setType s name ty =>
    refine ⟨by simp [Env.setType, size], fun u p hp => hn u p ?_⟩
    rw [← hp, parent, parent, Env.setType, scope_modify]
    split <;> rfl

namespace Tree

/-- What may be done to a tree. Parts are made from different nodes that have no
parent, and so are statements. A statement may even be given to a block below it;
both are then out of reach. -/
inductive Edit (t : Tree) : Tree → Prop where
  | build (p : Part) (s : ScopeId) (scope : s < t.env.size) (nodup : p.given.Nodup) (free : ∀ c ∈ p.given, t.Free c) :
      Edit t ((p.build s).run t).2
  | push {block stmt t'} (free : t.Free stmt) (done : t.pushStmt? block stmt = .some t') : Edit t t'
  | type (x : NodeId) (ty : Ty) : Edit t (t.setTy x ty)
  | span (x : NodeId) (span : Span) : Edit t (t.setSpan x span)
  | token {x token t'} (done : t.setToken? x token = .some t') : Edit t t'
  | copy {x} (inside : x < t.size) (noCircle : ∀ y, t.Reaches x y → ¬ Relation.TransGen t.Child y y) :
      Edit t ((Build.copy x).run t).2
  | scopes {e} (done : t.env.Edit e) : Edit t { t with env := e }
  | lower (done : t.lower.result = .ok ()) : Edit t t.lower.tree
  | concretize (done : t.concretize.result = .ok ()) : Edit t t.concretize.tree
  | erase (done : t.erase.result = .ok ()) : Edit t t.erase.tree

variable {t t' : Tree} {x : Nat}

namespace Tidy

variable (h : t.Tidy)
include h

/-- A change of one node that has neither to do with its children nor with its
parent. -/
theorem update {f : Node → Node} (hchild : ∀ n, (f n).kind.children = n.kind.children)
    (hparent : ∀ n, (f n).parent = n.parent) (hscope : ∀ n, (f n).scope = n.scope) : (t.update x f).Tidy := by
  have hc : ∀ y, (t.update x f).children y = t.children y := fun y => part_update (·.kind.children) hchild
  refine h.congr ⟨by simpa using h.formed.root_lt, fun y hy c hmem => ?_, fun y hy => ?_, h.formed.nested⟩ (size_update _) hc
    fun y => part_update (·.parent) hparent
  · rw [hc] at hmem
    rw [size_update] at hy ⊢
    exact h.formed.child y hy c hmem
  · rw [size_update] at hy
    rw [Tree.scope, part_update (·.scope) hscope]
    exact h.formed.scope y hy

/-- Another kind for one node, which may leave out some of its children. -/
theorem setKind {k : Kind NodeId} (hk : k.children.Sublist (t.children x)) : (t.setKind x k).Tidy := by
  have hchild : ∀ y, ((t.setKind x k).children y).Sublist (t.children y) := fun y => by
    rw [Tree.children, kind_setKind]
    split
    next hy => exact hy.1 ▸ hk
    next => exact .refl _
  refine h.prune ⟨by simpa using h.formed.root_lt, fun y hy c hc => ?_, fun y hy => ?_, by simpa using h.formed.nested⟩
    (by simp) hchild fun y => by simp
  · rw [size_setKind] at hy ⊢
    exact h.formed.child y hy c ((hchild y).mem hc)
  · simpa using h.formed.scope y (by simpa using hy)

theorem build {p : Part} {s : ScopeId} (scope : s < t.env.size) (nodup : p.given.Nodup) (free : ∀ c ∈ p.given, t.Free c) :
    ((p.build s).run t).2.Tidy := by
  rw [p.run_build]
  refine h.separate (.addAll ..) (by simp) (Part.separate s nodup fun c hc => (free c hc).lt_size) free fun y hy => ?_
  obtain ⟨m, hm, -, hscope, -⟩ := new_addAll hy.1 hy.2
  rw [hscope]
  rcases List.mem_append.mp hm with hm | hm
  · obtain ⟨token, -, rfl⟩ := List.mem_map.mp hm
    exact scope
  · obtain rfl := List.mem_singleton.mp hm
    exact scope

theorem copy (hx : x < t.size) (noCircle : ∀ y, t.Reaches x y → ¬ Relation.TransGen t.Child y y) :
    ((Build.copy x).run t).2.Tidy := by
  have hb : ∀ y : Nat, t.Reaches x y → y < t.size := fun y hy => h.formed.closed.reaches hx hy
  have hrun : (Build.copyDown t.size x).run t = (((Build.copy x).run t).1, ((Build.copy x).run t).2) := rfl
  obtain ⟨hext, hs, -⟩ := Build.separate hb (.refl t) (endsWithin_size hb noCircle) hrun
  obtain ⟨-, φ, hφ, -⟩ := Build.mirrored h.formed.closed.child h.formed.closed.bounded (.refl t) hx hrun
  refine h.separate hext hφ.env hs (by simp) fun y hy => ?_
  rw [hφ.scope y hy.1 hy.2]
  exact h.formed.scope _ (hφ.origin y hy.1 hy.2)

theorem lowered (hc : Chain VisitorLowered ((t.postOrder root).filter t.isVisitor) t t') : t'.Tidy :=
  (h.isOwned.lowered h.formed (fun _ _ _ hf ho hV hl hu => by
    obtain ⟨G, hG⟩ := hl.reworks hf ho hV
    exact hG.tidy hu) h hc).2.2

theorem concreted {n : Nat} (hc : Concreted n root t t') : t'.Tidy :=
  (h.isOwned.concreted (fun _ _ _ hf ho hx hn hu => (hn.reworks hf ho hx).tidy hu) h.formed (.refl t root) h hc).2.2

end Tidy

theorem Edit.tidy (he : Edit t t') (h : t.Tidy) : t'.Tidy := by
  cases he with
  | build p s scope nodup free => exact h.build scope nodup free
  | push free done => exact h.pushStmt? free done
  | type x ty => exact h.update (fun _ => rfl) (fun _ => rfl) fun _ => rfl
  | span x span => exact h.update (fun _ => rfl) (fun _ => rfl) fun _ => rfl
  | @token x token _ done =>
    obtain ⟨k, hk, rfl⟩ := Option.map_eq_some_iff.mp done
    obtain rfl : k = .ident token := by
      cases hkx : t.kind x <;> rw [hkx] at hk <;> cases hk
      rfl
    exact h.setKind (List.nil_sublist _)
  | copy inside noCircle => exact h.copy inside noCircle
  | scopes done =>
    obtain ⟨hsize, hnested⟩ := done.nested h.formed.nested
    exact h.congr ⟨h.formed.root_lt, h.formed.child, fun y hy => (h.formed.scope y hy).trans_le hsize, hnested⟩ rfl
      (fun _ => rfl) fun _ => rfl
  | lower done => exact h.lowered (Pass.leads_lower.mp (Pass.outcome_ok.mp done))
  | concretize done => exact h.concreted (Pass.leads_concretize.mp (Pass.outcome_ok.mp done))
  | erase done =>
    obtain ⟨t₁, hl, hc, -⟩ := Pass.leads_erase.mp (Pass.outcome_ok.mp done)
    exact (h.lowered hl).concreted hc

theorem tidy_empty (uri : String) : ({ uri } : Tree).Tidy := by
  have hsize : ({ uri } : Tree).size = 1 := rfl
  have hnode : ∀ x, ({ uri } : Tree).children x = [] := by
    intro x
    cases x with
    | zero => rfl
    | succ x => rw [Tree.children, Tree.kind, node_of_size_le (by rw [hsize]; omega)]; rfl
  refine ⟨⟨by rw [hsize]; omega, fun x _ c hc => ?_, fun x hx => ?_, Env.nested_empty⟩, rfl, fun x => by rw [hnode]; simp,
    fun x _ => by rw [hnode]; simp, fun x _ c hc => ?_⟩
  · rw [hnode] at hc
    cases hc
  · obtain rfl : x = 0 := by rw [hsize] at hx; omega
    exact Nat.zero_lt_one
  · rw [hnode] at hc
    cases hc

/-- Whatever has been done to a program, its nodes form a tree: each but the root
is listed once, by one node of the program, which its parent link names, and the
root is listed by none. -/
theorem program_forms_tree {uri : String} (h : Relation.ReflTransGen Edit { uri } t) :
    (∀ x, t.Reachable x → x ≠ root → ∃ p, t.Reachable p ∧ t.parent x = .some p ∧ (t.children p).count x = 1 ∧
      ∀ q, t.Reachable q → x ∈ t.children q → q = p) ∧
    (∀ x, root ∉ t.children x) ∧ t.parent root = .none := by
  have htidy : t.Tidy := by
    induction h with
    | refl => exact tidy_empty uri
    | tail _ he ih => exact he.tidy ih
  have ho := htidy.isOwned
  refine ⟨fun x hx hne => ?_, htidy.root_free, htidy.root_parent⟩
  obtain ⟨p, hp, hxp⟩ := hx.casesTail.resolve_left hne
  exact ⟨p, hp, ho.parent p hp x hxp, List.count_eq_one_of_mem (ho.nodup p hp) hxp,
    fun q hq hxq => ho.eq_of_mem hq hp hxq hxp⟩

end Tree

/-! ## A sample run -/

namespace Sample

open Tree

instance {t : Tree} {x : NodeId} : Decidable (t.Free x) :=
  decidable_of_iff (x < t.size ∧ x ≠ root ∧ (t.parent x).isNone = true)
    ⟨fun ⟨hlt, hne, hp⟩ => ⟨hlt, hne, Option.isNone_iff_eq_none.mp hp⟩,
      fun h => ⟨h.lt_size, h.ne_root, Option.isNone_iff_eq_none.mpr h.parent⟩⟩

def made (t : Tree) (p : Part) : Tree := ((p.build Env.global).run t).2

theorem edit_made {t : Tree} {p : Part} (h : Env.global < t.env.size ∧ p.given.Nodup ∧ ∀ c ∈ p.given, t.Free c) :
    Edit t (made t p) :=
  .build p Env.global h.1 h.2.1 h.2.2

/-- The parts of a visitor with a shadow arm and a wildcard. -/
def visited : Tree :=
  [Part.component "s" "ExprStmt", .block [], .arm .before (.some 3) 4, .ident "x", .exprStmt 6, .block [7],
    .arm .before .none 8, .visitor [5] (.some 9), .exprStmt 10].foldl made { uri := "inmemory:///sample.shade" }

/-- The program with the visitor, whose arm has got its type. -/
def attached : Tree := ((visited.setTy 3 (.shadow Statement.exprStmt)).pushStmt? root 11).getD visited

/-- The program after a copy of the visitor was made and all shadow types were
erased. -/
def erasedCopy : Tree := ((Build.copy 10).run attached).2.erase.tree

theorem edits_visited : Relation.ReflTransGen Edit { uri := "inmemory:///sample.shade" } visited := by
  refine .tail (.tail (.tail (.tail (.tail (.tail (.tail (.tail (.single
    (edit_made ?_)) (edit_made ?_)) (edit_made ?_)) (edit_made ?_)) (edit_made ?_)) (edit_made ?_)) (edit_made ?_))
    (edit_made ?_)) (edit_made ?_) <;> decide +kernel

theorem edits_attached : Relation.ReflTransGen Edit { uri := "inmemory:///sample.shade" } attached := by
  have hdone : (visited.setTy 3 (.shadow Statement.exprStmt)).pushStmt? root 11 = .some attached := by
    rw [attached, ← Option.some_get (x := (visited.setTy 3 (.shadow Statement.exprStmt)).pushStmt? root 11) (by decide +kernel)]
    rfl
  exact .tail (edits_visited.tail (.type 3 (.shadow Statement.exprStmt))) (.push (by decide +kernel) hdone)

theorem edits_erasedCopy : Relation.ReflTransGen Edit { uri := "inmemory:///sample.shade" } erasedCopy := by
  have hac : attached.Acyclic := BuiltUp.acyclic (by decide +kernel)
  have hreach : attached.Reachable 10 :=
    .head (c := 11) (by decide +kernel) (.head (c := 10) (by decide +kernel) (.refl _ _))
  refine (edits_attached.tail (.copy (x := 10) (by decide +kernel) fun y hy => hac.noCircle y (hreach.trans hy))).tail
    (.erase (Outcome.ok_of_isOk (by decide +kernel)))

/-- A visitor was built, typed, attached, copied and erased; the switch that its
arm was merged into is listed once. -/
theorem erasedCopy_forms_tree :
    Relation.ReflTransGen Edit { uri := "inmemory:///sample.shade" } erasedCopy ∧ visited.size < erasedCopy.size ∧
      (∀ x, erasedCopy.Reachable x → x ≠ root → ∃ p, erasedCopy.Reachable p ∧ erasedCopy.parent x = .some p ∧
        (erasedCopy.children p).count x = 1 ∧ ∀ q, erasedCopy.Reachable q → x ∈ erasedCopy.children q → q = p) ∧
      (∀ x, root ∉ erasedCopy.children x) ∧ erasedCopy.parent root = .none :=
  ⟨edits_erasedCopy, by decide +kernel, program_forms_tree edits_erasedCopy⟩

end Sample

end Penumbra
