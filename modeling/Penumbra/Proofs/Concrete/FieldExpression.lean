/-
The expressions of virtual fields.

A shadow type is a table of virtual fields, and of those with one name the first
counts. The expression of a field is a chain of new nodes that follows the field's
path from the variable, step by step. Like a copy it stands on its own
(`Separate.appended`). It prints as the variable with the steps behind it. A name that
is not in the table has no expression, and asking for one changes nothing
(`expand_follows_path`).
-/
import Penumbra.Proofs.Tree.ExactCopy
import Penumbra.Proofs.Tree.PrintedBlocks
import Penumbra.Proofs.Concrete.TermRefinement
import Penumbra.Proofs.Pass.Stops

namespace Penumbra

open Tree

/-! ## Tables -/

namespace Shadow

variable {name shadowedName discriminant field : String} {discriminantTy : Ty} {fields : List (VirtualField Ty)}
  {s : Shadow Ty} {vf : VirtualField Ty}

/-- The shadow type that has got these virtual fields, one after the other. -/
def table (name shadowedName discriminant : String) (discriminantTy : Ty) (fields : List (VirtualField Ty)) : Shadow Ty :=
  fields.foldl (fun s f => s.addField f.name f.path f.ty) { name, shadowedName, discriminant, discriminantTy }

theorem table_eq (name shadowedName discriminant : String) (discriminantTy : Ty) (fields : List (VirtualField Ty)) :
    table name shadowedName discriminant discriminantTy fields =
      { name, shadowedName, discriminant, discriminantTy, fields } := by
  have hfold : ∀ (l : List (VirtualField Ty)) (s : Shadow Ty),
      l.foldl (fun s f => s.addField f.name f.path f.ty) s = { s with fields := s.fields ++ l } := by
    intro l
    induction l with
    | nil => simp
    | cons f l ih =>
      intro s
      rw [List.foldl_cons, ih]
      simp [addField]
  exact hfold ..

theorem field?_eq_none : s.field? field = .none ↔ ∀ f ∈ s.fields, f.name ≠ field := by
  simp [field?]

/-- The first field of the name is found. -/
theorem field?_eq_some_of_first {before after : List (VirtualField Ty)} (hs : s.fields = before ++ vf :: after)
    (hname : vf.name = field) (hfirst : ∀ f ∈ before, f.name ≠ field) : s.field? field = .some vf := by
  have hbefore : before.find? (·.name == field) = .none := by simpa using hfirst
  rw [field?, hs, List.find?_append, hbefore, Option.none_or, List.find?_cons_of_pos (by simpa using hname)]

end Shadow

/-! ## New nodes on their own -/

namespace Tree

variable {t t' : Tree} {ns : List Node} {y : Nat}

/-- Child lists of new nodes end, since each of these comes after its children. -/
theorem Separate.endsWithin (h : Separate [] t t') (hy : y ∈ fresh t t') : t'.EndsWithin t'.size y := by
  have hdown : ∀ n y, y ∈ fresh t t' → y < t.size + n → t'.EndsWithin n y := by
    intro n
    induction n with
    | zero => exact fun y hy hlt => absurd hy.1 (by omega)
    | succ n ih =>
      intro y hy hlt c hc
      have hcy := (h.child y hy.1 hy.2 c hc).1.resolve_right (by simp)
      exact ih c (h.mem_fresh hy hc).1 (by omega)
  exact hdown t'.size y hy (by have := hy.2; omega)

/-- Where each of the new nodes but the last is a child of a later one, all are below
the last. -/
theorem reaches_addAll (hlisted : ∀ y : Nat, t.size ≤ y → y < t.size + ns.length - 1 → y ∈ listed ns)
    (hlater : ∀ i m, ns[i]? = .some m → ∀ c : Nat, c ∈ m.kind.children → c < t.size + i)
    (hy : y ∈ fresh t (t.addAll ns)) : (t.addAll ns).Reaches (t.size + ns.length - 1) y := by
  obtain ⟨hle, hlt⟩ := hy
  rw [size_addAll] at hlt
  -- from the last node back to the first
  induction hn : t.size + ns.length - 1 - y using Nat.strongRecOn generalizing y with
  | _ n ih =>
    by_cases hlast : y = t.size + ns.length - 1
    · rw [hlast]
      exact .refl _ _
    · obtain ⟨m, hm, hc⟩ := List.mem_flatMap.mp (hlisted y hle (by omega))
      obtain ⟨i, hi⟩ := List.mem_iff_getElem?.mp hm
      have hilt := (List.getElem?_eq_some_iff.mp hi).1
      have hyi := hlater i m hi y hc
      have hchild : y ∈ (t.addAll ns).children (t.size + i) := by rwa [Tree.children, (node_addAll hi).1]
      exact (ih (t.size + ns.length - 1 - (t.size + i)) (by omega) (by omega) (by omega) rfl).tail hchild

end Tree

namespace Shadow

variable {s : Shadow Ty} {vf : VirtualField Ty} {var : String} {scope : ScopeId} {n : Nat} {t : Tree}

theorem mem_expandNodes {m : Node} (h : m ∈ s.expandNodes vf var scope n) : m.scope = scope ∧ m.parent = .none := by
  rw [expandNodes] at h
  split at h
  · obtain rfl := List.mem_singleton.mp h
    exact ⟨rfl, rfl⟩
  · simp only [List.mem_cons, List.mem_append, List.not_mem_nil, or_false] at h
    rcases h with rfl | h | rfl
    · exact ⟨rfl, rfl⟩
    · rcases mem_pathNodes h with ⟨_, -, rfl | ⟨_, rfl⟩⟩ | ⟨_, rfl⟩ | ⟨_, rfl⟩ <;> exact ⟨rfl, rfl⟩
    · exact ⟨rfl, rfl⟩

/-- Every node of an expression but the last is a child of another. -/
theorem listed_expandNodes {y : Nat} (hle : n ≤ y) (hlt : y < n + (s.expandNodes vf var scope n).length - 1) :
    y ∈ listed (s.expandNodes vf var scope n) := by
  by_cases hp : vf.path = []
  · simp only [expandNodes, hp, if_true, List.length_singleton] at hlt
    omega
  · have hlen : (s.expandNodes vf var scope n).length = 2 * vf.path.length + 2 := by
      simp [expandNodes, hp, length_pathNodes]
    rw [listed_expandNodes_of_path hp, List.mem_append, List.mem_cons, mem_pairIds, mem_pairIds]
    rw [hlen] at hlt
    rcases Nat.eq_or_lt_of_le hle with rfl | hgt
    · exact .inr (.inl rfl)
    · rcases Nat.mod_two_eq_zero_or_one (y - n) with heven | hodd
      · exact .inr (.inr ⟨(y - n - 2) / 2, by omega, by omega⟩)
      · exact .inl ⟨(y - n - 1) / 2, by omega, by omega⟩

/-- The expression of a field stands on its own, in the given scope. -/
theorem appended_expandNodes (s : Shadow Ty) (vf : VirtualField Ty) (var : String) (scope : ScopeId) (t : Tree) :
    t.Appended (t.addAll (s.expandNodes vf var scope t.size)) (t.size + (s.expandNodes vf var scope t.size).length - 1) ∧
    ∀ y ∈ fresh t (t.addAll (s.expandNodes vf var scope t.size)),
      (t.addAll (s.expandNodes vf var scope t.size)).scope y = scope := by
  have hpos := s.length_expandNodes_pos vf var scope t.size
  have hsep := separate_expandNodes s vf var scope t
  have hfree : t.size + (s.expandNodes vf var scope t.size).length - 1 ∉ listed (s.expandNodes vf var scope t.size) :=
    last_not_listed
  have hreach : ∀ y ∈ fresh t (t.addAll (s.expandNodes vf var scope t.size)),
      (t.addAll (s.expandNodes vf var scope t.size)).Reaches (t.size + (s.expandNodes vf var scope t.size).length - 1) y :=
    fun y hy => reaches_addAll (fun y => listed_expandNodes) (fun i m hi c hc => (children_expandNodes hi hc).2) hy
  have hmem : ∀ m ∈ s.expandNodes vf var scope t.size, m.scope = scope ∧ m.parent = .none := fun m => mem_expandNodes
  generalize s.expandNodes vf var scope t.size = ns at *
  refine ⟨hsep.appended (.addAll t ns) (env_addAll ..) ⟨by omega, by rw [size_addAll]; omega⟩ ?_ hreach, ?_⟩
  · have hget : ns[ns.length - 1]? = .some ns[ns.length - 1] := List.getElem?_eq_getElem (by omega)
    have hlast : t.size + ns.length - 1 = t.size + (ns.length - 1) := by omega
    rw [hlast] at hfree ⊢
    exact parent_addAll_new hget (hmem _ (List.getElem_mem _)).2 hfree
  · intro y hy
    obtain ⟨m, hm, -, hscope, -⟩ := new_addAll hy.1 hy.2
    rw [hscope, (hmem m hm).1]

theorem term_expanded (s : Shadow Ty) (vf : VirtualField Ty) (var : String) (scope : ScopeId) (t : Tree) :
    (t.addAll (s.expandNodes vf var scope t.size)).term (t.size + (s.expandNodes vf var scope t.size).length - 1) =
      s.fieldTerm vf var scope := by
  refine term_expandNodes (fun i m hi => node_addAll hi) fun i hi => ?_
  refine (separate_expandNodes s vf var scope t).endsWithin ⟨Nat.le_add_right .., ?_⟩
  rw [size_addAll]
  omega

end Shadow

/-! ## Terms in print -/

namespace Term

/-- The documents of a term. -/
def printed (indent : Int) : Term → Printed
  | .mk k _ _ _ =>
    let layer := k.mapMem fun c _ => c.printed indent
    ⟨layer.doc indent, layer.typeDoc⟩
termination_by x => sizeOf x
decreasing_by
  have := Kind.sizeOf_lt_of_mem_children ‹_›
  rw [Term.mk.sizeOf_spec]
  omega

theorem printed_mk (indent : Int) (k : Kind Term) (scope : ScopeId) (ty : Option Ty) (span : Option Span) :
    (Term.mk k scope ty span).printed indent =
      ⟨(k.map (printed indent)).doc indent, (k.map (printed indent)).typeDoc⟩ := by
  rw [printed, Kind.mapMem_eq_map k (printed indent)]

end Term

/-- A node prints as the term that it stands for. -/
theorem Tree.doc_term (indent : Int) {t : Tree} {x : Nat} (h : t.EndsWithin t.size x) :
    t.doc indent x = ((t.term x).printed indent).doc := by
  have hdown : ∀ n x, t.EndsWithin n x →
      t.fold (fun _ k => Printed.mk (k.doc indent) k.typeDoc) default n x = (t.unfold n x).printed indent := by
    intro n
    induction n with
    | zero => exact fun _ hn => hn.elim
    | succ n ih =>
      intro x hn
      rw [Tree.unfold, fold, fold, Term.printed_mk, Kind.map_map]
      have hlayer : (t.kind x).map (t.fold (fun _ k => Printed.mk (k.doc indent) k.typeDoc) default n) =
          (t.kind x).map fun c => (t.unfold n c).printed indent := Kind.map_congr fun c hc => ih c (hn c hc)
      rw [hlayer]
      rfl
  exact congrArg Printed.doc (hdown t.size x h)

/-- A step of a path as it is written behind a variable. -/
def PathStep.text : PathStep → String
  | .field name => "." ++ name
  | .index i => "[" ++ toString i ++ "]"

namespace Shadow

variable {s : Shadow Ty} {vf : VirtualField Ty} {var : String} {scope : ScopeId} {t : Tree}

theorem plain_stepTerm (indent : Int) (scope : ScopeId) (step : PathStep) :
    ((stepTerm scope step).printed indent).doc.plain = .ok step.text := by
  cases step with
  | field name =>
    rw [stepTerm, Term.printed_mk, Kind.map, Term.printed_mk]
    exact Doc.plain_eq_ok.mpr ⟨rfl, by simp [Kind.map, Kind.doc, Doc.identifier, PathStep.text]⟩
  | index i =>
    rw [stepTerm, Term.printed_mk, Kind.map, Term.printed_mk]
    exact Doc.plain_eq_ok.mpr ⟨rfl, by simp [Kind.map, Kind.doc, Kind.literalDoc, Doc.literal, Doc.brackets, PathStep.text]⟩

theorem plain_var (indent : Int) (ty : Option Ty) :
    ((Term.mk (.ident var) scope ty .none).printed indent).doc.plain = .ok var := by
  rw [Term.printed_mk]
  exact Doc.plain_eq_ok.mpr ⟨rfl, by simp [Kind.map, Kind.doc, Doc.identifier]⟩

/-- The expression of a field is written as the variable followed by the steps. -/
theorem plain_fieldTerm (indent : Int) (s : Shadow Ty) (vf : VirtualField Ty) (var : String) (scope : ScopeId) :
    ((s.fieldTerm vf var scope).printed indent).doc.plain = .ok (var ++ String.join (vf.path.map PathStep.text)) := by
  rw [fieldTerm]
  split
  next hp =>
    rw [hp, List.map_nil, String.join_nil, String.append_empty]
    exact plain_var indent _
  next =>
    have hsteps := Doc.plain_concat (l := vf.path) fun step _ => plain_stepTerm indent scope step
    rw [Term.printed_mk, Kind.map, Kind.doc, List.map_map, List.map_map]
    exact Doc.plain_append (plain_var indent _) hsteps

/-! ## Lookup -/

theorem fieldTerm_of_typesFields (hty : s.typesFields = true) :
    s.fieldTerm vf var scope =
      if vf.path = [] then .mk (.ident var) scope (.some (.named s.shadowedName)) .none else
        .mk (.factor (.mk (.ident var) scope (.some (.named s.shadowedName)) .none) (vf.path.map (stepTerm scope))) scope
          (.some vf.ty) .none := by
  rw [fieldTerm, expandedTy, if_pos hty]
  split <;> rfl

theorem expand_of_field? {field : String} (hf : s.field? field = .some vf) (var : String) (scope : ScopeId) (t : Tree) :
    s.expand field var scope t = .ok (t.size + (s.expandNodes vf var scope t.size).length - 1,
      t.addAll (s.expandNodes vf var scope t.size)) := by
  rw [expand, hf]
  exact congrArg Except.ok (s.run_expandField vf var scope t)

/-- Without a field of that name there is no expression, and the tree is left alone.
Otherwise the first one's path is followed from the variable, in nodes that stand on
their own. -/
theorem expand_follows_path (name shadowedName discriminant : String) (discriminantTy : Ty)
    (fields : List (VirtualField Ty)) (field var : String) (scope : ScopeId) (t : Tree) :
    let s := table name shadowedName discriminant discriminantTy fields
    ((∃ e, s.expand field var scope t = .error e) ↔ ∀ f ∈ fields, f.name ≠ field) ∧
    ((∀ f ∈ fields, f.name ≠ field) → s.expand field var scope t = .error (.unknownField field name) ∧
      ∀ (w : Work) (x first : NodeId) (rest : List NodeId), Pass.Stops (Pass.replaceAccess x first rest s field var) w
        ⟨.lookup (.unknownField field name), (w.tree.span first).or (w.tree.span x)⟩ w) ∧
    ∀ before f after, fields = before ++ f :: after → f.name = field → (∀ g ∈ before, g.name ≠ field) →
      ∃ id t', s.expand field var scope t = .ok (id, t') ∧ t.Appended t' id ∧
        (∀ y ∈ fresh t t', t'.scope y = scope) ∧
        t'.term id = (if f.path = [] then .mk (.ident var) scope (.some (.named shadowedName)) .none else
          .mk (.factor (.mk (.ident var) scope (.some (.named shadowedName)) .none) (f.path.map (stepTerm scope))) scope
            (.some f.ty) .none) ∧
        ∀ indent, (t'.doc indent id).plain = .ok (var ++ String.join (f.path.map PathStep.text)) := by
  intro s
  have hs : s = { name, shadowedName, discriminant, discriminantTy, fields } := table_eq ..
  have hnone : (∀ f ∈ fields, f.name ≠ field) → s.field? field = .none := fun h => field?_eq_none.mpr (by rwa [hs])
  refine ⟨⟨fun ⟨e, he⟩ => ?_, fun h => ⟨.unknownField field s.name, by rw [expand, hnone h]⟩⟩, fun h => ⟨?_, ?_⟩, ?_⟩
  · cases hf : s.field? field with
    | none =>
      have hall := field?_eq_none.mp hf
      rwa [hs] at hall
    | some f => cases (expand_of_field? hf var scope t).symm.trans he
  · rw [expand, hnone h, hs]
  · intro w x first rest
    have hexpand : s.expand field var (w.tree.scope x) w.tree = .error (.unknownField field s.name) := by
      rw [expand, hnone h]
    simp only [Pass.replaceAccess, Pass.stops_tree_bind, hexpand]
    exact Pass.stops_throw.mpr ⟨by rw [hs], rfl⟩
  · intro before f after hfields hname hfirst
    have hf : s.field? field = .some f := field?_eq_some_of_first (by rw [hs, hfields]) hname hfirst
    obtain ⟨happ, hscope⟩ := appended_expandNodes s f var scope t
    have hterm := term_expanded s f var scope t
    have hends := (separate_expandNodes s f var scope t).endsWithin ((happ.below _).mp (.refl _ _))
    refine ⟨_, _, expand_of_field? hf var scope t, happ, hscope, ?_, fun indent => ?_⟩
    · rw [hterm, fieldTerm_of_typesFields (by rw [hs]), hs]
    · rw [doc_term indent hends, hterm]
      exact plain_fieldTerm indent s f var scope

end Shadow

namespace Sample

/-- Two fields of one name, and one whose path is empty. -/
def cellFields : List (VirtualField Ty) :=
  [⟨"value", [.field "slots", .index 2], .int⟩, ⟨"value", [.field "other"], .bool⟩, ⟨"self", [], .int⟩]

def cell : Shadow Ty := .table "Cell" "Node" "cell" .string cellFields

theorem expand_follows_path_cell :
    cell.expand "next" "c" Env.global tree = .error (.unknownField "next" "Cell") ∧
    ∃ id t', cell.expand "value" "c" Env.global tree = .ok (id, t') ∧ tree.Appended t' id ∧
      ∀ indent, (t'.doc indent id).plain = .ok "c.slots[2]" := by
  have hnone := (Shadow.expand_follows_path "Cell" "Node" "cell" .string cellFields "next" "c" Env.global tree).2.1
    (by decide)
  obtain ⟨id, t', hok, happ, -, -, hplain⟩ :=
    (Shadow.expand_follows_path "Cell" "Node" "cell" .string cellFields "value" "c" Env.global tree).2.2
      [] ⟨"value", [.field "slots", .index 2], .int⟩ _ rfl rfl (by simp)
  exact ⟨hnone.1, id, t', hok, happ, hplain⟩

end Sample

end Penumbra
