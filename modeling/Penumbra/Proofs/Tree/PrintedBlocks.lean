/-
What the parts of a program print as.

The document of a node is that of its layer with the documents of its children in
their place (`printed_eq`). Where no name and no string literal below the node holds
a line break, the document is neat (`Legible.neat`). The print of a block, visitor or
switch is then put together from what its parts print as on their own, moved to the
right between braces (`print_composes`), and so at any depth.
-/
import Penumbra.Tree.Print
import Penumbra.Proofs.Tree.CheckedTrees
import Penumbra.Proofs.Doc.NestedText

theorem Int.newline_not_mem_toString (i : Int) : '\n' ∉ (toString i).toList := by
  have hdigits : ∀ n : Nat, '\n' ∉ Nat.toDigits 10 n := fun n hmem =>
    absurd (Nat.isDigit_of_mem_toDigits (by decide) (by decide) hmem) (by decide)
  have hrepr : toString i = i.repr := rfl
  rw [hrepr, Int.repr_eq_if]
  split <;> simp [hdigits]

namespace Penumbra

/-! ## One layer -/

theorem Doc.neat_defaultCase {body : Doc} (h : body.Neat) : body.defaultCase.Neat := by
  simp [defaultCase, h]

theorem Doc.written_defaultCase (body : Doc) : body.defaultCase.written = "default: " ++ body.written :=
  written_append ..

namespace Kind

/-- The texts that a layer prints as they are. -/
def words {α : Type} : Kind α → List String
  | .ident token => [token]
  | .literal (.str s) => [s]
  | _ => []

theorem words_map {α β : Type} (f : α → β) (k : Kind α) : (k.map f).words = k.words := by
  cases k with
  | literal l => cases l <;> rfl
  | _ => rfl

theorem neat_literalDoc {l : Literal} (h : ∀ s, l = .str s → '\n' ∉ s.toList) : (literalDoc l).Neat := by
  cases l with
  | int i => simpa [literalDoc] using Int.newline_not_mem_toString i
  | str s => simpa [literalDoc] using h s rfl
  | bool b => cases b <;> simp [literalDoc]

theorem neat_typeDoc {k : Kind Printed} (h : ∀ s ∈ k.words, '\n' ∉ s.toList) : k.typeDoc.Neat := by
  cases k with
  | ident token => simpa [typeDoc, words] using h
  | _ => simp [typeDoc, name]

/-- A layer of neat documents is neat. -/
theorem neat_doc (indent : Nat) {k : Kind Printed} (hk : ∀ p ∈ k.children, p.doc.Neat ∧ p.asType.Neat)
    (hwords : ∀ s ∈ k.words, '\n' ∉ s.toList) : (k.doc indent).Neat := by
  have hlist : ∀ l : List Printed, (∀ p ∈ l, p ∈ k.children) → ∀ d ∈ l.map (·.doc), d.Neat := by
    intro l hl d hd
    obtain ⟨p, hp, rfl⟩ := List.mem_map.mp hd
    exact (hk p (hl p hp)).1
  have hcomma : (Doc.text ", ").Neat := by simp
  cases k with
  | program stmts => exact Doc.neat_block indent (hlist stmts fun _ hp => hp)
  | block stmts => exact Doc.neat_block indent (hlist stmts fun _ hp => hp)
  | varDecl n a i =>
    simp only [children, List.forall_mem_cons, List.forall_mem_append, Option.mem_toList] at hk
    cases a <;> cases i <;> simp [doc, declarationDoc, hk]
  | ifStmt c y n =>
    simp only [children, List.forall_mem_cons, Option.mem_toList] at hk
    cases n <;> simp [doc, hk]
  | returnStmt v =>
    simp only [children, Option.mem_toList] at hk
    cases v <;> simp [doc, hk]
  | switch s cs d =>
    have hblock : (Doc.block indent (cs.map (·.doc) ++ d.toList.map (·.doc.defaultCase))).Neat := by
      refine Doc.neat_block indent (List.forall_mem_append.mpr ⟨hlist cs fun p hp => by simp [children, hp], ?_⟩)
      intro e he
      obtain ⟨p, hp, rfl⟩ := List.mem_map.mp he
      exact Doc.neat_defaultCase (hk p (by simp [children, Option.mem_toList.mp hp])).1
    have hs := (hk s (by simp [children])).1
    simp [doc, hs, hblock]
  | visitor arms w =>
    have hblock := Doc.neat_block indent (hlist (arms ++ w.toList) fun _ hp => hp)
    simp only [doc, Doc.neat_append, Doc.neat_keyword]
    exact ⟨⟨by decide, Doc.neat_space⟩, hblock⟩
  | arm p c b =>
    simp only [children, List.forall_mem_append, Option.mem_toList, List.forall_mem_singleton] at hk
    cases c <;> cases p <;> simp [doc, Phase.text, hk]
  | function ps b =>
    have hparams := Doc.neat_separate hcomma (hlist ps fun p hp => by simp [children, hp])
    have hb := (hk b (by simp [children])).1
    simp [doc, Doc.commaSeparated, hparams, hb]
  | ident token => simpa [doc, words] using hwords
  | literal l => exact neat_literalDoc fun s hs => hwords s (by simp [hs, words])
  | factor o steps =>
    have hsteps := Doc.neat_concat (hlist steps fun p hp => by simp [children, hp])
    exact Doc.neat_append.mpr ⟨(hk o (by simp [children])).1, hsteps⟩
  | call c args =>
    have hargs := Doc.neat_separate hcomma (hlist args fun p hp => by simp [children, hp])
    have hc := (hk c (by simp [children])).1
    simp [doc, Doc.commaSeparated, hargs, hc]
  | binary op l r =>
    simp only [children, List.forall_mem_cons] at hk
    cases op <;> simp [doc, BinOp.symbol, hk]
  | exprStmt | assign | case | component | selector | index | paren =>
    simp only [children, List.forall_mem_cons] at hk
    simp [doc, hk]

end Kind

/-! ## Nodes -/

namespace Tree

variable {t : Tree} {x y : Nat}

/-- The documents of a node. -/
def printed (t : Tree) (indent : Int) (x : NodeId) : Printed :=
  t.fold (fun _ k => Printed.mk (k.doc indent) k.typeDoc) default t.size x

/-- The text of one node. -/
def print (t : Tree) (indent : Int) (x : NodeId) : Except Doc.Failure String :=
  (t.doc indent x).plain

theorem printed_eq (indent : Int) (h : t.EndsWithin t.size x) :
    t.printed indent x =
      ⟨((t.kind x).map (t.printed indent)).doc indent, ((t.kind x).map (t.printed indent)).typeDoc⟩ :=
  fold_step h

theorem doc_eq (indent : Int) (h : t.EndsWithin t.size x) :
    t.doc indent x = ((t.kind x).map (t.printed indent)).doc indent :=
  congrArg Printed.doc (printed_eq indent h)

theorem children_of_stmts? {stmts : List NodeId} (hk : t.stmts? x = .some stmts) : t.children x = stmts := by
  rw [Tree.stmts?] at hk
  rw [Tree.children]
  cases hkind : t.kind x <;> rw [hkind] at hk <;> cases hk <;> rfl

/-- What is below a node is there and leads in no circle, and no name and no string
literal in it holds a line break. -/
structure Legible (t : Tree) (x : NodeId) : Prop where
  bounded : ∀ y : Nat, t.Reaches x y → y < t.size
  noCircle : ∀ y, t.Reaches x y → ¬ Relation.TransGen t.Child y y
  words : ∀ y, t.Reaches x y → ∀ s ∈ (t.kind y).words, '\n' ∉ s.toList

theorem Acyclic.legible (h : t.Acyclic) (hwords : ∀ y : Nat, y < t.size → ∀ s ∈ (t.kind y).words, '\n' ∉ s.toList)
    (hx : t.Reachable x) : t.Legible x where
  bounded y hy := h.bounded y (hx.trans hy)
  noCircle y hy := h.noCircle y (hx.trans hy)
  words y hy := hwords y (h.bounded y (hx.trans hy))

namespace Legible

variable (h : t.Legible x)
include h

theorem of_reaches (hy : t.Reaches x y) : t.Legible y where
  bounded z hz := h.bounded z (hy.trans hz)
  noCircle z hz := h.noCircle z (hy.trans hz)
  words z hz := h.words z (hy.trans hz)

theorem endsWithin : t.EndsWithin t.size x := endsWithin_size h.bounded h.noCircle

theorem neat_printed (indent : Nat) : (t.printed indent x).doc.Neat ∧ (t.printed indent x).asType.Neat := by
  have hdown : ∀ n x, t.EndsWithin n x → t.Legible x →
      (t.fold (fun _ k => Printed.mk (k.doc indent) k.typeDoc) default n x).doc.Neat ∧
      (t.fold (fun _ k => Printed.mk (k.doc indent) k.typeDoc) default n x).asType.Neat := by
    intro n
    induction n with
    | zero => exact fun _ hn => hn.elim
    | succ n ih =>
      intro x hn hx
      rw [fold]
      have hwords : ∀ s ∈ ((t.kind x).map (t.fold (fun _ k => Printed.mk (k.doc indent) k.typeDoc) default n)).words,
          '\n' ∉ s.toList := by
        rw [Kind.words_map]
        exact hx.words x (.refl t x)
      refine ⟨Kind.neat_doc indent (fun p hp => ?_) hwords, Kind.neat_typeDoc hwords⟩
      rw [Kind.children_map] at hp
      obtain ⟨c, hc, rfl⟩ := List.mem_map.mp hp
      exact ih c (hn c hc) (hx.of_reaches (.head hc (.refl t c)))
  exact hdown t.size x h.endsWithin h

theorem neat (indent : Nat) : (t.doc indent x).Neat := (h.neat_printed indent).1

/-- The text of a node is there. -/
theorem print_eq (indent : Nat) : t.print indent x = .ok (t.doc indent x).written :=
  Doc.plain_eq_ok.mpr ⟨(h.neat indent).writable, rfl⟩

theorem mapM_print (indent : Nat) {l : List NodeId} (hl : ∀ c ∈ l, c ∈ t.children x) :
    l.mapM (t.print indent) = .ok (l.map fun c => (t.doc indent c).written) := by
  induction l with
  | nil => rfl
  | cons c l ih =>
    obtain ⟨hc, hl⟩ := List.forall_mem_cons.mp hl
    rw [List.mapM_cons, (h.of_reaches (.head hc (.refl t c))).print_eq indent, ih hl]
    rfl

theorem neat_items (indent : Nat) {l : List NodeId} (hl : ∀ c ∈ l, c ∈ t.children x) :
    ∀ d ∈ l.map (t.doc indent), d.Neat := by
  intro d hd
  obtain ⟨c, hc, rfl⟩ := List.mem_map.mp hd
  exact (h.of_reaches (.head (hl c hc) (.refl t c))).neat indent

theorem doc_stmts (indent : Nat) {stmts : List NodeId} (hk : t.stmts? x = .some stmts) :
    t.doc indent x = .block indent (stmts.map (t.doc indent)) := by
  rw [doc_eq indent h.endsWithin]
  rw [Tree.stmts?] at hk
  cases hkind : t.kind x <;> rw [hkind] at hk <;> cases hk <;> simp only [Kind.map, Kind.doc, List.map_map] <;> rfl

theorem doc_visitor (indent : Nat) {arms : List NodeId} {wildcard : Option NodeId}
    (hk : t.kind x = .visitor arms wildcard) :
    t.doc indent x = .keyword "visitor" ++ .space ++ .block indent ((arms ++ wildcard.toList).map (t.doc indent)) := by
  have hmap : (arms.map (t.printed indent) ++ (wildcard.map (t.printed indent)).toList).map (·.doc) =
      (arms ++ wildcard.toList).map (t.doc indent) := by
    rw [Option.toList_map, ← List.map_append, List.map_map]
    rfl
  rw [doc_eq indent h.endsWithin, hk, Kind.map, Kind.doc, hmap]

theorem doc_switch (indent : Nat) {scrutinee : NodeId} {cases : List NodeId} {default : Option NodeId}
    (hk : t.kind x = .switch scrutinee cases default) :
    t.doc indent x = .keyword "switch" ++ .space ++ (t.doc indent scrutinee).parens ++ .space ++
      .block indent (cases.map (t.doc indent) ++ (default.toList.map (t.doc indent)).map .defaultCase) := by
  rw [doc_eq indent h.endsWithin, hk, Kind.map, Kind.doc, Option.toList_map, List.map_map, List.map_map, List.map_map]
  rfl

/-! ## Braces around the parts -/

/-- A node that ends in a block of neat documents prints as what stands before the
block and the texts of those in braces. -/
theorem writtenAs_braced (indent : Nat) {header : String} {ds : List Doc} (hds : ∀ d ∈ ds, d.Neat) (hne : ds ≠ [])
    (hdoc : (t.doc indent x).written = header ++ (Doc.block indent ds).written) :
    (t.doc indent x).WrittenAs (header ++ Text.braced indent (ds.map Doc.written)) := by
  refine (h.neat indent).writtenAs fun hroom => ?_
  rw [String.length_append] at hroom
  rw [hdoc, Doc.written_block indent hne hds (by omega)]

theorem writtenAs_stmts (indent : Nat) {stmts : List NodeId} (hk : t.stmts? x = .some stmts) (hne : stmts ≠ []) :
    (t.doc indent x).WrittenAs (Text.braced indent (stmts.map fun c => (t.doc indent c).written)) := by
  have hneat := h.neat_items indent fun c hc => children_of_stmts? hk ▸ hc
  have hdoc : (t.doc indent x).written = "" ++ (Doc.block indent (stmts.map (t.doc indent))).written := by
    rw [h.doc_stmts indent hk, String.empty_append]
  have hw := h.writtenAs_braced indent hneat (by simpa using hne) hdoc
  rwa [String.empty_append, List.map_map] at hw

theorem writtenAs_visitor (indent : Nat) {arms : List NodeId} {wildcard : Option NodeId}
    (hk : t.kind x = .visitor arms wildcard) (hne : arms ++ wildcard.toList ≠ []) :
    (t.doc indent x).WrittenAs
      ("visitor " ++ Text.braced indent ((arms ++ wildcard.toList).map fun c => (t.doc indent c).written)) := by
  have hneat := h.neat_items indent (l := arms ++ wildcard.toList) fun c hc => by rwa [Tree.children, hk]
  have hdoc : (t.doc indent x).written =
      "visitor " ++ (Doc.block indent ((arms ++ wildcard.toList).map (t.doc indent))).written := by
    rw [h.doc_visitor indent hk, Doc.written_append]
    rfl
  have hw := h.writtenAs_braced indent hneat (by simpa using hne) hdoc
  rwa [List.map_map] at hw

theorem writtenAs_switch (indent : Nat) {scrutinee : NodeId} {cases : List NodeId} {default : Option NodeId}
    (hk : t.kind x = .switch scrutinee cases default) (hne : cases ++ default.toList ≠ []) :
    (t.doc indent x).WrittenAs ("switch (" ++ (t.doc indent scrutinee).written ++ ") " ++
      Text.braced indent ((cases.map fun c => (t.doc indent c).written) ++
        (default.toList.map fun d => (t.doc indent d).written).map ("default: " ++ ·))) := by
  have hchildren : t.children x = scrutinee :: (cases ++ default.toList) := by rw [Tree.children, hk, Kind.children]
  have hcases := h.neat_items indent (l := cases) fun c hc => by simp [hchildren, hc]
  have hdefault := h.neat_items indent (l := default.toList) fun c hc => by
    rw [hchildren]
    exact List.mem_cons_of_mem _ (List.mem_append_right _ hc)
  have hneat : ∀ d ∈ cases.map (t.doc indent) ++ (default.toList.map (t.doc indent)).map .defaultCase, d.Neat := by
    refine List.forall_mem_append.mpr ⟨hcases, fun e he => ?_⟩
    obtain ⟨d, hd, rfl⟩ := List.mem_map.mp he
    exact Doc.neat_defaultCase (hdefault d hd)
  have hdoc : (t.doc indent x).written = "switch (" ++ (t.doc indent scrutinee).written ++ ") " ++
      (Doc.block indent (cases.map (t.doc indent) ++ (default.toList.map (t.doc indent)).map .defaultCase)).written := by
    simp only [h.doc_switch indent hk, Doc.written_append, Doc.parens, Doc.written_text, String.append_assoc]
    rfl
  have hw := h.writtenAs_braced indent hneat (by simpa using hne) hdoc
  simpa only [List.map_append, List.map_map, Function.comp_def, Doc.written_defaultCase] using hw

end Legible

/-- Nesting a document puts spaces behind the line breaks of its text. So a block,
a visitor and a switch print as what their parts print as on their own, one to a
line and moved to the right, between braces, and at any nesting all of it is moved
on by as much. -/
theorem print_composes :
    (∀ (d : Doc) (k : Nat), (∀ s ∈ d.texts, '\n' ∉ s.toList) → (∀ a ∈ d.amounts, 0 ≤ a) →
      (∀ e, d.plain = .error e → (Doc.nest k d).plain = .error e) ∧
      ∀ s, d.plain = .ok s → (Text.indented k s).length ≤ Doc.maxIndent →
        (Doc.nest k d).plain = .ok (Text.indented k s)) ∧
    ∀ (t : Tree) (x : NodeId) (indent : Nat), t.Legible x →
      (∀ stmts, t.stmts? x = .some stmts → stmts ≠ [] →
        ∃ items, stmts.mapM (t.print indent) = .ok items ∧ (t.doc indent x).WrittenAs (Text.braced indent items)) ∧
      (∀ arms wildcard, t.kind x = .visitor arms wildcard → arms ++ wildcard.toList ≠ [] →
        ∃ items, (arms ++ wildcard.toList).mapM (t.print indent) = .ok items ∧
          (t.doc indent x).WrittenAs ("visitor " ++ Text.braced indent items)) ∧
      ∀ scrutinee cases default, t.kind x = .switch scrutinee cases default → cases ++ default.toList ≠ [] →
        ∃ head items body, t.print indent scrutinee = .ok head ∧ cases.mapM (t.print indent) = .ok items ∧
          default.toList.mapM (t.print indent) = .ok body ∧
          (t.doc indent x).WrittenAs
            ("switch (" ++ head ++ ") " ++ Text.braced indent (items ++ body.map ("default: " ++ ·))) := by
  refine ⟨fun d k hlines hdeeper => ⟨fun e he => ?_, fun s hs hroom => ?_⟩, fun t x indent h => ⟨?_, ?_, ?_⟩⟩
  · rw [Doc.plain_eq] at he ⊢
    split at he
    next => cases he
    next hw => exact (if_neg hw).trans he
  · obtain ⟨hw, rfl⟩ := Doc.plain_eq_ok.mp hs
    exact Doc.plain_eq_ok.mpr ⟨hw, Doc.written_nest hlines hdeeper hroom⟩
  · intro stmts hk hne
    exact ⟨_, h.mapM_print indent fun c hc => children_of_stmts? hk ▸ hc, h.writtenAs_stmts indent hk hne⟩
  · intro arms wildcard hk hne
    exact ⟨_, h.mapM_print indent fun c hc => by rwa [Tree.children, hk], h.writtenAs_visitor indent hk hne⟩
  · intro scrutinee cases default hk hne
    have hchildren : t.children x = scrutinee :: (cases ++ default.toList) := by rw [Tree.children, hk, Kind.children]
    have hs : t.Reaches x scrutinee := .head (by simp [hchildren]) (.refl t scrutinee)
    exact ⟨_, _, _, (h.of_reaches hs).print_eq indent, h.mapM_print indent fun c hc => by simp [hchildren, hc],
      h.mapM_print indent fun c hc => by rw [hchildren]; exact List.mem_cons_of_mem _ (List.mem_append_right _ hc),
      h.writtenAs_switch indent hk hne⟩

end Tree

namespace Sample

/-- A switch in an arm of a visitor. -/
def menu : Tree := built do
  let choice ← Build.ident "choice" Env.global
  let label ← Build.literal (.int 1) Env.global
  let order ← Build.exprStmt (← Build.call "order" [] Env.global) Env.global
  let first ← Build.case label (← Build.block [order] Env.global) Env.global
  let rest ← Build.block [] Env.global
  let switch ← Build.switch choice [first] (.some rest) Env.global
  let wildcard ← Build.arm .after .none (← Build.block [switch] Env.global) Env.global
  attach (← Build.exprStmt (← Build.visitor [] (.some wildcard) Env.global) Env.global)

def menuText : String :=
  "switch (choice) \x7b\n  case 1: \x7b\n    order();\n  \x7d\n  default: \x7b\x7d\n\x7d"

/-- The switch, the block around it and the visitor around both, and a line break
moved by three. -/
theorem print_composes_menu :
    (menu.Legible 9 ∧ menu.Legible 10 ∧ menu.Legible 12) ∧
    (menu.doc 2 9).WrittenAs menuText ∧
    (menu.doc 2 10).WrittenAs (Text.braced 2 [menuText]) ∧
    (menu.doc 2 12).WrittenAs ("visitor " ++ Text.braced 2 ["after _ -> " ++ Text.braced 2 [menuText]]) ∧
    (Doc.nest 3 (.text "a" ++ .hardline ++ .text "b")).plain = .ok "a\n   b" := by
  have hacyclic : menu.Acyclic := Tree.BuiltUp.acyclic (by decide +kernel)
  have hlegible := hacyclic.legible (x := Tree.root) (by decide +kernel) (.refl menu _)
  have hvisitor : menu.Legible 12 :=
    hlegible.of_reaches (.head (c := 13) (by decide +kernel) (.head (c := 12) (by decide +kernel) (.refl menu _)))
  have hblock : menu.Legible 10 :=
    hvisitor.of_reaches (.head (c := 11) (by decide +kernel) (.head (c := 10) (by decide +kernel) (.refl menu _)))
  have hswitch : menu.Legible 9 := hblock.of_reaches (.head (c := 9) (by decide +kernel) (.refl menu _))
  obtain ⟨items, hitems, hb⟩ :=
    (Tree.print_composes.2 menu 10 2 hblock).1 [9] (by decide +kernel) (by decide)
  obtain ⟨arms, harms, hv⟩ :=
    (Tree.print_composes.2 menu 12 2 hvisitor).2.1 [] (.some 11) (by decide +kernel) (by decide)
  obtain ⟨head, cases, rest, hhead, hcases, hrest, hs⟩ :=
    (Tree.print_composes.2 menu 9 2 hswitch).2.2 1 [7] (.some 8) (by decide +kernel) (by decide)
  have hitems' : [9].mapM (menu.print 2) = .ok [menuText] := by decide +kernel
  have harms' : [11].mapM (menu.print 2) = .ok ["after _ -> " ++ Text.braced 2 [menuText]] := by decide +kernel
  have hhead' : menu.print 2 1 = .ok "choice" := by decide +kernel
  have hcases' : [7].mapM (menu.print 2) = .ok ["case 1: \x7b\n  order();\n\x7d"] := by decide +kernel
  have hrest' : [8].mapM (menu.print 2) = .ok ["\x7b\x7d"] := by decide +kernel
  obtain rfl := Except.ok.inj (hitems'.symm.trans hitems)
  obtain rfl := Except.ok.inj (harms'.symm.trans harms)
  obtain rfl := Except.ok.inj (hhead'.symm.trans hhead)
  obtain rfl := Except.ok.inj (hcases'.symm.trans hcases)
  obtain rfl := Except.ok.inj (hrest'.symm.trans hrest)
  have htext : "switch (" ++ "choice" ++ ") " ++
      Text.braced 2 (["case 1: \x7b\n  order();\n\x7d"] ++ ["\x7b\x7d"].map ("default: " ++ ·)) = menuText := by
    decide +kernel
  refine ⟨⟨hswitch, hblock, hvisitor⟩, htext ▸ hs, hb, hv, ?_⟩
  exact (Tree.print_composes.1 (.text "a" ++ .hardline ++ .text "b") 3 (by decide) (by decide)).2 "a\nb"
    (by decide) (by decide)

end Sample

end Penumbra
