/-
Layers and their children.

`children`, `map` and `mapM` go through the parts of a layer separately. What
ties them together is `refill`, which puts a list in place of the children:
the children of the result are the list, mapping a layer is refilling it with
its mapped children, and running `mapM` is running the children's actions in
order and refilling with their results.
-/
import Penumbra.Program.Kind
import Mathlib.Data.List.Basic

namespace Penumbra.Kind

variable {α β γ : Type}

-- The equations of the two are made here, once, and not in the course of each proof below.
attribute [local simp] map children

theorem children_map (f : α → β) (k : Kind α) : (k.map f).children = k.children.map f := by
  cases k with
  | varDecl n a i => cases a <;> cases i <;> rfl
  | ifStmt c y n => cases n <;> rfl
  | returnStmt v => cases v <;> rfl
  | switch s cs d => cases d <;> simp [map, children]
  | visitor arms w => cases w <;> simp [map, children]
  | arm p c b => cases c <;> rfl
  | function ps b => simp [map, children]
  | _ => rfl

theorem map_congr {f g : α → β} {k : Kind α} (h : ∀ c ∈ k.children, f c = g c) : k.map f = k.map g := by
  cases k with
  | varDecl n a i => cases a <;> cases i <;> simp_all [map, children]
  | ifStmt c y n => cases n <;> simp_all [map, children]
  | returnStmt v => cases v <;> simp_all [map, children]
  | switch s cs d => cases d <;> simp_all [map, children]
  | visitor arms w => cases w <;> simp_all [map, children]
  | arm p c b => cases c <;> simp_all [map, children]
  | _ => simp_all [map, children]

section Inversion

variable {f : α → β} {k : Kind α}

theorem map_eq_arm {p : Phase} {c' b' : β} (h : k.map f = .arm p (.some c') b') :
    ∃ c b, k = .arm p (.some c) b ∧ f c = c' ∧ f b = b' := by
  cases k with
  | arm q c b =>
    simp only [map, arm.injEq, Option.map_eq_some_iff] at h
    obtain ⟨rfl, ⟨c, rfl, hc⟩, hb⟩ := h
    exact ⟨c, b, rfl, hc, hb⟩
  | _ => cases h

theorem map_eq_component {n' a' : β} (h : k.map f = .component n' a') :
    ∃ n a, k = .component n a ∧ f n = n' ∧ f a = a' := by
  cases k with
  | component n a =>
    simp only [map, component.injEq] at h
    exact ⟨n, a, rfl, h⟩
  | _ => cases h

theorem map_eq_arm_none {p : Phase} {b' : β} (h : k.map f = .arm p .none b') : ∃ b, k = .arm p .none b ∧ f b = b' := by
  cases k with
  | arm q c b =>
    simp only [map, arm.injEq, Option.map_eq_none_iff] at h
    obtain ⟨rfl, rfl, hb⟩ := h
    exact ⟨b, rfl, hb⟩
  | _ => cases h

theorem map_eq_factor {o' : β} {l' : List β} (h : k.map f = .factor o' l') :
    ∃ o l, k = .factor o l ∧ f o = o' ∧ l.map f = l' := by
  cases k with
  | factor o l =>
    simp only [map, factor.injEq] at h
    exact ⟨o, l, rfl, h⟩
  | _ => cases h

theorem map_eq_selector {c' : β} (h : k.map f = .selector c') : ∃ c, k = .selector c ∧ f c = c' := by
  cases k with
  | selector c => exact ⟨c, rfl, by simpa [map] using h⟩
  | _ => cases h

theorem map_eq_ident {token : String} : k.map f = .ident token ↔ k = .ident token := by
  cases k <;> simp [map]

end Inversion

theorem map_id (k : Kind α) : k.map (fun a => a) = k := by
  cases k <;> simp [map]

theorem map_map (g : β → γ) (f : α → β) (k : Kind α) : (k.map f).map g = k.map (fun a => g (f a)) := by
  cases k <;> simp [map, Function.comp_def]

/-- The layer with the list in place of its children. A list of the wrong
length makes a block, which no use of `refill` comes to. -/
def refill : Kind α → List β → Kind β
  | .program _, cs => .program cs
  | .block _, cs => .block cs
  | .varDecl _ .none .none, [n] => .varDecl n .none .none
  | .varDecl _ (.some _) .none, [n, a] => .varDecl n (.some a) .none
  | .varDecl _ .none (.some _), [n, i] => .varDecl n .none (.some i)
  | .varDecl _ (.some _) (.some _), [n, a, i] => .varDecl n (.some a) (.some i)
  | .assign _ _, [l, r] => .assign l r
  | .exprStmt _, [e] => .exprStmt e
  | .ifStmt _ _ .none, [c, y] => .ifStmt c y .none
  | .ifStmt _ _ (.some _), [c, y, n] => .ifStmt c y (.some n)
  | .returnStmt _, cs => .returnStmt cs.head?
  | .switch _ cases _, c :: cs => .switch c (cs.take cases.length) (cs.drop cases.length).head?
  | .case _ _, [l, b] => .case l b
  | .visitor arms _, cs => .visitor (cs.take arms.length) (cs.drop arms.length).head?
  | .arm p .none _, [b] => .arm p .none b
  | .arm p (.some _) _, [c, b] => .arm p (.some c) b
  | .component _ _, [n, a] => .component n a
  | .function params _, cs =>
    match cs.drop params.length with
    | [b] => .function (cs.take params.length) b
    | _ => .block cs
  | .ident token, _ => .ident token
  | .literal l, _ => .literal l
  | .factor _ _, o :: ss => .factor o ss
  | .selector _, [f] => .selector f
  | .index _, [i] => .index i
  | .call _ _, c :: args => .call c args
  | .paren _, [i] => .paren i
  | .binary op _ _, [l, r] => .binary op l r
  | _, cs => .block cs

theorem refill_map_children (f : α → β) (k : Kind α) : k.refill (k.children.map f) = k.map f := by
  cases k with
  | varDecl n a i => cases a <;> cases i <;> rfl
  | ifStmt c y n => cases n <;> rfl
  | returnStmt v => cases v <;> rfl
  | switch s cs d => cases d <;> simp [refill, children, map, List.take_of_length_le]
  | visitor arms w => cases w <;> simp [refill, children, map, List.take_of_length_le]
  | arm p c b => cases c <;> rfl
  | function ps b => simp [refill, children, map]
  | _ => rfl

theorem refill_children (k : Kind α) : k.refill k.children = k := by
  have h := refill_map_children (fun a => a) k
  rwa [map_id, List.map_id'] at h

theorem map_refill (f : β → γ) (k : Kind α) (cs : List β) :
    (k.refill cs).map f = k.refill (cs.map f) := by
  cases k with
  | varDecl n a i =>
    rcases cs with _ | ⟨x, _ | ⟨y, _ | ⟨z, _ | ⟨w, cs⟩⟩⟩⟩ <;> cases a <;> cases i <;> rfl
  | ifStmt c y n =>
    rcases cs with _ | ⟨x, _ | ⟨y, _ | ⟨z, _ | ⟨w, cs⟩⟩⟩⟩ <;> cases n <;> rfl
  | returnStmt v => cases cs <;> rfl
  | switch s cases d => cases cs <;> simp [refill, map]
  | visitor arms w => simp [refill, map]
  | arm p c b => rcases cs with _ | ⟨x, _ | ⟨y, _ | ⟨z, cs⟩⟩⟩ <;> cases c <;> rfl
  | function ps b =>
    simp only [refill, ← List.map_drop, ← List.map_take]
    rcases cs.drop ps.length with _ | ⟨x, _ | ⟨y, ds⟩⟩ <;> rfl
  | factor o ss => cases cs <;> rfl
  | call c args => cases cs <;> rfl
  | assign | case | component | binary => rcases cs with _ | ⟨x, _ | ⟨y, _ | ⟨z, cs⟩⟩⟩ <;> rfl
  | exprStmt | selector | index | paren => rcases cs with _ | ⟨x, _ | ⟨y, cs⟩⟩ <;> rfl
  | _ => rfl

/-- A list with at most one entry behind the first `n`. -/
theorem take_append_head? {n : Nat} {l : List α} (h : l.length ≤ n + 1) :
    l.take n ++ (l.drop n).head?.toList = l := by
  have hd : (l.drop n).length ≤ 1 := by simp; omega
  have hl := List.take_append_drop n l
  generalize l.drop n = d at hd hl
  rcases d with _ | ⟨x, _ | ⟨y, d⟩⟩
  · exact hl
  · exact hl
  · simp at hd

theorem children_refill (k : Kind α) {cs : List β} (h : cs.length = k.children.length) :
    (k.refill cs).children = cs := by
  cases k with
  | varDecl n a i =>
    rcases cs with _ | ⟨x, _ | ⟨y, _ | ⟨z, _ | ⟨w, cs⟩⟩⟩⟩ <;> cases a <;> cases i <;> rfl
  | ifStmt c y n =>
    rcases cs with _ | ⟨x, _ | ⟨y, _ | ⟨z, _ | ⟨w, cs⟩⟩⟩⟩ <;> cases n <;> rfl
  | returnStmt v =>
    have hv : v.toList.length ≤ 1 := by cases v <;> simp
    simp only [children] at h
    exact take_append_head? (n := 0) (by omega)
  | switch s cases d =>
    rcases cs with _ | ⟨x, cs⟩
    · rfl
    · have hd : d.toList.length ≤ 1 := by cases d <;> simp
      simp only [children, List.length_cons, List.length_append] at h
      exact congrArg (x :: ·) (take_append_head? (by omega))
  | visitor arms w =>
    have hw : w.toList.length ≤ 1 := by cases w <;> simp
    simp only [children, List.length_append] at h
    exact take_append_head? (by omega)
  | arm p c b => rcases cs with _ | ⟨x, _ | ⟨y, _ | ⟨z, cs⟩⟩⟩ <;> cases c <;> rfl
  | function ps b =>
    have hl := List.take_append_drop ps.length cs
    simp only [refill]
    generalize cs.drop ps.length = d at hl
    rcases d with _ | ⟨x, _ | ⟨y, d⟩⟩
    · rfl
    · exact hl
    · rfl
  | ident | literal => exact (List.length_eq_zero_iff.mp h).symm
  | factor o ss => cases cs <;> rfl
  | call c args => cases cs <;> rfl
  | assign | case | component | binary => rcases cs with _ | ⟨x, _ | ⟨y, _ | ⟨z, cs⟩⟩⟩ <;> rfl
  | exprStmt | selector | index | paren => rcases cs with _ | ⟨x, _ | ⟨y, cs⟩⟩ <;> rfl
  | program | block => rfl

section Actions

variable {m : Type → Type} [Monad m] [LawfulMonad m] (f : α → m β)

/-- What follows the actions of a list may use that there is a result for
each. -/
theorem mapM_bind_congr {l : List α} {g h : List β → m γ}
    (hgh : ∀ bs : List β, bs.length = l.length → g bs = h bs) : l.mapM f >>= g = l.mapM f >>= h := by
  induction l generalizing g h with
  | nil => simpa using hgh [] rfl
  | cons a l ih =>
    simp only [List.mapM_cons, bind_assoc, pure_bind]
    refine congrArg (f a >>= ·) (funext fun b => ?_)
    exact ih fun bs hbs => hgh (b :: bs) (by simp [hbs])

/-- Running `mapM` runs the children's actions in order and refills. -/
theorem mapM_eq_refill (k : Kind α) : k.mapM f = k.refill <$> k.children.mapM f := by
  cases k with
  | varDecl n a i => cases a <;> cases i <;> simp [mapM, children, refill]
  | ifStmt c y n => cases n <;> simp [mapM, children, refill]
  | returnStmt v => cases v <;> simp [mapM, children, refill]
  | switch s cs d =>
    cases d <;> simp only [mapM, children, map_eq_pure_bind, Option.toList, List.append_nil,
      List.mapM_append, List.mapM_cons, List.mapM_nil, Option.mapM_none, Option.mapM_some, bind_assoc, pure_bind] <;>
      refine congrArg (f s >>= ·) (funext fun b => mapM_bind_congr f fun bs hbs => ?_) <;>
      simp [refill, ← hbs]
  | visitor arms w =>
    cases w <;> simp only [mapM, children, map_eq_pure_bind, Option.toList, List.append_nil,
      List.mapM_append, List.mapM_cons, List.mapM_nil, Option.mapM_none, Option.mapM_some, bind_assoc, pure_bind] <;>
      refine mapM_bind_congr f fun bs hbs => ?_ <;>
      simp [refill, ← hbs]
  | arm p c b => cases c <;> simp [mapM, children, refill]
  | function ps b =>
    simp only [mapM, children, map_eq_pure_bind, List.mapM_append, List.mapM_cons, List.mapM_nil,
      bind_assoc, pure_bind]
    refine mapM_bind_congr f fun bs hbs => ?_
    simp [refill, ← hbs]
  | program | block => rw [map_eq_pure_bind]; rfl
  | _ => simp [mapM, children, refill]

end Actions

end Penumbra.Kind
