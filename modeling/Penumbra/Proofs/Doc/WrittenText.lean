/-
When a document has a text, and of what that is made.

Laying out fails exactly where some part of the document cannot be written
(`layout_eq`), whatever the nesting and whether or not the text is coloured.
Otherwise the pieces are those of its parts, one after the other (`pieces`), so
what holds of texts is shown by recursion on the document.
-/
import Penumbra.Doc.Ansi

namespace Penumbra.Doc

/-- The texts of a document. -/
def texts : Doc → List String
  | .text s => [s]
  | .cat a b => a.texts ++ b.texts
  | .nest _ d | .mark _ d => d.texts
  | .nil | .hardline | .fail => []

/-- The changes of the nesting in a document. -/
def amounts : Doc → List Int
  | .cat a b => a.amounts ++ b.amounts
  | .nest amount d => amount :: d.amounts
  | .mark _ d => d.amounts
  | .nil | .text _ | .hardline | .fail => []

/-- Whether every part of a document can be written. -/
def writable : Doc → Bool
  | .fail => false
  | .cat a b => a.writable && b.writable
  | .nest _ d | .mark _ d => d.writable
  | .nil | .text _ | .hardline => true

/-- The pieces of a document at the given nesting, without the parts that cannot
be written. -/
def pieces (indent : Nat) : Doc → List Piece
  | .nil | .fail => []
  | .text s => [.text s]
  | .hardline => [.newline indent]
  | .cat a b => a.pieces indent ++ b.pieces indent
  | .nest amount d => d.pieces (nested indent amount)
  | .mark m d => .enter m :: (d.pieces indent ++ [.leave])

/-- The characters of a document at the given nesting. -/
def chars (indent : Nat) (d : Doc) : List Char :=
  (d.pieces indent).flatMap (·.plain.toList)

/-- The text of a document, without the parts that cannot be written. -/
def written (d : Doc) : String :=
  String.ofList (d.chars 0)

variable (d : Doc) (indent : Nat)

theorem layout_eq : d.layout indent = if d.writable then .ok (d.pieces indent) else .error .unwritable := by
  induction d generalizing indent with
  | nil | text | hardline | fail => rfl
  | cat a b iha ihb =>
    rw [layout, iha, ihb, writable, pieces]
    cases a.writable <;> cases b.writable <;> rfl
  | nest amount d ih => exact ih _
  | mark m d ih =>
    rw [layout, ih, writable, pieces]
    cases d.writable <;> rfl

theorem plain_eq : d.plain = if d.writable then .ok d.written else .error .unwritable := by
  have hjoin : String.join ((d.pieces 0).map Piece.plain) = d.written := by
    rw [← String.toList_inj, String.toList_join, written, String.toList_ofList, List.flatMap_map, chars]
  rw [plain, layout_eq, ← hjoin]
  cases d.writable <;> rfl

theorem coloured_eq :
    d.coloured = if d.writable then .ok (Ansi.write [] (d.pieces 0)) else .error .unwritable := by
  rw [coloured, layout_eq]
  cases d.writable <;> rfl

/-! ## Texts along the document -/

section Parts

variable (s : String) (a b : Doc) (amount : Int) (m : Mark)

@[simp] theorem chars_nil : nil.chars indent = [] := rfl

@[simp] theorem chars_text : (text s).chars indent = s.toList := by
  simp [chars, pieces, Piece.plain]

@[simp] theorem chars_hardline : hardline.chars indent = '\n' :: List.replicate indent ' ' := by
  simp [chars, pieces, Piece.plain, Text.filler]

@[simp] theorem chars_cat : (cat a b).chars indent = a.chars indent ++ b.chars indent := by
  simp [chars, pieces]

@[simp] theorem chars_append : (a ++ b).chars indent = a.chars indent ++ b.chars indent := chars_cat ..

@[simp] theorem chars_nest : (nest amount d).chars indent = d.chars (nested indent amount) := rfl

@[simp] theorem chars_mark : (mark m d).chars indent = d.chars indent := by
  simp [chars, pieces, Piece.plain]

theorem toList_written : d.written.toList = d.chars 0 := String.toList_ofList

@[simp] theorem written_text : (text s).written = s := by
  rw [← String.toList_inj, toList_written, chars_text]

@[simp] theorem written_append : (a ++ b).written = a.written ++ b.written := by
  rw [← String.toList_inj, String.toList_append]
  simp only [toList_written, chars_append]

@[simp] theorem written_mark : (mark m d).written = d.written := by
  rw [written, chars_mark, written]

end Parts

variable {d} {a b : Doc} {s s' : String}

theorem plain_eq_ok : d.plain = .ok s ↔ d.writable = true ∧ d.written = s := by
  rw [plain_eq]
  cases d.writable <;> simp

theorem plain_append (ha : a.plain = .ok s) (hb : b.plain = .ok s') : (a ++ b).plain = .ok (s ++ s') := by
  obtain ⟨hwa, rfl⟩ := plain_eq_ok.mp ha
  obtain ⟨hwb, rfl⟩ := plain_eq_ok.mp hb
  refine plain_eq_ok.mpr ⟨?_, written_append ..⟩
  show (a.writable && b.writable) = true
  rw [hwa, hwb]
  rfl

theorem plain_concat {α : Type} {l : List α} {f : α → Doc} {g : α → String} (h : ∀ x ∈ l, (f x).plain = .ok (g x)) :
    (concat (l.map f)).plain = .ok (String.join (l.map g)) := by
  induction l with
  | nil => rfl
  | cons x l ih =>
    obtain ⟨hx, hl⟩ := List.forall_mem_cons.mp h
    rw [List.map_cons, List.map_cons, String.join_cons]
    exact plain_append hx (ih hl)

end Penumbra.Doc
