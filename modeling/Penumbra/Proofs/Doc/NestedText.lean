/-
Nesting moves text to the right.

Where texts hold no line breaks and the nesting only gets deeper, nesting a
document puts spaces behind every line break of its text and changes nothing
else (`chars_nested`). The text of a block is then made from those of its items
(`written_block`). The nesting stops at `maxIndent`, which a text comes to only if
it is longer than that itself, so all of this holds of texts that are not.
-/
import Penumbra.Proofs.Doc.WrittenText

namespace Penumbra

namespace Text

/-- The characters with `k` spaces after every line break. -/
def shifted (k : Nat) (l : List Char) : List Char :=
  l.flatMap fun c => if c = '\n' then c :: List.replicate k ' ' else [c]

/-- The text with `k` spaces after every line break. -/
def indented (k : Nat) (s : String) : String :=
  String.ofList (shifted k s.toList)

/-- The items on lines of their own between braces. -/
def braced (indent : Nat) (items : List String) : String :=
  "\x7b" ++ indented indent (String.join (items.map ("\n" ++ ·))) ++ "\n\x7d"

variable (k : Nat) (l l' : List Char)

@[simp] theorem shifted_append : shifted k (l ++ l') = shifted k l ++ shifted k l' := List.flatMap_append

theorem shifted_of_not_mem {l : List Char} (h : '\n' ∉ l) : shifted k l = l := by
  induction l with
  | nil => rfl
  | cons c l ih =>
    simp only [List.mem_cons, not_or] at h
    rw [shifted, List.flatMap_cons, if_neg (Ne.symm h.1), ← shifted, ih h.2]
    rfl

theorem length_le_shifted : l.length ≤ (shifted k l).length := by
  induction l with
  | nil => exact Nat.le_refl 0
  | cons c l ih =>
    rw [shifted, List.flatMap_cons, ← shifted, List.length_append, List.length_cons]
    split <;> simp <;> omega

end Text

namespace Doc

open Text

/-! ## Deeper nesting -/

theorem nested_comm (n k : Nat) {amount : Int} (h : 0 ≤ amount) :
    nested (nested n k) amount = nested (nested n amount) k := by
  obtain ⟨a, rfl⟩ := Int.eq_ofNat_of_zero_le h
  simp only [nested, ← Int.natCast_add, Int.toNat_natCast, Nat.min_def]
  split <;> split <;> split <;> split <;> omega

theorem nested_of_le {n k : Nat} (h : n + k ≤ maxIndent) : nested n k = n + k := by
  simp only [nested, ← Int.natCast_add, Int.toNat_natCast, Nat.min_def]
  split <;> omega

/-- Nesting a document deeper puts spaces behind its line breaks. -/
theorem chars_nested {d : Doc} (hlines : ∀ s ∈ d.texts, '\n' ∉ s.toList) (hdeeper : ∀ a ∈ d.amounts, 0 ≤ a) (k n : Nat)
    (hroom : (shifted k (d.chars n)).length ≤ maxIndent) : d.chars (nested n k) = shifted k (d.chars n) := by
  induction d generalizing n with
  | nil | fail => rfl
  | text s =>
    simp only [chars_text]
    exact (shifted_of_not_mem k (hlines s (by simp [texts]))).symm
  | hardline =>
    have hspaces : shifted k (List.replicate n ' ') = List.replicate n ' ' := shifted_of_not_mem k (by simp)
    have hline : shifted k ('\n' :: List.replicate n ' ') = '\n' :: (List.replicate k ' ' ++ List.replicate n ' ') := by
      rw [shifted, List.flatMap_cons, if_pos rfl, ← shifted, hspaces]
      rfl
    rw [chars_hardline, hline, List.length_cons, List.length_append, List.length_replicate, List.length_replicate] at hroom
    rw [chars_hardline, chars_hardline, hline, nested_of_le (by omega), List.replicate_append_replicate, Nat.add_comm]
  | cat a b iha ihb =>
    simp only [texts, amounts, List.forall_mem_append] at hlines hdeeper
    simp only [chars_cat, shifted_append, List.length_append] at hroom ⊢
    rw [iha hlines.1 hdeeper.1 n (by omega), ihb hlines.2 hdeeper.2 n (by omega)]
  | nest amount d ih =>
    simp only [amounts, List.forall_mem_cons] at hdeeper
    rw [chars_nest, chars_nest, nested_comm n k hdeeper.1]
    exact ih hlines hdeeper.2 _ hroom
  | mark m d ih =>
    rw [chars_mark] at hroom
    rw [chars_mark, chars_mark]
    exact ih hlines hdeeper n hroom

/-- All texts are on one line, the nesting only gets deeper, and every part can be
written. -/
structure Neat (d : Doc) : Prop where
  lines : ∀ s ∈ d.texts, '\n' ∉ s.toList
  deeper : ∀ a ∈ d.amounts, 0 ≤ a
  writable : d.writable = true

/-- The document is written as the text, and at a deeper nesting as the text with as
many more spaces after every line break, where there is room for it. -/
structure WrittenAs (d : Doc) (s : String) : Prop where
  plain : s.length ≤ maxIndent → d.plain = .ok s
  nested : ∀ k : Nat, (indented k s).length ≤ maxIndent → (nest k d).plain = .ok (indented k s)

theorem written_nest {d : Doc} (hlines : ∀ s ∈ d.texts, '\n' ∉ s.toList) (hdeeper : ∀ a ∈ d.amounts, 0 ≤ a) {k : Nat}
    (hroom : (indented k d.written).length ≤ maxIndent) : (nest k d).written = indented k d.written := by
  rw [indented, ← String.length_toList, String.toList_ofList, toList_written] at hroom
  rw [written, chars_nest, chars_nested hlines hdeeper k 0 hroom, indented, toList_written]

theorem Neat.writtenAs {d : Doc} (h : d.Neat) {s : String} (hs : s.length ≤ maxIndent → d.written = s) :
    d.WrittenAs s := by
  refine ⟨fun hroom => plain_eq_ok.mpr ⟨h.writable, hs hroom⟩, fun k hroom => plain_eq_ok.mpr ⟨h.writable, ?_⟩⟩
  have hle := length_le_shifted k s.toList
  have hlen : (indented k s).length = (shifted k s.toList).length := by
    rw [indented, ← String.length_toList, String.toList_ofList]
  obtain rfl := hs (by rw [String.length_toList] at hle; omega)
  exact written_nest h.lines h.deeper hroom

/-! ## Neat documents -/

section Neat

variable {s : String} {a b d : Doc} {amount : Int} {m : Mark} {ds : List Doc}

@[simp] theorem neat_nil : nil.Neat := ⟨by simp [texts], by simp [Doc.amounts], rfl⟩

@[simp] theorem neat_hardline : hardline.Neat := ⟨by simp [texts], by simp [Doc.amounts], rfl⟩

@[simp] theorem neat_text : (text s).Neat ↔ '\n' ∉ s.toList :=
  ⟨fun h => h.lines s (by simp [texts]), fun h => ⟨by simpa [texts] using h, by simp [Doc.amounts], rfl⟩⟩

@[simp] theorem neat_append : (a ++ b).Neat ↔ a.Neat ∧ b.Neat := by
  have htexts : (a ++ b).texts = a.texts ++ b.texts := rfl
  have hamounts : (a ++ b).amounts = a.amounts ++ b.amounts := rfl
  have hwritable : (a ++ b).writable = (a.writable && b.writable) := rfl
  constructor
  · intro h
    have hl := h.lines
    have hd := h.deeper
    have hw := h.writable
    rw [htexts, List.forall_mem_append] at hl
    rw [hamounts, List.forall_mem_append] at hd
    rw [hwritable, Bool.and_eq_true] at hw
    exact ⟨⟨hl.1, hd.1, hw.1⟩, ⟨hl.2, hd.2, hw.2⟩⟩
  · intro h
    refine ⟨?_, ?_, ?_⟩
    · rw [htexts, List.forall_mem_append]
      exact ⟨h.1.lines, h.2.lines⟩
    · rw [hamounts, List.forall_mem_append]
      exact ⟨h.1.deeper, h.2.deeper⟩
    · rw [hwritable, h.1.writable, h.2.writable]
      rfl

@[simp] theorem neat_nest : (nest amount d).Neat ↔ 0 ≤ amount ∧ d.Neat := by
  constructor
  · intro h
    obtain ⟨ha, hd⟩ := List.forall_mem_cons.mp h.deeper
    exact ⟨ha, h.lines, hd, h.writable⟩
  · intro h
    exact ⟨h.2.lines, List.forall_mem_cons.mpr ⟨h.1, h.2.deeper⟩, h.2.writable⟩

@[simp] theorem neat_mark : (mark m d).Neat ↔ d.Neat :=
  ⟨fun h => ⟨h.lines, h.deeper, h.writable⟩, fun h => ⟨h.lines, h.deeper, h.writable⟩⟩

@[simp] theorem neat_space : space.Neat := neat_text.mpr (by decide)

@[simp] theorem neat_keyword : (keyword s).Neat ↔ '\n' ∉ s.toList := neat_mark.trans neat_text

@[simp] theorem neat_typeName : (typeName s).Neat ↔ '\n' ∉ s.toList := neat_mark.trans neat_text

@[simp] theorem neat_identifier : (identifier s).Neat ↔ '\n' ∉ s.toList := neat_mark.trans neat_text

@[simp] theorem neat_literal : (literal s).Neat ↔ '\n' ∉ s.toList := neat_mark.trans neat_text

@[simp] theorem neat_parens : d.parens.Neat ↔ d.Neat := by simp [parens]

@[simp] theorem neat_brackets : d.brackets.Neat ↔ d.Neat := by simp [brackets]

theorem neat_concat (h : ∀ d ∈ ds, d.Neat) : (concat ds).Neat := by
  induction ds with
  | nil => exact neat_nil
  | cons d ds ih =>
    obtain ⟨hd, hds⟩ := List.forall_mem_cons.mp h
    exact neat_append.mpr ⟨hd, ih hds⟩

theorem neat_separate (ha : a.Neat) (h : ∀ d ∈ ds, d.Neat) : (separate a ds).Neat := by
  induction ds with
  | nil => exact neat_nil
  | cons d ds ih =>
    obtain ⟨hd, hds⟩ := List.forall_mem_cons.mp h
    cases ds with
    | nil => exact hd
    | cons e es => exact neat_append.mpr ⟨neat_append.mpr ⟨hd, ha⟩, ih hds⟩

theorem neat_block (indent : Nat) (h : ∀ d ∈ ds, d.Neat) : (block indent ds).Neat := by
  cases ds with
  | nil => simp [block]
  | cons d ds =>
    have hitems := neat_separate neat_hardline h
    simp [block, braces, hitems]

end Neat

/-! ## Blocks -/

/-- Each item comes after a line break. -/
theorem chars_lines (n : Nat) {ds : List Doc} (hne : ds ≠ []) :
    (hardline ++ separate hardline ds).chars n = ds.flatMap fun d => hardline.chars n ++ d.chars n := by
  induction ds with
  | nil => exact absurd rfl hne
  | cons d ds ih =>
    cases ds with
    | nil => simp [separate]
    | cons e es =>
      have hrest := ih (by simp)
      rw [chars_append] at hrest
      rw [List.flatMap_cons, ← hrest, separate]
      · simp
      · simp

/-- The text of a block is made from the texts of its items. -/
theorem written_block (indent : Nat) {ds : List Doc} (hne : ds ≠ []) (h : ∀ d ∈ ds, d.Neat)
    (hroom : (braced indent (ds.map written)).length ≤ maxIndent) :
    (block indent ds).written = braced indent (ds.map written) := by
  have hitems : (hardline ++ separate hardline ds).written = String.join ((ds.map written).map ("\n" ++ ·)) := by
    rw [← String.toList_inj, toList_written, chars_lines 0 hne, String.toList_join, List.map_map, List.flatMap_map]
    refine congrArg (ds.flatMap ·) (funext fun d => ?_)
    simp [toList_written]
  have hneat : (hardline ++ separate hardline ds).Neat := neat_append.mpr ⟨neat_hardline, neat_separate neat_hardline h⟩
  have hnest : (nest indent (hardline ++ separate hardline ds)).written =
      indented indent (String.join ((ds.map written).map ("\n" ++ ·))) := by
    rw [← hitems]
    refine written_nest hneat.lines hneat.deeper ?_
    rw [hitems]
    simp only [braced, String.length_append] at hroom
    omega
  have hblock : block indent ds = braces (nest indent (hardline ++ separate hardline ds) ++ hardline) := by
    cases ds with
    | nil => exact absurd rfl hne
    | cons d ds => rfl
  have hend : hardline.written = "\n" := rfl
  rw [hblock, braces, written_append, written_append, written_append, hnest, hend, written_text, written_text, braced,
    String.append_assoc, String.append_assoc]
  rfl

end Doc

end Penumbra
