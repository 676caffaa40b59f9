/-
Spans at the limit of 32 bits.

However a span is made, it runs from where to where it should and does not end before
it starts (`Runs`). So its length is a true difference, and a span that is written as a
range and read back is the same (`ofRange?_toRange`). The other way round it is not:
reading takes the low 32 bits of both ends of a range apart from each other. They come
out in the wrong order, and there is no span, or in the right order, and then the span
is the range if and only if the range ends below the limit (`conversion_limits`).
-/
import Penumbra.Source.Span
import Mathlib.Algebra.Group.Nat.Defs

namespace Penumbra.Span

/-- The span is made in one of the ways there are, and should run from `m` to `n`. -/
inductive Runs : Span → Nat → Nat → Prop where
  | between {a b : UInt32} {s} (made : of? a b = .some s) : Runs s a.toNat b.toNat
  | initial : Runs initial 0 0
  | default : Runs default 0 0
  | merge {s s' m n m' n'} (first : Runs s m n) (second : Runs s' m' n') :
      Runs (s.merge s') (min m m') (max n n')
  | ofRange {r s} (made : ofRange? r = .some s) : Runs s (r.offset % 2 ^ 32) ((r.offset + r.length) % 2 ^ 32)

variable {a b : UInt32} {s s' : Span} {r : Range} {m n : Nat}

/-! ## From two positions -/

theorem of?_eq_some_iff : of? a b = .some s ↔ s.start.offset = a ∧ s.stop.offset = b := by
  constructor
  · intro h
    rw [of?] at h
    split at h
    · cases h
      exact ⟨rfl, rfl⟩
    · cases h
  · intro h
    obtain ⟨rfl, rfl⟩ := h
    rw [of?, dif_pos s.start_le_stop]

theorem of?_eq_none_iff : of? a b = .none ↔ b < a := by
  rw [of?]
  split <;> simp_all

theorem toNat_start_le (s : Span) : s.start.offset.toNat ≤ s.stop.offset.toNat :=
  UInt32.le_iff_toNat_le.mp s.start_le_stop

/-! ## Merging -/

theorem toNat_merge_start : (s.merge s').start.offset.toNat = min s.start.offset.toNat s'.start.offset.toNat := by
  simp only [merge, UInt32.le_iff_toNat_le]
  split <;> omega

theorem toNat_merge_stop : (s.merge s').stop.offset.toNat = max s.stop.offset.toNat s'.stop.offset.toNat := by
  simp only [merge, UInt32.le_iff_toNat_le]
  split <;> omega

/-! ## From a range -/

theorem ofRange?_eq_some_iff : ofRange? r = .some s ↔
    s.start.offset.toNat = r.offset % 2 ^ 32 ∧ s.stop.offset.toNat = (r.offset + r.length) % 2 ^ 32 := by
  rw [ofRange?, of?_eq_some_iff, ← UInt32.toNat_inj, ← UInt32.toNat_inj]
  simp

theorem ofRange?_eq_none_iff : ofRange? r = .none ↔ (r.offset + r.length) % 2 ^ 32 < r.offset % 2 ^ 32 := by
  rw [ofRange?, of?_eq_none_iff, UInt32.lt_iff_toNat_lt]
  simp

theorem start_add_length (s : Span) : s.start.offset.toNat + s.length = s.stop.offset.toNat := by
  have hle := s.toNat_start_le
  rw [length]
  omega

/-- A span that is written as a range is read back. -/
theorem ofRange?_toRange (s : Span) : ofRange? s.toRange = .some s := by
  rw [ofRange?_eq_some_iff]
  have hstart := s.start.offset.toNat_lt
  have hstop := s.stop.offset.toNat_lt
  simp only [toRange, start_add_length]
  omega

/-- What is read of a range is the range exactly if it ends below the limit. -/
theorem toRange_eq_iff (h : ofRange? r = .some s) : s.toRange = r ↔ r.offset + r.length < 2 ^ 32 := by
  obtain ⟨offset, length⟩ := r
  obtain ⟨hstart, hstop⟩ := ofRange?_eq_some_iff.mp h
  have hlength := s.start_add_length
  simp only [toRange, Range.mk.injEq] at hstart hstop ⊢
  omega

/-! ## Made spans -/

theorem Runs.ends (h : Runs s m n) : s.start.offset.toNat = m ∧ s.stop.offset.toNat = n := by
  induction h with
  | between made =>
    obtain ⟨rfl, rfl⟩ := of?_eq_some_iff.mp made
    exact ⟨rfl, rfl⟩
  | initial => exact ⟨rfl, rfl⟩
  | default => exact ⟨rfl, rfl⟩
  | merge _ _ ih ih' =>
    rw [toNat_merge_start, toNat_merge_stop, ih.1, ih.2, ih'.1, ih'.2]
    exact ⟨rfl, rfl⟩
  | ofRange made => exact ofRange?_eq_some_iff.mp made

/-- A span runs forward, however it is made, and is read back from its range. A range
cannot be read if its ends change places when their high bits are dropped, and what is
read of it is the range again if and only if it ends below the limit. -/
theorem conversion_limits :
    (∀ s m n, Runs s m n → m ≤ n ∧ s.start.offset.toNat = m ∧ s.stop.offset.toNat = n ∧ m + s.length = n ∧
      ofRange? s.toRange = .some s) ∧
    (∀ a b : UInt32, of? a b = .none ↔ b < a) ∧
    ∀ r : Range, (ofRange? r = .none ↔ (r.offset + r.length) % 2 ^ 32 < r.offset % 2 ^ 32) ∧
      ((∃ s, ofRange? r = .some s ∧ s.toRange = r) ↔ r.offset + r.length < 2 ^ 32) := by
  refine ⟨fun s m n h => ?_, fun a b => of?_eq_none_iff, fun r => ⟨ofRange?_eq_none_iff, ?_⟩⟩
  · obtain ⟨rfl, rfl⟩ := h.ends
    exact ⟨s.toNat_start_le, rfl, rfl, s.start_add_length, s.ofRange?_toRange⟩
  · constructor
    · intro h
      obtain ⟨s, hs, hr⟩ := h
      exact (toRange_eq_iff hs).mp hr
    · intro h
      cases hs : ofRange? r with
      | none =>
        have hlt := ofRange?_eq_none_iff.mp hs
        omega
      | some s => exact ⟨s, rfl, (toRange_eq_iff hs).mpr h⟩

end Penumbra.Span

namespace Penumbra.Sample

def near : Span := ⟨⟨3⟩, ⟨10⟩, by decide⟩

/-- What is read of twelve bytes behind the limit. -/
def wrapped : Span := ⟨⟨7⟩, ⟨19⟩, by decide⟩

/-- Behind the limit a range is shifted, shortened or not read at all; the span that is
read is sound in each case. -/
theorem wrapped_conversion :
    Span.of? 3 10 = .some near ∧ Span.ofRange? ⟨2 ^ 32 + 7, 12⟩ = .some wrapped ∧ wrapped.toRange = ⟨7, 12⟩ ∧
    Span.ofRange? ⟨7, 2 ^ 32 + 12⟩ = .some wrapped ∧ Span.ofRange? ⟨2 ^ 32 - 1, 2⟩ = .none ∧
    Span.Runs (near.merge wrapped) 3 19 ∧ 3 + (near.merge wrapped).length = 19 ∧
    Span.ofRange? (near.merge wrapped).toRange = .some (near.merge wrapped) := by
  have hnear : Span.of? 3 10 = .some near := by decide
  have hwrapped : Span.ofRange? ⟨2 ^ 32 + 7, 12⟩ = .some wrapped := by decide
  have hruns : Span.Runs (near.merge wrapped) 3 19 := .merge (.between hnear) (.ofRange hwrapped)
  obtain ⟨hmade, -, hread⟩ := Span.conversion_limits
  obtain ⟨-, -, -, hlength, hback⟩ := hmade _ _ _ hruns
  exact ⟨hnear, hwrapped, by decide, by decide, (hread _).1.mpr (by decide), hruns, hlength, hback⟩

end Penumbra.Sample
