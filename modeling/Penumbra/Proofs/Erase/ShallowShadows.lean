/-
Shadow types whose parts are concrete.

No part of a shallow shadow type is a shadow type again, so where all shadow
types that a tree starts with are shallow, passes find no other ones
(`inherited_shallow`).
-/
import Penumbra.Proofs.Erase.RemainingShadows

namespace Penumbra

/-- The concrete type, the discriminant's type and the types of all fields are
concrete. -/
structure Shadow.Shallow (s : Shadow Ty) : Prop where
  shadowed : s.shadowedTy.isShadow = false
  discriminant : s.discriminantTy.isShadow = false
  field : ∀ f ∈ s.fields, f.ty.isShadow = false

instance (s : Shadow Ty) : Decidable s.Shallow :=
  decidable_of_iff (s.shadowedTy.isShadow = false ∧ s.discriminantTy.isShadow = false ∧ ∀ f ∈ s.fields, f.ty.isShadow = false)
    ⟨fun ⟨h, hd, hf⟩ => ⟨h, hd, hf⟩, fun h => ⟨h.shadowed, h.discriminant, h.field⟩⟩

/-- The type is no shadow type, or a shallow one. -/
def Ty.Shallow : Ty → Prop
  | .shadow s => s.Shallow
  | _ => True

instance : DecidablePred Ty.Shallow
  | .shadow s => inferInstanceAs (Decidable s.Shallow)
  | .int | .float | .bool | .string | .named _ | .enum _ | .array _ | .function | .visitor => .isTrue trivial

theorem Ty.Shallow.of_concrete {ty : Ty} (h : ty.isShadow = false) : ty.Shallow := by
  cases ty with
  | shadow => cases h
  | _ => trivial

theorem Ty.shadow?_eq_none {ty : Ty} (h : ty.isShadow = false) : ty.shadow? = .none := by
  cases ty with
  | shadow => cases h
  | _ => rfl

theorem Ty.Shallow.erased {ty : Ty} (h : ty.Shallow) : ty.erased.isShadow = false := by
  cases ty with
  | shadow => exact h.shadowed
  | _ => rfl

/-- The expression of a field has a concrete type. -/
theorem Shadow.Shallow.expandedTy {s : Shadow Ty} (h : s.Shallow) {name : String} {field : VirtualField Ty}
    (hf : s.field? name = .some field) : ∀ ty ∈ s.expandedTy field, ty.isShadow = false := by
  intro ty hty
  rw [Shadow.expandedTy] at hty
  split at hty
  · obtain rfl := Option.some.inj hty
    split
    · rfl
    · exact h.field field (List.mem_of_find?_eq_some hf)
  · cases hty

theorem inherited_shallow : Inherited Ty.Shallow where
  concrete ty h := .of_concrete (by cases ty <;> first | rfl | cases h)
  shadowed _ h := .of_concrete h.shadowed
  discriminant _ h := .of_concrete h.discriminant
  field _ f hf h := .of_concrete (h.field f hf)

/-- If all shadow types found in a tree are shallow, so are all its types. -/
theorem typedIn_shallow {t : Tree} (h : ∀ s, Occurs t (.shadow s) → s.Shallow) :
    TypedIn Ty.Shallow t { x | t.Reachable x } := by
  have hty : ∀ ty, Occurs t ty → ty.Shallow := fun ty ho => by
    cases ty with
    | shadow s => exact h s ho
    | _ => trivial
  exact ⟨fun x hx ty ht => hty ty (.node hx ht), fun _ _ ty hb => hty ty (.var hb), fun _ _ ty hb => hty ty (.name hb)⟩

theorem Tree.ListsTypes.occurs {t : Tree} (h : t.ListsTypes Ty.Shallow) {s : Shadow Ty} (hs : Occurs t (.shadow s)) :
    s.Shallow :=
  hs.of_inherited inherited_shallow (h.typedIn _)

end Penumbra
