import Mathlib

/-!
# Least elements that may be missing

`Least P o` says that `o` is the least element with `P`, or nothing when there is
none. A fold that keeps the smaller of two candidates keeps the least.
-/

namespace Smalltalk

variable {α : Type*} [LinearOrder α] {P Q : α → Prop} {o : Option α} {a b : α}

def Least (P : α → Prop) : Option α → Prop
  | none => ∀ x, ¬ P x
  | some a => P a ∧ ∀ x, P x → a ≤ x

theorem Least.unique {o' : Option α} (h : Least P o) (h' : Least P o') : o = o' := by
  cases o with
  | none =>
    cases o' with
    | none => rfl
    | some b => exact absurd h'.1 (h b)
  | some a =>
    cases o' with
    | none => exact absurd h.1 (h' a)
    | some b => rw [le_antisymm (h.2 b h'.1) (h'.2 a h.1)]

theorem Least.congr (h : Least P o) (hPQ : ∀ x, P x ↔ Q x) : Least Q o := by
  cases o with
  | none => exact fun x hx => h x ((hPQ x).mpr hx)
  | some a => exact ⟨(hPQ a).mp h.1, fun x hx => h.2 x ((hPQ x).mpr hx)⟩

theorem Least.insert_le (h : Least P o) (ha : ∀ b ∈ o, a ≤ b) :
    Least (fun x => a = x ∨ P x) (some a) := by
  refine ⟨.inl rfl, ?_⟩
  rintro x (rfl | hx)
  · exact le_rfl
  · cases o with
    | none => exact absurd hx (h x)
    | some b => exact le_trans (ha b rfl) (h.2 x hx)

theorem Least.insert_ge (h : Least P (some b)) (hb : b ≤ a) :
    Least (fun x => a = x ∨ P x) (some b) := by
  refine ⟨.inr h.1, ?_⟩
  rintro x (rfl | hx)
  · exact hb
  · exact h.2 x hx

end Smalltalk
