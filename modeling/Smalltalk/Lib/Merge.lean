import Mathlib.Data.Finset.Card
import Mathlib.Data.Finset.SymmDiff
import Mathlib.Order.WellFounded

/-!
# Two sets that merge

A pair of finite sets that grow only by each other's members. A pair that does not come to
rest apart comes to rest at the union.
-/

namespace Smalltalk

open Finset

variable {α : Type} [DecidableEq α]

structure Merges (before after : Finset α × Finset α) : Prop where
  left : before.1 ⊆ after.1
  right : before.2 ⊆ after.2
  left_le : after.1 ⊆ before.1 ∪ before.2
  right_le : after.2 ⊆ before.1 ∪ before.2

namespace Merges

variable {p q r : Finset α × Finset α}

theorem refl (p : Finset α × Finset α) : Merges p p :=
  ⟨Finset.Subset.refl _, Finset.Subset.refl _, subset_union_left, subset_union_right⟩

theorem union_eq (h : Merges p q) : q.1 ∪ q.2 = p.1 ∪ p.2 :=
  (union_subset h.left_le h.right_le).antisymm (union_subset_union h.left h.right)

theorem trans (hp : Merges p q) (hq : Merges q r) : Merges p r where
  left := hp.left.trans hq.left
  right := hp.right.trans hq.right
  left_le := hp.union_eq ▸ hq.left_le
  right_le := hp.union_eq ▸ hq.right_le

theorem symmDiff_subset (h : Merges p q) : symmDiff q.1 q.2 ⊆ symmDiff p.1 p.2 := by
  intro a ha
  rw [mem_symmDiff] at ha ⊢
  rcases ha with ⟨h1, h2⟩ | ⟨h2, h1⟩
  · have hn : a ∉ p.2 := fun hi => h2 (h.right hi)
    exact .inl ⟨(mem_union.mp (h.left_le h1)).resolve_right hn, hn⟩
  · have hn : a ∉ p.1 := fun hi => h1 (h.left hi)
    exact .inr ⟨(mem_union.mp (h.right_le h2)).resolve_left hn, hn⟩

theorem card_lt (h : Merges p q) (hne : q ≠ p) :
    (symmDiff q.1 q.2).card < (symmDiff p.1 p.2).card := by
  apply card_lt_card
  refine Finset.ssubset_iff_subset_ne.mpr ⟨h.symmDiff_subset, fun heq => hne ?_⟩
  have hl : q.1 ⊆ p.1 := by
    intro a ha
    by_contra hn
    have hr := (mem_union.mp (h.left_le ha)).resolve_left hn
    have hi : a ∈ symmDiff q.1 q.2 := heq ▸ mem_symmDiff.mpr (.inr ⟨hr, hn⟩)
    rcases mem_symmDiff.mp hi with hi | hi
    · exact hi.2 (h.right hr)
    · exact hi.2 ha
  have hr : q.2 ⊆ p.2 := by
    intro a ha
    by_contra hn
    have hl := (mem_union.mp (h.right_le ha)).resolve_right hn
    have hi : a ∈ symmDiff q.1 q.2 := heq ▸ mem_symmDiff.mpr (.inl ⟨hl, hn⟩)
    rcases mem_symmDiff.mp hi with hi | hi
    · exact hi.2 ha
    · exact hi.2 (h.left hl)
  exact Prod.ext (hl.antisymm h.left) (hr.antisymm h.right)

/-! ## Sequences of merges -/

section
variable {s : Nat → Finset α × Finset α} (hmerges : ∀ n, Merges (s n) (s (n + 1)))
include hmerges

theorem of_le {m n : Nat} (h : m ≤ n) : Merges (s m) (s n) := by
  induction n, h using Nat.le_induction with
  | base => exact refl _
  | succ n _ ih => exact ih.trans (hmerges n)

theorem eq_union_of_eq {m n : Nat} (heq : (s m).1 = (s m).2) (h : m ≤ n) :
    s n = ((s 0).1 ∪ (s 0).2, (s 0).1 ∪ (s 0).2) := by
  have hm := (of_le hmerges (Nat.zero_le m)).union_eq
  rw [← heq, union_self] at hm
  have hn := of_le hmerges h
  have hl : (s m).1 ∪ (s m).2 = (s 0).1 ∪ (s 0).2 := (of_le hmerges (Nat.zero_le m)).union_eq
  apply Prod.ext
  · exact (hl ▸ hn.left_le).antisymm (hm ▸ hn.left)
  · exact (hl ▸ hn.right_le).antisymm (hm ▸ heq ▸ hn.right)

/-- Steps that always change a pair that differs reach the union within as many steps as there are
differences. -/
theorem eq_union_of_moves (hm : ∀ n, (s n).1 ≠ (s n).2 → s (n + 1) ≠ s n) {n : Nat}
    (hn : (symmDiff (s 0).1 (s 0).2).card ≤ n) : s n = ((s 0).1 ∪ (s 0).2, (s 0).1 ∪ (s 0).2) := by
  have hb : ∀ n, (s n).1 = (s n).2 ∨
      (symmDiff (s n).1 (s n).2).card + n ≤ (symmDiff (s 0).1 (s 0).2).card := by
    intro n
    induction n with
    | zero => exact .inr le_rfl
    | succ n ih =>
      by_cases heq : (s n).1 = (s n).2
      · have hl := eq_union_of_eq hmerges heq (Nat.le_succ n)
        exact .inl (by rw [hl])
      · have hs := (hmerges n).card_lt (hm n heq)
        have := ih.resolve_left heq
        exact .inr (by omega)
  rcases hb n with heq | hle
  · exact eq_union_of_eq hmerges heq le_rfl
  · have hdiff : (symmDiff (s n).1 (s n).2).card = 0 := by omega
    rw [card_eq_zero, symmDiff_eq_empty] at hdiff
    exact eq_union_of_eq hmerges hdiff le_rfl

/-- A sequence that comes to rest only at equal sets comes to rest at the union. -/
theorem exists_eq_union (hr : ∀ m, (∀ n ≥ m, s n = s m) → (s m).1 = (s m).2) :
    ∃ m, ∀ n ≥ m, s n = ((s 0).1 ∪ (s 0).2, (s 0).1 ∪ (s 0).2) := by
  -- From a time at which the difference is smallest, nothing changes.
  let size : Nat → Nat := fun n => (symmDiff (s n).1 (s n).2).card
  let m := Function.argmin size
  have hs : ∀ n ≥ m, s n = s m := by
    intro n hn
    by_contra hne
    have hl : size n < size m := (of_le hmerges hn).card_lt hne
    exact absurd (Function.argmin_le size n) (not_le.mpr hl)
  exact ⟨m, fun n hn => eq_union_of_eq hmerges (hr m hs) hn⟩

end

end Merges

end Smalltalk
