import Mathlib.Algebra.BigOperators.Group.Finset.Basic
import Mathlib.Algebra.BigOperators.Group.List.Basic
import Mathlib.Tactic.Abel
import Smalltalk.Lib.Table

/-!
# Sums over keyed rows

A row, where a key has one, weighs in a commutative group. When one key's row
changes, the sum changes by that row, whichever keys are summed over.
-/

namespace Smalltalk

open Finset List

section
variable {κ ρ G : Type*} [AddCommGroup G] (weight : ρ → G)

def weigh (row : Option ρ) : G := (row.map weight).getD 0

@[simp] theorem weigh_none : weigh weight none = 0 := rfl

@[simp] theorem weigh_some (row : ρ) : weigh weight (some row) = weight row := rfl

theorem sum_filterMap (f : κ → Option ρ) (keys : List κ) :
    ((keys.filterMap f).map weight).sum = (keys.map fun k => weigh weight (f k)).sum := by
  induction keys with
  | nil => rfl
  | cons k keys ih => cases hk : f k <;> simp [hk, ih]

variable [DecidableEq κ]

def Covers (f : κ → Option ρ) (keys : List κ) : Prop := keys.Nodup ∧ ∀ k, f k ≠ none → k ∈ keys

variable {weight} {f g : κ → Option ρ} {keys m : List κ}

theorem Covers.sum_eq (h : Covers f keys) :
    ((keys.filterMap f).map weight).sum = ∑ k ∈ keys.toFinset, weigh weight (f k) := by
  rw [sum_filterMap, sum_toFinset _ h.1]

theorem Covers.sum_superset (h : Covers f keys) {s : Finset κ} (hs : keys.toFinset ⊆ s) :
    ((keys.filterMap f).map weight).sum = ∑ k ∈ s, weigh weight (f k) := by
  rw [h.sum_eq]
  refine sum_subset hs fun k _ hk => ?_
  have hn : f k = none := by
    by_contra hne
    exact hk (mem_toFinset.mpr (h.2 k hne))
  rw [hn, weigh_none]

theorem Covers.sum_change (hf : Covers f keys) (hg : Covers g m) (k₀ : κ)
    (hs : ∀ k, k ≠ k₀ → g k = f k) :
    ((m.filterMap g).map weight).sum =
      ((keys.filterMap f).map weight).sum - weigh weight (f k₀) + weigh weight (g k₀) := by
  have hle : keys.toFinset ⊆ insert k₀ (keys.toFinset ∪ m.toFinset) :=
    fun k hk => mem_insert_of_mem (mem_union_left _ hk)
  have hle' : m.toFinset ⊆ insert k₀ (keys.toFinset ∪ m.toFinset) :=
    fun k hk => mem_insert_of_mem (mem_union_right _ hk)
  have hk₀ : k₀ ∈ insert k₀ (keys.toFinset ∪ m.toFinset) := mem_insert_self _ _
  rw [hf.sum_superset hle, hg.sum_superset hle', ← add_sum_erase _ _ hk₀, ← add_sum_erase _ _ hk₀]
  have hr : ∑ k ∈ (insert k₀ (keys.toFinset ∪ m.toFinset)).erase k₀, weigh weight (g k) =
      ∑ k ∈ (insert k₀ (keys.toFinset ∪ m.toFinset)).erase k₀, weigh weight (f k) :=
    sum_congr rfl fun k hk => by rw [hs k (ne_of_mem_erase hk)]
  rw [hr]
  abel

/-- The sum does not depend on which keys cover the rows, nor on their order. -/
theorem Covers.sum_congr (hf : Covers f keys) (hg : Covers f m) :
    ((m.filterMap f).map weight).sum = ((keys.filterMap f).map weight).sum := by
  have hk : keys.toFinset ⊆ keys.toFinset ∪ m.toFinset := subset_union_left
  have hm : m.toFinset ⊆ keys.toFinset ∪ m.toFinset := subset_union_right
  rw [hf.sum_superset hk, hg.sum_superset hm]

end

namespace Table

variable {κ ρ β : Type} [DecidableEq κ]

section
variable (t : Table κ ρ)
include t

theorem filterMap_rows (g : κ → ρ → Option β) :
    t.rows.filterMap (fun r => g r.1 r.2) =
      (t.rows.map (·.1)).filterMap fun k => (t.get? k).bind (g k) := by
  rw [filterMap_map]
  apply filterMap_congr
  intro r hr
  simp [mem_rows.mp (show (r.1, r.2) ∈ t.rows from hr)]

theorem covers (g : κ → ρ → Option β) :
    Covers (fun k => (t.get? k).bind (g k)) (t.rows.map (·.1)) := by
  refine ⟨t.nodup, fun k hk => ?_⟩
  by_contra hm
  exact hk (by simp [get?_eq_none.mpr hm])

theorem rows_snd : t.rows.map (·.2) = (t.rows.map (·.1)).filterMap t.get? := by
  have hr := t.filterMap_rows fun _ row => some row
  simpa [filterMap_eq_map'] using hr

theorem covers_get? : Covers t.get? (t.rows.map (·.1)) := by
  have hc := t.covers fun _ row => some row
  simpa using hc

end

theorem get?_putAll_of_covers {f : κ → Option ρ} {keys : List κ} (h : Covers f keys) (k : κ) :
    ((∅ : Table κ ρ).putAll (keys.filterMap fun k => (f k).map fun row => (k, row))).get?
      k = f k := by
  have hy : ((keys.filterMap fun k => (f k).map fun row => (k, row)).map (·.1)).Nodup := by
    rw [map_filterMap]
    refine h.1.sublist ?_
    clear h
    induction keys with
    | nil => exact List.Sublist.refl _
    | cons k keys ih =>
      cases hk : f k with
      | none => simpa [hk] using ih.cons k
      | some row => simpa [hk] using ih
  cases hk : f k with
  | some row =>
    have hm : k ∈ keys := h.2 k (by simp [hk])
    exact get?_putAll_mem hy _ (List.mem_filterMap.mpr ⟨k, hm, by simp [hk]⟩)
  | none =>
    rw [get?_putAll_not_mem]
    · rfl
    · intro hm
      obtain ⟨r, hr, rfl⟩ := List.mem_map.mp hm
      obtain ⟨key, -, hw⟩ := List.mem_filterMap.mp hr
      obtain ⟨row, hw, rfl⟩ := Option.map_eq_some_iff.mp hw
      simp [hk] at hw

end Table

end Smalltalk
