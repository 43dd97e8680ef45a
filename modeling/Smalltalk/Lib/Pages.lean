import Mathlib.Data.List.Sort
import Mathlib.Data.List.TakeDrop
import Mathlib.Order.Lattice

/-!
# Reading keyed rows page by page

Rows in strictly increasing order of a key, read after a cursor and at most so many at a
time.
-/

namespace Smalltalk

open List

section
variable {κ ρ : Type} [LinearOrder κ]

def Increasing (rows : List (κ × ρ)) : Prop := rows.Pairwise fun a b => a.1 < b.1

def sortByKey (rows : List (κ × ρ)) : List (κ × ρ) := rows.insertionSort fun a b => a.1 ≤ b.1

variable {rows : List (κ × ρ)} {cursor : Option κ}

variable {l row : κ × ρ}

theorem mem_sortByKey : row ∈ sortByKey rows ↔ row ∈ rows := mem_insertionSort _

theorem nodup_sortByKey (h : (rows.map (·.1)).Nodup) : ((sortByKey rows).map (·.1)).Nodup :=
  ((perm_insertionSort (fun a b : κ × ρ => a.1 ≤ b.1) rows).map (·.1)).nodup_iff.mpr h

theorem increasing_sortByKey (h : (rows.map (·.1)).Nodup) : Increasing (sortByKey rows) := by
  have hs : (sortByKey rows).Pairwise fun a b => a.1 ≤ b.1 :=
    pairwise_insertionSort (fun a b : κ × ρ => a.1 ≤ b.1) rows
  have hk := nodup_sortByKey h
  rw [List.Nodup, pairwise_map] at hk
  exact (hs.and hk).imp fun ha => lt_of_le_of_ne ha.1 ha.2

theorem Increasing.ext {rows' : List (κ × ρ)} (h : Increasing rows) (h' : Increasing rows')
    (hm : ∀ row, row ∈ rows ↔ row ∈ rows') : rows = rows' := by
  have hn : ∀ {a b : κ × ρ}, a.1 < b.1 → a ≠ b := fun ha heq => ha.ne (congrArg Prod.fst heq)
  have hp := (perm_ext_iff_of_nodup (h.imp hn) (h'.imp hn)).mpr hm
  exact hp.eq_of_pairwise (fun _ _ _ _ ha hb => absurd ha (lt_asymm hb)) h h'

theorem Increasing.filter_le_append (h : Increasing rows) (bound : κ) :
    rows.filter (·.1 ≤ bound) ++ rows.filter (bound < ·.1) = rows := by
  refine Increasing.ext (pairwise_append.mpr ⟨h.filter _, h.filter _, ?_⟩) h ?_
  · intro a ha b hb
    have hle : a.1 ≤ bound := by simpa using (mem_filter.mp ha).2
    have hl : bound < b.1 := by simpa using (mem_filter.mp hb).2
    exact hle.trans_lt hl
  · intro row
    rw [mem_append, mem_filter, mem_filter]
    rcases le_or_gt row.1 bound with hle | hl
    · simp [hle, not_lt.mpr hle]
    · simp [hl, not_le.mpr hl]

def rowsAfter (cursor : Option κ) (rows : List (κ × ρ)) : List (κ × ρ) :=
  rows.filter fun row => cursor.all (· < row.1)

theorem mem_rowsAfter : row ∈ rowsAfter cursor rows ↔ row ∈ rows ∧ cursor.all (· < row.1) = true :=
  mem_filter

theorem Increasing.rowsAfter (h : Increasing rows) (cursor : Option κ) :
    Increasing (rowsAfter cursor rows) := List.Pairwise.filter _ h

theorem Increasing.filter_lt_append {f back : List (κ × ρ)} (h : Increasing (f ++ l :: back)) :
    (f ++ l :: back).filter (fun row => l.1 < row.1) = back := by
  obtain ⟨_, hb, hf⟩ := pairwise_append.mp h
  obtain ⟨hl, _⟩ := pairwise_cons.mp hb
  rw [filter_append, filter_cons_of_neg (by simp), filter_eq_nil_iff.mpr, nil_append,
    filter_eq_self.mpr]
  · intro row hr
    simpa using hl row hr
  · intro row hr
    simpa using (hf row hr l mem_cons_self).le

theorem rowsAfter_of_lt {bound : κ} (h : cursor.all (· < bound) = true) (rows : List (κ × ρ)) :
    rowsAfter (some bound) rows = (rowsAfter cursor rows).filter (bound < ·.1) := by
  unfold rowsAfter
  rw [filter_filter]
  apply filter_congr
  intro row _
  cases cursor with
  | none => simp
  | some c =>
    have hc : c < bound := by simpa using h
    by_cases hr : bound < row.1
    · simp [hr, hc.trans hr]
    · simp [hr]

theorem Increasing.rowsAfter_last (h : Increasing rows) {n : Nat}
    (hl : ((Smalltalk.rowsAfter cursor rows).take n).getLast? = some l) :
    Smalltalk.rowsAfter (some l.1) rows = (Smalltalk.rowsAfter cursor rows).drop n := by
  obtain ⟨f, hf⟩ := getLast?_eq_some_iff.mp hl
  have hs : Smalltalk.rowsAfter cursor rows =
      f ++ l :: (Smalltalk.rowsAfter cursor rows).drop n := by
    rw [← singleton_append, ← append_assoc, ← hf, take_append_drop]
  have hc : cursor.all (· < l.1) = true := by
    have : l ∈ Smalltalk.rowsAfter cursor rows := by
      rw [hs]
      exact mem_append_right _ mem_cons_self
    exact (mem_rowsAfter.mp this).2
  have hr := h.rowsAfter cursor
  rw [hs] at hr
  rw [rowsAfter_of_lt hc]
  conv_lhs => rw [hs]
  exact hr.filter_lt_append

theorem take_succ_eq_self {α : Type} {rows : List α} {n : Nat}
    (h : ¬ n < (rows.take (n + 1)).length) :
    rows.take (n + 1) = rows := by
  apply take_of_length_le
  rw [length_take] at h
  omega

end

end Smalltalk
