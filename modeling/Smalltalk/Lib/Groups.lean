import Mathlib.Data.Finset.Card
import Mathlib.Data.List.Nodup

/-!
# Marks on grouped items

Items carry marks and fall into groups by a key. A step for one group changes the marks of
its members only, and looks at no others. A pass over the groups then decides each item as the
step for its own group does on the marks before the pass.
-/

namespace Smalltalk

open List

section
variable {ι κ : Type} {key : ι → Option κ} {step : κ → Finset ι → Finset ι}

structure Groupwise (key : ι → Option κ) (step : κ → Finset ι → Finset ι) : Prop where
  frame : ∀ {k : κ} {d : Finset ι} {i : ι}, key i ≠ some k → (i ∈ step k d ↔ i ∈ d)
  reads : ∀ {k : κ} {d d' : Finset ι}, (∀ i, key i = some k → (i ∈ d ↔ i ∈ d')) →
    ∀ i, key i = some k → (i ∈ step k d ↔ i ∈ step k d')

def passGroups (step : κ → Finset ι → Finset ι) (keys : List κ) (d : Finset ι) : Finset ι :=
  keys.foldl (fun d k => step k d) d

namespace Groupwise

theorem mem_pass_of_not (h : Groupwise key step) {i : ι} {keys : List κ} :
    ∀ {d : Finset ι}, (∀ k ∈ keys, key i ≠ some k) → (i ∈ passGroups step keys d ↔ i ∈ d) := by
  induction keys with
  | nil => intro d _; rfl
  | cons k keys ih =>
    intro d hy
    change i ∈ passGroups step keys (step k d) ↔ i ∈ d
    rw [ih fun k' hk' => hy k' (mem_cons_of_mem _ hk')]
    exact h.frame (hy k mem_cons_self)

theorem mem_pass_of_mem (h : Groupwise key step) {i : ι} {k : κ} (hk : key i = some k)
    {keys : List κ} :
    ∀ {d : Finset ι}, keys.Nodup → k ∈ keys → (i ∈ passGroups step keys d ↔ i ∈ step k d) := by
  induction keys with
  | nil => intro d _ hm; cases hm
  | cons k' keys ih =>
    intro d hn hm
    obtain ⟨ht, hn⟩ := nodup_cons.mp hn
    change i ∈ passGroups step keys (step k' d) ↔ i ∈ step k d
    by_cases heq' : k = k'
    · subst heq'
      apply h.mem_pass_of_not
      intro k'' hk'' heq
      rw [hk, Option.some.injEq] at heq
      exact ht (heq ▸ hk'')
    · have hm : k ∈ keys := (mem_cons.mp hm).resolve_left heq'
      rw [ih hn hm]
      -- the step of the other group leaves this group's marks as they were
      apply h.reads _ i hk
      intro j hj
      apply h.frame
      rw [hj]
      exact fun heq => heq' (Option.some.inj heq)

/-- Only which groups come matters, not their order. -/
theorem pass_congr (h : Groupwise key step) {keys keys' : List κ} (hd : keys.Nodup)
    (hd' : keys'.Nodup) (hm : ∀ k, k ∈ keys ↔ k ∈ keys') (d : Finset ι) :
    passGroups step keys d = passGroups step keys' d := by
  ext i
  by_cases hi : ∃ k ∈ keys, key i = some k
  · obtain ⟨k, hk, hy⟩ := hi
    rw [h.mem_pass_of_mem hy hd hk, h.mem_pass_of_mem hy hd' ((hm k).mp hk)]
  · have hn : ∀ k ∈ keys, key i ≠ some k := fun k hk hy => hi ⟨k, hk, hy⟩
    rw [h.mem_pass_of_not hn, h.mem_pass_of_not fun k hk => hn k ((hm k).mpr hk)]

end Groupwise

theorem passGroups_subset (h : ∀ k d, step k d ⊆ d) (keys : List κ) :
    ∀ d, passGroups step keys d ⊆ d := by
  induction keys with
  | nil => exact fun d => Finset.Subset.refl d
  | cons k keys ih => exact fun d => (ih (step k d)).trans (h k d)

/-- Two passes that only take marks away change nothing together only when neither does. -/
theorem eq_of_comp_eq {f g : Finset ι → Finset ι} (hf : ∀ d, f d ⊆ d) (hg : ∀ d, g d ⊆ d)
    {d : Finset ι} (h : f (g d) = d) : f d = d ∧ g d = d := by
  have hd : g d = d := by
    apply (hg d).antisymm
    calc d = f (g d) := h.symm
      _ ⊆ g d := hf _
  exact ⟨by rwa [hd] at h, hd⟩

theorem step_eq_of_passGroups_eq (h : ∀ k d, step k d ⊆ d) {keys : List κ} {d : Finset ι}
    (hp : passGroups step keys d = d) : ∀ k ∈ keys, step k d = d := by
  induction keys with
  | nil => intro k hk; cases hk
  | cons k' keys ih =>
    obtain ⟨hr, hf⟩ := eq_of_comp_eq (passGroups_subset h keys) (h k') hp
    intro k hk
    rcases mem_cons.mp hk with rfl | hk
    · exact hf
    · exact ih hr k hk

end

/-! ## Rounds until nothing changes -/

section
variable {ι : Type} [DecidableEq ι] {round : Finset ι → Finset ι}

def untilStable (round : Finset ι → Finset ι) : Nat → Finset ι → Finset ι
  | 0, d => d
  | n + 1, d => if round d = d then d else untilStable round n (round d)

theorem untilStable_subset (h : ∀ d, round d ⊆ d) (n : Nat) : ∀ d, untilStable round n d ⊆ d := by
  induction n with
  | zero => exact fun d => Finset.Subset.refl d
  | succ n ih =>
    intro d
    rw [untilStable]
    split
    · exact Finset.Subset.refl d
    · exact (ih _).trans (h d)

/-- A round that takes marks away takes at least one, so as many rounds as there are marks reach a
stable set. -/
theorem untilStable_stable (h : ∀ d, round d ⊆ d) (n : Nat) :
    ∀ d, d.card ≤ n → round (untilStable round n d) = untilStable round n d := by
  induction n with
  | zero =>
    intro d hd
    have he : d = ∅ := Finset.card_eq_zero.mp (Nat.le_zero.mp hd)
    rw [untilStable, he]
    exact Finset.subset_empty.mp (h ∅)
  | succ n ih =>
    intro d hd
    rw [untilStable]
    split
    · assumption
    · rename_i hn
      apply ih
      have hl : (round d).card < d.card := Finset.card_lt_card ((h d).ssubset_of_ne hn)
      omega

end

/-! ## Items by index -/

theorem filterMap_range {α β : Type} {g : α → Option β} (l : List α) :
    (range l.length).filterMap (fun i => (l[i]?).bind g) = l.filterMap g := by
  induction l using reverseRecOn with
  | nil => rfl
  | append_singleton l a ih =>
    have hr : (range l.length).filterMap (fun i => ((l ++ [a])[i]?).bind g) = l.filterMap g := by
      rw [← ih]
      apply filterMap_congr
      intro i hi
      rw [getElem?_append_left (mem_range.mp hi)]
    rw [length_append, length_singleton, range_succ, filterMap_append, hr, filterMap_append]
    simp [filterMap_cons]

theorem length_filter_range {α : Type} {p : α → Bool} {q : Nat → Bool} (l : List α) :
    (∀ i a, l[i]? = some a → q i = p a) → ((range l.length).filter q).length = l.countP p := by
  induction l using reverseRecOn with
  | nil => intro _; rfl
  | append_singleton l a ih =>
    intro h
    have hr : ∀ i b, l[i]? = some b → q i = p b := fun i b hb =>
      h i b (by rw [getElem?_append_left (List.getElem?_eq_some_iff.mp hb).1, hb])
    have hl : q l.length = p a := h _ _ (by simp)
    rw [length_append, length_singleton, range_succ, filter_append, length_append, ih hr,
      countP_append]
    cases hq : q l.length <;> simp [hq, ← hl]

theorem one_lt_countP {α : Type} {p : α → Bool} {l : List α} {i j : Nat} {a b : α} (hij : i < j)
    (hi : l[i]? = some a) (hj : l[j]? = some b) (ha : p a = true) (hb : p b = true) :
    1 < l.countP p := by
  have ht : 0 < (l.take j).countP p := by
    apply countP_pos_iff.mpr
    refine ⟨a, mem_of_getElem? (i := i) ?_, ha⟩
    rw [getElem?_take_of_lt hij, hi]
  have hd : 0 < (l.drop j).countP p := by
    apply countP_pos_iff.mpr
    refine ⟨b, mem_of_getElem? (i := 0) ?_, hb⟩
    rw [getElem?_drop, Nat.add_zero, hj]
  have hp : l.countP p = (l.take j).countP p + (l.drop j).countP p := by
    rw [← countP_append, take_append_drop]
  omega

end Smalltalk
