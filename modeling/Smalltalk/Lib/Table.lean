import Mathlib.Data.List.Nodup

/-!
# Tables with a primary key

A table is its rows in insertion order, no two under one key. Each statement has a lemma for
`get?`, and one saying which `filterMap` over the rows cannot see it.
-/

namespace Smalltalk

open List

structure Table (κ ρ : Type) where
  rows : List (κ × ρ)
  nodup : (rows.map (·.1)).Nodup

namespace Table

section
variable {κ ρ : Type}

def empty : Table κ ρ := ⟨[], nodup_nil⟩

instance : EmptyCollection (Table κ ρ) := ⟨empty⟩

instance : Inhabited (Table κ ρ) := ⟨∅⟩

@[simp] theorem rows_empty : (∅ : Table κ ρ).rows = [] := rfl

section
variable {β : Type} {g : κ × ρ → Option β} {key : β → κ} (t : Table κ ρ)
include t

/-- What is read of the rows, one value a row at most, has no key twice. -/
theorem nodup_filterMap_of_mem
    (h : ∀ r ∈ t.rows, ∀ b, g r = some b → key b = r.1) : ((t.rows.filterMap g).map key).Nodup := by
  refine t.nodup.sublist ?_
  generalize t.rows = rows at h
  induction rows with
  | nil => exact List.Sublist.refl _
  | cons r rows ih =>
    have ih := ih fun r hr => h r (mem_cons_of_mem _ hr)
    cases hg : g r with
    | none => simpa [hg] using ih.cons r.1
    | some b => simpa [hg, h r mem_cons_self b hg] using ih

theorem nodup_filterMap (h : ∀ r b, g r = some b → key b = r.1) :
    ((t.rows.filterMap g).map key).Nodup :=
  t.nodup_filterMap_of_mem fun r _ => h r

end

variable [DecidableEq κ]

def get? (t : Table κ ρ) (k : κ) : Option ρ := (t.rows.find? (·.1 = k)).map (·.2)

variable {t : Table κ ρ} {k k' : κ} {v w : ρ} {f : ρ → ρ} {rows : List (κ × ρ)}

theorem mem_rows : (k, v) ∈ t.rows ↔ t.get? k = some v := by
  unfold get?
  constructor
  · intro h
    cases hf : t.rows.find? (·.1 = k) with
    | none => simpa using find?_eq_none.mp hf _ h
    | some r =>
      have hk : r.1 = k := by simpa using find?_some hf
      have := inj_on_of_nodup_map t.nodup (mem_of_find?_eq_some hf) h hk
      rw [this]; rfl
  · intro h
    obtain ⟨r, hr, rfl⟩ := Option.map_eq_some_iff.mp h
    have hk : r.1 = k := by simpa using find?_some hr
    rw [← hk]
    exact mem_of_find?_eq_some hr

theorem get?_eq_none : t.get? k = none ↔ k ∉ t.rows.map (·.1) := by
  constructor
  · intro h hk
    obtain ⟨r, hr, rfl⟩ := mem_map.mp hk
    rw [mem_rows.mp (show (r.1, r.2) ∈ t.rows from hr)] at h
    cases h
  · intro h
    cases hg : t.get? k with
    | none => rfl
    | some v => exact absurd (mem_map.mpr ⟨(k, v), mem_rows.mpr hg, rfl⟩) h

/-- `INSERT OR IGNORE`. -/
def insert (t : Table κ ρ) (k : κ) (v : ρ) : Table κ ρ :=
  if h : t.get? k = none then
    ⟨t.rows ++ [(k, v)], by
      rw [map_append, nodup_append]
      refine ⟨t.nodup, by simp, ?_⟩
      intro a ha b hb heq
      obtain rfl : b = k := by simpa using hb
      exact get?_eq_none.mp h (heq ▸ ha)⟩
  else t

theorem insert_of_none (h : t.get? k = none) (v : ρ) :
    (t.insert k v).rows = t.rows ++ [(k, v)] := by
  rw [insert, dif_pos h]

theorem insert_of_some (h : t.get? k = some w) (v : ρ) : t.insert k v = t := by
  rw [insert, dif_neg (by simp [h])]

theorem get?_insert (t : Table κ ρ) (k : κ) (v : ρ) (k' : κ) :
    (t.insert k v).get? k' = if k' = k then some ((t.get? k).getD v) else t.get? k' := by
  cases h : t.get? k with
  | some w =>
    rw [insert_of_some h]
    split
    · rename_i hk; rw [hk, h]; rfl
    · rfl
  | none =>
    unfold get?
    rw [insert_of_none h, find?_append]
    by_cases hk : k' = k
    · subst hk
      have : t.rows.find? (·.1 = k') = none := by simpa [get?] using h
      simp [this]
    · have : ¬ k = k' := fun e => hk e.symm
      simp [hk, this]

theorem of_get?_insert (h : (t.insert k v).get? k' = some w) :
    t.get? k' = some w ∨ k' = k ∧ v = w := by
  rw [get?_insert] at h
  by_cases hk : k' = k
  · subst hk
    cases hold : t.get? k' with
    | some old => left; simpa [hold] using h
    | none => right; simpa [hold] using h
  · left
    rwa [if_neg hk] at h

theorem filterMap_insert {β : Type} {g : κ × ρ → Option β} (t : Table κ ρ)
    (h : g (k, v) = none) : (t.insert k v).rows.filterMap g = t.rows.filterMap g := by
  cases hk : t.get? k with
  | some w => rw [insert_of_some hk]
  | none => simp [insert_of_none hk, h]

/-- `INSERT OR IGNORE … SELECT`. -/
def insertAll (t : Table κ ρ) (rows : List (κ × ρ)) : Table κ ρ :=
  rows.foldl (fun t r => t.insert r.1 r.2) t

theorem get?_insertAll (rows : List (κ × ρ)) (k : κ) : ∀ t : Table κ ρ,
    (t.insertAll rows).get? k = (t.get? k).or ((rows.find? (·.1 = k)).map (·.2)) := by
  induction rows with
  | nil => intro t; simp [insertAll]
  | cons r rows ih =>
    intro t
    have := ih (t.insert r.1 r.2)
    rw [insertAll] at this
    rw [insertAll, foldl_cons, this, get?_insert]
    by_cases hk : r.1 = k
    · subst hk
      cases h : t.get? r.1 <;> simp
    · have : ¬ k = r.1 := fun e => hk e.symm
      simp [hk, this]

/-- `UPDATE … WHERE key`. -/
def update (t : Table κ ρ) (k : κ) (f : ρ → ρ) : Table κ ρ :=
  ⟨t.rows.map fun r => if r.1 = k then (r.1, f r.2) else r, by
    have : (t.rows.map fun r => if r.1 = k then (r.1, f r.2) else r).map (·.1) =
        t.rows.map (·.1) := by
      rw [map_map]
      apply map_congr_left
      intro r _
      simp only [Function.comp_apply]
      split <;> rfl
    rw [this]; exact t.nodup⟩

theorem get?_update (t : Table κ ρ) (k : κ) (f : ρ → ρ) (k' : κ) :
    (t.update k f).get? k' = if k' = k then (t.get? k).map f else t.get? k' := by
  unfold get? update
  rw [find?_map]
  have hy : ((fun r : κ × ρ => decide (r.1 = k')) ∘ fun r => if r.1 = k then (r.1, f r.2) else r) =
      fun r => decide (r.1 = k') := by
    funext r
    simp only [Function.comp_apply]
    split <;> rfl
  rw [hy]
  by_cases hk : k' = k
  · subst hk
    cases hf : t.rows.find? (·.1 = k') with
    | none => simp
    | some r =>
      have : r.1 = k' := by simpa using find?_some hf
      simp [this]
  · rw [if_neg hk]
    cases hf : t.rows.find? (·.1 = k') with
    | none => simp
    | some r =>
      have : r.1 = k' := by simpa using find?_some hf
      have hn : ¬ r.1 = k := fun e => hk (this ▸ e)
      simp [hn]

theorem filterMap_update {β : Type} {g : κ × ρ → Option β} (t : Table κ ρ)
    (h : ∀ v, t.get? k = some v → g (k, f v) = g (k, v)) :
    (t.update k f).rows.filterMap g = t.rows.filterMap g := by
  unfold update
  rw [filterMap_map]
  apply filterMap_congr
  intro r hr
  simp only [Function.comp_apply]
  split
  · rename_i hk
    subst hk
    exact h r.2 (mem_rows.mp hr)
  · rfl

/-- `INSERT … ON CONFLICT DO UPDATE`. -/
def put (t : Table κ ρ) (k : κ) (v : ρ) : Table κ ρ := (t.update k fun _ => v).insert k v

theorem get?_put (t : Table κ ρ) (k : κ) (v : ρ) (k' : κ) :
    (t.put k v).get? k' = if k' = k then some v else t.get? k' := by
  unfold put
  rw [get?_insert, get?_update, get?_update, if_pos rfl]
  split
  · cases t.get? k <;> rfl
  · rfl

/-- `BTreeMap::extend`: a later row replaces an earlier one of its key. -/
def putAll (t : Table κ ρ) (rows : List (κ × ρ)) : Table κ ρ :=
  rows.foldl (fun t r => t.put r.1 r.2) t

theorem get?_putAll (rows : List (κ × ρ)) (k : κ) : ∀ t : Table κ ρ,
    (t.putAll rows).get? k = ((rows.reverse.find? (·.1 = k)).map (·.2)).or (t.get? k) := by
  induction rows with
  | nil => intro t; rfl
  | cons r rows ih =>
    intro t
    change ((t.put r.1 r.2).putAll rows).get? k = _
    rw [ih, get?_put, reverse_cons, find?_append]
    cases rows.reverse.find? (·.1 = k) with
    | some row => rfl
    | none =>
      by_cases hk : k = r.1
      · simp [hk]
      · have : ¬ r.1 = k := fun e => hk e.symm
        simp [hk, this]

theorem get?_putAll_of_nodup (hw : (rows.map (·.1)).Nodup) (t : Table κ ρ) (k : κ) :
    (t.putAll rows).get? k = ((⟨rows, hw⟩ : Table κ ρ).get? k).or (t.get? k) := by
  rw [get?_putAll]
  congr 1
  ext v
  rw [← mem_rows (t := ⟨rows, hw⟩)]
  constructor
  · intro h
    obtain ⟨row, hr, rfl⟩ := Option.map_eq_some_iff.mp h
    have hm := mem_reverse.mp (mem_of_find?_eq_some hr)
    obtain rfl : row.1 = k := by simpa using find?_some hr
    exact hm
  · intro hm
    cases hf : rows.reverse.find? (·.1 = k) with
    | none => exact absurd (find?_eq_none.mp hf _ (mem_reverse.mpr hm)) (by simp)
    | some row =>
      have hr := mem_reverse.mp (mem_of_find?_eq_some hf)
      have hk : row.1 = k := by simpa using find?_some hf
      rw [inj_on_of_nodup_map hw hr hm hk]
      rfl

theorem get?_putAll_mem (hr : (rows.map (·.1)).Nodup) (t : Table κ ρ)
    (h : (k, v) ∈ rows) : (t.putAll rows).get? k = some v := by
  have hg : (⟨rows, hr⟩ : Table κ ρ).get? k = some v := mem_rows.mp h
  rw [get?_putAll_of_nodup hr, hg]
  rfl

theorem get?_putAll_not_mem (t : Table κ ρ) (h : k ∉ rows.map (·.1)) :
    (t.putAll rows).get? k = t.get? k := by
  have hn : rows.reverse.find? (·.1 = k) = none := by
    rw [find?_eq_none]
    intro r hr heq
    exact h (mem_map.mpr ⟨r, mem_reverse.mp hr, by simpa using heq⟩)
  rw [get?_putAll, hn]
  rfl

theorem get?_putAll_ne_none :
    (t.putAll rows).get? k ≠ none ↔ k ∈ rows.map (·.1) ∨ t.get? k ≠ none := by
  by_cases hm : k ∈ rows.map (·.1)
  · obtain ⟨r, hr, hk⟩ := mem_map.mp hm
    cases hf : rows.reverse.find? (·.1 = k) with
    | none => exact absurd (find?_eq_none.mp hf r (mem_reverse.mpr hr)) (by simpa using hk)
    | some row => simp [get?_putAll, hf, hm]
  · simp only [get?_putAll_not_mem t hm, hm, false_or]

theorem get?_putAll_rows (t m : Table κ ρ) (k : κ) :
    (t.putAll m.rows).get? k = (m.get? k).or (t.get? k) :=
  get?_putAll_of_nodup m.nodup t k

theorem get?_putAll_map {σ : Type} (t : Table κ σ) (m : Table κ ρ) (g : ρ → σ) (k : κ) :
    (t.putAll (m.rows.map fun r => (r.1, g r.2))).get? k = ((m.get? k).map g).or (t.get? k) := by
  have hn : ((m.rows.map fun r => (r.1, g r.2)).map (·.1)).Nodup := by
    rw [map_map]
    exact m.nodup
  rw [get?_putAll_of_nodup hn]
  congr 1
  unfold get?
  rw [find?_map, Option.map_map, Option.map_map]
  rfl

def deleteWhere (t : Table κ ρ) (p : κ → ρ → Bool) : Table κ ρ :=
  ⟨t.rows.filter fun r => !p r.1 r.2, t.nodup.sublist (filter_sublist.map _)⟩

theorem get?_deleteWhere (t : Table κ ρ) (p : κ → ρ → Bool) (k : κ) :
    (t.deleteWhere p).get? k = (t.get? k).filter fun v => !p k v := by
  apply Option.ext
  intro v
  rw [← mem_rows, Option.filter_eq_some_iff, ← mem_rows, deleteWhere, mem_filter]

theorem filterMap_deleteWhere {β : Type} {g : κ × ρ → Option β} (t : Table κ ρ) {p : κ → ρ → Bool}
    (h : ∀ k v, t.get? k = some v → p k v = true → g (k, v) = none) :
    (t.deleteWhere p).rows.filterMap g = t.rows.filterMap g := by
  unfold deleteWhere
  rw [filterMap_filter]
  apply filterMap_congr
  intro r hr
  cases hp : p r.1 r.2 with
  | false => simp
  | true => simp [h r.1 r.2 (mem_rows.mp hr) hp]

def delete (t : Table κ ρ) (k : κ) : Table κ ρ := t.deleteWhere fun k' _ => k' = k

theorem get?_delete (t : Table κ ρ) (k k' : κ) :
    (t.delete k).get? k' = if k' = k then none else t.get? k' := by
  rw [delete, get?_deleteWhere]
  by_cases h : k' = k
  · simp [h]
  · cases t.get? k' <;> simp [h]

theorem perm_delete (h : t.get? k = some v) : List.Perm t.rows ((k, v) :: (t.delete k).rows) := by
  have hn : ∀ t : Table κ ρ, t.rows.Nodup := fun t => List.Nodup.of_map _ t.nodup
  have hg : (k, v) ∉ (t.delete k).rows := by
    rw [mem_rows, get?_delete, if_pos rfl]
    simp
  refine (perm_ext_iff_of_nodup (hn t) (nodup_cons.mpr ⟨hg, hn _⟩)).mpr fun r => ?_
  obtain ⟨k', v'⟩ := r
  rw [mem_cons, mem_rows, mem_rows, get?_delete]
  by_cases hk : k' = k
  · subst hk
    simp [h, eq_comm]
  · simp [hk]

theorem of_get?_delete (h : (t.delete k).get? k' = some w) : t.get? k' = some w := by
  rw [get?_delete] at h
  split at h
  · cases h
  · exact h

/-- `UPDATE` of one row that may set its key. The statement is refused when
another row has the new key. -/
def move (t : Table κ ρ) (k k' : κ) (f : ρ → ρ) : Table κ ρ :=
  match t.get? k with
  | none => t
  | some v =>
    if k' = k then t.update k f
    else if (t.get? k').isSome then t
    else (t.delete k).insert k' (f v)

theorem get?_move_of_ne {j : κ} (hk : j ≠ k) (hk' : j ≠ k') :
    (t.move k k' f).get? j = t.get? j := by
  unfold move
  split
  · rfl
  · split
    · rw [get?_update, if_neg hk]
    · split
      · rfl
      · rw [get?_insert, if_neg hk', get?_delete, if_neg hk]

theorem filterMap_move {β : Type} {g : κ × ρ → Option β} (t : Table κ ρ)
    (hs : ∀ v, t.get? k = some v → k' = k → g (k, f v) = g (k, v))
    (hm : ∀ v, t.get? k = some v → k' ≠ k → t.get? k' = none →
      g (k, v) = none ∧ g (k', f v) = none) :
    (t.move k k' f).rows.filterMap g = t.rows.filterMap g := by
  unfold move
  split
  · rfl
  · rename_i v hv
    split
    · rename_i hk
      refine filterMap_update t fun w hw => hs w hw hk
    · rename_i hk
      split
      · rfl
      · rename_i hf
        obtain ⟨hold, hn⟩ := hm v hv hk (by simpa using hf)
        rw [filterMap_insert _ hn]
        apply filterMap_deleteWhere
        intro j w hw hj
        obtain rfl : j = k := by simpa using hj
        rw [hv] at hw
        cases hw
        exact hold

theorem get?_update_ne_none : (t.update k f).get? k' ≠ none ↔ t.get? k' ≠ none := by
  rw [get?_update]
  by_cases hk : k' = k
  · rw [if_pos hk, hk]
    simp
  · rw [if_neg hk]

theorem get?_insert_ne_none : (t.insert k v).get? k' ≠ none ↔ t.get? k' ≠ none ∨ k' = k := by
  rw [get?_insert]
  by_cases hk : k' = k <;> simp [hk]

theorem foldl_ne_none {α : Type} {f : Table κ ρ → α → Table κ ρ} {adds : α → κ → Prop}
    (hf : ∀ t a k, (f t a).get? k ≠ none ↔ t.get? k ≠ none ∨ adds a k) (l : List α) :
    ∀ (t : Table κ ρ) (k : κ), (l.foldl f t).get? k ≠ none ↔
    t.get? k ≠ none ∨ ∃ a ∈ l, adds a k := by
  induction l with
  | nil => intro t k; simp
  | cons a l ih =>
    intro t k
    rw [foldl_cons, ih, hf]
    simp only [mem_cons, exists_eq_or_imp]
    rw [or_assoc]

end

end Table

end Smalltalk
