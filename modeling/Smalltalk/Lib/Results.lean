import Smalltalk.Lib.Table

/-!
# Results

Loops whose body may fail.
-/

namespace Smalltalk

open List Option Table

section
variable {ε α β : Type} {x : Except ε α} {f : α → Except ε β} {a : α} {b : β} {e : ε}

theorem except_bind_eq_ok : x >>= f = .ok b ↔ ∃ a, x = .ok a ∧ f a = .ok b := by
  constructor
  · intro h
    cases x with
    | error error => cases h
    | ok a => exact ⟨a, rfl, h⟩
  · rintro ⟨a, rfl, h⟩
    exact h

theorem unit_bind_eq_ok {x : Except ε Unit} {f : Unit → Except ε α} :
    x >>= f = .ok a ↔ x = .ok () ∧ f () = .ok a := by
  rw [except_bind_eq_ok]
  exact ⟨fun ⟨(), h⟩ => h, fun h => ⟨(), h⟩⟩

variable {p : Prop} [Decidable p]

theorem refuse_eq_ok : (if p then .error e else x) = .ok a ↔ ¬p ∧ x = .ok a := by
  by_cases h : p <;> simp [h]

/-- A check that returns early. -/
theorem refuse_bind_eq_ok {f : PUnit → Except ε α} :
    (if p then throw e >>= f else x) = .ok a ↔ ¬p ∧ x = .ok a :=
  refuse_eq_ok

end

section
variable {α β ε : Type} {f : α → Except ε β}

theorem mapM_ok {g : α → β} (l : List α) :
    (∀ a ∈ l, f a = .ok (g a)) → l.mapM f = .ok (l.map g) := by
  induction l with
  | nil => intro _; rfl
  | cons a l ih =>
    intro h
    rw [mapM_cons, h a mem_cons_self, ih fun b hb => h b (mem_cons_of_mem _ hb)]
    rfl

theorem mem_of_mapM_ok (l : List α) :
    ∀ {out : List β}, l.mapM f = .ok out → ∀ b, b ∈ out ↔ ∃ a ∈ l, f a = .ok b := by
  induction l with
  | nil =>
    intro out h b
    cases h
    simp
  | cons a l ih =>
    intro out h b
    rw [mapM_cons] at h
    cases ha : f a with
    | error e =>
      rw [ha] at h
      cases h
    | ok b' =>
      cases hl : l.mapM f with
      | error e =>
        rw [ha, hl] at h
        cases h
      | ok rest =>
        rw [ha, hl] at h
        cases h
        simp [ih hl, ha, eq_comm]

theorem mem_of_mapM_some {g : α → Option β} (l : List α) :
    ∀ {out : List β}, l.mapM g = some out → ∀ b, b ∈ out ↔ ∃ a ∈ l, g a = some b := by
  induction l with
  | nil =>
    intro out h b
    cases h
    simp
  | cons a l ih =>
    intro out h b
    rw [mapM_cons] at h
    obtain ⟨b', ha, h⟩ := bind_eq_some_iff.mp h
    obtain ⟨rest, hl, h⟩ := bind_eq_some_iff.mp h
    cases h
    simp [ih hl, ha, eq_comm]

theorem foldlM_congr {g g' : β → α → Option β} (l : List α) :
    ∀ b, (∀ a ∈ l, ∀ b, g b a = g' b a) → l.foldlM g b = l.foldlM g' b := by
  induction l with
  | nil => intro b _; rfl
  | cons a l ih =>
    intro b h
    rw [foldlM_cons, foldlM_cons, h a mem_cons_self]
    congr 1
    funext b'
    exact ih b' fun a ha => h a (mem_cons_of_mem _ ha)

theorem exists_of_mapM_ok (l : List α) :
    ∀ {out : List β}, l.mapM f = .ok out → ∀ a ∈ l, ∃ b, f a = .ok b := by
  induction l with
  | nil => intro out _ a ha; cases ha
  | cons a' l ih =>
    intro out h a ha
    rw [mapM_cons] at h
    cases hf : f a' with
    | error e =>
      rw [hf] at h
      cases h
    | ok b' =>
      cases hl : l.mapM f with
      | error e =>
        rw [hf, hl] at h
        cases h
      | ok rest =>
        rcases mem_cons.mp ha with rfl | ha
        · exact ⟨b', hf⟩
        · exact ih hl a ha

end

section
variable {κ ρ σ ε : Type} [DecidableEq κ] {f : κ → ρ → Except ε σ} {l : List (κ × ρ)}
    {out : List (κ × σ)}

omit [DecidableEq κ] in
theorem keys_of_mapM_ok :
    ∀ {out : List (κ × σ)}, l.mapM (fun r => (f r.1 r.2).map (r.1, ·)) = .ok out →
    out.map (·.1) = l.map (·.1) := by
  induction l with
  | nil => intro out h; cases h; rfl
  | cons r l ih =>
    intro out h
    rw [mapM_cons] at h
    obtain ⟨first, hr, h⟩ := except_bind_eq_ok.mp h
    obtain ⟨rest, hs, h⟩ := except_bind_eq_ok.mp h
    cases h
    rw [map_cons, map_cons, ih hs]
    cases hf : f r.1 r.2 with
    | error e =>
      rw [hf] at hr
      cases hr
    | ok w =>
      rw [hf] at hr
      cases hr
      rfl

omit [DecidableEq κ] in
theorem mem_keyed_of_mapM_ok (h : l.mapM (fun r => (f r.1 r.2).map (r.1, ·)) = .ok out)
    {k : κ} {w : σ} :
    (k, w) ∈ out ↔ ∃ v, (k, v) ∈ l ∧ f k v = .ok w := by
  rw [mem_of_mapM_ok l h]
  constructor
  · rintro ⟨⟨k', v⟩, hm, ho⟩
    cases hf : f k' v with
    | error e => simp [hf, Except.map] at ho
    | ok w' =>
      simp only [hf, Except.map, Except.ok.injEq, Prod.mk.injEq] at ho
      obtain ⟨rfl, rfl⟩ := ho
      exact ⟨v, hm, hf⟩
  · rintro ⟨v, hm, hf⟩
    exact ⟨(k, v), hm, by simp [hf, Except.map]⟩

/-- A table extended by a loop over keyed rows: a key of the rows has the result of its turn. -/
theorem get?_putAll_of_mem (hl : (l.map (·.1)).Nodup)
    (h : l.mapM (fun r => (f r.1 r.2).map (r.1, ·)) = .ok out) (t : Table κ σ) {k : κ} {v : ρ}
    (hm : (k, v) ∈ l) : ∃ w, f k v = .ok w ∧ (t.putAll out).get? k = some w := by
  have hk : (out.map (·.1)).Nodup := by rwa [keys_of_mapM_ok h]
  obtain ⟨b, hb⟩ := exists_of_mapM_ok l h (k, v) hm
  cases hf : f k v with
  | error e =>
    rw [hf] at hb
    cases hb
  | ok w => exact ⟨w, rfl, get?_putAll_mem hk t ((mem_keyed_of_mapM_ok h).mpr ⟨v, hm, hf⟩)⟩

theorem get?_putAll_of_not_mem (h : l.mapM (fun r => (f r.1 r.2).map (r.1, ·)) = .ok out)
    (t : Table κ σ) {k : κ} (hn : k ∉ l.map (·.1)) : (t.putAll out).get? k = t.get? k :=
  get?_putAll_not_mem t (by rwa [keys_of_mapM_ok h])

end

end Smalltalk
