import Smalltalk.Sealing.Step

/-!
# What is behind the frontier has an envelope

As long as every batch gets a rowid above all earlier ones, the frontier never passes a batch
that comes later. A rowid that SQLite takes itself is the next one only while no batch above
the rest has been deleted.
-/

namespace Smalltalk.Sealing

open List Option Table State

section
variable {node : Node} {s : State} {id : String} {rowid : Nat} {content : Content}

def State.top (s : State) : Nat := max s.maxBatchRowid s.highWater

theorem le_foldr_max {l : List Nat} {n : Nat} : l.foldr max 0 ≤ n ↔ ∀ m ∈ l, m ≤ n := by
  induction l with
  | nil => simp
  | cons m l ih => simp [ih]

theorem maxBatchRowid_le {n : Nat} :
    s.maxBatchRowid ≤ n ↔ ∀ id b, s.batches.get? id = some b → b.rowid ≤ n := by
  rw [maxBatchRowid, le_foldr_max]
  constructor
  · intro h id b hg
    exact h _ (List.mem_map.mpr ⟨(id, b), mem_rows.mpr hg, rfl⟩)
  · intro h m hm
    obtain ⟨r, hr, rfl⟩ := List.mem_map.mp hm
    exact h r.1 r.2 (mem_rows.mp hr)

variable {b : Batch} {through : Nat} {id' : String} {t : State} {row : Receipt}
    {batches : List SealedBatch}

theorem rowid_le_maxBatchRowid (h : s.batches.get? id = some b) : b.rowid ≤ s.maxBatchRowid :=
  maxBatchRowid_le.mp (Nat.le_refl _) id b h

theorem carried_iff : s.carried id = true ↔
    ∃ content row, s.envelopes.get? content = some row ∧ content.batch = id ∧
    row.linked = true := by
  simp [carried, mem_rows]

theorem mem_unsealedBatches {after : Nat} : (id, rowid) ∈ s.unsealedBatches after through ↔
    (∃ b, s.batches.get? id = some b ∧ b.rowid = rowid) ∧ after < rowid ∧ rowid ≤ through ∧
    s.carried id = false := by
  rw [unsealedBatches, mem_insertionSort, List.mem_map]
  constructor
  · rintro ⟨r, hr, heq⟩
    obtain ⟨hm, hc⟩ := mem_filter.mp hr
    simp only [Prod.mk.injEq] at heq
    obtain ⟨rfl, rfl⟩ := heq
    simp only [Bool.and_eq_true, decide_eq_true_eq, Bool.not_eq_true'] at hc
    exact ⟨⟨r.2, mem_rows.mp hm, rfl⟩, hc.1.1, hc.1.2, hc.2⟩
  · rintro ⟨⟨b, hg, rfl⟩, ha, ht, hcarried⟩
    refine ⟨(id, b), mem_filter.mpr ⟨mem_rows.mpr hg, ?_⟩, rfl⟩
    simp [ha, ht, hcarried]

theorem nodup_unsealedBatches (after through : Nat) :
    ((s.unsealedBatches after through).map (·.1)).Nodup := by
  have hp := ((perm_insertionSort (fun a b : String × Nat => a.2 ≤ b.2)
    ((s.batches.rows.filter fun r => after < r.2.rowid && r.2.rowid ≤ through && !s.carried r.1).map
      fun r => (r.1, r.2.rowid))).map (·.1))
  refine hp.nodup_iff.mpr ?_
  rw [List.map_map]
  exact s.batches.nodup.sublist (filter_sublist.map _)

/-! ## How far a chunk goes -/

theorem chunkThrough_le (target seeded : Nat) : chunkThrough s target seeded ≤ target := by
  unfold chunkThrough
  cases hl :
      ((((s.batches.rows.map (·.2.rowid)).filter
        fun rowid => seeded < rowid && rowid ≤ target).insertionSort
      (· ≤ ·)).take SEAL_CHUNK_BATCHES).getLast? with
  | none => exact Nat.le_refl _
  | some rowid =>
    have hm := mem_of_mem_take (mem_of_getLast? hl)
    rw [mem_insertionSort, mem_filter] at hm
    simp only [Bool.and_eq_true, decide_eq_true_eq] at hm
    exact hm.2.2

theorem keepWithin_subset (batches : List SealedBatch) :
    ∀ (bytes : Nat) (f : Bool), ∀ b ∈ (keepWithin node bytes f batches).1, b ∈ batches := by
  induction batches with
  | nil => intro bytes f b hb; cases hb
  | cons c rest ih =>
    intro bytes f b hb
    simp only [keepWithin] at hb
    split at hb
    · cases hb
    · rcases mem_cons.mp hb with rfl | hb
      · exact mem_cons_self
      · exact mem_cons_of_mem _ (ih _ _ b hb)

theorem prepareSeal_le {target seeded : Nat} (n : Nat) (h : seeded ≤ target) :
    (prepareSeal node s target seeded n).1 ≤ target := by
  simp only [prepareSeal]
  split
  · cases hl :
        (keepWithin node 0 true ((s.unsealedBatches seeded (chunkThrough s target seeded)).map
        fun b => ⟨b.1, b.2, s.claimsOf b.1, n⟩)).1.getLast? with
    | none => simpa [hl] using h
    | some b =>
      have hm := keepWithin_subset _ _ _ b (mem_of_getLast? hl)
      obtain ⟨pair, hp, rfl⟩ := List.mem_map.mp hm
      have hle := (mem_unsealedBatches.mp hp).2.2.1
      simpa [hl] using hle.trans (chunkThrough_le target seeded)
  · exact chunkThrough_le target seeded

/-! ## The invariant -/

def Attempt.Within (top : Nat) : Attempt → Prop
  | .waiting target => target ≤ top
  | .reading target seeded => seeded ≤ target ∧ target ≤ top
  | .prepared target _ through _ => through ≤ target ∧ target ≤ top
  | .done => True

theorem Attempt.Within.mono {a : Attempt} {top top' : Nat} (h : a.Within top) (hl : top ≤ top') :
    a.Within top' := by
  cases a with
  | waiting target => exact Nat.le_trans h hl
  | reading | prepared => exact ⟨h.1, h.2.trans hl⟩
  | done => trivial

structure Covered (s : State) : Prop where
  nodup : s.used.Nodup
  used : ∀ r ∈ s.used, r ≤ s.top
  frontier : s.frontier ≤ s.top
  attempts : ∀ a ∈ s.attempts, a.Within s.top
  carried : ∀ id b, s.batches.get? id = some b → b.rowid ≤ s.frontier ∨ b.own = false →
    s.carried id = true
  own : ∀ content row b, s.envelopes.get? content = some row →
    s.batches.get? content.batch = some b → b.own = true →
    row = ⟨true, true⟩ ∧ content.claims = s.claimsOf content.batch
  single : ∀ content content' b, s.envelopes.get? content ≠ none →
    s.envelopes.get? content' ≠ none → content.batch = content'.batch →
    s.batches.get? content.batch = some b → b.own = true → content = content'
  sealed : ∀ content row, s.envelopes.get? content = some row → row.sealed = true →
    ∃ b, s.batches.get? content.batch = some b ∧ b.own = true

theorem covered_initial : Covered {} := by
  constructor <;> simp [Table.get?]

/-- Allocation goes on above all earlier rowids, and envelopes that name own batches come from
sealing. -/
def orderly (s : State) : Label → Bool
  | .append id _ => s.envelopes.rows.all fun r => r.1.batch ≠ id
  | .publish id _ => s.envelopes.rows.all (fun r => r.1.batch ≠ id) && s.highWater ≤ s.maxBatchRowid
  | .receive content => (s.batches.get? content.batch).all (!·.own)
  | .admitEnvelope content _ => (s.batches.get? content.batch).all (!·.own)
  | .trim content =>
    (s.batches.get? content.batch).all fun b => b.rowid ≤ s.highWater || b.rowid < s.maxBatchRowid
  | _ => true

/-! ## Inserting a batch -/

theorem filterMap_insertAll {κ ρ β : Type} [DecidableEq κ] {g : κ × ρ → Option β}
    {rows : List (κ × ρ)} (h : ∀ r ∈ rows, g r = none) :
    ∀ t : Table κ ρ, (t.insertAll rows).rows.filterMap g = t.rows.filterMap g := by
  induction rows with
  | nil => intro t; rfl
  | cons r rows ih =>
    intro t
    have := ih (fun r hr => h r (mem_cons_of_mem _ hr)) (t.insert r.1 r.2)
    rw [filterMap_insert t (h r mem_cons_self)] at this
    exact this

theorem claimsOf_insertClaims (h : id' ≠ id) (claims : List String) :
    (s.insertClaims id claims).claimsOf id' = s.claimsOf id' := by
  apply filterMap_insertAll
  intro r hr
  obtain ⟨claim, -, rfl⟩ := List.mem_map.mp hr
  exact if_neg fun heq => h heq.symm

theorem get?_insertBatch {b' : Batch} (hn : s.batches.get? id = none)
    (h : (s.batches.insert id b).get? id' = some b') :
    id' = id ∧ b' = b ∨ id' ≠ id ∧ s.batches.get? id' = some b' := by
  rw [get?_insert] at h
  split at h
  · rename_i heq
    rw [hn] at h
    cases h
    exact .inl ⟨heq, rfl⟩
  · exact .inr ⟨‹_›, h⟩

theorem top_insertBatch (hn : s.batches.get? id = none) (hr : b.rowid = s.top + 1)
    (hb : t.batches = s.batches.insert id b) (hh : t.highWater ≤ b.rowid) : t.top = b.rowid := by
  have hm : t.maxBatchRowid = b.rowid := by
    apply Nat.le_antisymm
    · rw [maxBatchRowid_le]
      intro id' b' hg
      rw [hb] at hg
      rcases get?_insertBatch hn hg with ⟨_, rfl⟩ | ⟨_, hg⟩
      · exact Nat.le_refl _
      · have := rowid_le_maxBatchRowid hg
        unfold top at hr
        omega
    · have hg : t.batches.get? id = some b := by
        rw [hb, get?_insert, if_pos rfl, hn, getD_none]
      exact rowid_le_maxBatchRowid hg
  unfold top
  rw [hm]
  omega

/-- A new batch above the top. An own one has no envelope yet, another has one. -/
theorem Covered.insertBatch (h : Covered s) {highWater : Nat} (hn : s.batches.get? id = none)
    (hw : b.rowid = s.top + 1) (hh : highWater ≤ b.rowid)
    (ho : b.own = true → ∀ content, s.envelopes.get? content ≠ none → content.batch ≠ id)
    (hf : b.own = false → s.carried id = true) :
    Covered { s.insertBatch id b with highWater := highWater } := by
  have hp : ({ s.insertBatch id b with highWater := highWater } : State).top = b.rowid :=
    top_insertBatch hn hw rfl hh
  have hl : s.top ≤ ({ s.insertBatch id b with highWater := highWater } : State).top := by omega
  have hold : ∀ {content b'}, s.envelopes.get? content ≠ none →
      (s.batches.insert id b).get? content.batch = some b' → b'.own = true →
      s.batches.get? content.batch = some b' := by
    intro content b' hg ht hb'
    rcases get?_insertBatch hn ht with ⟨heq, rfl⟩ | ⟨_, ht⟩
    · exact absurd heq (ho hb' content hg)
    · exact ht
  constructor
  case nodup =>
    refine nodup_append.mpr ⟨h.nodup, nodup_singleton _, ?_⟩
    intro a ha b' hb' heq
    have := h.used a ha
    rw [mem_singleton.mp hb'] at heq
    omega
  case used =>
    intro r hr
    rcases mem_append.mp hr with hr | hr
    · exact (h.used r hr).trans hl
    · rw [mem_singleton.mp hr, hp]
  case frontier => exact h.frontier.trans hl
  case attempts => exact fun a ha => (h.attempts a ha).mono hl
  case carried =>
    intro id' b' hg hc
    rcases get?_insertBatch hn hg with ⟨rfl, rfl⟩ | ⟨_, hg⟩
    · refine hf (hc.resolve_left fun hle => ?_)
      have := h.frontier
      have : b'.rowid ≤ s.frontier := hle
      omega
    · exact h.carried id' b' hg hc
  case own =>
    intro content row b' hg ht hb'
    exact h.own content row b' hg (hold (hg ▸ some_ne_none _) ht hb') hb'
  case single =>
    intro content content' b' hg hg' heq ht hb'
    exact h.single content content' b' hg hg' heq (hold hg ht hb') hb'
  case sealed =>
    intro content row hg hs
    obtain ⟨b', ht, hb'⟩ := h.sealed content row hg hs
    refine ⟨b', ?_, hb'⟩
    change (s.batches.insert id b).get? content.batch = some b'
    rw [get?_insert]
    split
    · rename_i heq
      rw [heq, hn] at ht
      cases ht
    · exact ht

theorem Covered.insertClaims (h : Covered s)
    (hf : ∀ content b, s.envelopes.get? content ≠ none → content.batch = id →
      s.batches.get? id = some b → b.own = false) (claims : List String) :
    Covered (s.insertClaims id claims) := by
  refine { h with own := ?_ }
  intro content row b hg hb ho
  have hn : content.batch ≠ id := by
    rintro rfl
    rw [hf content b (hg ▸ some_ne_none _) rfl hb] at ho
    cases ho
  obtain ⟨hr, hc⟩ := h.own content row b hg hb ho
  exact ⟨hr, hc.trans (claimsOf_insertClaims hn claims).symm⟩

theorem Covered.writeOwn (h : Covered s) {claims : List String} {highWater : Nat}
    (hn : s.batches.get? id = none)
    (hf : ∀ content, s.envelopes.get? content ≠ none → content.batch ≠ id) (hr : rowid = s.top + 1)
    (hh : highWater ≤ rowid) : Covered (s.writeOwn id claims rowid highWater) := by
  have hb : Covered { s.insertBatch id ⟨rowid, true⟩ with highWater := highWater } :=
    h.insertBatch hn hr hh (fun _ => hf) fun ho => (nomatch ho)
  exact hb.insertClaims (fun content b hg heq _ => absurd heq (hf content hg)) claims

/-! ## Admissions -/

section
variable (h : Covered s) (hf : ∀ b, s.batches.get? content.batch = some b → b.own = false)
include h hf

theorem Covered.receive :
    Covered { s with envelopes := s.envelopes.insert content ⟨false, false⟩ } := by
  refine { h with carried := ?_, own := ?_, single := ?_, sealed := ?_ }
  · intro id b hg hc
    obtain ⟨other, row, ht, heq, hl⟩ := carried_iff.mp (h.carried id b hg hc)
    refine carried_iff.mpr ⟨other, row, ?_, heq, hl⟩
    change (s.envelopes.insert content _).get? other = some row
    rw [get?_insert]
    split
    · rename_i hk
      rw [← hk, ht, getD_some]
    · exact ht
  · intro other row b hg hb ho
    rcases of_get?_insert hg with hg | ⟨rfl, _⟩
    · exact h.own other row b hg hb ho
    · rw [hf b hb] at ho
      cases ho
  · intro other other' b hg hg' heq hb ho
    rcases get?_insert_ne_none.mp hg with hg | rfl
    · rcases get?_insert_ne_none.mp hg' with hg' | rfl
      · exact h.single other other' b hg hg' heq hb ho
      · rw [hf b (heq ▸ hb)] at ho
        cases ho
    · rw [hf b hb] at ho
      cases ho
  · intro other row hg hs
    rcases of_get?_insert hg with hg | ⟨_, rfl⟩
    · exact h.sealed other row hg hs
    · cases hs

theorem Covered.link :
    Covered { s with
      envelopes := s.envelopes.update content fun row => { row with linked := true } } := by
  refine { h with carried := ?_, own := ?_, single := ?_, sealed := ?_ }
  · intro id b hg hc
    obtain ⟨other, row, ht, heq, hl⟩ := carried_iff.mp (h.carried id b hg hc)
    by_cases hk : other = content
    · refine carried_iff.mpr ⟨other, { row with linked := true }, ?_, heq, rfl⟩
      change (s.envelopes.update content _).get? other = _
      rw [get?_update, if_pos hk, ← hk, ht, map_some]
    · refine carried_iff.mpr ⟨other, row, ?_, heq, hl⟩
      change (s.envelopes.update content _).get? other = _
      rw [get?_update, if_neg hk, ht]
  · intro other row b hg hb ho
    have hn : other ≠ content := by
      rintro rfl
      rw [hf b hb] at ho
      cases ho
    change (s.envelopes.update content _).get? other = _ at hg
    rw [get?_update, if_neg hn] at hg
    exact h.own other row b hg hb ho
  · intro other other' b hg hg' heq hb ho
    exact h.single other other' b (get?_update_ne_none.mp hg) (get?_update_ne_none.mp hg') heq hb ho
  · intro other row hg hs
    change (s.envelopes.update content _).get? other = _ at hg
    rw [get?_update] at hg
    split at hg
    · rename_i hk
      obtain ⟨old, hold, rfl⟩ := map_eq_some_iff.mp hg
      exact h.sealed other old (hk ▸ hold) hs
    · exact h.sealed other row hg hs

end

theorem Covered.admitEnvelope (h : Covered s) (hg : s.envelopes.get? content = some row)
    (hf : ∀ b, s.batches.get? content.batch = some b → b.own = false) (claims : List String) :
    Covered (s.admitEnvelope content claims) := by
  have hl := h.link hf
  unfold State.admitEnvelope
  cases hb : s.batches.get? content.batch with
  | some b =>
    have ha : s.admitBatch content.batch = s := by simp [State.admitBatch, hb]
    rw [ha]
    exact hl.insertClaims (fun _ b' _ _ hg' => hf b' hg') _
  | none =>
    -- the batch is new; it gets the next rowid, and this envelope carries it from now on
    have ha : s.admitBatch content.batch =
        { s.insertBatch content.batch ⟨s.nextBatchRowid, false⟩ with
          highWater := s.nextBatchRowid } := by
      simp [State.admitBatch, hb]
    rw [ha]
    have hc : State.carried
        { s with envelopes := s.envelopes.update content fun row => { row with linked := true } }
            content.batch = true := by
      refine carried_iff.mpr ⟨content, { row with linked := true }, ?_, rfl, rfl⟩
      change (s.envelopes.update content _).get? content = _
      rw [get?_update, if_pos rfl, hg, map_some]
    have hn :=
      hl.insertBatch (b := ⟨s.nextBatchRowid, false⟩) hb rfl (Nat.le_refl _) (by simp) fun _ => hc
    refine hn.insertClaims (fun _ b' _ _ hg' => ?_) _
    rcases get?_insertBatch hb hg' with ⟨_, rfl⟩ | ⟨hne, _⟩
    · rfl
    · exact absurd rfl hne

theorem claimsOf_deleteWhere (h : id' ≠ id)
    (hc : t.claims = s.claims.deleteWhere fun _ batch => batch = id) :
    t.claimsOf id' = s.claimsOf id' := by
  unfold claimsOf
  rw [hc]
  apply filterMap_deleteWhere
  intro claim batch _ hp
  have hb : batch = id := by simpa using hp
  exact if_neg fun heq => h (heq.symm.trans hb)

/-- The rowids that are left and the high water still show the top. -/
theorem top_delete (ht : ∀ id' b, id' ≠ id → s.batches.get? id' = some b →
    t.batches.get? id' = some b) (hh : t.highWater = s.highWater)
    (hs : ∀ b, s.batches.get? id = some b → b.rowid ≤ s.highWater ∨ b.rowid < s.maxBatchRowid) :
    s.top ≤ t.top := by
  have hm : ∀ b, s.batches.get? id = some b → s.maxBatchRowid ≤ max t.top b.rowid := by
    intro b hb
    rw [maxBatchRowid_le]
    intro id' b' hg
    by_cases heq : id' = id
    · subst heq
      cases hb.symm.trans hg
      omega
    · have hl := rowid_le_maxBatchRowid (ht id' b' heq hg)
      unfold top
      omega
  have hh' : s.highWater ≤ t.top := by unfold top; omega
  have hr : s.maxBatchRowid ≤ t.top := by
    cases hg : s.batches.get? id with
    | some b =>
      have hl := hm b hg
      rcases hs b hg with h | h <;> omega
    | none =>
      rw [maxBatchRowid_le]
      intro id' b' hg'
      have hn : id' ≠ id := by
        rintro rfl
        rw [hg] at hg'
        cases hg'
      have hl := rowid_le_maxBatchRowid (ht id' b' hn hg')
      unfold top
      omega
  unfold top at hh' hr ⊢
  omega

section
variable (h : Covered s) (hg : s.envelopes.get? content ≠ none)
include h hg

/-- The envelope goes with the claims of its batch; the batch stays if another envelope carries
it. -/
theorem Covered.delete
    (hc : ∀ id b, t.batches.get? id = some b →
      s.batches.get? id = some b ∧ (id = content.batch → t.carried id = true))
    (hk : ∀ id b, id ≠ content.batch → s.batches.get? id = some b → t.batches.get? id = some b)
    (hclaims : t.claims = s.claims.deleteWhere fun _ batch => batch = content.batch)
    (he : t.envelopes = s.envelopes.delete content) (hwater : t.highWater = s.highWater)
    (hh : ∀ b, s.batches.get? content.batch = some b →
      b.rowid ≤ s.highWater ∨ b.rowid < s.maxBatchRowid)
    (hu : t.used = s.used) (hfrontier : t.frontier = s.frontier) (hat : t.attempts = s.attempts) :
    Covered t := by
  have ht := top_delete hk hwater hh
  have hl : ∀ {other row}, t.envelopes.get? other = some row →
      s.envelopes.get? other = some row ∧ other ≠ content := by
    intro other row ho
    rw [he, get?_delete] at ho
    split at ho
    · cases ho
    · exact ⟨ho, ‹_›⟩
  -- no envelope of an own batch is left beside the one that goes
  have hm : ∀ {other row b}, t.envelopes.get? other = some row →
      s.batches.get? other.batch = some b → b.own = true → other.batch ≠ content.batch := by
    intro other row b ho hb hw heq
    obtain ⟨ho, hne⟩ := hl ho
    exact hne (h.single other content b (ho ▸ some_ne_none _) hg heq hb hw)
  constructor
  case nodup => exact hu ▸ h.nodup
  case used => exact fun r hr => (h.used r (hu ▸ hr)).trans ht
  case frontier => exact hfrontier ▸ h.frontier.trans ht
  case attempts => exact fun a ha => (h.attempts a (hat ▸ ha)).mono ht
  case carried =>
    intro id b hb hle
    obtain ⟨hf, hcarried⟩ := hc id b hb
    by_cases heq : id = content.batch
    · exact hcarried heq
    · rw [hfrontier] at hle
      obtain ⟨other, row, ho, hn, hlinked⟩ := carried_iff.mp (h.carried id b hf hle)
      refine carried_iff.mpr ⟨other, row, ?_, hn, hlinked⟩
      rw [he, get?_delete, if_neg fun hy => heq (hn.symm.trans (congrArg Content.batch hy)), ho]
  case own =>
    intro other row b ho hb hw
    have hf := (hc other.batch b hb).1
    obtain ⟨hrow, hclaims'⟩ := h.own other row b (hl ho).1 hf hw
    exact ⟨hrow, hclaims'.trans (claimsOf_deleteWhere (hm ho hf hw) hclaims).symm⟩
  case single =>
    intro other other' b ho ho' heq hb hw
    obtain ⟨row, ho⟩ := ne_none_iff_exists'.mp ho
    obtain ⟨row', ho'⟩ := ne_none_iff_exists'.mp ho'
    exact h.single other other' b ((hl ho).1 ▸ some_ne_none _) ((hl ho').1 ▸ some_ne_none _) heq
      (hc other.batch b hb).1 hw
  case sealed =>
    intro other row ho hs
    obtain ⟨b, hb, hw⟩ := h.sealed other row (hl ho).1 hs
    exact ⟨b, hk other.batch b (hm ho hb hw) hb, hw⟩

theorem Covered.trim
    (hs : ∀ b, s.batches.get? content.batch = some b →
      b.rowid ≤ s.highWater ∨ b.rowid < s.maxBatchRowid) :
    Covered (s.trim content) := by
  simp only [State.trim]
  split
  · rename_i hc
    refine h.delete hg (fun id b hb => ⟨hb, ?_⟩) (fun _ _ _ hb => hb) rfl rfl rfl hs rfl rfl rfl
    rintro rfl
    exact hc
  · refine h.delete hg (fun id b hb => ?_) (fun id b hn hb => ?_) rfl rfl rfl hs rfl rfl rfl
    · change (s.batches.delete content.batch).get? id = some b at hb
      rw [get?_delete] at hb
      split at hb
      · cases hb
      · exact ⟨hb, fun heq => absurd heq ‹_›⟩
    · change (s.batches.delete content.batch).get? id = some b
      rw [get?_delete, if_neg hn, hb]

end

/-! ## Writing a chunk -/

theorem get?_writeSealed (h : (s.writeSealed through batches).envelopes.get? content = some row) :
    s.envelopes.get? content = some row ∨ row = ⟨true, true⟩ ∧
    ∃ b ∈ batches, b.content = content := by
  rw [writeSealed, get?_insertAll] at h
  rcases or_eq_some_iff.mp h with h | ⟨_, h⟩
  · exact .inl h
  · obtain ⟨r, hr, rfl⟩ := map_eq_some_iff.mp h
    have hk : r.1 = content := by simpa using find?_some hr
    obtain ⟨b, hb, rfl⟩ := List.mem_map.mp (mem_of_find?_eq_some hr)
    exact .inr ⟨rfl, b, hb, hk⟩

theorem get?_writeSealed_of_some (batches : List SealedBatch)
    (h : s.envelopes.get? content = some row) :
    (s.writeSealed through batches).envelopes.get? content = some row := by
  rw [writeSealed, get?_insertAll, h, some_or]

theorem get?_writeSealed_of_mem {b : SealedBatch} (hb : b ∈ batches)
    (h : s.envelopes.get? b.content = none) :
    (s.writeSealed through batches).envelopes.get? b.content = some ⟨true, true⟩ := by
  have hne : (s.writeSealed through batches).envelopes.get? b.content ≠ none := by
    rw [writeSealed, get?_insertAll, h, none_or, ne_eq, map_eq_none_iff, find?_eq_none]
    intro hn
    have := hn (b.content, ⟨true, true⟩) (List.mem_map.mpr ⟨b, hb, rfl⟩)
    simp at this
  obtain ⟨row, hr⟩ := ne_none_iff_exists'.mp hne
  rcases get?_writeSealed hr with hold | ⟨rfl, _⟩
  · rw [h] at hold
    cases hold
  · exact hr

theorem Covered.writeSealed (h : Covered s) (hh : through ≤ s.top)
    (hn : unchanged s s.frontier through batches = true) :
    Covered (s.writeSealed through batches) := by
  simp only [unchanged, Bool.and_eq_true, decide_eq_true_eq, List.all_eq_true] at hn
  obtain ⟨hbatches, hclaims⟩ := hn
  -- a batch of the chunk is there, has no envelope and is an own one
  have hu : ∀ b ∈ batches, s.carried b.batch = false ∧ ∃ row, s.batches.get? b.batch = some row ∧
      row.own = true := by
    intro b hb
    have hm : (b.batch, b.rowid) ∈ s.unsealedBatches s.frontier through := by
      rw [hbatches]
      exact List.mem_map.mpr ⟨b, hb, rfl⟩
    obtain ⟨⟨row, hg, -⟩, -, -, hc⟩ := mem_unsealedBatches.mp hm
    refine ⟨hc, row, hg, ?_⟩
    cases ho : row.own with
    | true => rfl
    | false =>
      rw [h.carried b.batch row hg (.inr ho)] at hc
      cases hc
  -- so no envelope names it
  have hbatch : ∀ b ∈ batches, ∀ other, s.envelopes.get? other ≠ none → other.batch ≠ b.batch := by
    intro b hb other ht heq
    obtain ⟨row, hr⟩ := ne_none_iff_exists'.mp ht
    obtain ⟨hc, batch, hg, ho⟩ := hu b hb
    obtain ⟨rfl, -⟩ := h.own other row batch hr (heq ▸ hg) ho
    rw [carried_iff.mpr ⟨other, _, hr, heq, rfl⟩] at hc
    cases hc
  refine { h with frontier := hh, carried := ?_, own := ?_, single := ?_, sealed := ?_ }
  · intro id row hg hle
    cases hc : s.carried id with
    | true =>
      obtain ⟨other, receipt, ht, heq, hlinked⟩ := carried_iff.mp hc
      exact carried_iff.mpr ⟨other, receipt, get?_writeSealed_of_some batches ht, heq, hlinked⟩
    | false =>
      have hlt : s.frontier < row.rowid := by
        by_contra hl
        rw [h.carried id row hg (.inl (Nat.le_of_not_lt hl))] at hc
        cases hc
      have hl : row.rowid ≤ through := by
        refine hle.resolve_right fun ho => ?_
        rw [h.carried id row hg (.inr ho)] at hc
        cases hc
      have hm : (id, row.rowid) ∈ s.unsealedBatches s.frontier through :=
        mem_unsealedBatches.mpr ⟨⟨row, hg, rfl⟩, hlt, hl, hc⟩
      rw [hbatches] at hm
      obtain ⟨b, hb, heq⟩ := List.mem_map.mp hm
      obtain ⟨rfl, -⟩ := Prod.mk.inj heq
      have henvelopes : s.envelopes.get? b.content = none := by
        by_contra hs
        exact hbatch b hb b.content hs rfl
      exact carried_iff.mpr ⟨b.content, _, get?_writeSealed_of_mem hb henvelopes, rfl, rfl⟩
  · intro other row b ht hbatches' ho
    rcases get?_writeSealed ht with ht | ⟨rfl, sealed, hm, rfl⟩
    · exact h.own other row b ht hbatches' ho
    · exact ⟨rfl, (hclaims sealed hm).symm⟩
  · intro other other' b ht ht' heq hbatches' ho
    obtain ⟨row, ht⟩ := ne_none_iff_exists'.mp ht
    obtain ⟨row', ht'⟩ := ne_none_iff_exists'.mp ht'
    rcases get?_writeSealed ht with hold | ⟨-, sealed, hm, rfl⟩ <;>
      rcases get?_writeSealed ht' with hold' | ⟨-, sealed', hm', rfl⟩
    · exact h.single other other' b (hold ▸ some_ne_none _)
        (hold' ▸ some_ne_none _) heq hbatches' ho
    · exact absurd heq (hbatch sealed' hm' other (hold ▸ some_ne_none _))
    · exact absurd heq.symm (hbatch sealed hm other' (hold' ▸ some_ne_none _))
    · have hd : (batches.map (·.batch)).Nodup := by
        have := nodup_unsealedBatches (s := s) s.frontier through
        rw [hbatches, List.map_map] at this
        exact this
      rw [inj_on_of_nodup_map hd hm hm' heq]
  · intro other row ht hsealed
    rcases get?_writeSealed ht with ht | ⟨-, sealed, hm, rfl⟩
    · exact h.sealed other row ht hsealed
    · obtain ⟨-, batch, hg, ho⟩ := hu sealed hm
      exact ⟨batch, hg, ho⟩

/-! ## Runs -/

theorem Covered.set (h : Covered s) {i : Nat} {a : Attempt} (ha : a.Within s.top) :
    Covered { s with attempts := s.attempts.set i a } := by
  refine { h with attempts := fun a' ha' => ?_ }
  rcases mem_or_eq_of_mem_set ha' with ha' | rfl
  · exact h.attempts a' ha'
  · exact ha

theorem unnamed_of_all (h : s.envelopes.rows.all (fun r => r.1.batch ≠ id) = true) :
    ∀ content, s.envelopes.get? content ≠ none → content.batch ≠ id := by
  intro content hg
  obtain ⟨row, hr⟩ := ne_none_iff_exists'.mp hg
  simpa using List.all_eq_true.mp h _ (mem_rows.mpr hr)

theorem not_own_of_all (h : (s.batches.get? id).all (!·.own) = true) :
    ∀ b, s.batches.get? id = some b → b.own = false := by
  intro b hg
  simpa [hg] using h

theorem covered_keeps : ((machine node).restrict orderly).Keeps (fun _ => True) Covered := by
  intro s label t _ h hs
  obtain ⟨ho, hs⟩ := Machine.step_of_restrict hs
  cases label with
  | append id claims =>
    obtain ⟨hf, hs⟩ := ite_none_right_eq_some.mp hs
    cases hs
    simp only [fresh, Bool.and_eq_true, isNone_iff_eq_none] at hf
    exact h.writeOwn hf.1 (unnamed_of_all ho) rfl (Nat.le_refl _)
  | publish id claims =>
    obtain ⟨hf, hs⟩ := ite_none_right_eq_some.mp hs
    cases hs
    simp only [fresh, Bool.and_eq_true, isNone_iff_eq_none] at hf
    simp only [orderly, Bool.and_eq_true, decide_eq_true_eq] at ho
    refine h.writeOwn hf.1 (unnamed_of_all ho.1) ?_ (by omega)
    unfold top
    omega
  | receive content =>
    cases hs
    exact h.receive (not_own_of_all ho)
  | admitEnvelope content claims =>
    obtain ⟨hm, hs⟩ := ite_none_right_eq_some.mp hs
    cases hs
    obtain ⟨row, hr⟩ := isSome_iff_exists.mp hm
    exact h.admitEnvelope hr (not_own_of_all ho) claims
  | tombstone | withdraw =>
    cases hs
    exact { h with }
  | trim content =>
    obtain ⟨hg, hs⟩ := ite_none_right_eq_some.mp hs
    cases hs
    simp only [Bool.and_eq_true] at hg
    refine h.trim ?_ fun b ht => ?_
    · intro hn
      rw [hn] at hg
      cases hg.1
    · simpa [orderly, ht] using ho
  | capture =>
    cases hs
    refine { h with attempts := fun a ha => ?_ }
    rcases mem_append.mp ha with ha | ha
    · exact h.attempts a ha
    · rw [mem_singleton.mp ha]
      exact Nat.le_max_left _ _
  | readFrontier i =>
    simp only [machine] at hs
    split at hs
    · rename_i target ha
      cases hs
      have hw : target ≤ s.top := h.attempts _ (mem_of_getElem? ha)
      apply h.set
      split
      · trivial
      · exact ⟨by omega, hw⟩
    · cases hs
  | prepare i n =>
    simp only [machine] at hs
    split at hs
    · rename_i target seeded ha
      cases hs
      obtain ⟨hd, hw⟩ : seeded ≤ target ∧ target ≤ s.top := h.attempts _ (mem_of_getElem? ha)
      exact h.set ⟨prepareSeal_le n hd, hw⟩
    · cases hs
  | commit i answers =>
    simp only [machine] at hs
    split at hs
    · rename_i target seeded through batches ha
      obtain ⟨hh, hw⟩ : through ≤ target ∧ target ≤ s.top := h.attempts _ (mem_of_getElem? ha)
      split at hs
      · cases hs
        exact h.set trivial
      · split at hs
        · rename_i hg
          cases hs
          simp only [Bool.and_eq_true, decide_eq_true_eq] at hg
          obtain ⟨⟨rfl, -⟩, hu⟩ := hg
          exact (h.writeSealed (hh.trans hw) hu).set (a := .waiting target) hw
        · cases hs
          exact h.set hw
    · cases hs
  | search c =>
    simp only [machine] at hs
    split at hs
    · split at hs
      · cases hs
        exact { h with }
      · cases hs
        exact { h with }
    · cases hs
  | rewind =>
    obtain ⟨rowid, -, rfl⟩ := map_eq_some_iff.mp hs
    refine { h with frontier := (Nat.min_le_left _ _).trans h.frontier,
                    carried := fun id b ht hc => ?_ }
    exact h.carried id b ht (hc.imp_left fun hl => hl.trans (Nat.min_le_left _ _))
  | restart =>
    cases hs
    exact { h with attempts := by simp }

/-- Over runs whose allocations stay above all earlier rowids, no rowid is used twice, and a batch
at or below the frontier that has claims left is carried: an own batch by exactly one sealed
envelope with its claims in store order, another one by the envelope it came in. -/
theorem sealed_behind_frontier {labels : List Label}
    (hrun : ((machine node).restrict orderly).run {} labels = some s) :
    s.used.Nodup ∧ ∀ id b, s.batches.get? id = some b → b.rowid ≤ s.frontier →
      (∃ claim ∈ s.claimsOf id, claim ∉ s.tombstones) →
      if b.own then ∃ content, s.envelopes.get? content = some ⟨true, true⟩ ∧ content.batch = id ∧
        content.claims = s.claimsOf id ∧ ∀ other, s.envelopes.get? other ≠ none → other.batch = id →
        other = content
      else ∃ content row, s.envelopes.get? content = some row ∧ content.batch = id ∧
        row.linked = true ∧ ∀ other row, s.envelopes.get? other = some row → other.batch = id →
        row.sealed = false := by
  have h := covered_keeps.run (fun _ _ => trivial) covered_initial hrun
  refine ⟨h.nodup, fun id b hg hr _ => ?_⟩
  obtain ⟨content, row, hc, heq, hl⟩ := carried_iff.mp (h.carried id b hg (.inl hr))
  subst heq
  split
  · rename_i ho
    obtain ⟨rfl, hclaims⟩ := h.own content row b hc hg ho
    refine ⟨content, hc, rfl, hclaims, fun other ht heq => ?_⟩
    exact (h.single content other b (hc ▸ some_ne_none _) ht heq.symm hg ho).symm
  · rename_i ho
    refine ⟨content, row, hc, rfl, hl, fun other row' ht heq => ?_⟩
    cases hs : row'.sealed with
    | false => rfl
    | true =>
      obtain ⟨b', hg', ho'⟩ := h.sealed other row' ht hs
      rw [heq, hg] at hg'
      cases hg'
      exact absurd ho' ho

end

def sampleNode : Node where
  size content := content.claims.length
  budget := 2

def sampleLabels : List Label :=
  [.append "a" ["a1", "a2"], .publish "b" ["b1"], .capture, .readFrontier 0, .prepare 0 7,
    .commit 0 false, .readFrontier 0, .prepare 0 8, .commit 0 true, .readFrontier 0, .prepare 0 9,
    .append "c" ["c1"], .commit 0 true, .receive ⟨"p", ["p1"], 0⟩,
    .admitEnvelope ⟨"p", ["p1"], 0⟩ ["p1"], .tombstone "a1", .tombstone "a2",
    .trim ⟨"a", ["a1", "a2"], 8⟩, .restart, .search 2]

theorem sampleLabels_sealed :
    ∃ s, ((machine sampleNode).restrict orderly).run {} sampleLabels = some s ∧
    s.frontier = 2 ∧ s.batches.get? "b" = some ⟨2, true⟩ ∧ s.claimsOf "b" = ["b1"] ∧
    s.tombstones = ["a2", "a1"] ∧ s.used.Nodup ∧
      ∃ content, s.envelopes.get? content = some ⟨true, true⟩ ∧ content.batch = "b" ∧
      content.claims = s.claimsOf "b" ∧ ∀ other, s.envelopes.get? other ≠ none → other.batch = "b" →
      other = content := by
  have hr : (((machine sampleNode).restrict orderly).run {} sampleLabels).map (fun s =>
      (s.frontier, s.batches.get? "b", s.claimsOf "b", s.tombstones)) =
        some (2, some ⟨2, true⟩, ["b1"], ["a2", "a1"]) := by decide +kernel
  obtain ⟨s, hs, hh⟩ := map_eq_some_iff.mp hr
  simp only [Prod.mk.injEq] at hh
  obtain ⟨hf, hb, hc, ht⟩ := hh
  obtain ⟨hn, hl⟩ := sealed_behind_frontier hs
  refine ⟨s, hs, hf, hb, hc, ht, hn, ?_⟩
  simpa using hl "b" ⟨2, true⟩ hb (by rw [hf]) ⟨"b1", by simp [hc], by simp [ht]⟩

/-- The only batch is sealed and trimmed; a published batch gets its rowid, and a
further pass finds nothing to do. -/
def reusedLabels : List Label :=
  [.append "a" ["a1"], .capture, .readFrontier 0, .prepare 0 7, .commit 0 true, .tombstone "a1",
    .trim ⟨"a", ["a1"], 7⟩, .publish "b" ["b1"], .capture, .readFrontier 1]

theorem published_rowid_reused :
    ∃ s, (machine sampleNode).run {} reusedLabels = some s ∧ s.used = [1, 1] ∧
    s.batches.get? "b" = some ⟨1, true⟩ ∧ 1 ≤ s.frontier ∧ s.claimsOf "b" = ["b1"] ∧
    s.tombstones = ["a1"] ∧ s.carried "b" = false := by
  have hr : ((machine sampleNode).run {} reusedLabels).map (fun s => decide (s.used = [1, 1] ∧
      s.batches.get? "b" = some ⟨1, true⟩ ∧ 1 ≤ s.frontier ∧ s.claimsOf "b" = ["b1"] ∧
      s.tombstones = ["a1"] ∧ s.carried "b" = false)) = some true := by decide +kernel
  obtain ⟨s, hs, hh⟩ := map_eq_some_iff.mp hr
  exact ⟨s, hs, of_decide_eq_true hh⟩

end Smalltalk.Sealing
