import Smalltalk.Requests.Receipts

/-!
# Effects happen once

While no adoption takes an operation's last identity away, a request that is not replay safe
runs once.
-/

namespace Smalltalk.Requests

open List Option Table Ledger

variable {s t : Ledger} {operation : String}

namespace Ledger

theorem durable_iff : s.durable operation = true ↔
    ∃ id claim, s.claims.get? id = some claim ∧ claim.operation.map (·.id) = some operation := by
  unfold durable operationClaims
  rw [Bool.not_eq_true', isEmpty_eq_false_iff_exists_mem]
  constructor
  · rintro ⟨id, hi⟩
    obtain ⟨⟨id', claim⟩, hr, hs⟩ := mem_filterMap.mp hi
    by_cases ho : claim.operation.map (·.id) = some operation
    · exact ⟨id', claim, mem_rows.mp hr, ho⟩
    · simp [ho] at hs
  · rintro ⟨id, claim, hc, ho⟩
    exact ⟨id, mem_filterMap.mpr ⟨(id, claim), mem_rows.mpr hc, by simp [ho]⟩⟩

theorem checkpointed_iff : s.checkpointed operation = true ↔
    ∃ id tombstone, s.tombstones.get? id = some tombstone ∧ tombstone.operation = some operation ∧
      tombstone.requestDigest ≠ none ∧ id ∉ s.repaired := by
  unfold checkpointed checkpointedOperation
  rw [Bool.not_eq_true', isEmpty_eq_false_iff_exists_mem]
  simp only [mem_mergeSort, mem_filterMap]
  constructor
  · rintro ⟨row, ⟨id, tombstone⟩, hr, hs⟩
    by_cases ho : tombstone.operation = some operation ∧ id ∉ s.repaired
    · refine ⟨id, tombstone, mem_rows.mp hr, ho.1, ?_, ho.2⟩
      intro hn
      simp [ho, hn] at hs
    · simp [ho] at hs
  · rintro ⟨id, tombstone, ht, ho, hd, hp⟩
    obtain ⟨d, hd⟩ := ne_none_iff_exists'.mp hd
    exact ⟨(d, id), (id, tombstone), mem_rows.mpr ht, by simp [ho, hp, hd]⟩

theorem originalClaim_eq_none :
    s.originalClaim operation = none ↔ s.identified operation = false := by
  unfold originalClaim identified durable checkpointed
  simp [head?_eq_none_iff, ← length_eq_zero_iff]

theorem identified_iff :
    s.identified operation = true ↔ s.durable operation = true ∨
    s.checkpointed operation = true := by
  simp [identified]

theorem identified_congr (hc : t.claims = s.claims) (ht : t.tombstones = s.tombstones)
    (hr : t.repaired = s.repaired) (operation : String) :
    t.identified operation = s.identified operation := by
  simp [identified, durable, checkpointed, operationClaims, checkpointedOperation, hc, ht, hr]

theorem identified_mono (hl : ∀ id claim, s.claims.get? id = some claim →
    t.claims.get? id = some claim)
    (ht : ∀ id row, s.tombstones.get? id = some row → t.tombstones.get? id = some row)
    (hp : t.repaired = s.repaired) (h : s.identified operation = true) :
    t.identified operation = true := by
  rw [identified_iff, durable_iff, checkpointed_iff] at h ⊢
  rcases h with ⟨id, claim, hc, ho⟩ | ⟨id, row, hr, ho, hd, hi⟩
  · exact .inl ⟨id, claim, hl id claim hc, ho⟩
  · exact .inr ⟨id, row, ht id row hr, ho, hd, hp ▸ hi⟩

/-! ## Cleanup -/

structure SameClaims (s t : Ledger) : Prop where
  claims : t.claims = s.claims
  tombstones : t.tombstones = s.tombstones
  repaired : t.repaired = s.repaired
  log : t.log = s.log

theorem SameClaims.identified (h : SameClaims s t) (operation : String) :
    t.identified operation = s.identified operation :=
  identified_congr h.claims h.tombstones h.repaired operation

theorem extend_sameClaims (operation : String) (expiresAt : Int) :
    SameClaims s (s.extend operation expiresAt) := by
  unfold extend
  split <;> exact ⟨rfl, rfl, rfl, rfl⟩

theorem get?_extend (operation : String) (expiresAt : Int) (other : String) :
    ((s.extend operation expiresAt).receipts.get? other).map (fun r => (r.response, r.replaySafe)) =
      (s.receipts.get? other).map fun r => (r.response, r.replaySafe) := by
  unfold extend
  cases hr : s.receipts.get? operation with
  | none => rfl
  | some receipt =>
    by_cases ho : other = operation
    · simp [get?_insert, get?_delete, ho, hr]
    · simp [get?_insert, get?_delete, ho]

def Deletable (s : Ledger) (now : Int) (inUse : String → Bool) (operation : String)
    (receipt : Receipt) : Prop :=
  receipt.expiresAt ≤ now ∧ inUse receipt.response = false ∧
    (receipt.replaySafe = true ∨ s.identified operation = true)

section
variable (now : Int) (inUse : String → Bool)
include now inUse

theorem cleanupTx_sameClaims (rows : List (String × Receipt)) :
    ∀ s : Ledger, SameClaims s (cleanupTx now inUse rows s) := by
  induction rows with
  | nil => exact fun s => ⟨rfl, rfl, rfl, rfl⟩
  | cons row rows ih =>
    intro s
    obtain ⟨operation, receipt⟩ := row
    unfold cleanupTx
    split
    · exact ⟨rfl, rfl, rfl, rfl⟩
    · split
      · have hr := ih (s.extend operation (saturatingAdd now retentionMs))
        have hf : SameClaims s _ := extend_sameClaims operation (saturatingAdd now retentionMs)
        exact ⟨hr.claims.trans hf.claims, hr.tombstones.trans hf.tombstones,
          hr.repaired.trans hf.repaired, hr.log.trans hf.log⟩
      · have hr := ih { s with receipts := s.receipts.delete operation }
        exact ⟨hr.claims, hr.tombstones, hr.repaired, hr.log⟩

/-- A response is kept, perhaps for longer, or it was a candidate that may go. -/
theorem cleanupTx_receipt (rows : List (String × Receipt)) : ∀ (s : Ledger) (operation : String),
      (((cleanupTx now inUse rows s).receipts.get? operation).map
        fun r => (r.response, r.replaySafe)) =
          ((s.receipts.get? operation).map fun r => (r.response, r.replaySafe)) ∨
        ((cleanupTx now inUse rows s).receipts.get? operation = none ∧
          ∃ receipt, (operation, receipt) ∈ rows ∧ Deletable s now inUse operation receipt) := by
  induction rows with
  | nil => exact fun s operation => .inl rfl
  | cons row rows ih =>
    intro s operation
    obtain ⟨f, receipt⟩ := row
    unfold cleanupTx
    split
    · exact .inl rfl
    · next hold =>
      split
      · have hs : SameClaims s _ := extend_sameClaims f (saturatingAdd now retentionMs)
        rcases ih (s.extend f (saturatingAdd now retentionMs)) operation
          with hk | ⟨hg, other, ho, hd⟩
        · exact .inl (hk.trans (get?_extend f _ operation))
        · refine .inr ⟨hg, other, mem_cons_of_mem _ ho, ?_⟩
          unfold Deletable at hd ⊢
          rwa [hs.identified] at hd
      · next hr =>
        by_cases hf : operation = f
        · subst hf
          have hd : Deletable s now inUse operation receipt := by
            simp only [not_or, not_and_or, Bool.not_eq_true, Bool.not_eq_false] at hr
            refine ⟨by omega, hr.2, ?_⟩
            rcases hr.1 with hsafe | hdurable | hc
            · exact .inl hsafe
            · exact .inr (identified_iff.mpr (.inl hdurable))
            · exact .inr (identified_iff.mpr (.inr hc))
          rcases ih { s with receipts := s.receipts.delete operation } operation with hk | ⟨hg, -⟩
          · have hn : (s.receipts.delete operation).get? operation = none := by simp [get?_delete]
            simp only [hn, map_none, map_eq_none_iff] at hk
            exact .inr ⟨hk, receipt, mem_cons_self, hd⟩
          · exact .inr ⟨hg, receipt, mem_cons_self, hd⟩
        · rcases ih { s with receipts := s.receipts.delete f } operation
            with hk | ⟨hg, other, ho, hd⟩
          · refine .inl (hk.trans ?_)
            simp [get?_delete, hf]
          · exact .inr ⟨hg, other, mem_cons_of_mem _ ho, hd⟩

theorem cleanup_receipt (operation : String) :
    (((s.cleanupIdempotency now inUse).receipts.get? operation).map
      fun r => (r.response, r.replaySafe)) =
        ((s.receipts.get? operation).map fun r => (r.response, r.replaySafe)) ∨
      ((s.cleanupIdempotency now inUse).receipts.get? operation = none ∧
        ∃ receipt, s.receipts.get? operation = some receipt ∧
        Deletable s now inUse operation receipt) := by
  unfold cleanupIdempotency
  cases s.clockLimit with
  | none => exact .inl rfl
  | some l =>
    rcases cleanupTx_receipt (min now l) inUse s.candidates s operation
      with hk | ⟨hg, receipt, hm, hd⟩
    · exact .inl hk
    · have hr := (mem_filter.mp (mem_of_mem_take hm)).1
      refine .inr ⟨hg, receipt, mem_rows.mp hr, ?_, hd.2⟩
      exact Int.le_trans hd.1 (Int.min_le_left _ _)

theorem cleanup_sameClaims : SameClaims s (s.cleanupIdempotency now inUse) := by
  unfold cleanupIdempotency
  cases s.clockLimit with
  | none => exact ⟨rfl, rfl, rfl, rfl⟩
  | some l => exact cleanupTx_sameClaims _ inUse s.candidates s

end

end Ledger

/-! ## The invariant -/

structure Guarded (s : Ledger) : Prop where
  unrepaired : ∀ id claim, s.claims.get? id = some claim → id ∉ s.repaired
  faithful : ∀ id claim row, s.claims.get? id = some claim → s.tombstones.get? id = some row →
    row = claim.tombstone
  covered : ∀ event ∈ s.log, ∀ response, event.answer = .ran false response →
    (s.receipts.get? event.operation = none → s.identified event.operation = true) ∧
      ∀ receipt, s.receipts.get? event.operation = some receipt →
        receipt.response = response ∧ receipt.replaySafe = false
  once : Always Once s.log

theorem guarded_empty : Guarded {} where
  unrepaired _ _ h := by cases h
  faithful _ _ _ h := by cases h
  covered _ h := by cases h
  once := always_nil

/-- The tombstones an adoption leaves are those that were kept, or the manifest's. -/
theorem adopted_row (manifest : List (String × Tombstone)) {id : String} {row : Tombstone} :
    ∀ {tombstones : Table String Tombstone},
    (manifest.foldl (fun acc row => acc.insert row.1 row.2) tombstones).get? id = some row →
        tombstones.get? id = some row ∨ (id, row) ∈ manifest := by
  induction manifest with
  | nil => exact fun h => .inl h
  | cons f manifest ih =>
    intro tombstones hr
    rcases ih hr with ht | hm
    · rcases of_get?_insert ht with hold | ⟨hi, hn⟩
      · exact .inl hold
      · exact .inr (by simp [hi, ← hn])
    · exact .inr (mem_cons_of_mem _ hm)

namespace Guarded

variable (h : Guarded s)
include h

/-- A step that keeps the saved responses, the log and every identity. -/
theorem of_identified (hreceipts : t.receipts = s.receipts) (hl : t.log = s.log)
    (hp : t.repaired = s.repaired)
    (hclaims : ∀ id claim, t.claims.get? id = some claim → s.claims.get? id = some claim)
    (hf : ∀ id claim row, t.claims.get? id = some claim → t.tombstones.get? id = some row →
      row = claim.tombstone)
    (hi : ∀ operation, s.identified operation = true → t.identified operation = true) :
    Guarded t := by
  constructor
  · intro id claim hc
    rw [hp]
    exact h.unrepaired id claim (hclaims id claim hc)
  · exact hf
  · intro e he r hr
    rw [hl] at he
    rw [hreceipts]
    obtain ⟨hv, hs⟩ := h.covered e he r hr
    exact ⟨fun hn => hi _ (hv hn), hs⟩
  · rw [hl]
    exact h.once

theorem answered {answer : Answer} (hr : ∀ safe r, answer ≠ .ran safe r)
    (ho : Once s.log ⟨operation, answer⟩) : Guarded (s.answer operation answer) := by
  refine ⟨h.unrepaired, h.faithful, ?_, h.once.concat ho⟩
  intro e he r hevent_ran
  rcases mem_append.mp he with hold | hn
  · exact h.covered e hold r hevent_ran
  · rw [mem_singleton] at hn
    subst hn
    exact absurd hevent_ran (hr false r)

/-- A request that no saved response and no identity stands for runs and commits. -/
theorem commit {e : Effect} (now : Int) (hreceipts' : s.receipts.get? operation = none)
    (hi : s.identified operation = false) (hfresh : s.fresh e = true) :
    Guarded ((s.commit operation now e).answer operation (.ran e.replaySafe e.response)) := by
  simp only [Ledger.fresh, decide_eq_true_eq, List.all_eq_true] at hfresh
  obtain ⟨hd, hn⟩ := hfresh
  have hl : ∀ id claim, (s.claims.putAll e.claims).get? id = some claim →
      (id, claim) ∈ e.claims ∨ s.claims.get? id = some claim := by
    intro id claim hc
    rw [get?_putAll_of_nodup hd, or_eq_some_iff] at hc
    rcases hc with he | ⟨-, hold⟩
    · exact .inl (mem_rows.mpr he)
    · exact .inr hold
  have hall : ∀ id claim, s.claims.get? id = some claim →
      (s.claims.putAll e.claims).get? id = some claim := by
    intro id claim hc
    rw [get?_putAll_not_mem, hc]
    intro hm
    obtain ⟨row, hw, rfl⟩ := List.mem_map.mp hm
    exact absurd (hn row hw).1 (by simp [hc])
  -- The operation did not run before: it would be saved or identified.
  have hf : ∀ event ∈ s.log, ∀ r, event.answer = .ran false r → event.operation ≠ operation := by
    rintro event hv r hr rfl
    have hk := (h.covered event hv r hr).1 hreceipts'
    rw [hi] at hk
    cases hk
  have hp : ∀ other, ((s.commit operation now e).answer operation
      (.ran e.replaySafe e.response)).receipts.get? other = if other = operation then
        some ⟨s.nextRowid, e.response, now + retentionMs, e.replaySafe⟩
          else s.receipts.get? other := by
    intro other
    simp [Ledger.answer, Ledger.commit, get?_insert, hreceipts']
  constructor
  · intro id claim hc
    rcases hl id claim hc with he | hold
    · exact (hn _ he).2.2
    · exact h.unrepaired id claim hold
  · intro id claim row hc hw
    rcases hl id claim hc with he | hold
    · exact absurd (hn _ he).2.1 (by simp [show s.tombstones.get? id = some row from hw])
    · exact h.faithful id claim row hold hw
  · intro event hv r hr
    rw [hp]
    rcases mem_append.mp hv with hold | hn
    · rw [if_neg (hf event hold r hr)]
      obtain ⟨hidentified, hresponse⟩ := h.covered event hold r hr
      exact ⟨fun hreceipts => Ledger.identified_mono hall (fun _ _ => id) rfl
        (hidentified hreceipts), hresponse⟩
    · rw [mem_singleton] at hn
      subst hn
      rw [if_pos rfl]
      simp only [Answer.ran.injEq] at hr
      refine ⟨by simp, fun receipt hs => ?_⟩
      rw [some.injEq] at hs
      rw [← hs]
      exact ⟨hr.2, hr.1⟩
  · refine h.once.concat fun f hm r hoperation hr => ?_
    exact absurd hoperation (hf f hm r hr)

theorem request {now : Int} {e : Effect} (hs : s.request operation now e = some t) : Guarded t := by
  unfold Ledger.request at hs
  split at hs
  · next response hc =>
    cases hs
    refine h.answered (by simp) fun f hm ran hoperation hn => .inl ?_
    cases hr : s.receipts.get? operation with
    | none => simp only [cachedResponse, hr] at hc; split at hc <;> simp at hc
    | some receipt =>
      have hv := (h.covered f hm ran hn).2 receipt (hoperation ▸ hr)
      simp only [cachedResponse, hr, Except.ok.injEq, some.injEq] at hc
      rw [← hc, hv.1]
  · next claim hc =>
    cases hs
    exact h.answered (by simp) fun f hm ran hoperation hn => .inr ⟨claim, rfl⟩
  · next hc =>
    split at hs
    · next hf =>
      cases hs
      cases hr : s.receipts.get? operation with
      | some receipt => simp [cachedResponse, hr] at hc
      | none =>
        cases ho : s.originalClaim operation with
        | some claim => simp [cachedResponse, hr, ho] at hc
        | none => exact h.commit now hr (originalClaim_eq_none.mp ho) hf
    · cases hs

theorem cleanup (now : Int) (inUse : String → Bool) : Guarded (s.cleanupIdempotency now inUse) := by
  have hs : Ledger.SameClaims s _ := cleanup_sameClaims now inUse
  refine ⟨?_, ?_, ?_, hs.log ▸ h.once⟩
  · intro id claim hc
    rw [hs.claims] at hc
    exact hs.repaired ▸ h.unrepaired id claim hc
  · intro id claim row hc hr
    rw [hs.claims] at hc
    rw [hs.tombstones] at hr
    exact h.faithful id claim row hc hr
  · intro e he r hn
    rw [hs.log] at he
    rw [hs.identified]
    obtain ⟨hidentified, hv⟩ := h.covered e he r hn
    rcases cleanup_receipt (s := s) now inUse e.operation with hk | ⟨hg, receipt, hreceipts', hd⟩
    · constructor
      · intro hreceipts
        simp only [hreceipts, map_none] at hk
        exact hidentified (map_eq_none_iff.mp hk.symm)
      · intro receipt hreceipts'
        simp only [hreceipts', map_some] at hk
        obtain ⟨old, hold, hf⟩ := map_eq_some_iff.mp hk.symm
        have hv := hv old hold
        simp only [Prod.mk.injEq] at hf
        exact ⟨hf.1 ▸ hv.1, hf.2 ▸ hv.2⟩
    · refine ⟨fun _ => ?_, fun other ho => by simp [hg] at ho⟩
      rcases hd.2.2 with hsafe | hi
      · simp [(hv receipt hreceipts').2] at hsafe
      · exact hi

theorem record_one {id : String} {claim : Claim} (hc : s.claims.get? id = some claim) :
    Guarded { s with tombstones := s.tombstones.insert id claim.tombstone } := by
  refine h.of_identified rfl rfl rfl (fun _ _ hs => hs) ?_ ?_
  · intro other held row hh hr
    rcases of_get?_insert hr with hold | ⟨rfl, hn⟩
    · exact h.faithful other held row hh hold
    · rw [hc, some.injEq] at hh
      rw [← hn, hh]
  · intro operation
    refine identified_mono (fun _ _ hs => hs) (fun other row hr => ?_) rfl
    rw [get?_insert]
    split
    · next heq => rw [← heq, hr]; rfl
    · exact hr

theorem record (ids : List String) : Guarded (s.record ids) := by
  unfold Ledger.record
  induction ids generalizing s with
  | nil => exact h
  | cons id ids ih =>
    rw [foldl_cons]
    apply ih
    split
    · next claim hc => exact h.record_one hc
    · exact h

theorem deleteTrimmed (ids : List String) : Guarded (s.deleteTrimmed ids) := by
  have hclaims : ∀ id claim, (s.deleteTrimmed ids).claims.get? id = some claim →
      s.claims.get? id = some claim := by
    intro id claim hc
    simp only [Ledger.deleteTrimmed, get?_deleteWhere] at hc
    exact (filter_eq_some_iff.mp hc).1
  refine h.of_identified rfl rfl rfl hclaims
    (fun id claim row hc hr => h.faithful id claim row (hclaims _ _ hc) hr) ?_
  intro operation hi
  rw [identified_iff, durable_iff, checkpointed_iff] at hi ⊢
  rcases hi with ⟨id, claim, hc, ho⟩ | hh
  · by_cases ht : id ∈ ids ∧ (s.tombstones.get? id).isSome
    · obtain ⟨row, hr⟩ := isSome_iff_exists.mp ht.2
      have hf := h.faithful id claim row hc hr
      refine .inr ⟨id, row, hr, by rw [hf]; exact ho, ?_, h.unrepaired id claim hc⟩
      rw [hf]
      cases hl : claim.operation with
      | none => simp [hl] at ho
      | some o => simp [Claim.tombstone, hl]
    · refine .inl ⟨id, claim, ?_, ho⟩
      simp only [Ledger.deleteTrimmed, get?_deleteWhere, hc]
      simp [ht]
  · exact .inr hh

theorem forget (ids : List String) : Guarded (s.forget ids) := by
  have hw : ∀ id row, (s.forget ids).tombstones.get? id = some row →
      s.tombstones.get? id = some row := by
    intro id row hr
    simp only [Ledger.forget, get?_deleteWhere] at hr
    exact (filter_eq_some_iff.mp hr).1
  refine h.of_identified rfl rfl rfl (fun _ _ => id)
    (fun id claim row hc hr => h.faithful id claim row hc (hw _ _ hr)) ?_
  intro operation hi
  rw [identified_iff, durable_iff, checkpointed_iff] at hi ⊢
  rcases hi with hd | ⟨id, row, hr, ho, hg, hp⟩
  · exact .inl hd
  · by_cases hf : id ∈ ids ∧ (s.claims.get? id).isSome
    · obtain ⟨claim, hc⟩ := isSome_iff_exists.mp hf.2
      have ht := h.faithful id claim row hc hr
      exact .inl ⟨id, claim, hc, by rw [ht] at ho; exact ho⟩
    · refine .inr ⟨id, row, ?_, ho, hg, hp⟩
      simp only [Ledger.forget, get?_deleteWhere, hr]
      simp [hf]

theorem adopt {m : List (String × Tombstone)} (hk : keepsIdentities s (.adopt m) = true) :
    Guarded (s.adopt m) := by
  simp only [keepsIdentities, Bool.and_eq_true, List.all_eq_true] at hk
  obtain ⟨hd, hm'⟩ := hk
  refine h.of_identified rfl rfl rfl (fun _ _ hs => hs) ?_ ?_
  · intro id claim row hc hr
    rcases adopted_row m hr with hold | hn
    · rw [get?_deleteWhere] at hold
      exact h.faithful id claim row hc (filter_eq_some_iff.mp hold).1
    · have hs := hm' _ hn
      simpa [show s.claims.get? id = some claim from hc] using hs
  · intro operation hi
    rcases identified_iff.mp hi with hdurable | hh
    · exact identified_iff.mpr (.inl hdurable)
    · obtain ⟨id, row, hr, ho, -⟩ := checkpointed_iff.mp hh
      have hm : operation ∈ s.tombstones.rows.filterMap (·.2.operation) :=
        mem_filterMap.mpr ⟨(id, row), mem_rows.mpr hr, ho⟩
      simpa [hi] using hd operation hm

theorem step {clock : String → String} {label : Label} (hk : keepsIdentities s label = true)
    (hs : s.step clock label = some t) : Guarded t := by
  cases label with
  | request key now e => exact h.request hs
  | cleanup now inUse =>
    cases hs
    exact h.cleanup now inUse
  | record ids =>
    cases hs
    exact h.record ids
  | deleteTrimmed ids =>
    cases hs
    exact h.deleteTrimmed ids
  | forget ids =>
    cases hs
    exact h.forget ids
  | adopt m =>
    cases hs
    exact h.adopt hk

end Guarded

theorem guarded_run {clock : String → String} {labels : List Label}
    (hr : ((requests clock).restrict keepsIdentities).run {} labels = some s) : Guarded s := by
  refine Machine.Keeps.run (m := (requests clock).restrict keepsIdentities) ?_
    (fun _ _ => trivial) guarded_empty hr
  intro s label t _ hguarded hs
  obtain ⟨hg, hs⟩ := Machine.step_of_restrict hs
  exact hguarded.step hg hs

/-- In runs whose adoptions keep every operation's identity a request that is not replay safe runs
once; cleanup deletes no response that is young, in use or the only trace of its operation. -/
theorem effects_happen_once (opaqueCacheKey : String → String) :
    (∀ labels s, ((requests opaqueCacheKey).restrict keepsIdentities).run {} labels = some s →
      Always Once s.log) ∧
    ∀ (s : Ledger) (now : Int) (inUse : String → Bool) (operation : String) (receipt : Receipt),
      s.receipts.get? operation = some receipt →
      (s.cleanupIdempotency now inUse).receipts.get? operation = none →
      receipt.expiresAt ≤ now ∧ inUse receipt.response = false ∧
        (receipt.replaySafe = true ∨ s.identified operation = true) := by
  refine ⟨fun labels s hn => (guarded_run hn).once, fun s now inUse operation receipt hr hg => ?_⟩
  rcases cleanup_receipt (s := s) now inUse operation with hk | ⟨-, deleted, hd, hl⟩
  · simp [hr, hg] at hk
  · rw [hr, some.injEq] at hd
    exact hd ▸ hl

def trimmedRequest : List Label :=
  [.request "k" 0 { claims := [("c", { operation := some ⟨"k", "digest"⟩, acceptedAt := 0 })],
                    response := "first", replaySafe := false },
    .request "later" 0 { claims := [("d", { operation := none, acceptedAt := 700000000 })],
                         response := "", replaySafe := false },
    .record ["c"], .deleteTrimmed ["c"], .cleanup 700000000 fun _ => false]

def repeatedRequest : Label :=
  .request "k" 700000000
    { claims := [("e", { operation := some ⟨"k", "digest"⟩, acceptedAt := 700000000 })],
      response := "second", replaySafe := false }

theorem kept_tombstone_answers : ∃ s, ((requests id).restrict keepsIdentities).run {}
      (trimmedRequest ++ [.adopt [("c", ⟨some "k", some "digest"⟩)], repeatedRequest]) = some s ∧
    s.log = [⟨"k", .ran false "first"⟩, ⟨"later", .ran false ""⟩, ⟨"k", .expired "c"⟩] ∧
    Always Once s.log := by
  have hl : (((requests id).restrict keepsIdentities).run {}
      (trimmedRequest ++ [.adopt [("c", ⟨some "k", some "digest"⟩)], repeatedRequest])).map
        (·.log) =
        some [⟨"k", .ran false "first"⟩, ⟨"later", .ran false ""⟩, ⟨"k", .expired "c"⟩] := by
          decide +kernel
  obtain ⟨s, hr, hs⟩ := map_eq_some_iff.mp hl
  exact ⟨s, hr, hs, (effects_happen_once id).1 _ s hr⟩

/-- An adopted manifest without the tombstone lets the request run again. -/
theorem withdrawn_tombstone_runs_again :
    ∃ s, (requests id).run {} (trimmedRequest ++ [.adopt [], repeatedRequest]) = some s ∧
    s.log = [⟨"k", .ran false "first"⟩, ⟨"later", .ran false ""⟩, ⟨"k", .ran false "second"⟩] ∧
    ¬Always Once s.log := by
  have hl : ((requests id).run {} (trimmedRequest ++ [.adopt [], repeatedRequest])).map (·.log) =
      some [⟨"k", .ran false "first"⟩, ⟨"later", .ran false ""⟩, ⟨"k", .ran false "second"⟩] := by
        decide +kernel
  obtain ⟨s, hr, hs⟩ := map_eq_some_iff.mp hl
  refine ⟨s, hr, hs, fun ho => ?_⟩
  have ha :=
    ho [⟨"k", .ran false "first"⟩, ⟨"later", .ran false ""⟩] ⟨"k", .ran false "second"⟩ [] hs
    ⟨"k", .ran false "first"⟩ (by simp) "first" rfl rfl
  simp at ha

end Smalltalk.Requests
