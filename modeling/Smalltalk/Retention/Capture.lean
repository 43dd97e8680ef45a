import Smalltalk.Retention.Staged

/-!
# What a capture stages

When every integer fits its column, a capture ends with tables that mirror the sealed set. A
reading measured outside the column's range makes every capture of the set fail.
-/

namespace Smalltalk.Retention

open List Option Table

section
variable (schema : Schema) (codec : Codec)

def mirrorRow (first : Bool) (claim : SealedClaim) : StagedClaim :=
  let facts := claimFacts schema codec (claimOf claim)
  { id := claim.id, envelope := claim.envelope, subject := claim.row.subject, kind := claim.row.kind
    actor := claim.row.actor, operationId := (operationParts claim.row.body).map (·.1)
    requestDigest := (operationParts claim.row.body).map (·.2), predecessors :=
      claim.row.predecessors
    acceptedAt := claim.row.acceptedAt, valid := claim.valid, first, named := claim.named
    slot := if first then facts.slot else none
    seat := if first ∧ facts.statusSource then some claim.row.subject else none
    fields := facts.fields, limits := facts.limits }

structure Mirrors (db : Db) (sealed : SealedSet) (staging : Staging) : Prop where
  cut : staging.cut = sealed.cut
  claims : ∀ i, staging.claims[i]? =
    (sealed.claims[i]?).map (mirrorRow schema codec (isFirst sealed i))
  cited : staging.cited = sealed.claims.flatMap (citedBy ∘ claimOf)
  closed : staging.closed = closedRequests sealed
  envelopes : ((staging.envelopes.rows.filter (·.2.included)).map fun r =>
    { id := r.1, acceptedAt := r.2.acceptedAt, records := r.2.records : SealedEnvelope }).Perm
      sealed.envelopes
  sealedBy : ∀ claim ∈ sealed.claims, (staging.envelopes.get? claim.envelope).any (·.included)
  earlierEnvelopes : staging.earlierEnvelopes = sealed.envelopeTombstones
  earlierClaims : staging.earlierClaims = sealed.claimTombstones
  store : ∀ claim ∈ sealed.claims, db.claims.get? claim.id = some claim.row

def LimitsFit (claim : ClaimRecord) : Prop :=
  claim.kind = "harness.limits" → ∀ reading, schema.limitsReading claim = some reading →
  reading.2 ≤ i64Max

instance (claim : ClaimRecord) : Decidable (LimitsFit schema claim) :=
  decidable_of_iff
    (claim.kind = "harness.limits" →
        (schema.limitsReading claim).all (fun reading => reading.2 ≤ i64Max) = true) (by
      unfold LimitsFit
      cases schema.limitsReading claim <;> simp)

end

/-! ## Staging the claims -/

section
variable {schema : Schema} {codec : Codec}

theorem toI64_of_le {n : Nat} (h : n ≤ i64Max) : toI64 n = .ok n := if_pos h

theorem toI64_of_not_le {n : Nat} (h : ¬ n ≤ i64Max) : toI64 n = .error .outOfRange := if_neg h

def recordClaim (record : SealedRecord) : SealedClaim :=
  { id := record.id, row := record.row, envelope := record.envelope, valid := record.valid,
    named := false }

theorem limitsColumns_of_fit {claim : ClaimRecord} (h : LimitsFit schema claim) :
    limitsColumns (claimFacts schema codec claim).limits =
      .ok (claimFacts schema codec claim).limits := by
  cases hl : (claimFacts schema codec claim).limits with
  | none => rfl
  | some columns =>
    simp only [claimFacts, ite_none_right_eq_some, map_eq_some_iff] at hl
    obtain ⟨hk, reading, hr, rfl⟩ := hl
    rw [limitsColumns, toI64_of_le (h hk reading hr)]
    rfl

theorem limitsColumns_of_not_fit {claim : ClaimRecord} (h : ¬ LimitsFit schema claim) :
    limitsColumns (claimFacts schema codec claim).limits = .error .outOfRange := by
  simp only [LimitsFit, not_forall] at h
  obtain ⟨hk, reading, hr, hl⟩ := h
  have hm : (claimFacts schema codec claim).limits =
      some (codec.groupText reading.1, reading.2) := by
    simp [claimFacts, hk, hr]
  rw [hm, limitsColumns, toI64_of_not_le hl]
  rfl

variable {staging : Staging} {record : SealedRecord} {records : List SealedRecord}

theorem stageClaim_of_fit (ha : record.row.acceptedAt ≤ i64Max)
    (hf : LimitsFit schema (recordOf record.id record.row)) :
    stageClaim schema codec staging record =
      .ok (stageRow schema codec staging record record.row.acceptedAt
      (claimFacts schema codec (recordOf record.id record.row)).limits) := by
  rw [stageClaim, toI64_of_le ha, limitsColumns_of_fit hf]
  rfl

theorem stageClaim_of_not_fit (ha : record.row.acceptedAt ≤ i64Max)
    (hf : ¬ LimitsFit schema (recordOf record.id record.row)) :
    stageClaim schema codec staging record = .error .outOfRange := by
  rw [stageClaim, toI64_of_le ha, limitsColumns_of_not_fit hf]
  rfl

structure Staged (schema : Schema) (codec : Codec) (start : Staging) (records : List SealedRecord)
    (staging : Staging) : Prop where
  cut : staging.cut = start.cut
  envelopes : staging.envelopes = start.envelopes
  claims : ∀ i, staging.claims[i]? = (records[i]?).map fun record =>
    mirrorRow schema codec (¬ (records.take i).any (·.id = record.id)) (recordClaim record)
  cited : staging.cited = start.cited ++
    records.flatMap fun record => citedBy (recordOf record.id record.row)
  closed : staging.closed = start.closed ++ records.flatMap fun record =>
    (closes (recordOf record.id record.row)).toList.map fun request => (record.row.subject, request)

section
variable {start : Staging} (h : Staged schema codec start records staging)
include h

theorem Staged.ids : staging.claims.map (·.id) = records.map (·.id) := by
  apply ext_getElem?
  intro i
  rw [getElem?_map, getElem?_map, h.claims i, Option.map_map]
  rfl

theorem Staged.any (id : String) : staging.claims.any (·.id = id) = records.any (·.id = id) := by
  have := congrArg (List.any · (· = id)) h.ids
  simpa [List.any_map, Function.comp_def] using this

theorem Staged.snoc (record : SealedRecord) :
    Staged schema codec start (records ++ [record])
      (stageRow schema codec staging record record.row.acceptedAt
      (claimFacts schema codec (recordOf record.id record.row)).limits) := by
  have hn : staging.claims.length = records.length := by
    have := congrArg List.length h.ids
    simpa using this
  refine ⟨h.cut, h.envelopes, ?_, ?_, ?_⟩
  · intro i
    change (staging.claims ++
      [mirrorRow schema codec (¬ staging.claims.any (·.id = record.id)) (recordClaim record)])[i]? =
        _
    rcases Nat.lt_trichotomy i records.length with hl | rfl | hg
    · rw [getElem?_append_left (by omega), getElem?_append_left hl, h.claims i,
        take_append_of_le_length (by omega)]
    · rw [getElem?_append_right (by omega), hn, h.any]
      simp
    · rw [getElem?_eq_none (by simp; omega), getElem?_eq_none (by simp; omega)]
      rfl
  · change staging.cited ++ citedBy (recordOf record.id record.row) = _
    rw [h.cited, flatMap_append, append_assoc]
    simp
  · change staging.closed ++ _ = _
    rw [h.closed, flatMap_append, append_assoc]
    simp [claimFacts, recordOf]

end

theorem Staged.start {start : Staging} (hc : start.claims = []) :
    Staged schema codec start [] start :=
  ⟨rfl, rfl, by simp [hc], by simp, by simp⟩

theorem foldlM_stageClaim {start : Staging} (hc : start.claims = []) (records : List SealedRecord) :
    (∀ record ∈ records, record.row.acceptedAt ≤ i64Max ∧
      LimitsFit schema (recordOf record.id record.row)) →
      ∃ staging, records.foldlM (stageClaim schema codec) start = .ok staging ∧
        Staged schema codec start records staging := by
  induction records using List.reverseRecOn with
  | nil => exact fun _ => ⟨start, rfl, .start hc⟩
  | append_singleton records record ih =>
    intro hf
    obtain ⟨staging, heq, hs⟩ := ih fun r hr => hf r (mem_append_left _ hr)
    obtain ⟨ha, hl⟩ := hf record (by simp)
    refine ⟨_, ?_, hs.snoc record⟩
    rw [foldlM_append, heq]
    change ([record].foldlM (stageClaim schema codec) staging) = _
    rw [foldlM_cons, stageClaim_of_fit ha hl]
    rfl

theorem foldlM_stageClaim_error (records : List SealedRecord) : ∀ (start : Staging),
    (∀ record ∈ records, record.row.acceptedAt ≤ i64Max) →
      (∃ record ∈ records, ¬ LimitsFit schema (recordOf record.id record.row)) →
        records.foldlM (stageClaim schema codec) start = .error .outOfRange := by
  induction records with
  | nil => intro _ _ h; simp at h
  | cons record records ih =>
    intro start ha hu
    rw [foldlM_cons]
    by_cases hf : LimitsFit schema (recordOf record.id record.row)
    · rw [stageClaim_of_fit (ha record mem_cons_self) hf]
      apply ih _ fun r hr => ha r (mem_cons_of_mem _ hr)
      obtain ⟨r, hr, hn⟩ := hu
      rcases mem_cons.mp hr with rfl | hr
      · exact absurd hf hn
      · exact ⟨r, hr, hn⟩
    · rw [stageClaim_of_not_fit (ha record mem_cons_self) hf]
      rfl

theorem envelopes_of_stageClaim {staging' : Staging}
    (h : stageClaim schema codec staging record = .ok staging') :
    staging'.envelopes = staging.envelopes := by
  unfold stageClaim at h
  cases ha : toI64 record.row.acceptedAt with
  | error e =>
    rw [ha] at h
    cases h
  | ok acceptedAt =>
    cases hl : limitsColumns (claimFacts schema codec (recordOf record.id record.row)).limits with
    | error e =>
      rw [ha, hl] at h
      cases h
    | ok limits =>
      rw [ha, hl] at h
      cases h
      rfl

theorem envelopes_of_foldlM (records : List SealedRecord) : ∀ {staging staging' : Staging},
    records.foldlM (stageClaim schema codec) staging = .ok staging' →
    staging'.envelopes = staging.envelopes := by
  induction records with
  | nil => intro staging staging' h; cases h; rfl
  | cons record records ih =>
    intro staging staging' h
    rw [foldlM_cons] at h
    cases hs : stageClaim schema codec staging record with
    | error e =>
      rw [hs] at h
      cases h
    | ok next =>
      rw [hs] at h
      rw [ih h, envelopes_of_stageClaim hs]

def isIncluded (envelopes : Table EnvelopeId StagedEnvelope) (record : SealedRecord) : Bool :=
  (envelopes.get? record.envelope).any (·.included)

/-- The pages of the claims phase stage the records one after another. -/
theorem captureClaims_eq (o : List SealedRecord) (f : Nat) : ∀ (after : Nat) (staging : Staging),
    o.length ≤ after + f → captureClaims schema codec o f after staging =
        ((o.drop after).filter (isIncluded staging.envelopes)).foldlM
          (stageClaim schema codec) staging := by
  induction f with
  | zero =>
    intro after staging hf
    rw [captureClaims, drop_eq_nil_of_le (Nat.add_zero after ▸ hf)]
    rfl
  | succ f ih =>
    intro after staging hf
    rw [captureClaims]
    split
    · rename_i he
      rw [drop_eq_nil_of_le he]
      rfl
    · rename_i hm
      have hs : (o.drop after).filter (isIncluded staging.envelopes) =
          ((o.drop after).take stagingPage).filter (isIncluded staging.envelopes) ++
            (o.drop (after + stagingPage)).filter (isIncluded staging.envelopes) := by
        rw [← filter_append, ← drop_drop, take_append_drop]
      rw [hs, foldlM_append]
      change ((((o.drop after).take stagingPage).filter (isIncluded staging.envelopes)).foldlM
        (stageClaim schema codec) staging).bind _ = Except.bind _ _
      cases hp : (((o.drop after).take stagingPage).filter (isIncluded staging.envelopes)).foldlM
          (stageClaim schema codec) staging with
      | error e => rfl
      | ok next =>
        change captureClaims schema codec o f (min (after + stagingPage) o.length) next = _
        have hpos : 0 < stagingPage := by decide
        rw [ih _ _ (by omega), envelopes_of_foldlM _ hp]
        rcases Nat.le_total (after + stagingPage) o.length with hl | hl
        · rw [Nat.min_eq_left hl]
          rfl
        · rw [Nat.min_eq_right hl, drop_eq_nil_of_le hl, drop_length]
          rfl

end

/-! ## Envelopes -/

section
variable {db : Db} {cut sealRow : Nat}

theorem get?_captureEnvelopes {id : EnvelopeId} {envelope : StagedEnvelope} :
    (captureEnvelopes db cut sealRow).get? id = some envelope ↔
      ∃ row, db.envelopes.get? id = some row ∧ row.rowid ≤ sealRow ∧ row.acceptedAt < cut ∧
        envelope = { acceptedAt := row.acceptedAt
                     records := (db.ledger.records.rows.filter (·.1.1 = id)).length
                     included := id ∉ lateEnvelopes db cut sealRow } := by
  rw [← mem_rows, captureEnvelopes, mem_filterMap]
  constructor
  · rintro ⟨⟨k, row⟩, hm, hi⟩
    simp only [ite_none_right_eq_some, Option.some.injEq, Prod.mk.injEq] at hi
    obtain ⟨⟨hs, hc⟩, rfl, rfl⟩ := hi
    exact ⟨row, mem_rows.mp hm, hs, hc, rfl⟩
  · rintro ⟨row, hg, hs, hc, rfl⟩
    exact ⟨(id, row), mem_rows.mpr hg, by simp [hs, hc]⟩

theorem mem_liveEnvelopes {envelope : SealedEnvelope} : envelope ∈ liveEnvelopes db cut sealRow ↔
      (captureEnvelopes db cut sealRow).get? envelope.id =
        some { acceptedAt := envelope.acceptedAt, records := envelope.records,
               included := true } := by
  rw [get?_captureEnvelopes, liveEnvelopes, mem_filterMap]
  constructor
  · rintro ⟨⟨k, row⟩, hm, hi⟩
    simp only [ite_none_right_eq_some, Option.some.injEq] at hi
    obtain ⟨⟨hs, hc, hl⟩, rfl⟩ := hi
    exact ⟨row, mem_rows.mp hm, hs, hc, by simp [hl]⟩
  · rintro ⟨row, hg, hs, hc, heq⟩
    obtain ⟨ha, hr, hl⟩ := StagedEnvelope.mk.inj heq
    refine ⟨(envelope.id, row), mem_rows.mpr hg, ?_⟩
    rw [if_pos ⟨hs, hc, by simpa using hl.symm⟩, ← ha, ← hr]

theorem mem_live_ids {id : EnvelopeId} : id ∈ (liveEnvelopes db cut sealRow).map (·.id) ↔
      ((captureEnvelopes db cut sealRow).get? id).any (·.included) = true := by
  rw [List.mem_map, Option.any_eq_true]
  constructor
  · rintro ⟨e, hm, rfl⟩
    exact ⟨_, mem_liveEnvelopes.mp hm, rfl⟩
  · rintro ⟨⟨acceptedAt, records, included⟩, hg, hi⟩
    obtain rfl : included = true := hi
    exact ⟨⟨id, acceptedAt, records⟩, mem_liveEnvelopes.mpr hg, rfl⟩

def tombstoneRow (tombstone : EnvelopeTombstone) : StagedEnvelope :=
  { acceptedAt := tombstone.2, records := 0, included := true }

theorem get?_standIn (envelopes : Table EnvelopeId StagedEnvelope) (tombstone : EnvelopeTombstone)
    (k : EnvelopeId) :
    (standIn envelopes tombstone).get? k =
      if k = tombstone.1 then
      some (((envelopes.get? k).filter (·.included)).getD (tombstoneRow tombstone))
      else envelopes.get? k := by
  rw [standIn, get?_insert, get?_update, get?_update, if_pos rfl]
  by_cases hk : k = tombstone.1
  · rw [if_pos hk, if_pos hk, hk]
    cases hg : envelopes.get? tombstone.1 with
    | none => rfl
    | some old => cases hold : old.included <;> simp [hold, tombstoneRow, filter_some]
  · rw [if_neg hk, if_neg hk, if_neg hk]

/-- Tombstones stand in for the envelopes that are not before the cut. -/
theorem get?_foldl_standIn (tombstones : List EnvelopeTombstone) :
    ∀ (envelopes : Table EnvelopeId StagedEnvelope) (k : EnvelopeId), (tombstones.map (·.1)).Nodup →
      (tombstones.foldl standIn envelopes).get? k = match tombstones.find? (·.1 = k) with
        | some tombstone =>
          some (((envelopes.get? k).filter (·.included)).getD (tombstoneRow tombstone))
        | none => envelopes.get? k := by
  induction tombstones with
  | nil => intro envelopes k _; rfl
  | cons tombstone tombstones ih =>
    intro envelopes k hn
    obtain ⟨hnot, hn⟩ := nodup_cons.mp hn
    rw [foldl_cons, ih _ _ hn, get?_standIn, find?_cons]
    by_cases hk : k = tombstone.1
    · subst hk
      have hf : tombstones.find? (·.1 = tombstone.1) = none := by
        rw [find?_eq_none]
        intro t ht heq
        exact hnot (List.mem_map.mpr ⟨t, ht, by simpa using heq⟩)
      simp [hf]
    · have hne : ¬ tombstone.1 = k := fun h => hk h.symm
      simp [hk, hne]

theorem get?_earlier {k : EnvelopeId} {acceptedAt records : Nat} :
    ((recordedTombstones db id cut db.ledger.checkpointEnvelopes).foldl standIn
        (captureEnvelopes db cut sealRow)).get? k = some ⟨acceptedAt, records, true⟩ ↔
      (captureEnvelopes db cut sealRow).get? k = some ⟨acceptedAt, records, true⟩ ∨
        k ∉ (liveEnvelopes db cut sealRow).map (·.id) ∧
          (k, acceptedAt) ∈ recordedTombstones db id cut db.ledger.checkpointEnvelopes ∧
          records = 0 := by
  have hn : ((recordedTombstones db id cut db.ledger.checkpointEnvelopes).map (·.1)).Nodup :=
    nodup_recordedTombstones
  rw [get?_foldl_standIn _ _ _ hn, mem_live_ids]
  cases hf : (recordedTombstones db id cut db.ledger.checkpointEnvelopes).find? (·.1 = k) with
  | none =>
    have hnoTombstones : (k, acceptedAt) ∉
        recordedTombstones db id cut db.ledger.checkpointEnvelopes := by
      intro hm
      exact find?_eq_none.mp hf _ hm (by simp)
    simp [hnoTombstones]
  | some tombstone =>
    have hm := mem_of_find?_eq_some hf
    obtain rfl : tombstone.1 = k := by simpa using find?_some hf
    have hu : (tombstone.1, acceptedAt) ∈
        recordedTombstones db id cut db.ledger.checkpointEnvelopes ↔ tombstone.2 = acceptedAt := by
      constructor
      · intro h
        exact congrArg Prod.snd (inj_on_of_nodup_map hn hm h rfl)
      · rintro rfl
        exact hm
    rw [hu]
    cases hg : (captureEnvelopes db cut sealRow).get? tombstone.1 with
    | none => simp [tombstoneRow, eq_comm]
    | some old =>
      cases hi : old.included with
      | false =>
        have hne : old ≠ ⟨acceptedAt, records, true⟩ := by
          rintro rfl
          cases hi
        simp [filter_some, hi, hne, tombstoneRow, eq_comm]
      | true => simp [filter_some, hi]

theorem mem_sealedEnvelopes {e : SealedEnvelope} : e ∈ (sealedSetAt db cut sealRow).envelopes ↔
      e ∈ liveEnvelopes db cut sealRow ∨ e.id ∉ (liveEnvelopes db cut sealRow).map (·.id) ∧
          (e.id, e.acceptedAt) ∈ recordedTombstones db id cut db.ledger.checkpointEnvelopes ∧
          e.records = 0 := by
  unfold sealedSetAt
  rw [mem_insertionSort, mem_append, List.mem_map]
  refine or_congr_right ⟨?_, ?_⟩
  · rintro ⟨tombstone, hm, rfl⟩
    obtain ⟨hm, hn⟩ := mem_filter.mp hm
    exact ⟨by simpa using hn, hm, rfl⟩
  · rintro ⟨hn, hm, hr⟩
    refine ⟨(e.id, e.acceptedAt), mem_filter.mpr ⟨hm, by simpa using hn⟩, ?_⟩
    rw [← hr]

/-- The included envelopes are the envelopes of the sealed set. -/
theorem envelopes_perm :
    (((((recordedTombstones db id cut db.ledger.checkpointEnvelopes).foldl standIn
        (captureEnvelopes db cut sealRow)).rows.filter (·.2.included)).map fun r =>
          { id := r.1, acceptedAt := r.2.acceptedAt,
            records := r.2.records : SealedEnvelope })).Perm
      (sealedSetAt db cut sealRow).envelopes := by
  set table :=
    (recordedTombstones db id cut db.ledger.checkpointEnvelopes).foldl standIn
      (captureEnvelopes db cut sealRow)
    with ht
  have hn : (((table.rows.filter (·.2.included)).map fun r =>
      { id := r.1, acceptedAt := r.2.acceptedAt, records := r.2.records : SealedEnvelope }).map
          (·.id)).Nodup := by
    rw [List.map_map]
    exact table.nodup.sublist (filter_sublist.map _)
  rw [perm_ext_iff_of_nodup (List.Nodup.of_map _ hn) (List.Nodup.of_map _ nodup_identities)]
  intro e
  rw [mem_sealedEnvelopes, mem_liveEnvelopes, ← get?_earlier, ← ht, ← mem_rows, List.mem_map]
  constructor
  · rintro ⟨⟨k, row⟩, hm, rfl⟩
    obtain ⟨hm, hi⟩ := mem_filter.mp hm
    obtain ⟨acceptedAt, records, included⟩ := row
    obtain rfl : included = true := hi
    exact hm
  · intro hm
    exact ⟨_, mem_filter.mpr ⟨hm, rfl⟩, rfl⟩

/-! ## The capture as a whole -/

def stagedRecordsAt (db : Db) (cut sealRow : Nat) : List SealedRecord :=
  (orderRecords db cut sealRow).filter (isIncluded (captureEnvelopes db cut sealRow))

def protectedClaim (db : Db) (record : SealedRecord) : SealedClaim :=
  { id := record.id, row := record.row, envelope := record.envelope, valid := record.valid
    named := record.id ∈ db.ledger.projectionClaims }

theorem sealedClaims_eq :
    (sealedSetAt db cut sealRow).claims =
      (stagedRecordsAt db cut sealRow).map (protectedClaim db) := by
  have hf : (orderRecords db cut sealRow).filter
      (·.envelope ∈ (liveEnvelopes db cut sealRow).map (·.id)) =
      stagedRecordsAt db cut sealRow := by
    apply filter_congr
    intro record _
    rw [Bool.eq_iff_iff, decide_eq_true_eq, mem_live_ids]
    rfl
  rw [← hf]
  rfl

variable {record : SealedRecord}

section
variable (h : record ∈ stagedRecordsAt db cut sealRow)
include h

theorem of_mem_stagedRecords :
    record ∈ sealedRecords db cut sealRow ∧
    isIncluded (captureEnvelopes db cut sealRow) record = true := by
  obtain ⟨hm, hi⟩ := mem_filter.mp h
  exact ⟨(mem_insertionSort _).mp hm, hi⟩

theorem accepted_lt_cut : record.row.acceptedAt < cut := by
  obtain ⟨hm, hn⟩ := of_mem_stagedRecords h
  obtain ⟨e, hl, he⟩ := List.mem_map.mp (mem_live_ids.mpr hn)
  obtain ⟨⟨k, row⟩, _, hi⟩ := mem_filterMap.mp hl
  simp only [ite_none_right_eq_some, Option.some.injEq] at hi
  obtain ⟨⟨_, _, ht⟩, rfl⟩ := hi
  by_contra hg
  exact ht (mem_filterMap.mpr ⟨record, hm, by simp [Nat.le_of_not_lt hg, ← he]⟩)

theorem store_of_mem : db.claims.get? record.id = some record.row := by
  obtain ⟨r, _, hs⟩ := mem_filterMap.mp (of_mem_stagedRecords h).1
  exact (sealedRecord_eq_some hs).2.2.1

end

variable {schema : Schema} {c : Codec}

def ReadingsFit (schema : Schema) (sealed : SealedSet) : Prop :=
  ∀ claim ∈ sealed.claims, LimitsFit schema (claimOf claim)

instance (sealed : SealedSet) : Decidable (ReadingsFit schema sealed) :=
  inferInstanceAs (Decidable (∀ claim ∈ sealed.claims, LimitsFit schema (claimOf claim)))

theorem readingsFit_iff : ReadingsFit schema (sealedSetAt db cut sealRow) ↔
    ∀ record ∈ stagedRecordsAt db cut sealRow,
    LimitsFit schema (recordOf record.id record.row) := by
  unfold ReadingsFit
  rw [sealedClaims_eq, List.forall_mem_map]
  rfl

theorem capture_eq :
    capture schema c db cut sealRow = ((stagedRecordsAt db cut sealRow).foldlM (stageClaim schema c)
      { cut, envelopes := captureEnvelopes db cut sealRow }).map fun staging =>
        captureEarlier db (captureProtection db staging) := by
  change (captureClaims schema c (orderRecords db cut sealRow)
    (orderRecords db cut sealRow).length 0
    { cut, envelopes := captureEnvelopes db cut sealRow }).bind _ = _
  rw [captureClaims_eq _ _ _ _ (by simp), drop_zero]
  rfl

theorem capture_error (hc : cut ≤ i64Max) (hu : ¬ ReadingsFit schema (sealedSetAt db cut sealRow)) :
    capture schema c db cut sealRow = .error .outOfRange := by
  rw [readingsFit_iff] at hu
  push Not at hu
  rw [capture_eq, foldlM_stageClaim_error _ _ _ hu]
  · rfl
  · intro record hr
    have := accepted_lt_cut hr
    omega

theorem capture_mirrors (hcut : cut ≤ i64Max)
    (hf : ReadingsFit schema (sealedSetAt db cut sealRow)) :
    ∃ staging, capture schema c db cut sealRow = .ok staging ∧
      Mirrors schema c db (sealedSetAt db cut sealRow) staging := by
  rw [readingsFit_iff] at hf
  have hle : ∀ record ∈ stagedRecordsAt db cut sealRow,
      record.row.acceptedAt ≤ i64Max ∧ LimitsFit schema (recordOf record.id record.row) := by
    intro record hr
    have := accepted_lt_cut hr
    exact ⟨by omega, hf record hr⟩
  have ht : ({ cut, envelopes := captureEnvelopes db cut sealRow } : Staging).claims = [] := rfl
  obtain ⟨staging, hl, hs⟩ : ∃ staging, _ ∧ Staged schema c _ _ staging :=
    foldlM_stageClaim ht (stagedRecordsAt db cut sealRow) hle
  have hg (i : Nat) : (sealedSetAt db cut sealRow).claims[i]? =
      ((stagedRecordsAt db cut sealRow)[i]?).map (protectedClaim db) := by
    rw [sealedClaims_eq, getElem?_map]
  refine ⟨captureEarlier db (captureProtection db staging),
    by rw [capture_eq, hl]; rfl, hs.cut, ?_, ?_, ?_,
    ?_, ?_, ?_, ?_, ?_⟩
  · intro i
    change (staging.claims.map _)[i]? = _
    rw [getElem?_map, hs.claims i, hg i, Option.map_map, Option.map_map]
    cases hr : (stagedRecordsAt db cut sealRow)[i]? with
    | none => rfl
    | some record =>
      have hfirst : isFirst (sealedSetAt db cut sealRow) i =
          decide (¬ ((stagedRecordsAt db cut sealRow).take i).any (·.id = record.id)) := by
        rw [isFirst, hg i, hr, sealedClaims_eq, ← map_take]
        simp only [map_some, any_some, List.any_map]
        rfl
      rw [hfirst]
      rfl
  · change staging.cited = _
    rw [hs.cited, sealedClaims_eq, flatMap_map]
    rfl
  · change staging.closed = _
    rw [hs.closed, closedRequests, sealedClaims_eq, filterMap_map, filterMap_eq_flatMap_toList]
    simp [toList_map, protectedClaim, claimOf]
  · change (((((recordedTombstones db id staging.cut db.ledger.checkpointEnvelopes).foldl standIn
      staging.envelopes).rows.filter (·.2.included)).map _)).Perm _
    rw [hs.cut, hs.envelopes]
    exact envelopes_perm
  · intro claim hc
    rw [sealedClaims_eq] at hc
    obtain ⟨record, hr, rfl⟩ := List.mem_map.mp hc
    have hi := (of_mem_stagedRecords hr).2
    change (((recordedTombstones db id staging.cut db.ledger.checkpointEnvelopes).foldl standIn
      staging.envelopes).get? record.envelope).any (·.included) = true
    rw [hs.cut, hs.envelopes]
    rw [isIncluded, Option.any_eq_true] at hi
    obtain ⟨⟨acceptedAt, records, included⟩, hw, rfl⟩ := hi
    rw [Option.any_eq_true]
    exact ⟨_, get?_earlier.mpr (.inl hw), rfl⟩
  · change recordedTombstones db id staging.cut db.ledger.checkpointEnvelopes = _
    rw [hs.cut]
    rfl
  · change recordedTombstones db _ staging.cut db.ledger.checkpointClaims = _
    rw [hs.cut]
    rfl
  · intro claim hc
    rw [sealedClaims_eq] at hc
    obtain ⟨record, hr, rfl⟩ := List.mem_map.mp hc
    exact store_of_mem hr

end

end Smalltalk.Retention
