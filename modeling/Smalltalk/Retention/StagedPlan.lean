import Smalltalk.Retention.StagedRounds

/-!
# The staged plan is the reference plan

`finish` reads off the marks what `plan_drops` returns, so a capture that goes
through plans what `plan_drops` plans for the sealed set.
-/

namespace Smalltalk.Retention

open List Option OrdSet Encodable

open Finset

section
variable {s : Schema} {sealed : SealedSet}

theorem nodup_firstsWhere (p : Nat → Bool) : ((firstsWhere sealed p).map (·.id)).Nodup := by
  rw [List.Nodup, pairwise_map]
  unfold firstsWhere claimsAt
  rw [pairwise_filterMap]
  have hr : (indexes sealed).Pairwise (· < ·) := pairwise_lt_range
  apply (hr.filter _).imp_of_mem
  intro i j _ hj hl a ha b hb heq
  have hf := (List.mem_filter.mp hj).2
  simp only [decide_eq_true_eq, isFirst, hb, any_some, List.any_eq_true, not_exists, not_and] at hf
  refine hf.1 a (mem_of_getElem? (i := i) ?_) heq
  rw [getElem?_take_of_lt hl, ha]

theorem mem_of_firstsWhere {p : Nat → Bool} {claim : SealedClaim}
    (h : claim ∈ firstsWhere sealed p) :
    claim ∈ sealed.claims := by
  obtain ⟨i, _, hi⟩ := List.mem_filterMap.mp h
  exact mem_of_getElem? hi

variable {c : Codec} {db : Db} {staging : Staging}

theorem Mirrors.stagedWhere (h : Mirrors s c db sealed staging) {p : Nat → Bool}
    {q : Nat → StagedClaim → Bool}
    (hq : ∀ i claim, q i claim = true ↔ claim.first = true ∧ p i = true) :
    stagedWhere staging q = (firstsWhere sealed p).map (mirrorRow s c true) := by
  unfold Retention.stagedWhere firstsWhere Retention.claimsAt indexes
  rw [map_filterMap, filterMap_filter, h.length]
  apply filterMap_congr
  intro i _
  rw [h.claims i]
  cases hc : sealed.claims[i]? with
  | none => simp
  | some claim =>
    have hi := hq i (mirrorRow s c (isFirst sealed i) claim)
    by_cases hk : isFirst sealed i = true ∧ p i = true
    · rw [if_pos (by simpa using hk), map_some, filter_some, if_pos (hi.mpr hk), hk.1]
      rfl
    · rw [if_neg (by simpa using hk), map_some, filter_some, if_neg fun hr => hk (hi.mp hr)]

variable {d : Finset Nat}

section
variable (h : Mirrors s c db sealed staging)
include h

theorem Mirrors.dropped : (Retention.stagedWhere staging fun i claim => claim.first ∧ i ∈ d) =
      (firstsWhere sealed (· ∈ d)).map (mirrorRow s c true) :=
  h.stagedWhere fun i claim => by simp

theorem Mirrors.retained : (Retention.stagedWhere staging fun i claim => claim.first ∧ i ∉ d) =
      (firstsWhere sealed (· ∉ d)).map (mirrorRow s c true) :=
  h.stagedWhere fun i claim => by simp

theorem Mirrors.firsts : (Retention.stagedWhere staging fun _ claim => claim.first) =
      (firstsWhere sealed fun _ => true).map (mirrorRow s c true) :=
  h.stagedWhere fun i claim => by simp

end

/-! ## The parts of a plan -/

section
variable (h : Mirrors s c db sealed staging)
include h

theorem Mirrors.envelopeGoes (envelope : EnvelopeId) : envelopeGoes sealed d envelope = true ↔
      staging.claims.any (·.envelope = envelope) = true ∧
      ¬ existsKept staging d (·.envelope = envelope) = true := by
  have hn (i : Nat) : (staging.claims[i]?).any
      (fun claim => decide (claim.envelope = envelope)) = true ↔
      envelopeKey sealed i = some envelope := by
    rw [← h.envelope_at i]
    cases staging.claims[i]? <;> simp
  unfold Retention.envelopeGoes
  simp only [existsKept_iff, decide_eq_true_eq, hn, mem_groupKeys, List.all_eq_true, mem_membersOf,
    not_exists, not_and, not_not]
  have hh : staging.claims.any (·.envelope = envelope) = true ↔
      ∃ i < sealed.claims.length, envelopeKey sealed i = some envelope := by
    simp only [← hn, ← h.length]
    rw [List.any_eq_true]
    constructor
    · rintro ⟨claim, hm, heq⟩
      obtain ⟨i, hi, rfl⟩ := getElem_of_mem hm
      exact ⟨i, hi, by simpa [hi] using heq⟩
    · rintro ⟨i, hi, heq⟩
      exact ⟨staging.claims[i], getElem_mem hi, by simpa [hi] using heq⟩
  rw [hh]
  refine and_congr_right fun _ =>
    ⟨fun ha i hi => ha i ⟨envelopeKey_ofClaims i envelope hi, hi⟩, fun ha i hi => ?_⟩
  exact ha i hi.2

theorem Mirrors.finishEnvelopes : finishEnvelopes staging d = planEnvelopes sealed d := by
  symm
  apply toList_ofList_eq_insertionSort
  · apply List.Nodup.of_map fun tombstone => (ofLex tombstone).1
    rw [List.map_map]
    exact staging.envelopes.nodup.sublist (filter_sublist.map _)
  · intro tombstone
    simp only [List.mem_filterMap, ← h.envelopes.mem_iff, List.mem_map, List.mem_filter,
      ite_none_right_eq_some, Option.some.injEq, decide_eq_true_eq]
    constructor
    · rintro ⟨_, ⟨r, ⟨hr, hi⟩, rfl⟩, hg, rfl⟩
      exact ⟨r, ⟨hr, hi, (h.envelopeGoes r.1).mp hg⟩, rfl⟩
    · rintro ⟨r, ⟨hr, hi, hg⟩, rfl⟩
      exact ⟨_, ⟨r, ⟨hr, hi⟩, rfl⟩, (h.envelopeGoes r.1).mpr hg, rfl⟩

theorem Mirrors.finishClaims : (finishClaims staging d).map toLex = planClaims sealed d := by
  have hr : Retention.finishClaims staging d =
      sortByKey ((firstsWhere sealed (· ∈ d)).map claimTombstone) := by
    rw [Retention.finishClaims, h.dropped, List.map_map]
    rfl
  rw [hr]
  symm
  apply toList_ofList_eq
  · have hi : Increasing (sortByKey ((firstsWhere sealed (· ∈ d)).map claimTombstone)) := by
      apply increasing_sortByKey
      rw [List.map_map]
      exact nodup_firstsWhere _
    rw [pairwise_map]
    exact hi.imp fun hl => Prod.Lex.toLex_lt_toLex.mpr (.inl hl)
  · intro tombstone
    simp only [List.mem_map, mem_sortByKey]
    constructor
    · rintro ⟨claim, hc, rfl⟩
      exact ⟨_, ⟨claim, hc, rfl⟩, rfl⟩
    · rintro ⟨_, ⟨claim, hc, rfl⟩, rfl⟩
      exact ⟨claim, hc, rfl⟩

theorem Mirrors.finishKinds : finishKinds staging d = countKinds sealed d := by
  unfold Retention.finishKinds countKinds
  rw [h.firsts, h.dropped]
  simp only [List.map_map, countP_map]
  rfl

end

/-! ## The drop digest -/

/-- Claim ids are hashes over predecessors, among others: a tombstone and a sealed claim of one id
have the same predecessors. -/
def ContentAddressed (sealed : SealedSet) : Prop :=
  ∀ tombstone ∈ sealed.claimTombstones, ∀ claim ∈ sealed.claims, tombstone.1 = claim.id →
    tombstone.2.predecessors = claim.row.predecessors

/-- The statement's order differs from that of the tombstones only in how it compares
predecessors. -/
theorem tombstoneColumns_le_iff {a b : ClaimTombstone}
    (h : a.1 = b.1 → a.2.predecessors = b.2.predecessors) :
    tombstoneColumns c a ≤ tombstoneColumns c b ↔ toLex a ≤ toLex b := by
  have hk : a.2 ≤ b.2 ↔ droppedClaimKey a.2 ≤ droppedClaimKey b.2 := Iff.rfl
  simp only [tombstoneColumns, Prod.Lex.toLex_le_toLex, hk, droppedClaimKey]
  by_cases hi : a.1 = b.1
  · simp only [h hi, lt_self_iff_false, false_or, true_and]
  · simp only [hi, false_and]

section
variable (h : Mirrors s c db sealed staging)
include h

theorem Mirrors.dropTombstones (hc : ContentAddressed sealed)
    (he : (sealed.claimTombstones.map (·.1)).Nodup) :
    ((staging.earlierClaims ++ Retention.finishClaims staging d).dedup.insertionSort
        fun a b => tombstoneColumns c a ≤ tombstoneColumns c b).map toLex =
      (ofList (sealed.claimTombstones.map toLex ++ planClaims sealed d)).toList := by
  have hf (tombstone : ClaimTombstone) : tombstone ∈ Retention.finishClaims staging d ↔
      ∃ claim ∈ firstsWhere sealed (· ∈ d), claimTombstone claim = tombstone := by
    rw [Retention.finishClaims, h.dropped, List.map_map, mem_insertionSort, List.mem_map]
    rfl
  have hm : ∀ a ∈ staging.earlierClaims ++ Retention.finishClaims staging d,
      ∀ b ∈ staging.earlierClaims ++ Retention.finishClaims staging d, a.1 = b.1 →
      a.2.predecessors = b.2.predecessors := by
    intro a ha b hb hi
    rw [h.earlierClaims, mem_append, hf] at ha hb
    rcases ha with ha | ⟨claim, hl, rfl⟩ <;> rcases hb with hb | ⟨other, ho, rfl⟩
    · rw [inj_on_of_nodup_map he ha hb hi]
    · exact hc a ha other (mem_of_firstsWhere ho) hi
    · exact (hc b hb claim (mem_of_firstsWhere hl) hi.symm).symm
    · rw [inj_on_of_nodup_map (nodup_firstsWhere _) hl ho hi]
  symm
  apply toList_ofList_eq
  · rw [pairwise_map]
    have hs := pairwise_insertionSort (fun a b => tombstoneColumns c a ≤ tombstoneColumns c b)
      (staging.earlierClaims ++ Retention.finishClaims staging d).dedup
    have hn := (perm_insertionSort (fun a b => tombstoneColumns c a ≤ tombstoneColumns c b)
      (staging.earlierClaims ++ Retention.finishClaims staging d).dedup).nodup_iff.mpr
        (nodup_dedup _)
    apply (hs.and hn).imp_of_mem
    intro a b ha hb hab
    rw [mem_insertionSort, mem_dedup] at ha hb
    have hle := (tombstoneColumns_le_iff (hm a ha b hb)).mp hab.1
    exact lt_of_le_of_ne hle fun heq => hab.2 (toLex.injective heq)
  · intro tombstone
    rw [← h.finishClaims, ← h.earlierClaims, ← map_append]
    simp only [List.mem_map, mem_insertionSort, mem_dedup]

theorem Mirrors.sealedIds (hn : sealed.identities.Nodup) :
    ((staging.envelopes.rows.filter (·.2.included)).map (·.1)).insertionSort (· ≤ ·) =
      (ofList sealed.identities).toList := by
  have hp : ((staging.envelopes.rows.filter (·.2.included)).map (·.1)).Perm sealed.identities := by
    have := h.envelopes.map (·.id)
    rwa [List.map_map] at this
  symm
  apply toList_ofList_eq_insertionSort (hp.nodup_iff.mpr hn)
  intro id
  rw [hp.mem_iff]

theorem Mirrors.finish (haddressed : ContentAddressed sealed)
    (he : (sealed.claimTombstones.map (·.1)).Nodup) (hn : sealed.identities.Nodup)
    (digests : Digests) :
    finish staging c digests (plannedDrops s sealed) = planDrops s digests sealed := by
  have hc : (staging.envelopes.rows.filter (·.2.included)).length = sealed.envelopes.length := by
    have := h.envelopes.length_eq
    rwa [length_map] at this
  have he' :
      (sealed.envelopeTombstones.map toLex ++
        planEnvelopes sealed (plannedDrops s sealed)).dedup.insertionSort (· ≤ ·) =
        (ofList (sealed.envelopeTombstones.map toLex ++
          planEnvelopes sealed (plannedDrops s sealed))).toList :=
    (toList_ofList_eq_insertionSort (nodup_dedup _) fun a => mem_dedup.symm).symm
  have hr :
      ((firstsWhere sealed (· ∉ plannedDrops s sealed)).map (·.id)).dedup.insertionSort (· ≤ ·) =
      (ofList ((firstsWhere sealed (· ∉ plannedDrops s sealed)).map (·.id))).toList :=
    (toList_ofList_eq_insertionSort (nodup_dedup _) fun a => mem_dedup.symm).symm
  unfold Retention.finish planDrops
  simp only [h.cut, h.finishEnvelopes, h.finishClaims, h.finishKinds, h.earlierEnvelopes,
    h.dropTombstones haddressed he, h.sealedIds hn, hc, h.firsts, h.retained, length_map,
    List.map_map, he']
  rw [← hr]
  rfl

end

end

/-! ## Staged planning -/

section
variable {schema : Schema} {codec : Codec} {digests : Digests} {db : Db} {cut sealRow : Nat}

/-- Planning a captured set over the tables gives the plan of `plan_drops`, unless a sealed
reading was measured at a time its column cannot hold. Then every capture of the set fails. -/
theorem stagedPlan_eq_planDrops_iff (hcut : cut ≤ i64Max)
    (hcontent : ContentAddressed (sealedSetAt db cut sealRow)) :
    stagedPlan schema codec digests db cut sealRow =
      .ok (planDrops schema digests (sealedSetAt db cut sealRow)) ↔
      ReadingsFit schema (sealedSetAt db cut sealRow) := by
  constructor
  · intro hp
    by_contra hu
    rw [stagedPlan, capture_error hcut hu] at hp
    cases hp
  · intro hf
    obtain ⟨staging, hc, hm⟩ : ∃ staging, capture schema codec db cut sealRow = .ok staging ∧ _ :=
      capture_mirrors hcut hf
    rw [stagedPlan, hc]
    change (planStaged db staging schema codec).bind _ = _
    rw [hm.planStaged]
    change Except.ok (finish staging codec digests
      (plannedDrops schema (sealedSetAt db cut sealRow))) = _
    rw [hm.finish hcontent nodup_recordedTombstones nodup_identities]

end

deriving instance Encodable for Rule

instance charEncodable : Encodable Char := ofLeftInverse Char.toNat Char.ofNat Char.ofNat_toNat

instance stringEncodable : Encodable String :=
  ofLeftInverse String.toList String.ofList fun _ => String.ofList_toList

instance : Encodable SlotKey := inferInstanceAs (Encodable (Rule × List String))

def ticks {κ : Type} [Encodable κ] (k : κ) : String := String.ofList (List.replicate (encode k) '|')

def fromTicks {κ : Type} [Encodable κ] (text : String) : Option κ := decode text.toList.length

theorem fromTicks_ticks {κ : Type} [Encodable κ] (k : κ) : fromTicks (ticks k) = some k := by
  simp [fromTicks, ticks, String.toList_ofList, encodek]

def tickCodec : Codec where
  slotText := ticks
  slotFromText := fromTicks
  slot_roundtrip := fromTicks_ticks
  groupText := ticks
  groupFromText := fromTicks
  group_roundtrip := fromTicks_ticks
  predecessorsText := ticks

def limitsSchema : Schema where
  registry kind :=
    if kind = "harness.limits" then
    some { cardinality := .append, fields := ["measured_at_unix_ms"] } else none
  valueText _ := ""
  limitsReading claim :=
    (fieldU64 claim "measured_at_unix_ms").map
      fun measured => (("codex", claim.subject, "", true), measured)
  sloRecord _ := none

def listDigests : Digests where
  identities ids := String.intercalate "," (ids.map (·.hash))
  drop envelopes claims := String.intercalate "," (envelopes.map (·.1.hash) ++ claims.map (·.1))
  retained ids := String.intercalate "," ids

/-- The envelope at `row` holds one reading of the account of `agent`. -/
def addReading (db : Db) (row : Nat) (agent : String) (measured : Nat) : Db :=
  let id := ticks row
  let envelope : EnvelopeId := ⟨"ada", row, id⟩
  { db with
    claims := db.claims.insert id
      { batchId := id, subject := "agent/" ++ agent, kind := "harness.limits", origin := "ada",
        actor := none
        body := .object [("fields", .object [("measured_at_unix_ms", .number (.posInt measured))])]
        predecessors := [], acceptedAt := row }
    batches := db.batches.insert id
      { origin := "ada", replicaSequence := row, previousHash := none, hash := id,
        acceptedAt := row }
    envelopes := db.envelopes.insert envelope
      { rowid := row, previousHash := none, acceptedAt := row, payload := .bytes [],
        batchId := some id, relay := "ada"
        receiptState := .validated, validationError := none, receivedAt := row }
    ledger :=
      { db.ledger with records := db.ledger.records.insert (envelope, 0) ⟨.valid, some id, none⟩ } }

def limitsStore (readings : List (String × Nat)) : Db :=
  readings.zipIdx.foldl (fun db reading => addReading db (reading.2 + 1) reading.1.1 reading.1.2) {}

/-- Two readings of one account, more than an hour apart, and one of another. -/
def twoAccounts : Db := limitsStore [("ada", 7), ("ada", 3600008), ("bob", 4)]

/-- Of the three readings the first goes. -/
theorem stagedPlan_of_small_readings :
    stagedPlan limitsSchema tickCodec listDigests twoAccounts 10 3 =
      .ok (planDrops limitsSchema listDigests (sealedSetAt twoAccounts 10 3)) ∧
    (planDrops limitsSchema listDigests (sealedSetAt twoAccounts 10 3)).claims.map
      (·.1) = [ticks 1] ∧
    (planDrops limitsSchema listDigests (sealedSetAt twoAccounts 10 3)).sealedClaims = 3 := by
  refine ⟨(stagedPlan_eq_planDrops_iff (by decide) ?_).mpr ?_, ?_, ?_⟩
  · intro tombstone ht
    cases ht
  · decide +kernel
  · decide +kernel
  · decide +kernel

/-- The capture fails on a reading that `plan_drops` plans with. -/
theorem stagedPlan_of_large_reading :
    stagedPlan limitsSchema tickCodec listDigests (limitsStore [("ada", 2 ^ 63)]) 10 1 =
      .error .outOfRange ∧
      (planDrops limitsSchema listDigests
        (sealedSetAt (limitsStore [("ada", 2 ^ 63)]) 10 1)).sealedClaims = 1 := by
  constructor
  · rw [stagedPlan, capture_error (by decide) (by decide +kernel)]
    rfl
  · decide +kernel

end Smalltalk.Retention
