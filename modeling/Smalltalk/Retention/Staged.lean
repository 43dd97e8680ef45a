import Smalltalk.Retention.Planner

/-!
# Planning a staged set

A checkpoint pass captures its sealed set into the tables of a staging file, a page at a
time, and `plan_staged` marks the claims to drop by statements over whole tables.

A row of `claims` is named by its index in the order of `pos`. The columns `status_keep` and
`dropped` are sets of indexes. Text that only carries a JSON list or tuple through a column is
the value it encodes.
-/

namespace Smalltalk.Retention

/-! ## The staging tables -/

inductive StagingError where
  | outOfRange
  | notASlot (text : String)
  | notAGroup (text : String)
  | missingClaim (id : String)
  deriving DecidableEq

def toI64 (n : Nat) : Except StagingError Nat := if n ≤ i64Max then .ok n else .error .outOfRange

structure Codec where
  slotText : SlotKey → String
  slotFromText : String → Option SlotKey
  slot_roundtrip : ∀ slot, slotFromText (slotText slot) = some slot
  groupText : AccountGroup → String
  groupFromText : String → Option AccountGroup
  group_roundtrip : ∀ group, groupFromText (groupText group) = some group
  predecessorsText : List String → String

/-- `CheckpointClaimFacts`: what the planner reads of a claim's body. -/
structure ClaimFacts where
  slot : Option String
  statusSource : Bool
  fields : List String
  cites : List String
  closes : Option String
  limits : Option (String × Nat)

structure StagedEnvelope where
  acceptedAt : Nat
  records : Nat
  included : Bool

structure StagedClaim where
  id : String
  envelope : EnvelopeId
  subject : String
  kind : String
  actor : Option String
  operationId : Option String
  requestDigest : Option String
  predecessors : List String
  acceptedAt : Nat
  valid : Bool
  first : Bool
  named : Bool := false
  slot : Option String
  seat : Option String
  fields : List String
  limits : Option (String × Nat)

structure Staging where
  cut : Nat
  envelopes : Table EnvelopeId StagedEnvelope
  claims : List StagedClaim := []
  cited : List String := []
  closed : List (String × String) := []
  earlierEnvelopes : List EnvelopeTombstone := []
  earlierClaims : List ClaimTombstone := []

def stagingPage : Nat := 64

section
variable (schema : Schema) (codec : Codec)

def claimFacts (claim : ClaimRecord) : ClaimFacts where
  slot := (slotOf schema claim).map codec.slotText
  statusSource := statusSource claim
  fields := fieldNames claim
  cites := citedBy claim
  closes := closes claim
  limits :=
    if claim.kind = "harness.limits" then
      (schema.limitsReading claim).map fun reading => (codec.groupText reading.1, reading.2)
    else none

/-! ## The capture -/

/-- The envelopes before the cut. A record of a claim dated at or after the cut makes its envelope
late. -/
def captureEnvelopes (db : Db) (cut sealRow : Nat) : Table EnvelopeId StagedEnvelope where
  rows := db.envelopes.rows.filterMap fun r =>
    if r.2.rowid ≤ sealRow ∧ r.2.acceptedAt < cut then
      some (r.1, { acceptedAt := r.2.acceptedAt
                   records := (db.ledger.records.rows.filter (·.1.1 = r.1)).length
                   included := r.1 ∉ lateEnvelopes db cut sealRow })
    else none
  nodup := by
    apply db.envelopes.nodup_filterMap
    intro r b h
    simp only [Option.ite_none_right_eq_some, Option.some.injEq] at h
    rw [← h.2]

def orderRecords (db : Db) (cut sealRow : Nat) : List SealedRecord :=
  (sealedRecords db cut sealRow).insertionSort (fun a b => a.key ≤ b.key)

/-- The columns `limits_group` and `limits_measured`. -/
def limitsColumns : Option (String × Nat) → Except StagingError (Option (String × Nat))
  | some (group, measured) => (toI64 measured).map fun measured => some (group, measured)
  | none => .ok none

/-- Insert one row with a claim's facts. A rule decides each claim once, by its first occurrence. -/
def stageRow (staging : Staging) (record : SealedRecord) (acceptedAt : Nat)
    (limits : Option (String × Nat)) :
    Staging :=
  let claim := recordOf record.id record.row
  let facts := claimFacts schema codec claim
  let first : Bool := ¬ staging.claims.any (·.id = claim.id)
  { staging with
    claims := staging.claims ++
      [{ id := claim.id, envelope := record.envelope, subject := claim.subject, kind := claim.kind,
         actor := claim.actor
         operationId := (operationParts claim.body).map (·.1), requestDigest :=
           (operationParts claim.body).map (·.2)
         predecessors := claim.predecessors, acceptedAt, valid := record.valid, first
         slot := if first then facts.slot else none
         seat := if first ∧ facts.statusSource then some claim.subject else none
         fields := facts.fields, limits }]
    cited := staging.cited ++ facts.cites
    closed := staging.closed ++ facts.closes.toList.map fun request => (claim.subject, request) }

def stageClaim (staging : Staging) (record : SealedRecord) : Except StagingError Staging := do
  let acceptedAt ← toI64 record.row.acceptedAt
  let limits ← limitsColumns (claimFacts schema codec (recordOf record.id record.row)).limits
  return stageRow schema codec staging record acceptedAt limits

/-- One page of `capture_claims` after another. -/
def captureClaims (ordered : List SealedRecord) : Nat → Nat → Staging → Except StagingError Staging
  | 0, _, staging => .ok staging
  | fuel + 1, after, staging =>
    if ordered.length ≤ after then .ok staging
    else do
      let page := ((ordered.drop after).take stagingPage).filter fun record =>
        (staging.envelopes.get? record.envelope).any (·.included)
      let staging ← page.foldlM (stageClaim schema codec) staging
      captureClaims ordered fuel (min (after + stagingPage) ordered.length) staging

end

/-- `capture_protection`: the claims a projection row or a repair names. -/
def captureProtection (db : Db) (staging : Staging) : Staging :=
  { staging with
    claims :=
      staging.claims.map fun claim =>
        { claim with named := claim.id ∈ db.ledger.projectionClaims } }

/-- An envelope already before the cut stays as it is; otherwise the tombstone stands for it, with
no records. -/
def standIn (envelopes : Table EnvelopeId StagedEnvelope) (tombstone : EnvelopeTombstone) :
    Table EnvelopeId StagedEnvelope :=
  let row : StagedEnvelope := { acceptedAt := tombstone.2, records := 0, included := true }
  (envelopes.update tombstone.1 fun old => if old.included then old else row).insert tombstone.1 row

def captureEarlier (db : Db) (staging : Staging) : Staging :=
  let tombstones := recordedTombstones db id staging.cut db.ledger.checkpointEnvelopes
  { staging with
    envelopes := tombstones.foldl standIn staging.envelopes
    earlierEnvelopes := tombstones
    earlierClaims := recordedTombstones db (·.acceptedAt) staging.cut db.ledger.checkpointClaims }

def capture (schema : Schema) (codec : Codec) (db : Db) (cut sealRow : Nat) :
    Except StagingError Staging := do
  let ordered := orderRecords db cut sealRow
  let staging ← captureClaims schema codec ordered ordered.length 0
    { cut, envelopes := captureEnvelopes db cut sealRow }
  return captureEarlier db (captureProtection db staging)

/-! ## `plan_staged` -/

section
variable (db : Db) (staging : Staging)

/-- `for_each_group`: each value of a column, in text order. -/
def stagedGroups (column : StagedClaim → Option String) : List String :=
  (OrdSet.ofList (staging.claims.filterMap column)).toList

def stagedMembers (column : StagedClaim → Option String) (value : String) : List Nat :=
  (List.range staging.claims.length).filter fun i => (staging.claims[i]?).bind column = some value

/-- `StagedPlanner::claims`: the claims of these rows, read from the store. -/
def plannerClaims (members : List Nat) : Except StagingError (List ClaimRecord) :=
  (members.filterMap (staging.claims[·]?)).mapM fun claim =>
    match db.claims.get? claim.id with
    | some row => .ok (recordOf claim.id row)
    | none => .error (.missingClaim claim.id)

def stagedStatusKeep : Except StagingError (List Nat) := do
  let kept ← (stagedGroups staging (·.seat)).mapM fun seat => do
    let members := stagedMembers staging (·.seat) seat
    let sources ← plannerClaims db staging members
    return (statusKeepPositions sources staging.cut).filterMap (members[·]?)
  return kept.flatten

/-- The rows of the `limits_newest` query: a group's text and its newest
measurement. -/
def stagedLimits : List (String × Nat) :=
  let readings := staging.claims.filterMap fun claim =>
    if claim.first ∧ claim.kind = "harness.limits" then claim.limits else none
  (OrdSet.ofList (readings.map (·.1))).toList.map fun group =>
    (group, ((readings.filterMap fun r => if r.1 = group then some r.2 else none).max?).getD 0)

def stagedLimitsNewest (codec : Codec) : Except StagingError (List (AccountGroup × Nat)) :=
  (stagedLimits staging).mapM fun r =>
    match codec.groupFromText r.1 with
    | some group => .ok (group, r.2)
    | none => .error (.notAGroup r.1)

def stagedExpired : List String :=
  staging.claims.filterMap fun claim =>
    if claim.first ∧ claim.kind = questionResolved ∧
      questionExpired claim.acceptedAt staging.cut then
      some claim.subject
    else none

def stagedClosed (slot : SlotKey) : Bool :=
  match (ofLex slot).1 with
  | .deferral => staging.closed.contains ((ofLex slot).2.headD "", (ofLex slot).2.getLastD "")
  | .questionLifecycle => (stagedExpired staging).contains ((ofLex slot).2.headD "")
  | _ => false

section
variable (schema : Schema) (codec : Codec)

def stagedSlotDrops (statusKeep : List Nat) (limitsNewest : List (AccountGroup × Nat))
    (text : String) :
    Except StagingError (List Nat) := do
  let slot ← match codec.slotFromText text with
    | some slot => pure slot
    | none => .error (.notASlot text)
  let rule := (ofLex slot).1
  let members := stagedMembers staging (·.slot) text
  let claims ← if rule.readsBodies then plannerClaims db staging members else pure []
  let newest := fun group => ((limitsNewest.find? (·.1 = group)).map (·.2)).getD 0
  let keep :=
    ruleKeep schema rule members.length claims (stagedClosed staging slot) newest staging.cut ++
    if rule.keepsFieldCarriers then
    carriers ((members.filterMap (staging.claims[·]?)).map (·.fields)) else []
  return members.zipIdx.filterMap fun r =>
    if r.2 ∉ keep ∧ r.1 ∉ statusKeep ∧
        (staging.claims[r.1]?).any (fun claim => rule.oldEnough claim.acceptedAt staging.cut)
        then some r.1
    else none

def stagedNewest (writer : String) : Option Nat :=
  (staging.envelopes.rows.filterMap fun r =>
    if r.1.writer = writer ∧ r.2.included then some r.1.sequence else none).max?

/-- The guards of one `UPDATE`. -/
def stagedGuarded (claim : StagedClaim) : Bool :=
  claim.actor.any (fun actor => actor.toList.take 7 = "person/".toList) ∨
    claim.kind ∈ ((staging.claims.map (·.kind)).dedup.filter (guardedKind schema)) ∨
    ¬ claim.valid ∨ claim.named ∨ 1 < staging.claims.countP (·.id = claim.id) ∨
    claim.id ∈ staging.cited ∨
    stagedNewest staging claim.envelope.writer = some claim.envelope.sequence

def stagedKindAt (i : Nat) : String := ((staging.claims[i]?).map (·.kind)).getD ""

def stagedNamesAt (i : Nat) : List String := ((staging.claims[i]?).map (·.fields)).getD []

def stagedWitnessSlot (text : String) (dropped : Finset Nat) : Finset Nat :=
  if (codec.slotFromText text).any fun slot => (ofLex slot).1 = .questionLifecycle then dropped
  else keepUnwitnessed schema (stagedKindAt staging) (stagedNamesAt staging)
    (stagedMembers staging (·.slot) text).reverse [] 0 dropped

/-- `UPDATE claims SET dropped=0 WHERE dropped=1 AND …`. -/
def keepWhere (p : StagedClaim → Bool) (dropped : Finset Nat) : Finset Nat :=
  dropped.filter fun i => ¬ (staging.claims[i]?).any p

/-- `EXISTS(SELECT 1 FROM claims other WHERE … AND other.dropped=0)`. -/
def existsKept (dropped : Finset Nat) (p : StagedClaim → Bool) : Bool :=
  (List.range staging.claims.length).any fun i => (staging.claims[i]?).any p ∧ i ∉ dropped

def stagedOperations (dropped : Finset Nat) : Finset Nat :=
  keepWhere staging (fun claim => claim.operationId.isSome ∧
    existsKept staging dropped fun other => other.operationId = claim.operationId) dropped

def stagedEnvelopes (dropped : Finset Nat) : Finset Nat :=
  keepWhere staging (fun claim =>
    existsKept staging dropped fun other => other.envelope = claim.envelope) dropped

def stagedRecords (dropped : Finset Nat) : Finset Nat :=
  keepWhere staging (fun claim => (staging.envelopes.get? claim.envelope).any fun envelope =>
    envelope.records ≠ staging.claims.countP (·.envelope = claim.envelope)) dropped

def stagedRound (dropped : Finset Nat) : Finset Nat :=
  stagedRecords staging (stagedEnvelopes staging (stagedOperations staging
    (passGroups (stagedWitnessSlot staging schema codec) (stagedGroups staging (·.slot)) dropped)))

def planStaged : Except StagingError (Finset Nat) := do
  let statusKeep ← stagedStatusKeep db staging
  let limitsNewest ← stagedLimitsNewest staging codec
  let marked ← (stagedGroups staging (·.slot)).mapM
    (stagedSlotDrops db staging schema codec statusKeep limitsNewest)
  let dropped :=
    marked.flatten.toFinset.filter fun i =>
      ¬ (staging.claims[i]?).any (stagedGuarded staging schema)
  return untilStable (stagedRound staging schema codec) dropped.card dropped

end

/-! ## `finish` -/

section
variable (codec : Codec) (digests : Digests) (dropped : Finset Nat)

def stagedWhere (p : Nat → StagedClaim → Bool) : List StagedClaim :=
  (List.range staging.claims.length).filterMap fun i => (staging.claims[i]?).filter (p i)

/-- The included envelopes all of whose claims go. -/
def finishEnvelopes : List (EnvelopeId ×ₗ Nat) :=
  ((staging.envelopes.rows.filter fun r => r.2.included ∧
      staging.claims.any (·.envelope = r.1) ∧ ¬ existsKept staging dropped (·.envelope = r.1)).map
    fun r => toLex (r.1, r.2.acceptedAt)).insertionSort (· ≤ ·)

def stagedTombstone (claim : StagedClaim) : ClaimTombstone :=
  (claim.id,
    { envelope := claim.envelope, subject := claim.subject, kind := claim.kind, actor := claim.actor
      predecessors := claim.predecessors, operationId := claim.operationId, requestDigest :=
        claim.requestDigest
      acceptedAt := claim.acceptedAt })

def finishClaims : List ClaimTombstone :=
  ((stagedWhere staging fun i claim => claim.first ∧ i ∈ dropped).map stagedTombstone).insertionSort
    (·.1 ≤ ·.1)

def finishKinds : List (String × DropCount) :=
  let firsts := stagedWhere staging fun _ claim => claim.first
  (OrdSet.ofList (firsts.map (·.kind))).toList.filterMap fun kind =>
    let count : DropCount :=
      { sealed := firsts.countP (·.kind = kind)
        dropped :=
          (stagedWhere staging fun i claim => claim.first ∧ i ∈ dropped).countP (·.kind = kind) }
    if 0 < count.dropped then some (kind, count) else none

/-- The columns of a tombstone in the order of the digest's `ORDER BY`. -/
def tombstoneColumns (tombstone : ClaimTombstone) :
    String ×ₗ EnvelopeId ×ₗ String ×ₗ String ×ₗ WithBot String ×ₗ String ×ₗ WithBot String ×ₗ
      WithBot String ×ₗ Nat :=
  toLex (tombstone.1, toLex
    (tombstone.2.envelope, toLex (tombstone.2.subject, toLex (tombstone.2.kind,
    toLex (tombstone.2.actor, toLex (codec.predecessorsText tombstone.2.predecessors,
      toLex (tombstone.2.operationId,
        toLex (tombstone.2.requestDigest, tombstone.2.acceptedAt))))))))

def finish : DropPlan :=
  let envelopes := finishEnvelopes staging dropped
  let claims := finishClaims staging dropped
  let included := staging.envelopes.rows.filter (·.2.included)
  { cut := staging.cut
    sealedEnvelopes := included.length
    sealedClaims := (stagedWhere staging fun _ claim => claim.first).length
    sealedDigest := digests.identities ((included.map (·.1)).insertionSort (· ≤ ·))
    envelopes
    claims := claims.map toLex
    byKind := finishKinds staging dropped
    dropDigest := digests.drop
      ((staging.earlierEnvelopes.map toLex ++ envelopes).dedup.insertionSort (· ≤ ·))
      (((staging.earlierClaims ++ claims).dedup.insertionSort
        fun a b => tombstoneColumns codec a ≤ tombstoneColumns codec b).map toLex)
    retainedDigest := digests.retained
      (((stagedWhere staging fun i claim => claim.first ∧ i ∉ dropped).map
        (·.id)).dedup.insertionSort (· ≤ ·)) }

end

end

def stagedPlan (schema : Schema) (codec : Codec) (digests : Digests) (db : Db) (cut sealRow : Nat) :
    Except StagingError DropPlan := do
  let staging ← capture schema codec db cut sealRow
  let dropped ← planStaged db staging schema codec
  return finish staging codec digests dropped

end Smalltalk.Retention
