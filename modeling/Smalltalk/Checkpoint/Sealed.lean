import Smalltalk.Lib.OrdSet
import Smalltalk.Lib.Pages
import Smalltalk.Store.Envelope

/-!
# Sealed sets

A checkpoint seals the envelopes a node holds from before a cut. The sealed set leaves out
the tombstones of a checkpoint that is still recording.
-/

namespace Smalltalk

open Option List

/-! ## The sealed set -/

abbrev EnvelopeTombstone := EnvelopeId × Nat

abbrev ClaimTombstone := String × DroppedClaim

structure SealedEnvelope where
  id : EnvelopeId
  acceptedAt : Nat
  records : Nat

structure SealedClaim where
  id : String
  row : ClaimRow
  envelope : EnvelopeId
  valid : Bool
  named : Bool

structure SealedSet where
  cut : Nat
  sealRowid : Nat
  envelopes : List SealedEnvelope
  claims : List SealedClaim
  envelopeTombstones : List EnvelopeTombstone
  claimTombstones : List ClaimTombstone

/-- A record that is not a repaired original, with what the canonical order reads of its claim and
batch. -/
structure SealedRecord where
  envelope : EnvelopeId
  position : Nat
  valid : Bool
  id : String
  row : ClaimRow
  batch : BatchRow
  claimPosition : Nat

def SealedRecord.key (record : SealedRecord) :
    Nat ×ₗ String ×ₗ Nat ×ₗ String ×ₗ Nat ×ₗ String ×ₗ EnvelopeId ×ₗ Nat :=
  toLex (record.row.acceptedAt, toLex (record.batch.origin, toLex (record.batch.replicaSequence,
    toLex (record.row.batchId, toLex (record.claimPosition, toLex (record.id,
      toLex (record.envelope, record.position)))))))

def isRecording (db : Db) (checkpoint : String) : Bool :=
  (db.ledger.checkpoints.get? checkpoint).any (·.state = .recording)

/-- The tombstones a sealed set reads: those before the cut, but none of a checkpoint whose trim is
still recording them. -/
def recordedTombstones {κ ρ : Type} (db : Db) (dated : ρ → Nat) (cut : Nat)
    (table : Table κ (Tombstone ρ)) :
    List (κ × ρ) :=
  table.rows.filterMap fun r =>
    if dated r.2.content < cut ∧ ¬ isRecording db r.2.checkpoint then
      some (r.1, r.2.content) else none

section
variable (db : Db) (cut : Nat)

variable (sealRow : Nat)

def claimPosition (id : String) : Nat :=
  ((db.ledger.records.rows.filterMap fun r =>
    if r.2.claimId = some id then some r.1.2 else none).min?).getD 0

def sealedRecord (r : (EnvelopeId × Nat) × RecordRow) : Option SealedRecord :=
  if r.2.state = .repaired then none
  else do
    let id ← r.2.claimId
    let row ← db.claims.get? id
    let batch ← db.batches.get? row.batchId
    let envelope ← db.envelopes.get? r.1.1
    if envelope.rowid ≤ sealRow ∧ envelope.acceptedAt < cut then
      some { envelope := r.1.1, position := r.1.2, valid := r.2.state = .valid, id, row, batch
             claimPosition := claimPosition db id }
    else none

/-- `sealed_records_page_sql`, every page. -/
def sealedRecords : List SealedRecord :=
  db.ledger.records.rows.filterMap (sealedRecord db cut sealRow)

def lateEnvelopes : List EnvelopeId :=
  (sealedRecords db cut sealRow).filterMap fun record =>
    if cut ≤ record.row.acceptedAt then some record.envelope else none

def liveEnvelopes : List SealedEnvelope :=
  db.envelopes.rows.filterMap fun r =>
    if r.2.rowid ≤ sealRow ∧ r.2.acceptedAt < cut ∧ r.1 ∉ lateEnvelopes db cut sealRow then
      some { id := r.1, acceptedAt := r.2.acceptedAt
             records := (db.ledger.records.rows.filter (·.1.1 = r.1)).length }
    else none

def sealedClaims : List SealedClaim :=
  let before := (liveEnvelopes db cut sealRow).map (·.id)
  (((sealedRecords db cut sealRow).insertionSort (fun a b => a.key ≤ b.key)).filter
    (·.envelope ∈ before)).map
    fun record =>
      { id := record.id, row := record.row, envelope := record.envelope, valid := record.valid
        named := record.id ∈ db.ledger.projectionClaims }

/-- `checkpoint_sealed_set_attempt`. Envelopes an earlier checkpoint dropped are
still part of what a node seals. -/
def sealedSetAt : SealedSet :=
  let live := liveEnvelopes db cut sealRow
  let tombstones := recordedTombstones db id cut db.ledger.checkpointEnvelopes
  let dropped :=
    (tombstones.filter (·.1 ∉ live.map (·.id))).map fun tombstone : EnvelopeTombstone =>
    { id := tombstone.1, acceptedAt := tombstone.2, records := 0 : SealedEnvelope }
  { cut
    sealRowid := sealRow
    envelopes := (live ++ dropped).insertionSort (fun a b => a.id ≤ b.id)
    claims := sealedClaims db cut sealRow
    envelopeTombstones := tombstones
    claimTombstones := recordedTombstones db (·.acceptedAt) cut db.ledger.checkpointClaims }

end

def SealedSet.identities (sealed : SealedSet) : List EnvelopeId := sealed.envelopes.map (·.id)

/-! ## What a tombstone keeps of a claim -/

/-- `body.pointer("/_operation/" + name)`, when it is text. -/
def operationText (body : Value) (name : String) : Option String :=
  match body with
  | .object entries =>
    match entries.find? (·.1 = "_operation") with
    | some (_, .object parts) => (parts.find? (·.1 = name)).bind (·.2.asStr)
    | _ => none
  | _ => none

def operationParts (body : Value) : Option (String × String) := do
  let id ← operationText body "id"
  let digest ← operationText body "request_digest"
  return (id, digest)

def claimTombstone (claim : SealedClaim) : ClaimTombstone :=
  let operation := operationParts claim.row.body
  (claim.id,
    { envelope := claim.envelope, subject := claim.row.subject, kind := claim.row.kind,
      actor := claim.row.actor
      predecessors := claim.row.predecessors, operationId := operation.map (·.1)
      requestDigest := operation.map (·.2), acceptedAt := claim.row.acceptedAt })

/-! ## What a sealed set lists -/

section
variable {db : Db} {cut sealRow : Nat}

theorem sealedRecord_eq_some {r : (EnvelopeId × Nat) × RecordRow} {record : SealedRecord}
    (h : sealedRecord db cut sealRow r = some record) :
    r.2.state ≠ .repaired ∧ r.2.claimId = some record.id ∧
      db.claims.get? record.id = some record.row ∧ record.envelope = r.1.1 := by
  unfold sealedRecord at h
  split at h
  · cases h
  · rename_i hs
    simp only [bind_eq_bind, bind_eq_some_iff, ite_none_right_eq_some, some.injEq] at h
    obtain ⟨id, hi, row, hr, batch, hb, envelope, he, _, rfl⟩ := h
    exact ⟨hs, hi, hr, rfl⟩

theorem nodup_live : ((liveEnvelopes db cut sealRow).map (·.id)).Nodup := by
  apply Table.nodup_filterMap
  intro r e h
  simp only [ite_none_right_eq_some, some.injEq] at h
  rw [← h.2]

theorem nodup_recordedTombstones {κ ρ : Type} {d : ρ → Nat} {t : Table κ (Tombstone ρ)} :
    ((recordedTombstones db d cut t).map (·.1)).Nodup := by
  apply Table.nodup_filterMap
  intro r tombstone h
  simp only [ite_none_right_eq_some, some.injEq] at h
  rw [← h.2]

/-- Up to order, the live envelopes and then the tombstones of the others. -/
theorem identities_perm :
    (sealedSetAt db cut sealRow).identities.Perm ((liveEnvelopes db cut sealRow).map (·.id) ++
      ((recordedTombstones db id cut db.ledger.checkpointEnvelopes).map (·.1)).filter
        (· ∉ (liveEnvelopes db cut sealRow).map (·.id))) := by
  unfold SealedSet.identities sealedSetAt
  refine ((perm_insertionSort _ _).map _).trans ?_
  rw [map_append, List.map_map, List.filter_map]
  exact List.Perm.refl _

theorem nodup_identities : (sealedSetAt db cut sealRow).identities.Nodup := by
  rw [identities_perm.nodup_iff, nodup_append]
  refine ⟨nodup_live, nodup_recordedTombstones.filter _, fun a ha b hb => ?_⟩
  rintro rfl
  exact absurd ha (by simpa using (mem_filter.mp hb).2)

end

end Smalltalk
