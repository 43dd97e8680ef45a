import Smalltalk.Store.Tables

/-!
# Receiving, preparing and admitting envelopes

Receipt stores a page of envelopes as pending, with the signatures that verify. Preparation
checks what depends on an envelope's own bytes. Hashing, CBOR, signature verification and the
runtime's classification of claims are parameters.
-/

namespace Smalltalk

/-! ## Wire types -/

structure ReplicaEnvelope where
  id : EnvelopeId
  previousHash : Option String
  acceptedAt : Nat
  payload : EnvelopePayload
  memberKey : Option String := none
  signature : Option String := none

structure ReplicaEnvelopeSignature where
  id : EnvelopeId
  memberKey : String
  signature : String

structure ReplicationExchange where
  peer : String
  fleetId : String
  shardId : Option String
  envelopes : List ReplicaEnvelope
  signatures : List ReplicaEnvelopeSignature

structure ClaimRecord where
  id : String
  batchId : String
  subject : String
  kind : String
  origin : String
  actor : Option String
  body : Value
  predecessors : List String
  acceptedAt : Nat

def ClaimRecord.row (claim : ClaimRecord) : ClaimRow where
  batchId := claim.batchId
  subject := claim.subject
  kind := claim.kind
  origin := claim.origin
  actor := claim.actor
  body := claim.body
  predecessors := claim.predecessors
  acceptedAt := claim.acceptedAt

structure ReplicaBatch where
  id : String
  origin : String
  replicaSequence : Nat
  previousHash : Option String
  hash : String
  acceptedAt : Nat
  claims : List ClaimRecord

def ReplicaBatch.row (batch : ReplicaBatch) : BatchRow where
  origin := batch.origin
  replicaSequence := batch.replicaSequence
  previousHash := batch.previousHash
  hash := batch.hash
  acceptedAt := batch.acceptedAt

structure ReplicaEnvelopePayload where
  batch : ReplicaBatch
  blobs : List (String × List UInt8)

inductive ReplicatedClaimAdmission where
  | valid
  | unknownKind
  | unknownField
  deriving DecidableEq

/-- What the store takes from other crates: digests, CBOR, the encodings of a
claim's columns, Ed25519, and the runtime's classification of claims. -/
structure Host where
  envelopeHash : (writer : String) → (sequence : Nat) → (previousHash : String) →
    (acceptedAt : Nat) → (payload : List UInt8) → String
  batchHeaderHash : (origin : String) → (sequence : Nat) → (previousHash : Option String) →
    (acceptedAt : Nat) → String
  blobDigest : List UInt8 → String
  base64Error : String → String
  decodePayload : List UInt8 → Except String ReplicaEnvelopePayload
  encodeRecord : ClaimRecord → Except Error Unit
  encodeColumns : ClaimRecord → Except Error Unit
  claimIdIsContentHash : ClaimRecord → Except Error Bool
  classifyUnbound : ReplicaBatch → ClaimRecord → Option (Except Error ReplicatedClaimAdmission)
  classify : Db → ReplicaBatch → ClaimRecord → Except Error ReplicatedClaimAdmission
  verifySignature : (memberKey message signature : String) → Bool

structure Node where
  fleetId : String
  shardId : Option String
  schemaDigest : String

/-! ## Transactions -/

/-- What runs inside a transaction: its outcome, and the tables with what it wrote until then. -/
abbrev Job := Db → Except Error Unit × Db

namespace Job

def andThen (job next : Job) : Job := fun db =>
  match job db with
  | (.ok (), db) => next db
  | (.error error, db) => (.error error, db)

def each {α : Type} (job : α → Job) : List α → Job
  | [] => fun db => (.ok (), db)
  | a :: as => (job a).andThen (each job as)

/-- `rusqlite` binds a `u64` as an `i64` and refuses what does not fit. -/
def bound (id : EnvelopeId) (write : Db → Db) : Job := fun db =>
  if id.sequence ≤ i64Max then (.ok (), write db)
  else (.error ⟨"internal", "out of range integral type conversion attempted"⟩, db)

/-- A transaction that is dropped before its commit is rolled back. -/
def transaction (job : Job) : Job := fun db =>
  match job db with
  | (.ok (), written) => (.ok (), written)
  | (.error error, _) => (.error error, db)

end Job

section
variable (host : Host) (node : Node)

/-! ## Signatures and receipt -/

def envelopeSignatureMessage (fleetId : String) (id : EnvelopeId) : String :=
  "st3-envelope-v1\n" ++ fleetId ++ "\n" ++ id.writer ++ "\n" ++ toString id.sequence ++
    "\n" ++ id.hash

def verifies (id : EnvelopeId) (memberKey signature : String) : Bool :=
  host.verifySignature memberKey (envelopeSignatureMessage node.fleetId id) signature

def envelopeTombstoned (db : Db) (id : EnvelopeId) : Bool :=
  (db.ledger.checkpointEnvelopes.get? id).isSome

def storeSignature (db : Db) (id : EnvelopeId) (memberKey signature : String) : Db :=
  if verifies host node id memberKey signature then
  db.exec (.insertSignature id memberKey signature)
  else db

def topRowid (envelopes : Table EnvelopeId EnvelopeRow) : Nat :=
  envelopes.rows.foldl (fun top r => max top r.2.rowid) 0

def nextRowid (envelopes : Table EnvelopeId EnvelopeRow) : Nat := topRowid envelopes + 1

def receivedRow (relay : String) (now rowid : Nat) (envelope : ReplicaEnvelope) : EnvelopeRow where
  rowid := rowid
  previousHash := envelope.previousHash
  acceptedAt := envelope.acceptedAt
  payload := envelope.payload
  batchId := none
  relay := relay
  receiptState := .pending
  validationError := none
  receivedAt := now

def storeCarriedSignature (db : Db) (envelope : ReplicaEnvelope) : Db :=
  match envelope.memberKey, envelope.signature with
  | some key, some signature => storeSignature host node db envelope.id key signature
  | _, _ => db

/-- A checkpoint's tombstone stands for the envelope it dropped. Otherwise a verified signature is
kept, and the first copy of the envelope. -/
def receiveEnvelope (relay : String) (now : Nat) (db : Db) (envelope : ReplicaEnvelope) : Db :=
  if envelopeTombstoned db envelope.id then db
  else
    let db := storeCarriedSignature host node db envelope
    db.exec (.insertEnvelope envelope.id (receivedRow relay now (nextRowid db.envelopes) envelope))

def ReplicationExchange.verifiedSignatures (input : ReplicationExchange) :
    List ReplicaEnvelopeSignature :=
  input.signatures.filter fun s => verifies host node s.id s.memberKey s.signature

def receiveSignature (db : Db) (signature : ReplicaEnvelopeSignature) : Db :=
  if envelopeTombstoned db signature.id then db
  else storeSignature host node db signature.id signature.memberKey signature.signature

def receivePage (relay : String) (now : Nat) (input : ReplicationExchange) : Job :=
  (Job.each (fun e => Job.bound e.id (receiveEnvelope host node relay now · e))
    input.envelopes).andThen
    (Job.each (fun s => Job.bound s.id (receiveSignature host node · s))
      (input.verifiedSignatures host node))

def receiveExchange (relay : String) (now : Nat) (input : ReplicationExchange) : Job := fun db =>
  if input.peer ≠ relay then
    (.error ⟨"peer-label-mismatch",
      "the authenticated peer label does not match the exchange label"⟩, db)
  else if input.fleetId ≠ node.fleetId then
    (.error ⟨"fleet-id-mismatch", "the peer belongs to another fleet"⟩, db)
  else if input.shardId ≠ node.shardId then
    (.error ⟨"shard-mismatch", "the exchange belongs to another shard or the default store"⟩, db)
  else (receivePage host node relay now input).transaction db

/-! ## Preparation -/

inductive ClaimCheck where
  | failed (error : Error)
  | classified (classification : Except Error ReplicatedClaimAdmission)
  | unclassified

structure PreparedClaim where
  claim : ClaimRecord
  raw : Except Error Unit
  columns : Except Error Unit
  check : ClaimCheck

structure PreparedBlob where
  hash : String
  bytes : List UInt8
  valid : Bool

structure PreparedPayload where
  batch : ReplicaBatch
  blobs : List PreparedBlob
  claims : List PreparedClaim

def checkClaim (batch : ReplicaBatch) (claim : ClaimRecord) : ClaimCheck :=
  if claim.batchId ≠ batch.id ∨ claim.origin ≠ batch.origin then
    .failed ⟨"claim-batch-mismatch",
      "replicated claim `" ++ claim.id ++ "` names another batch or writer"⟩
  else
    match host.claimIdIsContentHash claim with
    | .ok true =>
      match host.classifyUnbound batch claim with
      | some classification => .classified classification
      | none => .unclassified
    | .ok false =>
      .failed ⟨"claim-hash-mismatch", "replicated claim `" ++ claim.id ++ "` failed verification"⟩
    | .error error => .failed error

def batchIdOf (origin : String) (sequence : Nat) (previousHash : Option String) (acceptedAt : Nat) :
    String :=
  "batch/" ++ origin ++ "/" ++ toString sequence ++ "/" ++
    host.batchHeaderHash origin sequence previousHash acceptedAt

def verifyReplicaBatchHeader (batch : ReplicaBatch) : Except Error Unit :=
  if host.batchHeaderHash batch.origin batch.replicaSequence batch.previousHash batch.acceptedAt ≠
    batch.hash ∨ batch.id ≠ "batch/" ++ batch.origin ++ "/" ++ toString batch.replicaSequence ++
      "/" ++ batch.hash
  then .error ⟨"batch-hash-mismatch", "replicated batch `" ++ batch.id ++ "` failed verification"⟩
  else .ok ()

def preparedPayload (payload : ReplicaEnvelopePayload) : PreparedPayload where
  batch := payload.batch
  blobs := payload.blobs.map fun blob =>
    { hash := blob.1, bytes := blob.2, valid := host.blobDigest blob.2 = blob.1 }
  claims := payload.batch.claims.map fun claim =>
    { claim, raw := host.encodeRecord claim, columns := host.encodeColumns claim
      check := checkClaim host payload.batch claim }

def preparePayload (envelope : ReplicaEnvelope) : Except Error PreparedPayload :=
  match envelope.payload with
  | .invalidBase64 text =>
    .error ⟨"invalid-envelope-payload",
      "the envelope payload is not valid base64: " ++ host.base64Error text⟩
  | .bytes bytes =>
    if host.envelopeHash envelope.id.writer envelope.id.sequence (envelope.previousHash.getD "")
        envelope.acceptedAt bytes ≠ envelope.id.hash then
      .error ⟨"envelope-hash-mismatch", "the envelope hash does not match its payload"⟩
    else
      match host.decodePayload bytes with
      | .error error =>
        .error ⟨"invalid-envelope-payload", "the envelope payload is not valid CBOR: " ++ error⟩
      | .ok payload =>
        let batch := payload.batch
        if batch.origin ≠ envelope.id.writer ∨ batch.replicaSequence ≠ envelope.id.sequence ∨
            batch.previousHash ≠ envelope.previousHash ∨ batch.acceptedAt ≠ envelope.acceptedAt then
          .error ⟨"envelope-batch-mismatch", "the envelope and its batch identify different writes"⟩
        else
          match verifyReplicaBatchHeader host batch with
          | .error error => .error error
          | .ok () => .ok (preparedPayload host payload)

/-! ## Admission -/

mutual

def collectHashFields : Value → List String
  | .object fields => collectHashEntries fields
  | .array values => collectHashItems values
  | _ => []

def collectHashEntries : List (String × Value) → List String
  | [] => []
  | (key, value) :: fields =>
    (if key = "hash" ∨ key = "blob_hash" ∨ key = "bundle_hash" then
        (value.asStr.filter (·.utf8ByteSize = 64)).toList
      else []) ++ collectHashFields value ++ collectHashEntries fields

def collectHashItems : List Value → List String
  | [] => []
  | value :: values => collectHashFields value ++ collectHashItems values

end

def ensureClaimBlobs (db : Db) (claim : ClaimRecord) : Except Error Unit :=
  match (collectHashFields claim.body).find? fun hash => (db.ledger.blobs.get? hash).isNone with
  | some hash =>
    .error ⟨"missing-replicated-blob",
      "claim `" ++ claim.id ++ "` references missing blob `" ++ hash ++ "`"⟩
  | none => .ok ()

/-- The part of the claim check that reads the store. -/
def finishClaimCheck (db : Db) (batch : ReplicaBatch) (claim : ClaimRecord) (check : ClaimCheck) :
    Except Error ReplicatedClaimAdmission :=
  let admission : Except Error ReplicatedClaimAdmission := match check with
    | .failed error => .error error
    | .classified classification => classification
    | .unclassified => host.classify db batch claim
  match admission with
  | .ok .valid =>
    match ensureClaimBlobs db claim with
    | .ok () => .ok .valid
    | .error error => .error error
  | other => other

/-- A repaired record keeps its state, and keeps its error unless the new
state is `invalid`. Only a valid claim renames the claim on record. -/
def recordRow (old : Option RecordRow) (state : RecordState) (claimId : Option String)
    (error : Option Error) : RecordRow :=
  match old with
  | none => { state, claimId, error }
  | some old =>
    let repaired := old.state = .repaired
    { state := if repaired then .repaired else state
      claimId := if state = .valid then claimId <|> old.claimId else old.claimId
      error := if repaired ∧ state ≠ .invalid then old.error else error }

def putRecord (db : Db) (id : EnvelopeId) (position : Nat) (state : RecordState)
    (claimId : Option String) (error : Option Error) : Db :=
  db.exec (.ledger fun ledger =>
    let old := ledger.records.get? (id, position)
    { ledger with
      records := ledger.records.put (id, position) (recordRow old state claimId error) })

/-- Store each blob whose digest is its hash, and say whether all were. -/
def admitBlobs (id : EnvelopeId) : Nat → List PreparedBlob → Db → Bool → Db × Bool
  | _, [], db, degraded => (db, degraded)
  | position, blob :: blobs, db, degraded =>
    if blob.valid then
      let db := db.exec (.ledger fun ledger =>
        { ledger with blobs := ledger.blobs.insert blob.hash blob.bytes })
      admitBlobs id (position + 1) blobs (putRecord db id position .valid none none) degraded
    else
      admitBlobs id (position + 1) blobs
        (putRecord db id position .invalid none (some
          ⟨"blob-hash-mismatch", "replicated blob `" ++ blob.hash ++ "` failed verification"⟩)) true

def unknownError : ReplicatedClaimAdmission → Error
  | .unknownField =>
    ⟨"unknown-claim-field", "this st build does not know every field on the claim kind"⟩
  | _ => ⟨"unknown-claim-kind", "this st build does not know the claim kind"⟩

def admitClaim (id : EnvelopeId) (batch : ReplicaBatch) (position : Nat) (prepared : PreparedClaim)
    (db : Db) (degraded : Bool) : Except Error (Db × Bool) :=
  let claim := prepared.claim
  match prepared.raw with
  | .error error => .error error
  | .ok () =>
    match finishClaimCheck host db batch claim prepared.check with
    | .ok .valid =>
      -- A claim a checkpoint dropped is not stored again.
      if (db.ledger.checkpointClaims.get? claim.id).isSome then
        .ok (putRecord db id position .valid (some claim.id) none, degraded)
      else
        match prepared.columns with
        | .error error => .error error
        | .ok () =>
          let db := db.exec (.insertClaim claim.id claim.row)
          .ok (putRecord db id position .valid (some claim.id) none, degraded)
    | .ok unknown =>
      .ok (putRecord db id position .unknown (some claim.id)
        (some (unknownError unknown)), degraded)
    | .error error => .ok (putRecord db id position .invalid (some claim.id) (some error), true)

def admitClaims (id : EnvelopeId) (batch : ReplicaBatch) :
    Nat → List PreparedClaim → Db → Bool → Except Error (Db × Bool)
  | _, [], db, degraded => .ok (db, degraded)
  | position, prepared :: claims, db, degraded =>
    match admitClaim host id batch position prepared db degraded with
    | .error error => .error error
    | .ok (db, degraded) => admitClaims id batch (position + 1) claims db degraded

/-- The rows of `batches` keep the first header stored under an id. -/
def admitPreparedEnvelope (id : EnvelopeId) (content : Except Error PreparedPayload) (db : Db) :
    Except Error Db :=
  match content with
  | .error error => .error error
  | .ok payload =>
    let batch := payload.batch
    let (db, degraded) := admitBlobs id payload.claims.length payload.blobs db false
    let db := db.exec (.insertBatch batch.id batch.row)
    match admitClaims host id batch 0 payload.claims db degraded with
    | .error error => .error error
    | .ok (db, degraded) =>
      .ok (db.exec (.updateEnvelope id fun row =>
        { row with
          receiptState := if degraded then .degraded else .validated
          validationError := none
          batchId := some batch.id }))

/-- Keep an envelope that failed for inspection. -/
def recordInvalidReplicaEnvelope (db : Db) (id : EnvelopeId) (error : Error) : Db :=
  let db := db.exec (.ledger fun ledger =>
    let claimId := (ledger.records.get? (id, 0)).bind (·.claimId)
    { ledger with
      records := ledger.records.put (id, 0) { state := .invalid, claimId, error := some error } })
  db.exec (.markEnvelope id fun _ => (.degraded, some error.message))

/-! ## Authority -/

/-- Whether the membership rules hold an envelope back, and why. -/
def fleetAdmissionHold (db : Db) (membership : Membership) (id : EnvelopeId) : Option HoldReason :=
  match membership.window id.writer id.sequence with
  | .legacy => none
  | .fenced => some .fenced
  | .keyed keys => if (signersOf db.signatures id).any (· ∈ keys) then none else some .unsigned

def holdReplicaEnvelope (db : Db) (id : EnvelopeId) (reason : HoldReason) : Db :=
  db.exec (.ledger fun ledger => { ledger with holds := ledger.holds.put id reason })

def envelopeCarriesFleetClaims (db : Db) (id : EnvelopeId) : Bool :=
  (db.envelopes.get? id).any fun row => carriesFleetClaims db.claims row.batchId

def admissionEnvelopeRow (db : Db) (envelope : ReplicaEnvelope) : Option (Nat × Nat) :=
  match db.envelopes.get? envelope.id with
  | some row =>
    if row.previousHash = envelope.previousHash ∧ row.acceptedAt = envelope.acceptedAt ∧
        ¬ envelopeTombstoned db envelope.id then some (row.rowid, row.receivedAt)
    else none
  | none => none

end

end Smalltalk
