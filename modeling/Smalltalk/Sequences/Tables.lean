import Smalltalk.Lib.Machine
import Smalltalk.Store.Tables

/-!
# A writer's sequences

A local batch takes the sequence after the highest one the store can still see of its
writer: in `batches`, in `writer_heads`, in the tombstones of envelopes, in the ledger of retired
envelopes, or the floor the node joined with.
-/

namespace Smalltalk.Sequences

structure Db where
  batches : Table String BatchRow := ∅
  claims : Table String String := ∅
  writerHeads : Table String (Nat × String) := ∅
  /-- `replica_envelopes`, with the batch an admitted envelope carries. -/
  envelopes : Table EnvelopeId (Option String) := ∅
  checkpointEnvelopes : Table EnvelopeId Unit := ∅
  retiredEnvelopes : Table EnvelopeId Unit := ∅
  writerFloor : Option Nat := none

/-- The name this node writes under, and `batch_header_hash`. -/
structure Node where
  origin : String
  batchHeaderHash : String → Nat → Option String → Nat → String

/-! ## Allocation -/

/-- `COALESCE(MAX(…), 0)`. -/
def maxSequence (sequences : List Nat) : Nat := sequences.foldr max 0

def batchSequences (db : Db) (writer : String) : List Nat :=
  (db.batches.rows.filter fun r => r.2.origin = writer).map (·.2.replicaSequence)

def sequencesOf {ρ : Type} (envelopes : Table EnvelopeId ρ) (writer : String) : List Nat :=
  (envelopes.rows.filter fun r => r.1.writer = writer).map (·.1.sequence)

/-- The highest sequence `next_replica_sequence` sees. -/
def highest (node : Node) (db : Db) : Nat :=
  maxSequence [maxSequence (batchSequences db node.origin),
    ((db.writerHeads.get? node.origin).map (·.1)).getD 0,
    maxSequence (sequencesOf db.checkpointEnvelopes node.origin),
    maxSequence (sequencesOf db.retiredEnvelopes node.origin), db.writerFloor.getD 0]

def nextReplicaSequence (node : Node) (db : Db) : Nat := highest node db + 1

def newestBatch (db : Db) (writer : String) : Option BatchRow :=
  (db.batches.rows.filter fun r => r.2.origin = writer).foldl (fun newest r => match newest with
    | none => some r.2
    | some row => if row.replicaSequence ≤ r.2.replicaSequence then some r.2 else some row) none

def previousBatchHash (db : Db) (writer : String) : Option String :=
  match newestBatch db writer, db.writerHeads.get? writer with
  | none, head => head.map (·.2)
  | some row, none => some row.hash
  | some row, some (sequence, hash) =>
    some (if row.replicaSequence < sequence then hash else row.hash)

/-! ## Statements and their triggers -/

/-- The upsert of the triggers on `batches`. -/
def raiseHead (heads : Table String (Nat × String)) (row : BatchRow) :
    Table String (Nat × String) :=
  match heads.get? row.origin with
  | none => heads.insert row.origin (row.replicaSequence, row.hash)
  | some head =>
    if head.1 < row.replicaSequence then
      heads.update row.origin fun _ => (row.replicaSequence, row.hash) else heads

def insertBatch (db : Db) (id : String) (row : BatchRow) : Db :=
  match db.batches.get? id with
  | some _ => db
  | none =>
    { db with batches := db.batches.insert id row, writerHeads := raiseHead db.writerHeads row }

def deleteBatch (db : Db) (id : String) : Db :=
  match db.batches.get? id with
  | none => db
  | some row =>
    { db with batches := db.batches.delete id, writerHeads := raiseHead db.writerHeads row }

def carried (db : Db) (batch : String) : Bool := db.envelopes.rows.any fun r => r.2 = some batch

inductive Label where
  | append (claim : String) (now : Nat)
  | force (claim batch : String)
  | sealBatch (batch hash : String)
  | receive (id : EnvelopeId)
  | admitEnvelope (id : EnvelopeId) (batch : String) (row : BatchRow) (claims : List String)
  | recordTombstone (id : EnvelopeId)
  | dropClaim (claim : String)
  | dropEnvelope (id : EnvelopeId)
  | withdraw (keep : List EnvelopeId)
  | importRetired (ids : List EnvelopeId)
  | setWriterFloor (floor : Nat)

def newBatch (node : Node) (db : Db) (now : Nat) : String × BatchRow :=
  let sequence := nextReplicaSequence node db
  let previous := previousBatchHash db node.origin
  let hash := node.batchHeaderHash node.origin sequence previous now
  (s!"batch/{node.origin}/{sequence}/{hash}", ⟨node.origin, sequence, previous, hash, now⟩)

/-- The checks on an envelope's batch in `verify_replica_batch_header` and before it. -/
def headerVerifies (node : Node) (id : EnvelopeId) (batch : String) (row : BatchRow) : Bool :=
  row.origin = id.writer && row.replicaSequence = id.sequence &&
    node.batchHeaderHash row.origin row.replicaSequence row.previousHash
      row.acceptedAt = row.hash &&
    batch = s!"batch/{row.origin}/{row.replicaSequence}/{row.hash}"

/-- A batch goes with its last claim and envelope. -/
def deleteEmptyBatch (db : Db) : Option String → Db
  | none => db
  | some batch =>
    if db.claims.rows.any (fun r => r.2 = batch) || carried db batch then db
    else deleteBatch db batch

def apply (node : Node) (db : Db) : Label → Option Db
  | .append claim now =>
    let batch := newBatch node db now
    if (db.batches.get? batch.1).isSome || (db.claims.get? claim).isSome then none
    else some { insertBatch db batch.1 batch.2 with claims := db.claims.insert claim batch.1 }
  | .force claim batch =>
    if (db.batches.get? batch).isSome && (db.claims.get? claim).isNone then
      some { db with claims := db.claims.insert claim batch }
    else none
  | .sealBatch batch hash => match db.batches.get? batch with
    | none => none
    | some row =>
      if carried db batch then none
      else some
        { db with envelopes := db.envelopes.insert ⟨row.origin, row.replicaSequence,
                    hash⟩ (some batch) }
  | .receive id =>
    if (db.checkpointEnvelopes.get? id).isSome then some db
    else some { db with envelopes := db.envelopes.insert id none }
  | .admitEnvelope id batch row claims =>
    -- The row is read again under the writer.
    if (db.envelopes.get? id).isSome && (db.checkpointEnvelopes.get? id).isNone &&
      headerVerifies node id batch row then
      let db := insertBatch db batch row
      some { db with
        claims := db.claims.insertAll (claims.map fun claim => (claim, batch))
        envelopes := db.envelopes.update id fun _ => some batch }
    else none
  | .recordTombstone id =>
    some { db with
      checkpointEnvelopes := db.checkpointEnvelopes.insert id ()
      retiredEnvelopes := db.retiredEnvelopes.insert id () }
  | .dropClaim claim => some { db with claims := db.claims.delete claim }
  | .dropEnvelope id =>
    -- A trim deletes what its tombstones name.
    if (db.checkpointEnvelopes.get? id).isSome then
      some (deleteEmptyBatch { db with envelopes := db.envelopes.delete id }
        ((db.envelopes.get? id).getD none))
    else none
  | .withdraw keep =>
    some { db with
      checkpointEnvelopes := db.checkpointEnvelopes.deleteWhere fun id _ => id ∉ keep
      retiredEnvelopes :=
        db.retiredEnvelopes.insertAll (db.checkpointEnvelopes.rows.filter fun r => r.1 ∉ keep) }
  | .importRetired ids =>
    some { db with
      retiredEnvelopes :=
        db.retiredEnvelopes.insertAll (db.checkpointEnvelopes.rows.filter fun r => r.1 ∈ ids) }
  | .setWriterFloor floor =>
    some { db with writerFloor := some (max (db.writerFloor.getD 0) floor) }

/-! ## Histories -/

def ownSequences (node : Node) (db : Db) : List Nat :=
  batchSequences db node.origin ++ sequencesOf db.envelopes node.origin ++
    sequencesOf db.checkpointEnvelopes node.origin

def ownEnvelopes (node : Node) (db : Db) : List EnvelopeId :=
  ((db.envelopes.rows.map (·.1)) ++ (db.checkpointEnvelopes.rows.map (·.1))).filter
    fun id => id.writer = node.origin

def sealedBatches (db : Db) : List String := db.envelopes.rows.filterMap (·.2)

structure History where
  db : Db
  held : List Nat
  made : List EnvelopeId
  carriedEver : List String

def History.next (node : Node) (h : History) (db : Db) : History where
  db := db
  held := h.held ++ ownSequences node db
  made := h.made ++ ownEnvelopes node db
  carriedEver := h.carriedEver ++ sealedBatches db

def machine (node : Node) : Machine History Label where
  step h label := (apply node h.db label).map (h.next node)

def begin (node : Node) (db : Db) : History := History.next node ⟨db, [], [], []⟩ db

end Smalltalk.Sequences
