import Smalltalk.Lib.OrdSet
import Smalltalk.Store.Tables

/-!
# Compact inventories and their difference

A replica's identities fall in ranges of a writer's sequences. A peer compares range
digests, sends what the other provably lacks, and lists ranges that differ. An exchange is a
summary, an answer, a push and a second answer.
-/

namespace Smalltalk

/-! ## Identities and ranges -/

structure RangeKey where
  writer : String
  start : Nat

instance : LinearOrder RangeKey :=
  LinearOrder.lift' (fun key : RangeKey => toLex (key.writer, key.start)) (by
    intro a b h
    cases a
    cases b
    simpa using h)

def replicationBucketWidth : Nat := 256

def replicationBucketStart (sequence : Nat) : Nat := sequence - sequence % replicationBucketWidth

def EnvelopeId.rangeKey (id : EnvelopeId) : RangeKey :=
  ⟨id.writer, replicationBucketStart id.sequence⟩

structure CompactReplicationInventory where
  envelopes : OrdSet EnvelopeId
  payloadless : List EnvelopeId := []

structure ReplicationInventoryBucket (Digest : Type) where
  key : RangeKey
  count : Nat
  digest : Digest

structure ReplicationInventory (Digest : Type) where
  envelopes : List EnvelopeId
  buckets : List (ReplicationInventoryBucket Digest)
  accepts : Option Nat

namespace CompactReplicationInventory

def hasPayload (inventory : CompactReplicationInventory) (id : EnvelopeId) : Bool :=
  id ∉ inventory.payloadless

/-- The identities from `start` to `start + 256`, where the end saturates. -/
def range (inventory : CompactReplicationInventory) (key : RangeKey) : List EnvelopeId :=
  inventory.envelopes.toList.filter fun id => id.writer = key.writer ∧ key.start ≤ id.sequence ∧
    id.sequence < saturatingAdd key.start replicationBucketWidth

def chunk (inventory : CompactReplicationInventory) (key : RangeKey) : List EnvelopeId :=
  inventory.envelopes.toList.filter fun id => id.rangeKey = key

def keys (inventory : CompactReplicationInventory) : List RangeKey :=
  (OrdSet.ofList (inventory.envelopes.toList.map EnvelopeId.rangeKey)).toList

end CompactReplicationInventory

section
variable {Digest : Type} [DecidableEq Digest] (replicationBucketDigest : List EnvelopeId → Digest)

def CompactReplicationInventory.bucket (inventory : CompactReplicationInventory) (key : RangeKey) :
    ReplicationInventoryBucket Digest where
  key := key
  count := (inventory.chunk key).length
  digest := replicationBucketDigest (inventory.chunk key)

def CompactReplicationInventory.buckets (inventory : CompactReplicationInventory) :
    List (ReplicationInventoryBucket Digest) :=
  inventory.keys.map (inventory.bucket replicationBucketDigest)

/-! ## The difference -/

def replicationExchangeEnvelopeLimit : Nat := 512

def replicationPageLimit (remote : ReplicationInventory Digest) : Nat :=
  match remote.accepts with
  | none => replicationExchangeEnvelopeLimit
  | some accepts => min (max accepts 1) 4096

def remoteBucket (remote : ReplicationInventory Digest) (key : RangeKey) :
    Option (ReplicationInventoryBucket Digest) :=
  remote.buckets.reverse.find? (·.key = key)

/-- The identities the peer lists in a range, sorted and once each. -/
def remoteListed (remote : ReplicationInventory Digest) (key : RangeKey) : List EnvelopeId :=
  (OrdSet.ofList (remote.envelopes.filter (·.rangeKey = key))).toList

/-- The local identities of a range that the peer provably lacks. Only its complete listing proves
which ones it lacks in a range it holds. -/
def rangeMissing (inventory : CompactReplicationInventory) (remote : ReplicationInventory Digest)
    (bucket : ReplicationInventoryBucket Digest) : List EnvelopeId :=
  match remoteBucket remote bucket.key with
  | none => (inventory.range bucket.key).filter inventory.hasPayload
  | some theirs =>
    if theirs.digest = bucket.digest then []
    else
      let known := remoteListed remote bucket.key
      if known = [] then []
      else if known.length ≠ theirs.count ∨ replicationBucketDigest known ≠ theirs.digest then []
      else (inventory.range bucket.key).filter fun id => inventory.hasPayload id ∧ id ∉ known

def missingEnvelopes (pageLimit : Nat) (inventory : CompactReplicationInventory)
    (remote : ReplicationInventory Digest) :
    List (ReplicationInventoryBucket Digest) → List EnvelopeId → List EnvelopeId
  | [], missing => missing
  | bucket :: buckets, missing =>
    let room := pageLimit - missing.length
    missingEnvelopes pageLimit inventory remote buckets
      (missing ++ (rangeMissing replicationBucketDigest inventory remote bucket).take room)

def differs (remote : ReplicationInventory Digest) (bucket : ReplicationInventoryBucket Digest) :
    Bool :=
  (remoteBucket remote bucket.key).any fun theirs => theirs.digest ≠ bucket.digest

/-- The range a listing of `len` ranges starts from on answer `turn`. -/
def listingTurnStart (turn len : Nat) : Nat :=
  (turn * 0x9E3779B97F4A7C15 % 2 ^ 64) * len / 2 ^ 64

/-- Whole ranges while they fit the limit; the first is always listed. -/
def listRanges (inventory : CompactReplicationInventory) (listingLimit : Nat) :
    List (ReplicationInventoryBucket Digest) → List EnvelopeId → List EnvelopeId
  | [], listed => listed
  | bucket :: buckets, listed =>
    let range := inventory.range bucket.key
    if listed ≠ [] ∧ listed.length + range.length > listingLimit then listed
    else listRanges inventory listingLimit buckets (listed ++ range)

/-- Differing ranges with a payload to send, then the others, each group from the range the turn
picks and on around. -/
def listingOrder (inventory : CompactReplicationInventory) (remote : ReplicationInventory Digest)
    (turn : Nat) : List (ReplicationInventoryBucket Digest) :=
  let differing := (inventory.buckets replicationBucketDigest).filter (differs remote)
  let live := differing.filter fun bucket => (inventory.range bucket.key).any inventory.hasPayload
  let payloadless :=
    differing.filter fun bucket => !(inventory.range bucket.key).any inventory.hasPayload
  live.rotate (listingTurnStart turn live.length) ++
    payloadless.rotate (listingTurnStart turn payloadless.length)

def compactReplicationDifferenceTurn (inventory : CompactReplicationInventory)
    (remote : ReplicationInventory Digest) (listingLimit turn : Nat) :
    List EnvelopeId × List EnvelopeId :=
  (missingEnvelopes replicationBucketDigest (replicationPageLimit remote) inventory remote
      (inventory.buckets replicationBucketDigest) [],
    listRanges inventory listingLimit
      (listingOrder replicationBucketDigest inventory remote turn) [])

/-! ## The exchange -/

structure Limits where
  accepts : Option Nat := none
  listing : Nat := replicationExchangeEnvelopeLimit

structure Replica where
  inventory : CompactReplicationInventory
  limits : Limits := {}

namespace Replica

def extend (replica : Replica) (ids : List EnvelopeId) : Replica :=
  { replica with inventory := { replica.inventory with
      envelopes := replica.inventory.envelopes.extend ids } }

def summary (replica : Replica) : ReplicationInventory Digest where
  envelopes := []
  buckets := replica.inventory.buckets replicationBucketDigest
  accepts := replica.limits.accepts

def answer (replica : Replica) (remote : ReplicationInventory Digest) (turn : Nat) :
    List EnvelopeId × ReplicationInventory Digest :=
  let difference :=
    compactReplicationDifferenceTurn replicationBucketDigest replica.inventory remote
    replica.limits.listing turn
  (difference.1,
    { envelopes := difference.2
      buckets := replica.inventory.buckets replicationBucketDigest
      accepts := replica.limits.accepts })

end Replica

structure Turns where
  first : Nat
  push : Nat
  second : Nat

def firstAnswer (turns : Turns) (own peer : Replica) :
    List EnvelopeId × ReplicationInventory Digest :=
  peer.answer replicationBucketDigest (own.summary replicationBucketDigest) turns.first

def pushAnswer (turns : Turns) (own peer : Replica) :
    List EnvelopeId × ReplicationInventory Digest :=
  let first := firstAnswer replicationBucketDigest turns own peer
  (own.extend first.1).answer replicationBucketDigest first.2 turns.push

def secondAnswer (turns : Turns) (own peer : Replica) :
    List EnvelopeId × ReplicationInventory Digest :=
  let push := pushAnswer replicationBucketDigest turns own peer
  (peer.extend push.1).answer replicationBucketDigest push.2 turns.second

/-- Both sides after a summary, the peer's answer, the push and its answer. -/
def exchange (turns : Turns) (own peer : Replica) : Replica × Replica :=
  ((own.extend (firstAnswer replicationBucketDigest turns own peer).1).extend
      (secondAnswer replicationBucketDigest turns own peer).1,
    peer.extend (pushAnswer replicationBucketDigest turns own peer).1)

end

end Smalltalk
