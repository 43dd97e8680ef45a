import Mathlib
import Smalltalk.Lib.Machine
import Smalltalk.Lib.Table

/-!
# Sealing batches behind a frontier

A pass captures the largest rowid in `batches`, then prepares a chunk of batches after the
frontier on a snapshot, off the writer, and writes it under the writer if what it was made of is
unchanged. The frontier then moves to the end of the chunk. Several passes may run at once.

Local appends and admissions take rowids above a stored high water. Published intents and
resource observations leave the rowid to SQLite, which takes the one after the largest.

An envelope's hash covers its payload, so the payload stands for its identity; `nonce` is that
of the claim signatures made while sealing.
-/

namespace Smalltalk.Sealing

structure Batch where
  rowid : Nat
  own : Bool
  deriving DecidableEq

structure Content where
  batch : String
  claims : List String
  nonce : Nat
  deriving DecidableEq

/-- A row of `replica_envelopes`: whether `batch_id` is set, and whether sealing made it. -/
structure Receipt where
  linked : Bool
  sealed : Bool
  deriving DecidableEq

structure SealedBatch where
  batch : String
  rowid : Nat
  claims : List String
  nonce : Nat

def SealedBatch.content (b : SealedBatch) : Content := ⟨b.batch, b.claims, b.nonce⟩

inductive Attempt where
  | waiting (target : Nat)
  | reading (target seeded : Nat)
  | prepared (target seeded through : Nat) (batches : List SealedBatch)
  | done

/-- `claims` has the batch of each claim, in store order. `recovering` is the
smallest skipped rowid the search after an open has found; `used` lists every rowid
a batch ever got. -/
structure State where
  batches : Table String Batch := ∅
  claims : Table String String := ∅
  tombstones : List String := []
  envelopes : Table Content Receipt := ∅
  highWater : Nat := 0
  frontier : Nat := 0
  pending : Bool := true
  recovering : Option Nat := none
  attempts : List Attempt := []
  used : List Nat := []

/-- The encoded size of a payload, and `SEAL_PREPARED_BYTES`. -/
structure Node where
  size : Content → Nat
  budget : Nat

def SEAL_CHUNK_BATCHES : Nat := 64

namespace State

def maxBatchRowid (s : State) : Nat := (s.batches.rows.map (·.2.rowid)).foldr max 0

def nextBatchRowid (s : State) : Nat := max s.maxBatchRowid s.highWater + 1

def carried (s : State) (id : String) : Bool :=
  s.envelopes.rows.any fun r => r.1.batch = id && r.2.linked

def claimsOf (s : State) (id : String) : List String :=
  s.claims.rows.filterMap fun r => if r.2 = id then some r.1 else none

/-- The batches in `(after, through]` without an envelope, by rowid. -/
def unsealedBatches (s : State) (after through : Nat) : List (String × Nat) :=
  ((s.batches.rows.filter fun r => after < r.2.rowid && r.2.rowid ≤ through && !s.carried r.1).map
    fun r => (r.1, r.2.rowid)).insertionSort fun a b => a.2 ≤ b.2

def insertBatch (s : State) (id : String) (batch : Batch) : State :=
  { s with batches := s.batches.insert id batch, used := s.used ++ [batch.rowid] }

def insertClaims (s : State) (id : String) (claims : List String) : State :=
  { s with claims := s.claims.insertAll (claims.map fun claim => (claim, id)) }

end State

section
variable (node : Node)

/-- The batches of a chunk within the budget, and whether some were left out. The first is kept
whatever its size. -/
def keepWithin (bytes : Nat) (first : Bool) : List SealedBatch → List SealedBatch × Bool
  | [] => ([], false)
  | b :: rest =>
    if !first && node.budget < bytes + node.size b.content then ([], true)
    else
      let (kept, cut) := keepWithin (bytes + node.size b.content) false rest
      (b :: kept, cut)

def chunkThrough (s : State) (target seeded : Nat) : Nat :=
  ((((s.batches.rows.map (·.2.rowid)).filter
    fun rowid => seeded < rowid && rowid ≤ target).insertionSort (· ≤ ·)).take
    SEAL_CHUNK_BATCHES).getLast?.getD target

/-- `prepare_seal`: how far the chunk goes, and its batches. -/
def prepareSeal (s : State) (target seeded nonce : Nat) : Nat × List SealedBatch :=
  let through := chunkThrough s target seeded
  let batches := (s.unsealedBatches seeded through).map fun b => ⟨b.1, b.2, s.claimsOf b.1, nonce⟩
  let (kept, cut) := keepWithin node 0 true batches
  (if cut then (kept.getLast?.map (·.rowid)).getD seeded else through, kept)

/-- The batches and claims that `seal_prepared_tx` reads again. -/
def unchanged (s : State) (seeded through : Nat) (batches : List SealedBatch) : Bool :=
  s.unsealedBatches seeded through = batches.map (fun b => (b.batch, b.rowid)) &&
    batches.all fun b => s.claimsOf b.batch = b.claims

/-- The smallest rowid up to the cursor whose batch has no envelope and a claim that is not
tombstoned. -/
def skipped (s : State) (cursor : Nat) : Option Nat :=
  (s.batches.rows.filter fun r => r.2.rowid ≤ cursor && !s.carried r.1 &&
    s.claims.rows.any fun c => c.2 = r.1 && c.1 ∉ s.tombstones).foldl
      (fun least r => some (least.elim r.2.rowid (min r.2.rowid))) none

inductive Label where
  | append (id : String) (claims : List String)
  | publish (id : String) (claims : List String)
  | receive (content : Content)
  | admitEnvelope (content : Content) (claims : List String)
  | tombstone (claim : String)
  | withdraw (keep : List String)
  | trim (content : Content)
  | capture
  | readFrontier (attempt : Nat)
  | prepare (attempt nonce : Nat)
  /-- `agrees`: blobs, stored signatures, member key, fleet id and keyring are unchanged. -/
  | commit (attempt : Nat) (agrees : Bool)
  | search (cursor : Nat)
  | rewind
  | restart

def State.fresh (s : State) (id : String) (claims : List String) : Bool :=
  (s.batches.get? id).isNone && claims.all (fun claim => (s.claims.get? claim).isNone)

def State.writeOwn (s : State) (id : String) (claims : List String) (rowid highWater : Nat) :
    State :=
  { (s.insertBatch id ⟨rowid, true⟩).insertClaims id claims with highWater := highWater }

/-- The batch of an admitted envelope, if it is not there. -/
def State.admitBatch (s : State) (id : String) : State :=
  match s.batches.get? id with
  | some _ => s
  | none => { s.insertBatch id ⟨s.nextBatchRowid, false⟩ with highWater := s.nextBatchRowid }

def State.admitEnvelope (s : State) (content : Content) (claims : List String) : State :=
  let s :=
    (s.admitBatch content.batch).insertClaims content.batch (claims.filter (· ∉ s.tombstones))
  { s with envelopes := s.envelopes.update content fun row => { row with linked := true } }

def State.trim (s : State) (content : Content) : State :=
  let s := { s with
    claims := s.claims.deleteWhere fun _ batch => batch = content.batch
    envelopes := s.envelopes.delete content }
  if s.carried content.batch then s else { s with batches := s.batches.delete content.batch }

def State.writeSealed (s : State) (through : Nat) (batches : List SealedBatch) : State :=
  { s with
    envelopes := s.envelopes.insertAll (batches.map fun b => (b.content, ⟨true, true⟩))
    frontier := through }

def machine : Machine State Label where
  step s
    | .append id claims =>
      if s.fresh id claims then
        some (s.writeOwn id claims s.nextBatchRowid s.nextBatchRowid) else none
    | .publish id claims =>
      if s.fresh id claims then
        some (s.writeOwn id claims (s.maxBatchRowid + 1) s.highWater) else none
    | .receive content => some { s with envelopes := s.envelopes.insert content ⟨false, false⟩ }
    | .admitEnvelope content claims =>
      if (s.envelopes.get? content).isSome then some (s.admitEnvelope content claims) else none
    | .tombstone claim => some { s with tombstones := claim :: s.tombstones }
    | .withdraw keep => some { s with tombstones := s.tombstones.filter (· ∈ keep) }
    | .trim content =>
      if (s.envelopes.get? content).any (·.linked) &&
        (s.claimsOf content.batch).all (· ∈ s.tombstones) then
        some (s.trim content)
      else none
    | .capture => some { s with attempts := s.attempts ++ [.waiting s.maxBatchRowid] }
    | .readFrontier i => match s.attempts[i]? with
      | some (.waiting target) =>
        some { s with attempts := s.attempts.set i (if target ≤ s.frontier then .done
                        else .reading target s.frontier) }
      | _ => none
    | .prepare i nonce => match s.attempts[i]? with
      | some (.reading target seeded) =>
        let (through, batches) := prepareSeal node s target seeded nonce
        some { s with attempts := s.attempts.set i (.prepared target seeded through batches) }
      | _ => none
    | .commit i agrees => match s.attempts[i]? with
      | some (.prepared target seeded through batches) =>
        if target ≤ s.frontier then some { s with attempts := s.attempts.set i .done }
        else if s.frontier = seeded && agrees && unchanged s seeded through batches then
          some { s.writeSealed through batches with attempts := s.attempts.set i (.waiting target) }
        else some { s with attempts := s.attempts.set i (.waiting target) }
      | _ => none
    | .search cursor =>
      if s.pending && cursor ≤ s.frontier then match skipped s cursor with
        | some rowid => some { s with recovering := some rowid }
        | none => some { s with pending := false }
      else none
    | .rewind => s.recovering.map fun rowid =>
      { s with frontier := min s.frontier (rowid - 1), recovering := none, pending := false }
    | .restart => some { s with attempts := [], recovering := none, pending := true }

end

end Smalltalk.Sealing
