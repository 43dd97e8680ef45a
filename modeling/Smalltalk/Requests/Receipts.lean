import Smalltalk.Lib.Machine
import Smalltalk.Lib.Table
import Smalltalk.Lib.Trace

/-!
# Saved responses

A request with an idempotency key saves its response and puts the key's operation on one of
the claims it writes. Cleanup deletes a saved response once the operation is known otherwise.
-/

namespace Smalltalk.Requests

def retentionMs : Int := 7 * 24 * 60 * 60 * 1000

def cleanupChunk : Nat := 64

def clockSlackMs : Int := 5 * 60 * 1000

def maxInteger : Int := 9223372036854775807

def saturatingAdd (a b : Int) : Int := min maxInteger (a + b)

structure Operation where
  id : String
  requestDigest : String
  deriving DecidableEq

structure Claim where
  operation : Option Operation
  acceptedAt : Nat

structure Tombstone where
  operation : Option String
  requestDigest : Option String
  deriving DecidableEq

structure Receipt where
  rowid : Nat
  response : String
  expiresAt : Int
  replaySafe : Bool

inductive Answer where
  | ran (replaySafe : Bool) (response : String)
  | saved (response : String)
  /-- `idempotency-key-expired`, with the claim that has the operation. -/
  | expired (claim : String)
  deriving DecidableEq

structure Event where
  operation : String
  answer : Answer
  deriving DecidableEq

structure Ledger where
  legacyRowid : Nat := 0
  receipts : Table String Receipt := ∅
  claims : Table String Claim := ∅
  tombstones : Table String Tombstone := ∅
  repaired : List String := []
  log : List Event := []

structure Effect where
  claims : List (String × Claim)
  response : String
  replaySafe : Bool

def Claim.tombstone (c : Claim) : Tombstone :=
  ⟨c.operation.map (·.id), c.operation.map (·.requestDigest)⟩

namespace Ledger

/-! ## Requests -/

def operationClaims (s : Ledger) (operation : String) : List String :=
  s.claims.rows.filterMap fun (id, claim) => if claim.operation.map (·.id) = some operation then
    some id else none

/-- `checkpointed_operation`: request digest and claim. -/
def checkpointedOperation (s : Ledger) (operation : String) : List (String × String) :=
  (s.tombstones.rows.filterMap fun (id, tombstone) =>
    if tombstone.operation = some operation ∧ id ∉ s.repaired then
      tombstone.requestDigest.map (·, id) else none).mergeSort
    fun a b => a.1 < b.1 ∨ (a.1 = b.1 ∧ a.2 ≤ b.2)

def originalClaim (s : Ledger) (operation : String) : Option String :=
  ((s.operationClaims operation).mergeSort (· ≤ ·)).head?.or
    ((s.checkpointedOperation operation).head?.map (·.2))

def cachedResponse (s : Ledger) (operation : String) : Except String (Option String) :=
  match s.receipts.get? operation with
  | some receipt => .ok (some receipt.response)
  | none =>
    match s.originalClaim operation with
    | some claim => .error claim
    | none => .ok none

def nextRowid (s : Ledger) : Nat := (s.receipts.rows.map (·.2.rowid)).foldr max 0 + 1

def fresh (s : Ledger) (effect : Effect) : Bool :=
  (effect.claims.map (·.1)).Nodup ∧
    effect.claims.all fun (id, _) => s.claims.get? id = none ∧ s.tombstones.get? id = none ∧
      id ∉ s.repaired

def answer (s : Ledger) (operation : String) (answer : Answer) : Ledger :=
  { s with log := s.log ++ [⟨operation, answer⟩] }

/-- The effect commits with its saved response; the trigger sets the expiry by the clock. -/
def commit (s : Ledger) (operation : String) (now : Int) (effect : Effect) : Ledger :=
  { s with
    claims := s.claims.putAll effect.claims
    receipts :=
      s.receipts.insert operation ⟨s.nextRowid, effect.response, now + retentionMs,
        effect.replaySafe⟩ }

def request (s : Ledger) (operation : String) (now : Int) (effect : Effect) : Option Ledger :=
  match s.cachedResponse operation with
  | .ok (some response) => some (s.answer operation (.saved response))
  | .error claim => some (s.answer operation (.expired claim))
  | .ok none =>
    if s.fresh effect then
      some ((s.commit operation now effect).answer operation
        (.ran effect.replaySafe effect.response))
    else none

/-! ## Cleanup -/

def durable (s : Ledger) (operation : String) : Bool := !(s.operationClaims operation).isEmpty

def checkpointed (s : Ledger) (operation : String) : Bool :=
  !(s.checkpointedOperation operation).isEmpty

/-- The accepted time of the newest claim, and the slack. -/
def clockLimit (s : Ledger) : Option Int :=
  match s.claims.rows with
  | [] => none
  | rows =>
    some (saturatingAdd (min ((rows.map (·.2.acceptedAt)).foldr max 0 : Nat) maxInteger)
      clockSlackMs)

def extend (s : Ledger) (operation : String) (expiresAt : Int) : Ledger :=
  match s.receipts.get? operation with
  | some receipt =>
    { s with receipts := (s.receipts.delete operation).insert operation { receipt with
      rowid := s.nextRowid, expiresAt } }
  | none => s

def cleanupTx (now : Int) (inUse : String → Bool) : List (String × Receipt) → Ledger → Ledger
  | [], s => s
  | (operation, receipt) :: rest, s =>
    -- The first row that is still young ends the pass.
    if now < receipt.expiresAt then s
    else if (¬receipt.replaySafe ∧ ¬s.durable operation ∧ ¬s.checkpointed operation) ∨
      inUse receipt.response then
      cleanupTx now inUse rest (s.extend operation (saturatingAdd now retentionMs))
    else cleanupTx now inUse rest { s with receipts := s.receipts.delete operation }

def candidates (s : Ledger) : List (String × Receipt) :=
  (s.receipts.rows.filter (s.legacyRowid < ·.2.rowid)).take cleanupChunk

def cleanupIdempotency (s : Ledger) (now : Int) (inUse : String → Bool) : Ledger :=
  match s.clockLimit with
  | none => s
  | some limit => cleanupTx (min now limit) inUse s.candidates s

/-! ## Trims -/

/-- Tombstones of this node's own plan, for claims it holds. -/
def record (s : Ledger) (ids : List String) : Ledger :=
  ids.foldl (fun s id =>
    match s.claims.get? id with
    | some claim => { s with tombstones := s.tombstones.insert id claim.tombstone }
    | none => s) s

/-- A chunk of the trim deletes claims that have tombstones. -/
def deleteTrimmed (s : Ledger) (ids : List String) : Ledger :=
  { s with claims := s.claims.deleteWhere fun id _ => id ∈ ids ∧ (s.tombstones.get? id).isSome }

/-- A recording that is given up forgets tombstones whose claims are still held. -/
def forget (s : Ledger) (ids : List String) : Ledger :=
  { s with tombstones := s.tombstones.deleteWhere fun id _ => id ∈ ids ∧ (s.claims.get? id).isSome }

/-- `keep_only_tombstones_tx` and `record_checkpoint_tombstones_tx`. -/
def adopt (s : Ledger) (manifest : List (String × Tombstone)) : Ledger :=
  { s with
    tombstones := manifest.foldl (fun tombstones row => tombstones.insert row.1 row.2)
      (s.tombstones.deleteWhere fun id _ => id ∉ manifest.map (·.1)) }

end Ledger

inductive Label where
  | request (key : String) (now : Int) (effect : Effect)
  | cleanup (now : Int) (inUse : String → Bool)
  | record (ids : List String)
  | deleteTrimmed (ids : List String)
  | forget (ids : List String)
  | adopt (manifest : List (String × Tombstone))

def Ledger.step (opaqueCacheKey : String → String) (s : Ledger) : Label → Option Ledger
  | .request key now effect => s.request (opaqueCacheKey key) now effect
  | .cleanup now inUse => some (s.cleanupIdempotency now inUse)
  | .record ids => some (s.record ids)
  | .deleteTrimmed ids => some (s.deleteTrimmed ids)
  | .forget ids => some (s.forget ids)
  | .adopt manifest => some (s.adopt manifest)

def requests (opaqueCacheKey : String → String) : Machine Ledger Label where
  step := Ledger.step opaqueCacheKey

def Ledger.identified (s : Ledger) (operation : String) : Bool :=
  s.durable operation || s.checkpointed operation

/-- An adopted manifest takes no operation's last identity away, and its tombstones of held claims
are those of the claims. -/
def keepsIdentities (s : Ledger) : Label → Bool
  | .adopt manifest =>
    ((s.tombstones.rows.filterMap (·.2.operation)).all fun operation =>
      !s.identified operation || (s.adopt manifest).identified operation) &&
          manifest.all fun (id, tombstone) =>
      match s.claims.get? id with
      | some claim => tombstone = claim.tombstone
      | none => true
  | _ => true

def Once (before : List Event) (event : Event) : Prop :=
  ∀ first ∈ before, ∀ response, first.operation = event.operation →
    first.answer = .ran false response → event.answer = .saved response ∨
    ∃ claim, event.answer = .expired claim

end Smalltalk.Requests
