import Smalltalk.Lib.Table

/-!
# Claims and their canonical keys

The rows of `claims` that the maintained views read, and the canonical key of a
claim. `store/canonical.rs`.
-/

namespace Smalltalk.Ivm

structure Claim where
  id : String
  batchId : String
  subject : String
  kind : String
  origin : String
  actor : Option String
  body : String
  predecessors : String
  acceptedAtUnixMs : Nat
  deriving DecidableEq, Repr

def Claim.bytes (claim : Claim) : Nat :=
  claim.body.utf8ByteSize + claim.predecessors.utf8ByteSize + claim.id.utf8ByteSize +
    claim.batchId.utf8ByteSize +
    claim.subject.utf8ByteSize + claim.kind.utf8ByteSize + claim.origin.utf8ByteSize +
    (claim.actor.getD "").utf8ByteSize + claim.acceptedAtUnixMs.repr.utf8ByteSize

structure ClaimKey where
  time : Nat
  writer : String
  sequence : Nat
  batch : String
  position : Nat
  id : String
  deriving DecidableEq, Repr

/-- What canonical keys read beside `claims`: the position of a claim in `claim_positions`, the
least one in `replica_records`, and the origin and sequence of a batch. -/
structure Ledger where
  stored : String → Option Nat
  recorded : String → Option Nat
  batches : String → Option (String × Nat)

/-- No claim has a stored position, and one writer made every batch. -/
def sampleLedger : Ledger where
  stored := fun _ => none
  recorded := fun _ => none
  batches := fun _ => some ("writer", 1)

def earlier (claims : Table Nat Claim) (batchId : String) (index : Nat) : Nat :=
  claims.rows.countP fun r => r.2.batchId = batchId && r.1 < index

def claimKey (ledger : Ledger) (claims : Table Nat Claim) (index : Nat) (claim : Claim) :
    Option ClaimKey :=
  (ledger.batches claim.batchId).map fun batch =>
    { time := claim.acceptedAtUnixMs, writer := batch.1, sequence := batch.2, batch := claim.batchId
      position :=
        ((ledger.stored claim.id).or (ledger.recorded claim.id)).getD
          (earlier claims claim.batchId index)
      id := claim.id }

def hasId (claims : Table Nat Claim) (id : String) : Bool := claims.rows.any (·.2.id = id)

variable {claims : Table Nat Claim} {bound : Nat}

theorem earlier_insert {i : Nat} {claim : Claim} (batchId : String) (hn : claims.get? i = none)
    (hl : bound ≤ i) :
    earlier (claims.insert i claim) batchId bound = earlier claims batchId bound := by
  simp [earlier, Table.insert_of_none hn, Nat.not_lt.mpr hl]

theorem claimKey_insert {l : Ledger} {index : Nat} {i : Claim}
    (claim : Claim) (hn : claims.get? index = none) (hl : bound ≤ index) :
    claimKey l (claims.insert index i) bound claim = claimKey l claims bound claim := by
  unfold claimKey
  rw [earlier_insert _ hn hl]

theorem find?_id (hi : (claims.rows.map (·.2.id)).Nodup) {row : Nat × Claim}
    (hr : row ∈ claims.rows) : claims.rows.find? (·.2.id = row.2.id) = some row := by
  cases hf : claims.rows.find? (·.2.id = row.2.id) with
  | none => exact absurd (List.find?_eq_none.mp hf row hr) (by simp)
  | some f =>
    have hd : f.2.id = row.2.id := by simpa using List.find?_some hf
    rw [List.inj_on_of_nodup_map hi (List.mem_of_find?_eq_some hf) hr hd]

end Smalltalk.Ivm
