import Mathlib
import Smalltalk.Lib.Machine
import Smalltalk.Lib.Table

/-!
# Agreeing on a checkpoint

Each node seals the newest due checkpoint, verifies it once the newest seal of every
participant carries its own terms, and reads certificates off the verifications it holds.
-/

namespace Smalltalk.Agreement

/-! ## Checkpoint claims -/

inductive Kind where
  | sealed
  | verified
  | excused
  deriving DecidableEq

structure Fields where
  cutUnixMs : Option Nat := none
  participants : Option (Finset String) := none
  sealedDigest : Option String := none
  rulesDigest : Option String := none
  dropDigest : Option String := none
  retainedDigest : Option String := none
  graphDigest : Option String := none
  readerDigest : Option String := none
  writer : Option String := none
  deriving DecidableEq

structure CheckpointClaim where
  id : String
  kind : Kind
  subject : String
  writer : String
  actor : Option String
  fields : Fields
  deriving DecidableEq

structure SealTerms where
  cutUnixMs : Nat
  participants : Finset String
  sealedDigest : String
  rulesDigest : String
  deriving DecidableEq

structure VerifiedTerms where
  cutUnixMs : Nat
  participants : Finset String
  sealedDigest : String
  rulesDigest : String
  dropDigest : String
  retainedDigest : String
  graphDigest : String
  readerDigest : String
  deriving DecidableEq

def VerifiedTerms.key (terms : VerifiedTerms) :=
  toLex (terms.cutUnixMs, toLex (terms.participants.sort (· ≤ ·),
    toLex (terms.sealedDigest, toLex (terms.rulesDigest, toLex (terms.dropDigest,
      toLex (terms.retainedDigest, toLex (terms.graphDigest, terms.readerDigest)))))))

theorem VerifiedTerms.key_injective : Function.Injective VerifiedTerms.key := by
  rintro ⟨cut, participants, _, _, _, _, _, _⟩ ⟨cut', participants', _, _, _, _, _, _⟩ h
  simp only [VerifiedTerms.key, EmbeddingLike.apply_eq_iff_eq, Prod.mk.injEq] at h
  have hp : participants = participants' := by
    rw [← Finset.sort_toFinset participants (· ≤ ·),
      ← Finset.sort_toFinset participants' (· ≤ ·), h.2.1]
  simp only [VerifiedTerms.mk.injEq]
  exact ⟨h.1, hp, h.2.2⟩

instance : LinearOrder VerifiedTerms :=
  LinearOrder.lift' VerifiedTerms.key VerifiedTerms.key_injective

structure Certificate where
  checkpoint : String
  terms : VerifiedTerms
  verifications : List (String × String)

section
variable (checkpointName : Nat → String)

def CheckpointClaim.cut (claim : CheckpointClaim) : Option Nat :=
  claim.fields.cutUnixMs.filter fun cut => checkpointName cut = claim.subject

def CheckpointClaim.sealTerms (claim : CheckpointClaim) : Option SealTerms :=
  if claim.kind ≠ .sealed then none
  else do
    let cutUnixMs ← claim.cut checkpointName
    let participants ← claim.fields.participants
    let sealedDigest ← claim.fields.sealedDigest
    let rulesDigest ← claim.fields.rulesDigest
    some { cutUnixMs, participants, sealedDigest, rulesDigest }

def CheckpointClaim.verifiedTerms (claim : CheckpointClaim) : Option VerifiedTerms :=
  if claim.kind ≠ .verified then none
  else do
    let cutUnixMs ← claim.cut checkpointName
    let participants ← claim.fields.participants
    let sealedDigest ← claim.fields.sealedDigest
    let rulesDigest ← claim.fields.rulesDigest
    let dropDigest ← claim.fields.dropDigest
    let retainedDigest ← claim.fields.retainedDigest
    let graphDigest ← claim.fields.graphDigest
    let readerDigest ← claim.fields.readerDigest
    some { cutUnixMs, participants, sealedDigest, rulesDigest, dropDigest, retainedDigest,
           graphDigest, readerDigest }

def CheckpointClaim.isCheckpointWork (claim : CheckpointClaim) : Bool :=
  claim.kind = .sealed || claim.kind = .verified

/-! ## Folds over a node's claims, in canonical order -/

def endsExcusal (rulesDigest : String) (claim : CheckpointClaim) : Bool :=
  claim.isCheckpointWork &&
    ((claim.sealTerms checkpointName).any
      (fun terms => terms.rulesDigest = rulesDigest && claim.writer ∈ terms.participants) ||
      (claim.verifiedTerms checkpointName).any fun terms =>
        terms.rulesDigest = rulesDigest && claim.writer ∈ terms.participants)

def excusedWritersForRules (claims : List CheckpointClaim) (rulesDigest : String) : Finset String :=
  claims.foldl (fun excused claim =>
    if claim.kind = .excused then
      if claim.actor.any (fun actor => actor.startsWith "person/") then
        match claim.fields.writer with
        | some writer => insert writer excused
        | none => excused
      else excused
    else if claim.writer ∈ excused && endsExcusal checkpointName rulesDigest claim then
      excused.erase claim.writer
    else excused) ∅

def namedParticipants (claims : List CheckpointClaim) : Finset String :=
  ((claims.filter (·.isCheckpointWork)).filterMap (·.fields.participants)).foldr (· ∪ ·) ∅

def participantsForRules (known left : Finset String) (claims : List CheckpointClaim)
    (rulesDigest : String) : Finset String :=
  ((known ∪ namedParticipants claims) \ left) \ excusedWritersForRules checkpointName
    claims rulesDigest

def newestSeals (claims : List CheckpointClaim) (checkpoint : String) : Table String SealTerms :=
  (claims.filter fun claim => claim.subject = checkpoint).foldl (fun seals claim =>
    match claim.sealTerms checkpointName with
    | some terms => seals.put claim.writer terms
    | none => seals) ∅

def firstVerifications (claims : List CheckpointClaim) (checkpoint : String) :
    Table String (String × VerifiedTerms) :=
  (claims.filter fun claim => claim.subject = checkpoint).foldl (fun verifications claim =>
    match claim.verifiedTerms checkpointName with
    | some terms => verifications.insert claim.writer (claim.id, terms)
    | none => verifications) ∅

def certificateOf (checkpoint : String) (verifications : Table String (String × VerifiedTerms))
    (terms : VerifiedTerms) :
    Option Certificate :=
  let group := verifications.rows.filter fun r => r.2.2 = terms && r.1 ∈ terms.participants
  if terms.participants.Nonempty ∧ ∀ writer ∈ terms.participants, writer ∈ group.map (·.1) then
    some { checkpoint, terms, verifications := group.map fun r => (r.1, r.2.1) }
  else none

def certificates (claims : List CheckpointClaim) (checkpoint : String) : List Certificate :=
  let verifications := firstVerifications checkpointName claims checkpoint
  let groups := ((verifications.rows.map (·.2.2)).dedup).insertionSort (· ≤ ·)
  groups.filterMap (certificateOf checkpoint verifications)

def stableCheckpoints (claims : List CheckpointClaim) : Table Nat (List Certificate) :=
  let checkpoints :=
    (((claims.filter (·.kind = .verified)).map (·.subject)).dedup).insertionSort (· ≤ ·)
  (∅ : Table Nat (List Certificate)).putAll (checkpoints.filterMap fun checkpoint =>
    (certificates checkpointName claims checkpoint).head?.map fun first =>
      (first.terms.cutUnixMs, certificates checkpointName claims checkpoint))

/-! ## One pass -/

def dayMs : Nat := 86400000

def newestDueCut (nowUnixMs : Nat) : Nat := (nowUnixMs / dayMs - 2) * dayMs

structure Proof where
  dropDigest : String
  retainedDigest : String
  graphDigest : String
  readerDigest : String

structure Pass where
  origin : String
  claims : List CheckpointClaim
  ready : Bool
  nowUnixMs : Nat
  known : Finset String
  left : Finset String
  sealedDigest : String
  rulesDigest : String
  /-- The outcome of `verify_checkpoint`'s plan and proof, none when it backs off, the
  sealed set moved or the proof failed. -/
  proof : Option Proof
  id : String

def Pass.sealClaim (pass : Pass) (checkpoint : String) (terms : SealTerms) : CheckpointClaim where
  id := pass.id
  kind := .sealed
  subject := checkpoint
  writer := pass.origin
  actor := none
  fields :=
    { cutUnixMs := some terms.cutUnixMs, participants := some terms.participants
      sealedDigest := some terms.sealedDigest, rulesDigest := some terms.rulesDigest }

def Pass.verificationClaim (pass : Pass) (checkpoint : String) (terms : SealTerms) (proof : Proof) :
    CheckpointClaim where
  id := pass.id
  kind := .verified
  subject := checkpoint
  writer := pass.origin
  actor := none
  fields :=
    { cutUnixMs := some terms.cutUnixMs, participants := some terms.participants
      sealedDigest := some terms.sealedDigest, rulesDigest := some terms.rulesDigest
      dropDigest := some proof.dropDigest, retainedDigest := some proof.retainedDigest
      graphDigest := some proof.graphDigest, readerDigest := some proof.readerDigest }

def Pass.participants (pass : Pass) : Finset String :=
  insert pass.origin (participantsForRules checkpointName pass.known pass.left pass.claims
    pass.rulesDigest)

def checkpointStep (pass : Pass) : Option CheckpointClaim :=
  let cut := newestDueCut pass.nowUnixMs
  let stable := stableCheckpoints checkpointName pass.claims
  if ¬ pass.ready ∨ cut = 0 ∨ stable.rows.any (fun r => cut ≤ r.1) ∨ pass.origin ∈ pass.left then
    none
  else
    let checkpoint := checkpointName cut
    let terms : SealTerms :=
      ⟨cut, pass.participants checkpointName, pass.sealedDigest, pass.rulesDigest⟩
    let seals := newestSeals checkpointName pass.claims checkpoint
    if ((firstVerifications checkpointName pass.claims checkpoint).get? pass.origin).isSome then
      none
    else if seals.get? pass.origin ≠ some terms then some (pass.sealClaim checkpoint terms)
    else if ∀ writer ∈ terms.participants, seals.get? writer = some terms then
      pass.proof.map (pass.verificationClaim checkpoint terms)
    else none

def machine : Machine (List CheckpointClaim) Pass where
  step published pass :=
    if pass.claims ⊆ published then
    some (published ++ (checkpointStep checkpointName pass).toList) else none

end

end Smalltalk.Agreement
