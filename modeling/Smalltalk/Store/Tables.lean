import Smalltalk.Fleet.Membership
import Smalltalk.Lib.Table

/-!
# The tables admission reads and writes

The log tables, the statements that change them, and the triggers that move
`fleet_generation`: a statement that leaves the counter alone leaves the input of the membership
fold alone.
-/

namespace Smalltalk

open List Option Table

structure EnvelopeId where
  writer : String
  sequence : Nat
  hash : String
  deriving DecidableEq

instance : LinearOrder EnvelopeId :=
  LinearOrder.lift' (fun id : EnvelopeId => toLex (id.writer, toLex (id.sequence, id.hash))) (by
    intro a b h
    cases a
    cases b
    simpa using h)

/-- Payload bytes, or wire text that is not base64. -/
inductive EnvelopePayload where
  | bytes (bytes : List UInt8)
  | invalidBase64 (text : String)
  deriving DecidableEq

inductive ReceiptState where
  | pending
  | validated
  | degraded
  deriving DecidableEq

structure EnvelopeRow where
  rowid : Nat
  previousHash : Option String
  acceptedAt : Nat
  payload : EnvelopePayload
  batchId : Option String
  relay : String
  receiptState : ReceiptState
  validationError : Option String
  receivedAt : Nat
  deriving DecidableEq

structure BatchRow where
  origin : String
  replicaSequence : Nat
  previousHash : Option String
  hash : String
  acceptedAt : Nat

structure ClaimRow where
  batchId : String
  subject : String
  kind : String
  origin : String
  actor : Option String
  body : Value
  predecessors : List String
  acceptedAt : Nat

inductive RecordState where
  | pending
  | valid
  | unknown
  | invalid
  | repaired
  deriving DecidableEq

structure Error where
  code : String
  message : String
  deriving DecidableEq

structure RecordRow where
  state : RecordState
  claimId : Option String
  error : Option Error

inductive HoldReason where
  | unsigned
  | fenced
  deriving DecidableEq

structure Tombstone (ρ : Type) where
  content : ρ
  checkpoint : String
  deriving DecidableEq

structure DroppedClaim where
  envelope : EnvelopeId
  subject : String
  kind : String
  actor : Option String
  predecessors : List String
  operationId : Option String
  requestDigest : Option String
  acceptedAt : Nat
  deriving DecidableEq

inductive CheckpointState where
  | sealed
  | verified
  | recording
  | trimming
  | trimmed
  | planChanged
  | graphChanged
  | setAside
  deriving DecidableEq

structure CheckpointRow where
  cut : Nat
  state : CheckpointState
  sealRowid : Option Nat
  sealedDigest : Option String
  dropDigest : Option String
  deriving DecidableEq

/-- The tables no membership trigger watches. A record is kept under its envelope and position.
The claims that projection rows and repairs name stand for the projections. -/
structure Ledger where
  records : Table (EnvelopeId × Nat) RecordRow := ∅
  holds : Table EnvelopeId HoldReason := ∅
  checkpointEnvelopes : Table EnvelopeId (Tombstone Nat) := ∅
  checkpointClaims : Table String (Tombstone DroppedClaim) := ∅
  checkpoints : Table String CheckpointRow := ∅
  projectionClaims : List String := []
  blobs : Table String (List UInt8) := ∅
  legacyClaimHashRetried : Bool := false
  subjectReferenceRetrySchema : Option String := none

structure Db where
  anchor : Option String := none
  claims : Table String ClaimRow := ∅
  batches : Table String BatchRow := ∅
  envelopes : Table EnvelopeId EnvelopeRow := ∅
  signatures : Table (EnvelopeId × String) String := ∅
  fleetGeneration : Nat := 0
  ledger : Ledger := {}

/-! ## What the membership fold reads -/

def fleetClaimKinds : List String :=
  ["fleet.member-admitted", "fleet.member-endpoints", "fleet.member-left", "fleet.member-removed",
    "fleet.invite-created", "fleet.invite-redeemed", "fleet.invite-revoked"]

def ClaimRow.isFleet (claim : ClaimRow) : Bool := claim.kind ∈ fleetClaimKinds

/-- `body.fields`, when it is an object. -/
def ClaimRow.fields (claim : ClaimRow) : Std.ExtTreeMap String Value compare :=
  match claim.body with
  | .object entries =>
    match entries.find? (·.1 = "fields") with
    | some (_, .object fields) => .ofList fields
    | _ => ∅
  | _ => ∅

def carriers (envelopes : Table EnvelopeId EnvelopeRow) (batchId : String) : List String :=
  envelopes.rows.filterMap fun r => if r.2.batchId = some batchId then some r.1.hash else none

def signersOf (signatures : Table (EnvelopeId × String) String) (id : EnvelopeId) : List String :=
  signatures.rows.filterMap fun r => if r.1.1 = id then some r.1.2 else none

section
variable (claims : Table String ClaimRow) (batches : Table String BatchRow)
  (envelopes : Table EnvelopeId EnvelopeRow) (signatures : Table (EnvelopeId × String) String)

def fleetClaim (r : String × ClaimRow) : Option FleetClaim :=
  if r.2.isFleet then
    (batches.get? r.2.batchId).map fun batch =>
      { id := r.1, kind := r.2.kind, subject := r.2.subject, fields := r.2.fields
        writer := batch.origin, sequence := batch.replicaSequence
        signers := ((carriers envelopes r.2.batchId).flatMap fun hash =>
          signersOf signatures ⟨batch.origin, batch.replicaSequence, hash⟩).toFinset }
  else none

/-- Some claim of the batch is one the fold reads. -/
def carriesFleetClaims (batchId : Option String) : Bool :=
  claims.rows.any fun r => r.2.isFleet ∧ batchId = some r.2.batchId

/-- The signed envelope carries a batch of that writer and sequence with such
a claim. -/
def signsFleetClaims (id : EnvelopeId) : Bool :=
  envelopes.rows.any fun r =>
    r.1.hash = id.hash ∧ r.2.batchId.any (fun batchId =>
      (batches.get? batchId).any fun batch =>
        batch.origin = id.writer ∧ batch.replicaSequence = id.sequence) ∧
      carriesFleetClaims claims r.2.batchId

end

namespace Db

def fleetClaims (db : Db) : List FleetClaim :=
  db.claims.rows.filterMap (fleetClaim db.batches db.envelopes db.signatures)

/-- `fleet_membership_tx`. The fold sorts the claims by id itself. -/
def fleetMembership (db : Db) : Membership :=
  match db.anchor with
  | none => {}
  | some anchor => .fold (some anchor) db.fleetClaims

end Db

/-! ## Statements and triggers -/

inductive Statement where
  | insertClaim (id : String) (row : ClaimRow)
  | deleteClaim (id : String)
  | insertBatch (id : String) (row : BatchRow)
  | deleteBatch (id : String)
  | insertEnvelope (id : EnvelopeId) (row : EnvelopeRow)
  | updateEnvelope (id : EnvelopeId) (f : EnvelopeRow → EnvelopeRow)
  | markEnvelope (id : EnvelopeId) (f : ReceiptState × Option String → ReceiptState × Option String)
  | deleteEnvelope (id : EnvelopeId)
  | insertSignature (id : EnvelopeId) (key signature : String)
  | deleteSignature (id : EnvelopeId) (key : String)
  | setAnchor (anchor : Option String)
  | ledger (f : Ledger → Ledger)

namespace Db

def bump (db : Db) (fired : Bool) : Db :=
  { db with fleetGeneration := db.fleetGeneration + fired.toNat }

/-- One statement and its triggers. `updateEnvelope` sets `batch_id`, which fires two;
`markEnvelope` sets the receipt state and the validation error only, which fires none. -/
def exec (db : Db) : Statement → Db
  | .insertClaim id row =>
    { db with claims := db.claims.insert id row }.bump ((db.claims.get? id).isNone && row.isFleet)
  | .deleteClaim id =>
    { db with claims := db.claims.delete id }.bump ((db.claims.get? id).any ClaimRow.isFleet)
  | .insertBatch id row =>
    { db with batches := db.batches.insert id row }.bump
      ((db.batches.get? id).isNone && carriesFleetClaims db.claims (some id))
  | .deleteBatch id =>
    { db with batches := db.batches.delete id }.bump
      ((db.batches.get? id).isSome && carriesFleetClaims db.claims (some id))
  | .insertEnvelope id row =>
    { db with envelopes := db.envelopes.insert id row }.bump
      ((db.envelopes.get? id).isNone && carriesFleetClaims db.claims row.batchId)
  | .updateEnvelope id f =>
    let new := (db.envelopes.get? id).any fun row => carriesFleetClaims db.claims (f row).batchId
    let old := (db.envelopes.get? id).any fun row => carriesFleetClaims db.claims row.batchId
    ({ db with envelopes := db.envelopes.update id f }.bump new).bump (old || new)
  | .markEnvelope id f =>
    { db with envelopes := db.envelopes.update id fun row =>
        { row with
          receiptState := (f (row.receiptState, row.validationError)).1
          validationError := (f (row.receiptState, row.validationError)).2 } }
  | .deleteEnvelope id =>
    { db with envelopes := db.envelopes.delete id }.bump
      ((db.envelopes.get? id).any fun row : EnvelopeRow => carriesFleetClaims db.claims row.batchId)
  | .insertSignature id key signature =>
    { db with signatures := db.signatures.insert (id, key) signature }.bump
      ((db.signatures.get? (id, key)).isNone &&
        signsFleetClaims db.claims db.batches db.envelopes id)
  | .deleteSignature id key =>
    { db with signatures := db.signatures.delete (id, key) }.bump
      ((db.signatures.get? (id, key)).isSome &&
        signsFleetClaims db.claims db.batches db.envelopes id)
  | .setAnchor anchor => { db with anchor := anchor }.bump true
  | .ledger f => { db with ledger := f db.ledger }

def execAll (db : Db) (statements : List Statement) : Db := statements.foldl exec db

end Db

/-! ## The counter covers the fold's input -/

section
variable {claims : Table String ClaimRow} {batches batches' : Table String BatchRow}
  {envelopes envelopes' : Table EnvelopeId EnvelopeRow}
  {signatures signatures' : Table (EnvelopeId × String) String}

theorem filterMap_fleetClaim_congr
    (h : ∀ id claim, claims.get? id = some claim → claim.isFleet = true →
      batches'.get? claim.batchId = batches.get? claim.batchId ∧
      carriers envelopes' claim.batchId = carriers envelopes claim.batchId ∧
      ∀ batch, batches.get? claim.batchId = some batch → ∀ hash ∈ carriers envelopes claim.batchId,
        signersOf signatures' ⟨batch.origin, batch.replicaSequence, hash⟩ =
          signersOf signatures ⟨batch.origin, batch.replicaSequence, hash⟩) :
    claims.rows.filterMap (fleetClaim batches' envelopes' signatures') =
      claims.rows.filterMap (fleetClaim batches envelopes signatures) := by
  apply filterMap_congr
  intro r hr
  unfold fleetClaim
  by_cases hf : r.2.isFleet = true
  · obtain ⟨ht, hc, hs⟩ := h r.1 r.2 (mem_rows.mp hr) hf
    rw [if_pos hf, if_pos hf, ht, hc]
    cases hb : batches.get? r.2.batchId with
    | none => rfl
    | some batch =>
      have : (carriers envelopes r.2.batchId).flatMap
            (fun hash => signersOf signatures' ⟨batch.origin, batch.replicaSequence, hash⟩) =
          (carriers envelopes r.2.batchId).flatMap
            fun hash => signersOf signatures ⟨batch.origin, batch.replicaSequence, hash⟩ :=
        flatMap_congr fun hash hh => hs batch hb hash hh
      simp only [map_some, this]
  · rw [if_neg hf, if_neg hf]

variable {claim : ClaimRow} {k : EnvelopeId} {key : String}

theorem ne_of_not_carries {batchId : Option String} (h : carriesFleetClaims claims batchId = false)
    {id : String} (hc : claims.get? id = some claim)
    (hf : claim.isFleet = true) : batchId ≠ some claim.batchId := by
  intro hb
  unfold carriesFleetClaims at h
  have := List.any_eq_false.mp h _ (mem_rows.mpr hc)
  simp [hf, hb] at this

variable {id : EnvelopeId} {batchId : String}

theorem ne_of_not_signs (h : signsFleetClaims claims batches envelopes id = false)
    {claimId : String} (hl : claims.get? claimId = some claim)
    (hf : claim.isFleet = true) {batch : BatchRow} (hb : batches.get? claim.batchId = some batch)
    {hash : String} (hh : hash ∈ carriers envelopes claim.batchId) :
    ⟨batch.origin, batch.replicaSequence, hash⟩ ≠ id := by
  intro hd
  obtain ⟨r, hr, hi⟩ := mem_filterMap.mp hh
  simp only [ite_none_right_eq_some, Option.some.injEq] at hi
  have hclaims : carriesFleetClaims claims (some claim.batchId) = true := by
    cases hc : carriesFleetClaims claims (some claim.batchId) with
    | true => rfl
    | false => exact absurd rfl (ne_of_not_carries hc hl hf)
  unfold signsFleetClaims at h
  have := List.any_eq_false.mp h _ hr
  simp [← hd, hi, hclaims, hb] at this

theorem filterMap_fleetClaim_batches (id : String) (h : carriesFleetClaims claims (some id) = false)
    (hg : ∀ k, k ≠ id → batches'.get? k = batches.get? k) :
    claims.rows.filterMap (fleetClaim batches' envelopes signatures) =
      claims.rows.filterMap (fleetClaim batches envelopes signatures) := by
  apply filterMap_fleetClaim_congr
  intro claimId claim hc hf
  refine ⟨hg _ ?_, rfl, fun _ _ _ _ => rfl⟩
  intro heq
  exact ne_of_not_carries h hc hf (congrArg some heq.symm)

theorem filterMap_fleetClaim_envelopes
    (h : ∀ batchId, carriesFleetClaims claims (some batchId) = true →
      carriers envelopes' batchId = carriers envelopes batchId) :
    claims.rows.filterMap (fleetClaim batches envelopes' signatures) =
      claims.rows.filterMap (fleetClaim batches envelopes signatures) := by
  apply filterMap_fleetClaim_congr
  intro id claim hl hf
  refine ⟨rfl, h _ ?_, fun _ _ _ _ => rfl⟩
  cases hc : carriesFleetClaims claims (some claim.batchId) with
  | true => rfl
  | false => exact absurd rfl (ne_of_not_carries hc hl hf)

theorem filterMap_fleetClaim_signatures (id : EnvelopeId)
    (h : signsFleetClaims claims batches envelopes id = false)
    (hs : ∀ k, k ≠ id → signersOf signatures' k = signersOf signatures k) :
    claims.rows.filterMap (fleetClaim batches envelopes signatures') =
      claims.rows.filterMap (fleetClaim batches envelopes signatures) := by
  apply filterMap_fleetClaim_congr
  intro claimId claim hc hf
  refine ⟨rfl, rfl, fun batch hb hash hh => hs _ ?_⟩
  exact ne_of_not_signs h hc hf hb hh

theorem carriers_insert {row : EnvelopeRow}
    (h : envelopes.get? id ≠ none ∨ row.batchId ≠ some batchId) :
    carriers (envelopes.insert id row) batchId = carriers envelopes batchId := by
  cases hk : envelopes.get? id with
  | some old => rw [insert_of_some hk]
  | none => exact filterMap_insert _ (if_neg (h.resolve_left fun hn => hn hk))

theorem carriers_update {f : EnvelopeRow → EnvelopeRow} (h : ∀ row, envelopes.get? id = some row →
      ((f row).batchId = some batchId ↔ row.batchId = some batchId)) :
    carriers (envelopes.update id f) batchId = carriers envelopes batchId := by
  apply filterMap_update
  intro row hr
  simp only [h row hr]

theorem carriers_delete (h : ∀ row, envelopes.get? id = some row → row.batchId ≠ some batchId) :
    carriers (envelopes.delete id) batchId = carriers envelopes batchId := by
  apply filterMap_deleteWhere
  intro k row hk hp
  obtain rfl : k = id := by simpa using hp
  exact if_neg (h row hk)

theorem signersOf_insert {s : String} (h : k ≠ id) :
    signersOf (signatures.insert (id, key) s) k = signersOf signatures k :=
  filterMap_insert _ (if_neg fun heq => h heq.symm)

theorem signersOf_delete (h : k ≠ id) :
    signersOf (signatures.delete (id, key)) k = signersOf signatures k := by
  apply filterMap_deleteWhere
  intro k' v hv hp
  obtain rfl : k' = (id, key) := by simpa using hp
  exact if_neg fun heq => h heq.symm

end

namespace Db

section
variable {db : Db}

@[simp] theorem bump_fleetGeneration (f : Bool) :
    (db.bump f).fleetGeneration = db.fleetGeneration + f.toNat := rfl

theorem fleetGeneration_exec_le (db : Db) (s : Statement) :
    db.fleetGeneration ≤ (db.exec s).fleetGeneration := by
  cases s <;> simp only [exec, bump_fleetGeneration] <;> omega

theorem not_fired_of_generation_eq {g : Nat} {f : Bool} (h : g + f.toNat = g) : f = false := by
  cases f
  · rfl
  · simp at h

theorem fleetClaims_updateEnvelope {id : EnvelopeId} {f : EnvelopeRow → EnvelopeRow}
    (h : (db.exec (.updateEnvelope id f)).fleetGeneration = db.fleetGeneration) :
    (db.exec (.updateEnvelope id f)).fleetClaims = db.fleetClaims := by
  change db.claims.rows.filterMap (fleetClaim db.batches (db.envelopes.update id f) db.signatures) =
    db.claims.rows.filterMap _
  apply filterMap_fleetClaim_envelopes
  intro batchId hr
  apply carriers_update
  intro row hw
  simp only [exec, bump_fleetGeneration, hw, any_some, Nat.add_assoc] at h
  have hn : carriesFleetClaims db.claims (f row).batchId = false := by
    cases hc : carriesFleetClaims db.claims (f row).batchId
    · rfl
    · simp [hc] at h
  have hold : carriesFleetClaims db.claims row.batchId = false := by
    cases hc : carriesFleetClaims db.claims row.batchId
    · rfl
    · simp [hc] at h
  constructor
  · intro heq; rw [heq, hr] at hn; cases hn
  · intro heq; rw [heq, hr] at hold; cases hold

section
variable {s : Statement} (h : (db.exec s).fleetGeneration = db.fleetGeneration)
include h

/-- A statement that does not move the counter does not change the claims the fold reads. -/
theorem fleetClaims_exec : (db.exec s).fleetClaims = db.fleetClaims := by
  cases s with
  | insertClaim id row =>
    have hf := not_fired_of_generation_eq h
    change (db.claims.insert id row).rows.filterMap _ = _
    cases hk : db.claims.get? id with
    | some old => rw [insert_of_some hk]; rfl
    | none =>
      have hl : ¬ row.isFleet = true := by simpa [hk] using hf
      exact filterMap_insert _ (if_neg hl)
  | deleteClaim id =>
    have hf := not_fired_of_generation_eq h
    apply filterMap_deleteWhere
    intro k claim hk hp
    obtain rfl : k = id := by simpa using hp
    rw [hk] at hf
    exact if_neg (by simpa using hf)
  | insertBatch id row =>
    have hf := not_fired_of_generation_eq h
    change db.claims.rows.filterMap (fleetClaim (db.batches.insert id row) _ _) = _
    cases hk : db.batches.get? id with
    | some old => rw [insert_of_some hk]; rfl
    | none =>
      refine filterMap_fleetClaim_batches id (by simpa [hk] using hf) ?_
      intro k hn
      rw [get?_insert, if_neg hn]
  | deleteBatch id =>
    have hf := not_fired_of_generation_eq h
    change db.claims.rows.filterMap (fleetClaim (db.batches.delete id) _ _) =
      db.claims.rows.filterMap _
    cases hk : db.batches.get? id with
    | none =>
      apply filterMap_fleetClaim_congr
      intro claimId claim _ _
      refine ⟨?_, rfl, fun _ _ _ _ => rfl⟩
      rw [get?_delete]
      split
      · rename_i heq; rw [heq, hk]
      · rfl
    | some old =>
      refine filterMap_fleetClaim_batches id (by simpa [hk] using hf) ?_
      intro k hn
      rw [get?_delete, if_neg hn]
  | insertEnvelope id row =>
    have hf := not_fired_of_generation_eq h
    change db.claims.rows.filterMap (fleetClaim _ (db.envelopes.insert id row) _) =
      db.claims.rows.filterMap _
    apply filterMap_fleetClaim_envelopes
    intro batchId hc
    apply carriers_insert
    by_cases hk : db.envelopes.get? id = none
    · right
      intro heq
      rw [hk, heq, hc] at hf
      cases hf
    · exact .inl hk
  | updateEnvelope id f => exact fleetClaims_updateEnvelope h
  | markEnvelope id f =>
    change db.claims.rows.filterMap (fleetClaim _ (db.envelopes.update id _) _) =
      db.claims.rows.filterMap _
    apply filterMap_fleetClaim_envelopes
    intro batchId _
    exact carriers_update fun row _ => Iff.rfl
  | deleteEnvelope id =>
    have hf := not_fired_of_generation_eq h
    change db.claims.rows.filterMap (fleetClaim _ (db.envelopes.delete id) _) =
      db.claims.rows.filterMap _
    apply filterMap_fleetClaim_envelopes
    intro batchId hc
    apply carriers_delete
    intro row hr heq
    rw [hr, any_some, heq, hc] at hf
    cases hf
  | insertSignature id key signature =>
    have hf := not_fired_of_generation_eq h
    change db.claims.rows.filterMap
      (fleetClaim db.batches db.envelopes (db.signatures.insert (id, key) signature)) = _
    cases hk : db.signatures.get? (id, key) with
    | some old => rw [insert_of_some hk]; rfl
    | none =>
      refine filterMap_fleetClaim_signatures id (by simpa [hk] using hf) ?_
      intro k hn
      exact signersOf_insert hn
  | deleteSignature id key =>
    have hf := not_fired_of_generation_eq h
    change db.claims.rows.filterMap
      (fleetClaim db.batches db.envelopes (db.signatures.delete (id, key))) =
      db.claims.rows.filterMap _
    cases hk : db.signatures.get? (id, key) with
    | none =>
      apply filterMap_fleetClaim_congr
      intro claimId claim _ _
      refine ⟨rfl, rfl, fun _ _ _ _ => ?_⟩
      apply filterMap_deleteWhere
      intro k v hv hp
      obtain rfl : k = (id, key) := by simpa using hp
      rw [hk] at hv; cases hv
    | some old =>
      refine filterMap_fleetClaim_signatures id (by simpa [hk] using hf) ?_
      intro k hn
      exact signersOf_delete hn
  | setAnchor a => simp [exec] at h
  | ledger f => rfl

theorem anchor_exec : (db.exec s).anchor = db.anchor := by
  cases s with
  | setAnchor anchor => simp [exec] at h
  | _ => rfl

theorem fleetMembership_exec : (db.exec s).fleetMembership = db.fleetMembership := by
  unfold fleetMembership
  rw [anchor_exec h, fleetClaims_exec h]

end

theorem fleetGeneration_execAll_le (signatures : List Statement) :
    ∀ db : Db, db.fleetGeneration ≤ (db.execAll signatures).fleetGeneration := by
  induction signatures with
  | nil => intro db; exact Nat.le_refl _
  | cons s signatures ih =>
    intro db; exact Nat.le_trans (fleetGeneration_exec_le db s) (ih (db.exec s))

/-- A run of statements that ends with the same counter ends with the same membership. -/
theorem fleetMembership_execAll (statements : List Statement) :
    ∀ db : Db, (db.execAll statements).fleetGeneration = db.fleetGeneration →
      (db.execAll statements).fleetMembership = db.fleetMembership := by
  induction statements with
  | nil => intro db _; rfl
  | cons s statements ih =>
    intro db h
    have h₁ := fleetGeneration_exec_le db s
    have h₂ := fleetGeneration_execAll_le statements (db.exec s)
    have hr : (db.execAll (s :: statements)) = (db.exec s).execAll statements := rfl
    rw [hr] at h ⊢
    rw [ih (db.exec s) (by omega), fleetMembership_exec (by omega)]

def Via (P : Statement → Prop) (db db' : Db) : Prop :=
  ∃ statements, (∀ s ∈ statements, P s) ∧ db.execAll statements = db'

namespace Via
variable {P : Statement → Prop} {db' db'' : Db}

theorem refl (db : Db) : db.Via P db := ⟨[], by simp, rfl⟩

theorem exec {s : Statement} (h : P s) : db.Via P (db.exec s) := ⟨[s], by simpa using h, rfl⟩

theorem trans (h : db.Via P db') (h' : db'.Via P db'') : db.Via P db'' := by
  obtain ⟨f, hf, rfl⟩ := h
  obtain ⟨second, hc, rfl⟩ := h'
  refine ⟨f ++ second, ?_, foldl_append⟩
  intro s hs
  exact (mem_append.mp hs).elim (hf s) (hc s)

theorem mono {Q : Statement → Prop} (h : db.Via P db') (hPQ : ∀ s, P s → Q s) : db.Via Q db' := by
  obtain ⟨signatures, hP, rfl⟩ := h
  exact ⟨signatures, fun s hs => hPQ s (hP s hs), rfl⟩

theorem keeps {Q : Db → Prop} (h : db.Via P db') (hs : ∀ db s, P s → Q db → Q (db.exec s))
    (hd : Q db) : Q db' := by
  obtain ⟨signatures, hP, rfl⟩ := h
  induction signatures generalizing db with
  | nil => exact hd
  | cons s signatures ih =>
    exact ih (hs db s (hP s mem_cons_self) hd) fun t ht => hP t (mem_cons_of_mem _ ht)

theorem fleetGeneration_le (h : db.Via P db') : db.fleetGeneration ≤ db'.fleetGeneration := by
  obtain ⟨signatures, _, rfl⟩ := h
  exact fleetGeneration_execAll_le signatures db

theorem fleetMembership_eq (h : db.Via P db') (hg : db'.fleetGeneration = db.fleetGeneration) :
    db'.fleetMembership = db.fleetMembership := by
  obtain ⟨signatures, _, rfl⟩ := h
  exact fleetMembership_execAll signatures db hg

end Via

end

end Db

end Smalltalk
