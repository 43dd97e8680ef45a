import Smalltalk.Lib.Machine
import Smalltalk.Store.Envelope

/-!
# The admission pass

A pass captures the backlog, folds the membership from a snapshot, and admits the captured
envelopes under loans of the writer. A loan starts by comparing the fold's generation with the
store's, and ends early when an envelope that carries membership claims was admitted.
-/

namespace Smalltalk

open Option

/-! ## The backlog -/

/-- `LIKE '%text%'` for a lower case `text`. -/
def containsText (text message : String) : Bool :=
  text.toList <:+: message.toList.map Char.toLower

def RecordRow.failedWith (row : RecordRow) (code text : String) : Bool :=
  row.state = .invalid ∧ row.error.any fun error => error.code = code ∧
    containsText text error.message

def RecordRow.failedReference (row : RecordRow) : Bool :=
  row.failedWith "invalid-replicated-claim" "violates invalid-subject-reference:"

def RecordRow.retried (row : RecordRow) (hashMismatches subjectReferences : Bool) : Bool :=
  row.state = .unknown ∨ row.failedWith "invalid-replicated-claim" "violates unknown-claim-field:" ∨
    hashMismatches ∧ row.failedWith "claim-hash-mismatch" "" ∨
    subjectReferences ∧ row.failedReference

structure Captured where
  envelope : ReplicaEnvelope
  rowid : Nat
  receivedAt : Nat

def capture (id : EnvelopeId) (row : EnvelopeRow) : Captured where
  envelope :=
    { id, previousHash := row.previousHash, acceptedAt := row.acceptedAt, payload := row.payload }
  rowid := row.rowid
  receivedAt := row.receivedAt

def EnvelopeId.before (a b : EnvelopeId) : Prop :=
  a.writer < b.writer ∨ a.writer = b.writer ∧
  (a.sequence < b.sequence ∨ a.sequence = b.sequence ∧ a.hash ≤ b.hash)

instance (a b : EnvelopeId) : Decidable (a.before b) := by
  unfold EnvelopeId.before
  infer_instance

def hasRecord (db : Db) (id : EnvelopeId) (p : RecordRow → Bool) : Bool :=
  db.ledger.records.rows.any fun r => r.1.1 = id ∧ p r.2

def admissionRetryQuery (db : Db) (hashMismatches subjectReferences : Bool) : List Captured :=
  let rows := db.envelopes.rows.filter fun r =>
    r.2.receiptState = .pending ∨ hasRecord db r.1 (·.retried hashMismatches subjectReferences)
  (rows.map fun r => capture r.1 r.2).insertionSort fun a b => a.envelope.id.before b.envelope.id

section
variable (host : Host) (node : Node)

inductive Taken where
  | skipped
  | held
  | admitted
  | invalid
  deriving DecidableEq

/-- A degraded receipt that a schema retry selected waits as pending. -/
def keepRetried (db : Db) (id : EnvelopeId) : Db :=
  db.exec (.markEnvelope id fun receipt =>
    if receipt.1 = .degraded ∧ hasRecord db id RecordRow.failedReference then (.pending, receipt.2)
    else receipt)

def takeEnvelope (retrySubjectReferences : Bool) (membership : Membership) (db : Db)
    (captured : Captured) : Taken × Db :=
  let id := captured.envelope.id
  if admissionEnvelopeRow db captured.envelope ≠ some (captured.rowid, captured.receivedAt) then
    (.skipped, db)
  else
    match fleetAdmissionHold db membership id with
    | some reason =>
      let db := holdReplicaEnvelope db id reason
      (.held, if retrySubjectReferences then keepRetried db id else db)
    | none =>
      match admitPreparedEnvelope host id (preparePayload host captured.envelope) db with
      | .ok db =>
        (.admitted, db.exec (.ledger fun ledger => { ledger with holds := ledger.holds.delete id }))
      | .error error => (.invalid, recordInvalidReplicaEnvelope db id error)

/-! ## The machine -/

structure Pass where
  retryHashMismatches : Bool
  retrySubjectReferences : Bool
  pending : List Captured
  membership : Option (Nat × Membership) := none
  held : List Captured := []
  membershipChanged : Bool := false
  loan : Bool := false

structure System where
  db : Db := {}
  pass : Option Pass := none

def System.loaned (s : System) : Bool := s.pass.any (·.loan)

def BatchOfHeader (id : EnvelopeId) (row : EnvelopeRow) : Prop :=
  row.batchId = none ∨ row.batchId =
    some (batchIdOf host id.writer id.sequence row.previousHash row.acceptedAt)

/-- What the store's own code writes: it signs with its own key or verifies the signature, and seals
a batch under the batch's header. -/
def Allowed : Statement → Prop
  | .insertSignature id key signature => verifies host node id key signature = true
  | .insertEnvelope id row => BatchOfHeader host id row
  | .updateEnvelope id f => ∀ row, BatchOfHeader host id row → BatchOfHeader host id (f row)
  | _ => True

structure Commit where
  statements : List Statement
  allowed : ∀ statement ∈ statements, Allowed host node statement

inductive Label where
  | commit (transaction : Commit host node)
  | receive (relay : String) (now : Nat) (exchange : ReplicationExchange)
  | start
  | fold
  | openLoan
  | take
  | closeLoan
  | again
  | finish

def startPass (db : Db) : Pass :=
  let retryHashMismatches := !db.ledger.legacyClaimHashRetried
  let retrySubjectReferences := db.ledger.subjectReferenceRetrySchema ≠ some node.schemaDigest
  { retryHashMismatches, retrySubjectReferences
    pending := admissionRetryQuery db retryHashMismatches retrySubjectReferences }

def Pass.take (pass : Pass) (membership : Membership) (captured : Captured) (rest : List Captured)
    (db : Db) : System :=
  let result := takeEnvelope host pass.retrySubjectReferences membership db captured
  let changed := result.1 = .admitted ∧ envelopeCarriesFleetClaims result.2 captured.envelope.id
  { db := result.2
    pass := some { pass with
      pending := rest
      held := if result.1 = .held then pass.held ++ [captured] else pass.held
      membershipChanged := pass.membershipChanged || changed
      loan := !changed } }

def Pass.finish (pass : Pass) (db : Db) : Db :=
  db.exec (.ledger fun ledger =>
    { ledger with
      legacyClaimHashRetried := ledger.legacyClaimHashRetried || pass.retryHashMismatches
      subjectReferenceRetrySchema :=
        if pass.retrySubjectReferences then some node.schemaDigest
        else ledger.subjectReferenceRetrySchema })

def admissionStep (s : System) : Label host node → Option System
  | .commit transaction =>
    if s.loaned then none else some { s with db := s.db.execAll transaction.statements }
  | .receive relay now exchange =>
    if s.loaned then none
    else some { s with db := (receiveExchange host node relay now exchange s.db).2 }
  | .start =>
    match s.pass with
    | some _ => none
    | none => some { s with pass := some (startPass node s.db) }
  | .fold =>
    match s.pass with
    | some pass =>
      if pass.pending ≠ [] ∧ pass.membership = none then
        some { s with pass := some { pass with
          membership := some (s.db.fleetGeneration, s.db.fleetMembership) } }
      else none
    | none => none
  | .openLoan =>
    match s.pass with
    | some pass =>
      match pass.membership with
      | some (generation, _) =>
        if pass.pending = [] ∨ pass.loan then none
        else if generation ≠ s.db.fleetGeneration then
          some { s with pass := some { pass with membership := none } }
        else some { s with pass := some { pass with loan := true } }
      | none => none
    | none => none
  | .take =>
    match s.pass with
    | some pass =>
      match pass.loan, pass.membership, pass.pending with
      | true, some (_, membership), captured :: rest =>
        some (pass.take host membership captured rest s.db)
      | _, _, _ => none
    | none => none
  | .closeLoan =>
    match s.pass with
    | some pass =>
      if pass.loan then some { s with pass := some { pass with loan := false } } else none
    | none => none
  | .again =>
    match s.pass with
    | some pass =>
      if pass.pending = [] ∧ ¬ pass.loan ∧ pass.membershipChanged ∧ pass.held ≠ [] then
        some { s with pass := some { pass with
          pending := pass.held, held := [], membership := none, membershipChanged := false } }
      else none
    | none => none
  | .finish =>
    match s.pass with
    | some pass =>
      if pass.pending = [] ∧ ¬ pass.loan ∧ (¬ pass.membershipChanged ∨ pass.held = []) then
        some { db := pass.finish node s.db, pass := none }
      else none
    | none => none

def admission : Machine System (Label host node) := ⟨admissionStep host node⟩

inductive AdmissionStep : System → Label host node → System → Prop where
  | commit {s : System} (transaction : Commit host node) (free : s.loaned = false) :
      AdmissionStep s (.commit transaction) { s with db := s.db.execAll transaction.statements }
  | receive {s : System} {relay : String} {now : Nat} {exchange : ReplicationExchange} {db : Db}
      (free : s.loaned = false)
        (received : receiveExchange host node relay now exchange s.db = (.ok (), db)) :
      AdmissionStep s (.receive relay now exchange) { s with db }
  | reject {s : System} {relay : String} {now : Nat} {exchange : ReplicationExchange} :
      AdmissionStep s (.receive relay now exchange) s
  | start {db : Db} : AdmissionStep ⟨db, none⟩ .start ⟨db, some (startPass node db)⟩
  | fold {db : Db} {pass : Pass} (pending : pass.pending ≠ []) (unfolded : pass.membership = none) :
      AdmissionStep ⟨db, some pass⟩ .fold
        ⟨db, some { pass with membership := some (db.fleetGeneration, db.fleetMembership) }⟩
  | stale {db : Db} {pass : Pass} {generation : Nat} {membership : Membership}
      (free : pass.loan = false)
      (folded : pass.membership = some (generation, membership))
        (moved : generation ≠ db.fleetGeneration) :
      AdmissionStep ⟨db, some pass⟩ .openLoan ⟨db, some { pass with membership := none }⟩
  | openLoan {db : Db} {pass : Pass} {membership : Membership} (free : pass.loan = false)
      (folded : pass.membership = some (db.fleetGeneration, membership)) :
      AdmissionStep ⟨db, some pass⟩ .openLoan ⟨db, some { pass with loan := true }⟩
  | take {db : Db} {pass : Pass} {generation : Nat} {membership : Membership} {captured : Captured}
      {rest : List Captured} (loaned : pass.loan = true)
      (folded : pass.membership = some (generation, membership))
        (pending : pass.pending = captured :: rest) :
      AdmissionStep ⟨db, some pass⟩ .take (pass.take host membership captured rest db)
  | closeLoan {db : Db} {pass : Pass} :
      AdmissionStep ⟨db, some pass⟩ .closeLoan ⟨db, some { pass with loan := false }⟩
  | again {db : Db} {pass : Pass} (done : pass.pending = []) (free : pass.loan = false)
      (changed : pass.membershipChanged = true) :
      AdmissionStep ⟨db, some pass⟩ .again ⟨db, some { pass with
        pending := pass.held, held := [], membership := none, membershipChanged := false }⟩
  | finish {db : Db} {pass : Pass} (done : pass.pending = []) (free : pass.loan = false)
      (settled : pass.membershipChanged = false ∨ pass.held = []) :
      AdmissionStep ⟨db, some pass⟩ .finish ⟨pass.finish node db, none⟩

variable {host node}

theorem receiveExchange_cases (relay : String) (now : Nat)
    (exchange : ReplicationExchange) (db : Db) :
    (∃ db', receiveExchange host node relay now exchange db = (.ok (), db')) ∨
      ∃ error, receiveExchange host node relay now exchange db = (.error error, db) := by
  unfold receiveExchange Job.transaction
  split_ifs
  · exact .inr ⟨_, rfl⟩
  · exact .inr ⟨_, rfl⟩
  · exact .inr ⟨_, rfl⟩
  · split
    · exact .inl ⟨_, rfl⟩
    · exact .inr ⟨_, rfl⟩

theorem admissionStep_of_step {s t : System} {label : Label host node}
    (h : (admission host node).step s label = some t) : AdmissionStep host node s label t := by
  obtain ⟨db, pass⟩ := s
  change admissionStep host node ⟨db, pass⟩ label = some t at h
  cases label with
  | commit transaction =>
    simp only [admissionStep, ite_none_left_eq_some, some.injEq] at h
    obtain ⟨hf, rfl⟩ := h
    exact .commit transaction (by simpa using hf)
  | receive r now exchange =>
    simp only [admissionStep, ite_none_left_eq_some, some.injEq] at h
    obtain ⟨hf, rfl⟩ := h
    rcases receiveExchange_cases r now exchange db with ⟨db', hr⟩ | ⟨error, hr⟩
    · rw [hr]
      exact .receive (by simpa using hf) hr
    · rw [hr]
      exact .reject
  | start =>
    cases pass with
    | some pass => cases h
    | none => cases h; exact .start
  | fold =>
    cases pass with
    | none => cases h
    | some pass =>
      simp only [admissionStep, ite_none_right_eq_some, some.injEq] at h
      obtain ⟨⟨hp, hn⟩, rfl⟩ := h
      exact .fold hp hn
  | openLoan =>
    cases pass with
    | none => cases h
    | some pass =>
      simp only [admissionStep] at h
      split at h
      · rename_i g membership hl
        simp only [ite_none_left_eq_some, not_or] at h
        obtain ⟨⟨_, hf⟩, h⟩ := h
        split at h
        · rename_i hv
          cases h
          exact .stale (by simpa using hf) hl hv
        · rename_i hm
          cases h
          exact .openLoan (by simpa using hf) (by rw [hl, not_not.mp hm])
      · cases h
  | take =>
    cases pass with
    | none => cases h
    | some pass =>
      simp only [admissionStep] at h
      split at h
      · rename_i g membership c rest hloan hl hp
        cases h
        exact .take hloan hl hp
      · cases h
  | closeLoan =>
    cases pass with
    | none => cases h
    | some pass =>
      simp only [admissionStep, ite_none_right_eq_some, some.injEq] at h
      obtain ⟨_, rfl⟩ := h
      exact .closeLoan
  | again =>
    cases pass with
    | none => cases h
    | some pass =>
      simp only [admissionStep, ite_none_right_eq_some, some.injEq] at h
      obtain ⟨⟨hd, hf, hc, _⟩, rfl⟩ := h
      exact .again hd (by simpa using hf) hc
  | finish =>
    cases pass with
    | none => cases h
    | some pass =>
      simp only [admissionStep, ite_none_right_eq_some, some.injEq] at h
      obtain ⟨⟨hd, hf, hs⟩, rfl⟩ := h
      exact .finish hd (by simpa using hf) (by simpa using hs)

end

end Smalltalk
