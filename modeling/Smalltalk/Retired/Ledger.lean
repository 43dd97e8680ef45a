import Smalltalk.Lib.Machine
import Smalltalk.Lib.Texts
import Smalltalk.Lib.UnionLedger

/-!
# The retired ledgers

The ledgers keep what every tombstone row of `checkpoint_claims` and `checkpoint_envelopes`
ever said. Triggers record the rows that are written, changed or withdrawn, and two imports
page over the rows from before the triggers.
-/

namespace Smalltalk.Retired

/-! ## Stored identities -/

inductive Identity where
  | blob (bytes : List UInt8)
  | text (text : Text)
  deriving DecidableEq

/-- SQL's `unhex` of an even number of digits. -/
def unhex : Text → List UInt8
  | high :: low :: rest =>
    UInt8.ofNat ((hexDigit high).getD 0 * 16 + (hexDigit low).getD 0) :: unhex rest
  | _ => []

/-- `identity_sql`. GLOB and `unhex` read the text up to a zero byte, as `length`
does. -/
def identity (value : Text) : Identity :=
  if sqlLength value = 64 ∧ (cText value).all (fun byte => (hexDigit byte).isSome) then
  .blob (unhex (cText value))
  else .text value

/-! ## Tombstones -/

structure ClaimTombstone where
  id : Text
  subject : Text
  kind : Text
  predecessors : Text
  operationId : Option Text
  requestDigest : Option Text
  checkpoint : Text
  deriving DecidableEq

structure EnvelopeTombstone where
  writer : Text
  sequence : Nat
  envelopeHash : Text
  checkpoint : Text
  deriving DecidableEq

structure Ancestry where
  subject : Text
  kind : Text
  predecessors : Text
  deriving DecidableEq

def claimFacts (row : ClaimTombstone) : List (Text × Unit) := [(row.id, ())]

def envelopeFacts (row : EnvelopeTombstone) : List ((Text × Nat × Text) × Unit) :=
  [((row.writer, row.sequence, row.envelopeHash), ())]

def ancestryFacts (row : ClaimTombstone) : List (Text × Ancestry) :=
  [(row.id, ⟨row.subject, row.kind, row.predecessors⟩)]

def receiptFacts (row : ClaimTombstone) : List ((Text × Text × Text) × Unit) :=
  match row.operationId, row.requestDigest with
  | some operation, some digest => [((operation, digest, row.id), ())]
  | _, _ => []

def envelopeName (name : Text × Nat × Text) : Text × Nat × Identity :=
  (name.1, name.2.1, identity name.2.2)

def receiptName (name : Text × Text × Text) : Text × Text × Identity :=
  (name.1, name.2.1, identity name.2.2)

/-! ## The store -/

inductive ImportCursor where
  | claims (rowid : Nat)
  | envelopes (rowid : Nat)
  | done
  deriving DecidableEq

structure Db where
  claims : Table Nat ClaimTombstone
  envelopes : Table Nat EnvelopeTombstone
  retiredClaims : Table Identity Unit
  retiredEnvelopes : Table (Text × Nat × Identity) Unit
  ancestry : Table Identity Ancestry
  receipts : Table (Text × Text × Identity) Unit
  cursor : ImportCursor
  factsCursor : Option Nat

def claimRetired (db : Db) (id : Text) : Bool := (db.retiredClaims.get? (identity id)).isSome

def envelopeRetired (db : Db) (name : Text × Nat × Text) : Bool :=
  (db.retiredEnvelopes.get? (envelopeName name)).isSome

/-- `retired_predecessors`, before the JSON is read. -/
def retiredPredecessors (db : Db) (id : Text) : Option Text :=
  (db.ancestry.get? (identity id)).map (·.predecessors)

def operationRetired (db : Db) (name : Text × Text × Text) : Bool :=
  (db.receipts.get? (receiptName name)).isSome

def recordClaim (db : Db) (row : ClaimTombstone) : Db :=
  { db with retiredClaims := unionRow claimFacts identity db.retiredClaims row }

def recordFacts (db : Db) (row : ClaimTombstone) : Db :=
  { db with
    ancestry := unionRow ancestryFacts identity db.ancestry row
    receipts := unionRow receiptFacts receiptName db.receipts row }

def recordEnvelope (db : Db) (row : EnvelopeTombstone) : Db :=
  { db with retiredEnvelopes := unionRow envelopeFacts envelopeName db.retiredEnvelopes row }

/-- An `UPDATE` fires the triggers whose columns it names. -/
structure Named where
  /-- `id` or `checkpoint`. -/
  identity : Bool
  /-- `id`, `subject`, `kind`, `predecessors`, `operation_id` or `request_digest`. -/
  facts : Bool

/-- Columns that are not named keep their values. -/
def Named.allows (named : Named) (old new : ClaimTombstone) : Bool :=
  (named.identity || (new.id = old.id && new.checkpoint = old.checkpoint)) &&
    (named.facts || (new.id = old.id && new.subject = old.subject && new.kind = old.kind &&
      new.predecessors = old.predecessors && new.operationId = old.operationId &&
        new.requestDigest = old.requestDigest))

/-- `retired::import_page` with a page of `more + 1`. -/
def importIdentities (db : Db) (more : Nat) : Db :=
  match db.cursor with
  | .done => db
  | .claims after => match pageThrough db.claims after (more + 1) with
    | none => { db with cursor := .envelopes 0 }
    | some through =>
      { db with
        retiredClaims := recordPage claimFacts identity db.retiredClaims db.claims after through
        cursor := .claims through }
  | .envelopes after => match pageThrough db.envelopes after (more + 1) with
    | none => { db with cursor := .done }
    | some through =>
      { db with
        retiredEnvelopes :=
          recordPage envelopeFacts envelopeName db.retiredEnvelopes db.envelopes after through
        cursor := .envelopes through }

/-- `retired_facts::import_page` with a page of `more + 1`. -/
def importFacts (db : Db) (more : Nat) : Db :=
  match db.factsCursor with
  | none => db
  | some after => match pageThrough db.claims after (more + 1) with
    | none => { db with factsCursor := none }
    | some through =>
      { db with
        ancestry := recordPage ancestryFacts identity db.ancestry db.claims after through
        receipts := recordPage receiptFacts receiptName db.receipts db.claims after through
        factsCursor := some through }

inductive Label where
  | insertClaim (rowid : Nat) (row : ClaimTombstone)
  | updateClaim (rowid : Nat) (row : ClaimTombstone) (named : Named)
  | deleteClaim (rowid : Nat)
  | insertEnvelope (rowid : Nat) (row : EnvelopeTombstone)
  | updateEnvelope (rowid : Nat) (row : EnvelopeTombstone)
  | deleteEnvelope (rowid : Nat)
  | importIdentities (more : Nat)
  | importFacts (more : Nat)

structure History where
  db : Db
  claims : List ClaimTombstone
  envelopes : List EnvelopeTombstone

def insertClaim (db : Db) (rowid : Nat) (row : ClaimTombstone) : Option Db :=
  if rowid = 0 || (db.claims.get? rowid).isSome then none
  else some (recordFacts (recordClaim { db with claims := db.claims.insert rowid row } row) row)

def updateClaim (db : Db) (rowid : Nat) (row : ClaimTombstone) (named : Named) : Option Db :=
  match db.claims.get? rowid with
  | none => none
  | some old =>
    if named.allows old row then
      let db := { db with claims := db.claims.update rowid fun _ => row }
      let db := if named.identity then recordClaim (recordClaim db row) old else db
      some (if named.facts then recordFacts (recordFacts db row) old else db)
    else none

def deleteClaim (db : Db) (rowid : Nat) : Db :=
  match db.claims.get? rowid with
  | none => db
  | some old =>
    let db := recordFacts (recordClaim db old) old
    { db with claims := db.claims.delete rowid }

def insertEnvelope (db : Db) (rowid : Nat) (row : EnvelopeTombstone) : Option Db :=
  if rowid = 0 || (db.envelopes.get? rowid).isSome then none
  else some (recordEnvelope { db with envelopes := db.envelopes.insert rowid row } row)

def updateEnvelope (db : Db) (rowid : Nat) (row : EnvelopeTombstone) : Option Db :=
  match db.envelopes.get? rowid with
  | none => none
  | some old =>
    some (recordEnvelope (recordEnvelope
      { db with envelopes := db.envelopes.update rowid fun _ => row } row) old)

def deleteEnvelope (db : Db) (rowid : Nat) : Db :=
  match db.envelopes.get? rowid with
  | none => db
  | some old =>
    let db := recordEnvelope db old
    { db with envelopes := db.envelopes.delete rowid }

def apply (db : Db) : Label → Option Db
  | .insertClaim rowid row => insertClaim db rowid row
  | .updateClaim rowid row named => updateClaim db rowid row named
  | .deleteClaim rowid => some (deleteClaim db rowid)
  | .insertEnvelope rowid row => insertEnvelope db rowid row
  | .updateEnvelope rowid row => updateEnvelope db rowid row
  | .deleteEnvelope rowid => some (deleteEnvelope db rowid)
  | .importIdentities more => some (importIdentities db more)
  | .importFacts more => some (importFacts db more)

def machine : Machine History Label where
  step h label := (apply h.db label).map fun db =>
    { db
      claims := h.claims ++ match label with
        | .insertClaim _ row | .updateClaim _ row _ => [row]
        | _ => []
      envelopes := h.envelopes ++ match label with
        | .insertEnvelope _ row | .updateEnvelope _ row => [row]
        | _ => [] }

def begin (claims : Table Nat ClaimTombstone) (envelopes : Table Nat EnvelopeTombstone) :
    History where
  db := { claims, envelopes, retiredClaims := ∅, retiredEnvelopes := ∅, ancestry := ∅, receipts := ∅
          cursor := .claims 0, factsCursor := some 0 }
  claims := claims.rows.map (·.2)
  envelopes := envelopes.rows.map (·.2)

end Smalltalk.Retired
