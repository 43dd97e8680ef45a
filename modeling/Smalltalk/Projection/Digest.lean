import Mathlib
import Smalltalk.Lib.Machine
import Smalltalk.Lib.Table
import Smalltalk.Projection.Accumulator

/-!
# Projection digests

Each digested table has a count and a sum of its rows' hashes, which row triggers keep. A
claim and its checkpoint tombstone are one row of `claim_sources`, and an operation whose
claims were all dropped is folded from their tombstones.
-/

namespace Smalltalk.Projection

inductive Value where
  | null
  | integer (value : Int)
  | text (value : String)
  | blob (bytes : List UInt8)
  deriving DecidableEq

def Value.ofText : Option String → Value
  | some value => .text value
  | none => .null

abbrev Row := List Value

structure Registered where
  name : String
  declared : List String
  excluded : List String

namespace Registered

def columns (table : Registered) : List String :=
  (table.declared.filter fun column => !table.excluded.contains column).mergeSort (· ≤ ·)

def value (table : Registered) (stored : Row) (column : String) : Value :=
  ((table.declared.zip stored).lookup column).getD .null

def rowSql (table : Registered) (stored : Row) : Row := table.columns.map (table.value stored)

end Registered

def claimSources : String := "claim_sources"

def sourceColumns : List String := ["id", "accepted_at_unix_ms"]

def operationsTable : String := "operations"

def operationColumns : List String := ["canonical_claim_id", "id", "request_digest", "state"]

structure Registry where
  tables : List Registered
  names : (claimSources :: operationsTable :: tables.map (·.name)).Nodup

structure Claim where
  acceptedAt : String
  operation : Option String
  deriving DecidableEq

structure Tombstone where
  acceptedAt : Int
  operation : Option String
  requestDigest : Option String
  deriving DecidableEq

structure Operation where
  canonicalClaim : String
  requestDigest : String
  state : String
  deriving DecidableEq

inductive RecordState where
  | pending | valid | unknown | invalid | repaired
  deriving DecidableEq

structure Record where
  state : RecordState
  claim : Option String
  deriving DecidableEq

structure Digest where
  columns : List String
  count : Int
  accumulator : Accumulator
  deriving DecidableEq

structure Tables where
  registered : Table (String × Nat) Row := ∅
  claims : Table String Claim := ∅
  checkpointClaims : Table String Tombstone := ∅
  operations : Table String Operation := ∅
  replicaRecords : Table String Record := ∅
  repairedClaims : Table String Unit := ∅

structure Db extends Tables where
  digests : Table String Digest := ∅
  operationCache : Table String Row := ∅

/-! ## What a scan reads -/

def Operation.row (id : String) (operation : Operation) : Row :=
  [.text operation.canonicalClaim, .text id, .text operation.requestDigest, .text operation.state]

def sourceRow (id acceptedAt : String) : Row := [.text id, .text acceptedAt]

namespace Tables

def repaired (s : Tables) (id : String) : Bool := (s.repairedClaims.get? id).isSome

def tableRows (s : Tables) (table : Registered) : List Row :=
  s.registered.rows.filterMap fun r => if r.1.1 = table.name then some (table.rowSql r.2) else none

def sourceQuery (s : Tables) : List Row :=
  (s.claims.rows.map (fun r => (r.1, r.2.acceptedAt)) ++
    (s.checkpointClaims.rows.filter fun r => (s.claims.get? r.1).isNone).map
      fun r => (r.1, toString r.2.acceptedAt)).filterMap
      fun source => if s.repaired source.1 then none else some (sourceRow source.1 source.2)

def members (s : Tables) (operation : String) : List (String × Tombstone) :=
  s.checkpointClaims.rows.filterMap fun r =>
    if r.2.operation = some operation ∧ s.repaired r.1 = false then some r else none

end Tables

def foldMembers (operation : String) (members : List (String × Tombstone)) : Row :=
  let digests := members.filterMap fun r => r.2.requestDigest
  let canonical := (members.filterMap fun r =>
    if r.2.requestDigest ≠ none ∧ r.2.requestDigest = digests.min? then some r.1 else none).min?
  [.ofText canonical, .text operation, .ofText digests.min?,
    .text (if digests.dedup.length > 1 then "conflict" else "active")]

namespace Tables

def operationFallback (s : Tables) (operation : String) : Option Row :=
  if (s.members operation).isEmpty then none else some (foldMembers operation (s.members operation))

def dropped (s : Tables) : List String :=
  (s.checkpointClaims.rows.filterMap fun r => if s.repaired r.1 then none
    else r.2.operation).dedup.filter
    fun operation => (s.operations.get? operation).isNone

def operationRows (s : Tables) : List Row :=
  s.operations.rows.map (fun r => r.2.row r.1) ++ s.dropped.filterMap s.operationFallback

def currentOperation (s : Tables) (operation : String) : Option Row :=
  ((s.operations.get? operation).map (Operation.row operation)).or (s.operationFallback operation)

/-- The row that the repair triggers take out or put back. -/
def sourceOf (s : Tables) (id : String) : Option Row :=
  ((s.claims.get? id).map fun claim => sourceRow id claim.acceptedAt).or
    ((s.checkpointClaims.get? id).map fun tombstone => sourceRow id (toString tombstone.acceptedAt))

def operationOf (s : Tables) (id : String) : Option String :=
  ((s.claims.get? id).bind (·.operation)).or ((s.checkpointClaims.get? id).bind (·.operation))

end Tables

/-! ## Triggers -/

section
variable (registry : Registry) (rowHash : String → List String → Row → Accumulator)

def scan (table : String) (columns : List String) (rows : List Row) : Digest where
  columns := columns
  count := rows.length
  accumulator := rows.foldl (fun sum row => sum.add (rowHash table columns row) false) .zero

def projectionChange (accumulator : Accumulator) (table : String) (columns : List String)
    (old new : Option Row) : Accumulator :=
  let less := match old with
    | some row => accumulator.add (rowHash table columns row) true
    | none => accumulator
  match new with
  | some row => less.add (rowHash table columns row) false
  | none => less

namespace Db

/-- The statement fails where the count would be negative. -/
def changeSql (table : String) (old new : Option Row) (delta : Int) (s : Db) : Option Db :=
  match s.digests.get? table with
  | none => some s
  | some digest =>
    if digest.count + delta < 0 then none
    else some { s with digests := s.digests.put table ⟨digest.columns, digest.count + delta,
      projectionChange rowHash digest.accumulator table digest.columns old new⟩ }

def refreshOperation (operation : String) (s : Db) : Option Db :=
  let previous := s.operationCache.get? operation
  let current := s.currentOperation operation
  let delta : Int := (if current.isSome then 1 else 0) - (if previous.isSome then 1 else 0)
  (if previous ≠ current then s.changeSql rowHash operationsTable previous current delta
    else some s).map fun s =>
    { s with operationCache := match current with
      | some row => s.operationCache.put operation row
      | none => s.operationCache.delete operation }

def refreshIfAny (operation : Option String) (s : Db) : Option Db :=
  match operation with
  | some operation => s.refreshOperation rowHash operation
  | none => some s

/-- The operation triggers of `checkpoint_claims` skip what has a hot row. -/
def refreshDropped (operation : Option String) (s : Db) : Option Db :=
  match operation with
  | some operation =>
    if (s.operations.get? operation).isNone then s.refreshOperation rowHash operation else some s
  | none => some s

end Db

/-! ## Row changes -/

inductive Write (κ ρ : Type) where
  | insert (key : κ) (row : ρ)
  | update (key moved : κ) (row : ρ)
  | delete (key : κ)

inductive RowChange where
  | registered (table : String) (write : Write Nat Row)
  | claims (write : Write String Claim)
  | checkpointClaims (write : Write String Tombstone)
  | operations (write : Write String Operation)
  | replicaRecords (write : Write String Record)
  | insertRepaired (id : String)
  | deleteRepaired (id : String)
  /-- A new registry or schema version drops the triggers and seeds the sums again. -/
  | rebuild

namespace Db

def insertRegistered (s : Db) (table : Registered) (key : Nat) (row : Row) : Option Db :=
  if (s.registered.get? (table.name, key)).isSome then none
  else changeSql rowHash table.name none (some (table.rowSql row)) 1
    { s with registered := s.registered.insert (table.name, key) row }

def updateRegistered (s : Db) (table : Registered) (key moved : Nat) (row : Row) : Option Db :=
  match s.registered.get? (table.name, key) with
  | none => some s
  | some old =>
    if moved ≠ key ∧ (s.registered.get? (table.name, moved)).isSome then none
    else
      let s :=
        { s with
          registered := (s.registered.delete (table.name, key)).insert (table.name, moved) row }
      if table.rowSql old = table.rowSql row then some s
      else changeSql rowHash table.name (some (table.rowSql old)) (some (table.rowSql row)) 0 s

def deleteRegistered (s : Db) (table : Registered) (key : Nat) : Option Db :=
  match s.registered.get? (table.name, key) with
  | none => some s
  | some old => changeSql rowHash table.name (some (table.rowSql old)) none (-1)
      { s with registered := s.registered.delete (table.name, key) }

def writeRegistered (s : Db) (table : Registered) : Write Nat Row → Option Db
  | .insert key row => s.insertRegistered rowHash table key row
  | .update key moved row => s.updateRegistered rowHash table key moved row
  | .delete key => s.deleteRegistered rowHash table key

def insertClaim (s : Db) (id : String) (claim : Claim) : Option Db :=
  if (s.claims.get? id).isSome then none
  else
    let s := { s with claims := s.claims.insert id claim }
    if (s.checkpointClaims.get? id).isNone ∧ s.repaired id = false then
      s.changeSql rowHash claimSources none (some (sourceRow id claim.acceptedAt)) 1
    else some s

/-- The triggers compare the old row with the new one, `ivm_claim_source_update` without looking at
`origin`. They do not fire on an update that changes no column. -/
def updateClaim (s : Db) (id moved : String) (claim : Claim) : Option Db :=
  match s.claims.get? id with
  | none => some s
  | some old =>
    if moved ≠ id then none
    else
      let s := { s with claims := s.claims.update id fun _ => claim }
      if old.acceptedAt ≠ claim.acceptedAt ∧ s.repaired id = false then
        s.changeSql rowHash claimSources (some (sourceRow id old.acceptedAt))
          (some (sourceRow id claim.acceptedAt)) 0
      else some s

def deleteClaim (s : Db) (id : String) : Option Db :=
  match s.claims.get? id with
  | none => some s
  | some old =>
    let s := { s with claims := s.claims.delete id }
    if (s.checkpointClaims.get? id).isNone ∧ s.repaired id = false then
      s.changeSql rowHash claimSources (some (sourceRow id old.acceptedAt)) none (-1)
    else some s

def insertTombstone (s : Db) (id : String) (tombstone : Tombstone) : Option Db :=
  if (s.checkpointClaims.get? id).isSome then none
  else
    let s := { s with checkpointClaims := s.checkpointClaims.insert id tombstone }
    (if (s.claims.get? id).isNone ∧ s.repaired id = false then
      s.changeSql rowHash claimSources none (some (sourceRow id (toString tombstone.acceptedAt))) 1
    else some s).bind (refreshDropped rowHash tombstone.operation)

def updateTombstone (s : Db) (id moved : String) (tombstone : Tombstone) : Option Db :=
  match s.checkpointClaims.get? id with
  | none => some s
  | some old =>
    if moved ≠ id then none
    else
      let s := { s with checkpointClaims := s.checkpointClaims.update id fun _ => tombstone }
      (if (s.claims.get? id).isNone ∧ old.acceptedAt ≠ tombstone.acceptedAt ∧
        s.repaired id = false then
        s.changeSql rowHash claimSources (some (sourceRow id (toString old.acceptedAt)))
          (some (sourceRow id (toString tombstone.acceptedAt))) 0
      else some s).bind fun s => (s.refreshDropped rowHash old.operation).bind fun s =>
        if tombstone.operation ≠ old.operation then
          s.refreshDropped rowHash tombstone.operation else some s

def deleteTombstone (s : Db) (id : String) : Option Db :=
  match s.checkpointClaims.get? id with
  | none => some s
  | some old =>
    let s := { s with checkpointClaims := s.checkpointClaims.delete id }
    (if (s.claims.get? id).isNone ∧ s.repaired id = false then
      s.changeSql rowHash claimSources (some (sourceRow id (toString old.acceptedAt))) none (-1)
    else some s).bind (refreshDropped rowHash old.operation)

def insertOperation (s : Db) (id : String) (operation : Operation) : Option Db :=
  if (s.operations.get? id).isSome then none
  else refreshOperation rowHash id { s with operations := s.operations.insert id operation }

def updateOperation (s : Db) (id moved : String) (operation : Operation) : Option Db :=
  match s.operations.get? id with
  | none => some s
  | some old =>
    if moved ≠ id ∧ (s.operations.get? moved).isSome then none
    else
      let s := { s with operations := (s.operations.delete id).insert moved operation }
      if moved = id ∧ old = operation then some s
      else (s.refreshOperation rowHash id).bind fun s =>
        if moved ≠ id then s.refreshOperation rowHash moved else some s

def deleteOperation (s : Db) (id : String) : Option Db :=
  match s.operations.get? id with
  | none => some s
  | some _ => refreshOperation rowHash id { s with operations := s.operations.delete id }

def insertRepaired (s : Db) (id : String) : Option Db :=
  if s.repaired id then none
  else
    let s := { s with repairedClaims := s.repairedClaims.insert id () }
    match s.sourceOf id with
    | none => some s
    | some row =>
      (s.changeSql rowHash claimSources (some row) none (-1)).bind
        (refreshIfAny rowHash (s.operationOf id))

def deleteRepaired (s : Db) (id : String) : Option Db :=
  if s.repaired id = false then some s
  else
    let s := { s with repairedClaims := s.repairedClaims.delete id }
    match s.sourceOf id with
    | none => some s
    | some row =>
      (s.changeSql rowHash claimSources none (some row) 1).bind
        (refreshIfAny rowHash (s.operationOf id))

/-- The `repair_record` triggers insert or ignore. -/
def repairRecord (s : Db) (record : Record) : Option Db :=
  match record with
  | ⟨.repaired, some id⟩ => if s.repaired id then some s else s.insertRepaired rowHash id
  | _ => some s

def writeRecord (s : Db) : Write String Record → Option Db
  | .insert key record =>
    if (s.replicaRecords.get? key).isSome then none
    else repairRecord rowHash { s with replicaRecords := s.replicaRecords.insert key record } record
  | .update key moved record =>
    match s.replicaRecords.get? key with
    | none => some s
    | some _ =>
      if moved ≠ key ∧ (s.replicaRecords.get? moved).isSome then none
      else repairRecord rowHash
        { s with replicaRecords := (s.replicaRecords.delete key).insert moved record } record
  | .delete key => some { s with replicaRecords := s.replicaRecords.delete key }

def recallRepaired (s : Db) : Tables :=
  { s.toTables with
    repairedClaims := s.replicaRecords.rows.foldl (fun (repaired : Table String Unit) r =>
    match r.2 with
    | ⟨.repaired, some id⟩ => repaired.insert id ()
    | _ => repaired) s.repairedClaims }

end Db

/-- `initialize`: each table is seeded in the transaction that creates the triggers. -/
def seeded (s : Tables) : Db :=
  { s with
    digests :=
      (∅ : Table String Digest).putAll
        ((claimSources, scan rowHash claimSources sourceColumns s.sourceQuery) ::
      (operationsTable, scan rowHash operationsTable operationColumns s.operationRows) ::
      registry.tables.map fun (table : Registered) =>
        (table.name, scan rowHash table.name table.columns (s.tableRows table)))
    operationCache :=
      (∅ : Table String Row).putAll (s.operations.rows.map (fun r => (r.1, r.2.row r.1)) ++
      s.dropped.filterMap fun operation =>
        (s.operationFallback operation).map fun row => (operation, row)) }

namespace Db

def initializeDigests (s : Db) : Db := seeded registry rowHash s.recallRepaired

def change (s : Db) : RowChange → Option Db
  | .registered name write =>
    (registry.tables.find? (·.name = name)).bind fun table => s.writeRegistered rowHash table write
  | .claims (.insert id claim) => s.insertClaim rowHash id claim
  | .claims (.update id moved claim) => s.updateClaim rowHash id moved claim
  | .claims (.delete id) => s.deleteClaim rowHash id
  | .checkpointClaims (.insert id tombstone) => s.insertTombstone rowHash id tombstone
  | .checkpointClaims (.update id moved tombstone) => s.updateTombstone rowHash id moved tombstone
  | .checkpointClaims (.delete id) => s.deleteTombstone rowHash id
  | .operations (.insert id operation) => s.insertOperation rowHash id operation
  | .operations (.update id moved operation) => s.updateOperation rowHash id moved operation
  | .operations (.delete id) => s.deleteOperation rowHash id
  | .replicaRecords write => s.writeRecord rowHash write
  | .insertRepaired id => s.insertRepaired rowHash id
  | .deleteRepaired id => s.deleteRepaired rowHash id
  | .rebuild => some (s.initializeDigests registry rowHash)

end Db

def digests : Machine Db RowChange where
  step s change := s.change registry rowHash change

/-! ## Statements -/

inductive Place where
  | registered (table : String) (key : Nat)
  | claim (id : String)
  | checkpointClaim (id : String)
  | operation (id : String)
  | replicaRecord (key : String)
  | repairedClaim (id : String)

def Place.delete : Place → RowChange
  | registered table key => .registered table (.delete key)
  | claim id => .claims (.delete id)
  | checkpointClaim id => .checkpointClaims (.delete id)
  | operation id => .operations (.delete id)
  | replicaRecord key => .replicaRecords (.delete key)
  | repairedClaim id => .deleteRepaired id

/-- An insert or update, with the rows it displaces when it is `OR REPLACE`, or a delete. -/
structure Statement where
  displaced : List Place := []
  change : RowChange

/-- With `recursive_triggers`, each displaced row is deleted with its triggers first. -/
def Statement.changes (statement : Statement) : List RowChange :=
  statement.displaced.map Place.delete ++ [statement.change]

/-! ## Reports -/

section
variable (tableDigest : String → Digest → String)

def tables (s : Db) (name : String) : Option String := (s.digests.get? name).map (tableDigest name)

def logicalRows (s : Tables) (name : String) : Option (List String × List Row) :=
  if name = claimSources then some (sourceColumns, s.sourceQuery)
  else if name = operationsTable then some (operationColumns, s.operationRows)
  else (registry.tables.find? (·.name = name)).map fun table => (table.columns, s.tableRows table)

def oracle (s : Tables) (name : String) : Option String :=
  (logicalRows registry s name).map fun rows => tableDigest name (scan rowHash name rows.1 rows.2)

end
end

end Smalltalk.Projection
