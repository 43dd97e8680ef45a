import Smalltalk.Retention.Rules

/-!
# Receipts of owned sets

A set of agents, schedules and missions is published as a whole, and each publication
leaves a receipt that lists the members and the retired subjects. The receipt with the highest
source sequence is selected, and the selection records what blocks it.
-/

namespace Smalltalk.OwnedSets

open Retention (pointer)

structure Source where
  repository : String
  ref : String
  sha : String
  sequence : Nat
  deriving DecidableEq

structure Member where
  manualRollout : Bool := false
  oneShot : Bool := false
  kind : String
  claim : String
  revision : String
  deriving DecidableEq

structure Revision where
  rollout : Option String := none
  previous : Option String
  source : Source
  bundleDigest : String
  members : Table String Member
  retired : Table String Member
  adoptions : List (String × List String) := []

structure View where
  id : String
  revision : String
  claim : String
  receipt : Revision
  blockers : List String := []

structure MemberSpec where
  host : String
  driver : Option String := none
  oneShot : Bool := false
  /-- `LaunchSpec::Argv`. -/
  argv : Bool := true
  rest : String := ""
  deriving DecidableEq

structure DesiredSubject where
  subject : String
  kind : String
  desired : Value := .null
  member : Option MemberSpec := none
  ownerRun : Option String := none
  ownerStep : Option String := none

structure Forms where
  decodeDesired : Value → Option DesiredSubject
  decodeRevision : Value → Option Revision
  desiredRevision : DesiredSubject → String
  revisionHash : Revision → String
  /-- `graph::schedule_spec(…).stopped`. -/
  scheduleStopped : Value → Option Bool
  stopDeclaration : String → Except Error DesiredSubject
  /-- `rollout::manual`. -/
  manual : DesiredSubject → Bool

def revisedKind : String := "owned-set.revised"

/-! ## Claims -/

section
variable (db : Db)

def repaired (id : String) : Bool :=
  db.ledger.records.rows.any fun r => r.2.claimId = some id ∧ r.2.state = .repaired

def claim (id : String) : Option ClaimRow := (db.claims.get? id).filter fun _ => ¬ repaired db id

/-- The canonical order of claims. -/
def canonicalKey (id : String) (row : ClaimRow) : Nat ×ₗ String ×ₗ Nat ×ₗ String ×ₗ Nat ×ₗ String :=
  let batch := db.batches.get? row.batchId
  toLex (row.acceptedAt, toLex
    ((batch.map (·.origin)).getD "", toLex ((batch.map (·.replicaSequence)).getD 0,
    toLex (row.batchId, toLex (claimPosition db id, id)))))

end

section
variable (forms : Forms) (db : Db)

/-- The receipt a claim carries, if its revision is the receipt's own hash. -/
def viewOf (id : String) (row : ClaimRow) : Option View :=
  ((pointer row.body ["fields", "body"]).bind forms.decodeRevision).bind fun receipt =>
    if (pointer row.body ["fields", "revision"]).bind Value.asStr =
      some (forms.revisionHash receipt) then
      some { id := row.subject, revision := forms.revisionHash receipt, claim := id, receipt }
    else none

def rows : List View :=
  db.claims.rows.filterMap fun r =>
    if r.2.kind = revisedKind ∧ ¬ repaired db r.1 then viewOf forms r.1 r.2 else none

end

def reference (view : View) : String := view.id ++ "@" ++ view.revision

def View.key (view : View) : Nat ×ₗ String ×ₗ String :=
  toLex (view.receipt.source.sequence, toLex (view.revision, view.claim))

def View.names (view : View) (subject : String) : Bool :=
  (view.receipt.members.get? subject).isSome ∨ (view.receipt.retired.get? subject).isSome

/-- Every member any receipt of the set named, as the receipt with the highest sequence has it. -/
def knownMembers (views : List View) (set : String) : Table String Member :=
  ((views.filter (·.id = set)).insertionSort (fun a b => a.key ≤ b.key)).foldl
    (fun members view => (members.putAll view.receipt.members.rows).putAll
      view.receipt.retired.rows) ∅

def ownersOf (views : List View) (subject : String) : List String :=
  (OrdSet.ofList ((views.filter (·.names subject)).map (·.id))).toList

def owner (views : List View) (subject : String) : Except Error (Option String) :=
  if 1 < (ownersOf views subject).length then
    .error ⟨"owned-set-conflict", subject ++ " has conflicting set owners"⟩
  else .ok (ownersOf views subject).head?

/-! ## Selection -/

def better (best : Option View) (view : View) : Option View :=
  if best.all fun old => decide (old.key < view.key) then some view else best

/-- The winner of a set, among all its receipts and not just the leaves. -/
def winner (views : List View) (set : String) : Option View :=
  (views.filter (·.id = set)).foldl better none

section
variable (views : List View)

/-- The walk along `previous`. Sequences fall along it, so more fuel than the view's sequence does
not run out. -/
def lineageBlockers (set : String) : Nat → View → List String → List String
  | 0, _, _ => []
  | fuel + 1, cursor, seen =>
    match cursor.receipt.previous with
    | none => []
    | some previous =>
      if previous ∈ seen then ["cyclic previous revision"]
      else
        match views.reverse.find? (reference · = previous) with
        | none => ["missing previous revision " ++ previous]
        | some parent =>
          if parent.id ≠ set ∨ parent.receipt.source.repository ≠ cursor.receipt.source.repository ∨
              parent.receipt.source.ref ≠ cursor.receipt.source.ref ∨
              cursor.receipt.source.sequence ≤ parent.receipt.source.sequence then
            ["invalid source lineage"]
          else lineageBlockers set fuel parent (previous :: seen)

/-- Other receipts of the set with its sequence, repository or ref. -/
def conflictBlockers (view : View) : List String :=
  views.flatMap fun other =>
    (if other.id = view.id ∧ other.receipt.source.sequence = view.receipt.source.sequence ∧
        other.revision ≠ view.revision then
      ["conflicting source sequence " ++ toString view.receipt.source.sequence]
    else []) ++
    if other.id = view.id ∧ (other.receipt.source.repository ≠ view.receipt.source.repository ∨
        other.receipt.source.ref ≠ view.receipt.source.ref) then
      ["conflicting source binding"]
    else []

variable (forms : Forms) (db : Db)

/-- Whether a claim is what a member of the receipt says it is. -/
def validReference (view : View) (subject : String) (member : Member) (row : ClaimRow) : Bool :=
  let retired : Bool := (view.receipt.retired.get? subject).isSome
  row.subject = subject ∧ if member.kind = "mission" then
      row.kind = "mission.published" ∧
        (pointer row.body ["revision"]).bind Value.asStr = some member.revision ∧
        (retired → (pointer row.body ["state"]).bind Value.asStr = some "retired")
    else
      row.kind = "intent.desired" ∧ (forms.decodeDesired row.body).any fun desired =>
        forms.desiredRevision desired = member.revision ∧ desired.subject = subject ∧
          desired.ownerRun = none ∧ desired.ownerStep = none ∧
          if retired ∧ member.kind = "schedule" then
            desired.kind = "schedule" ∧ forms.scheduleStopped desired.desired = some true
          else desired.kind = if retired then "stop" else member.kind

def memberBlockers (view : View) (subject : String) (member : Member) : List String :=
  (if 1 < (ownersOf views subject).length then ["ownership conflict: " ++ subject] else []) ++
    match claim db member.claim with
    | none => ["missing member reference " ++ member.claim]
    | some row =>
      if validReference forms view subject member row then []
      else ["invalid member reference " ++ subject]

def blockersOf (view : View) : List String :=
  (OrdSet.ofList (lineageBlockers views view.id (view.receipt.source.sequence + 1) view [] ++
    conflictBlockers views view ++
      (view.receipt.members.rows ++ view.receipt.retired.rows).flatMap fun r =>
      memberBlockers views forms db view r.1 r.2)).toList

end

section
variable (forms : Forms) (db : Db)

def selected : List View :=
  let views := rows forms db
  (OrdSet.ofList (views.map (·.id))).toList.filterMap fun set =>
    (winner views set).map fun view => { view with blockers := blockersOf views forms db view }

/-! ## Effective members -/

def manualMember (member : Member) : Bool :=
  member.manualRollout ∨
    ((claim db member.claim).bind fun row => forms.decodeDesired row.body).any forms.manual

/-- The stops a runtime's daemon wrote for this member. -/
def runtimeStops (set subject host member : String) : List (String × ClaimRow) :=
  db.claims.rows.filter fun r =>
    r.2.subject = subject ∧ r.2.kind = "intent.desired" ∧ r.2.actor = some "daemon/runtime" ∧
      r.2.origin = host ∧ (pointer r.2.body ["owned_set"]).bind Value.asStr = some set ∧
      (pointer r.2.body ["kind"]).bind Value.asStr = some "stop" ∧ r.2.predecessors = [member] ∧
      ¬ repaired db r.1

/-- A one-shot seat may be retired by its runtime's daemon without a publication. -/
def oneShotRetirement (set subject : String) (member : Member) : Except Error (Option String) :=
  match claim db member.claim with
  | none => .ok none
  | some declaration =>
    match forms.decodeDesired declaration.body with
    | none => .error ⟨"internal", "invalid declaration"⟩
    | some desired =>
      match desired.member.filter (·.oneShot) with
      | none => .ok none
      | some launch =>
        .ok (((runtimeStops db set subject launch.host member.claim).insertionSort
          fun a b => canonicalKey db b.1 b.2 ≤ canonicalKey db a.1 a.2).head?.map (·.1))

structure Effective where
  member : Member
  retired : Bool
  implicit : Bool

/-- A subject only losing branches named is stopped by the winning set claim. -/
def implicitMember (view : View) (subject : String) (member : Member) : Except Error Effective :=
  if member.kind = "mission" then .ok { member, retired := true, implicit := true }
  else do
    let stop ← forms.stopDeclaration subject
    return { member := { manualRollout := manualMember forms db member, oneShot := false
                         revision := forms.desiredRevision stop, claim := view.claim, kind :=
                           member.kind }
             retired := true, implicit := true }

/-- A listed member, unless its runtime retired it. -/
def listedMember (view : View) (subject : String) (member : Member) : Except Error Effective := do
  let runtime :=
    if member.oneShot then oneShotRetirement forms db view.id subject member else .ok none
  match ← runtime with
  | some stop =>
    let declaration ← forms.stopDeclaration subject
    return { member := { member with claim := stop, revision := forms.desiredRevision declaration }
             retired := true, implicit := false }
  | none => return { member, retired := false, implicit := false }

def retiredMember (member : Member) : Effective := { member, retired := true, implicit := false }

def effectiveMembers (view : View) : Except Error (Table String Effective) := do
  let losing :=
    (sortByKey (knownMembers (rows forms db) view.id).rows).filter fun r => ¬ view.names r.1
  let implicit ← losing.mapM fun r => (implicitMember forms db view r.1 r.2).map (r.1, ·)
  let listed ← (sortByKey view.receipt.members.rows).mapM
    fun r => (listedMember forms db view r.1 r.2).map (r.1, ·)
  let retired := view.receipt.retired.rows.map fun r => (r.1, retiredMember r.2)
  return (((∅ : Table String Effective).putAll implicit).putAll listed).putAll retired

end

end Smalltalk.OwnedSets
