import Smalltalk.Lib.Machine
import Smalltalk.Fleet.Membership
import Smalltalk.Join.Handshake

/-!
# Redeeming invites at one node

A request reads the invite's row on a reader, decides on what it read, and then takes the
writer for each change: the count of failures, the binding of the invite, the two claims and
the note of the admission. Between any two of these another request may run, a claim or an
envelope may arrive, or the process may stop.
-/

namespace Smalltalk.Redemption

open Join (RequestFault FleetRedemption FLEET_INVITE_FAILURE_LIMIT newInvite)

structure Request where
  invite : String
  name : String
  mode : String
  memberKey : String
  wroteAsName : Bool
  migrate : Bool
  proof : Nat
  deriving DecidableEq

abbrev Invite := Join.Invite String

structure Node where
  origin : String
  anchor : Option String
  memberKey : String
  verifyRequest : Request → Nat → Except RequestFault Unit

/-! ## The name rules -/

/-- The largest end among the incarnations of an ended name, or the high water of a removed legacy
peer. -/
def endedEnd (membership : Membership) (name : String) : Option Nat :=
  match membership.state name with
  | .ended _ => ((membership.incarnations.getD name []).filterMap (·.end)).max?
  | .legacyRemoved highWater => some highWater
  | _ => none

def claimed (claims : List FleetClaim) (name : String) : Bool :=
  claims.any (·.subject = "host/" ++ name)

/-- A name with history can be joined again only after its incarnations ended, by a store that
never wrote as it or by a migration. -/
def fleetNameFloor (membership : Membership) (claims : List FleetClaim) (held : Option Nat)
    (name : String) (wroteAsName migrate : Bool) : Except String (Option Nat) :=
  match membership.state name with
  | .current _ => .error "name-in-use"
  | .conflicted _ => .error "name-in-use"
  | _ =>
    let ended := endedEnd membership name
    if migrate then if ended.isSome then .error "name-was-removed" else .ok none
    else if held.isNone && !claimed claims name then .ok none
    else match ended with
      | none => .error "name-has-unremoved-history"
      | some ended =>
        if wroteAsName then .error "store-already-wrote-as-name"
        else .ok (some (max (held.getD 0) ended))

/-! ## The state of the node -/

structure AdmissionInput where
  name : String
  memberKey : String
  mode : String
  migrate : Bool
  writerFloor : Option Nat
  createdBy : Option String
  deriving DecidableEq

structure Admission where
  invite : String
  input : AdmissionInput
  claims : List FleetClaim
  held : Option Nat

inductive Phase where
  | arrived
  | opened
  | failing (failures : Nat)
  | failed (failures : Nat)
  | checked (token : Nat) (createdBy : Option String)
  | floored (token : Nat) (createdBy : Option String) (floor : Option Nat)
  | admitting (token : Nat) (createdBy : Option String) (floor : Option Nat) (first : Bool)
  | redeemed (token : Nat) (createdBy : Option String) (floor : Option Nat) (first : Bool)
  | appended (token : Nat) (floor : Option Nat) (claim : String) (first : Bool)
  | answered (answer : FleetRedemption)
  | aborted
  deriving DecidableEq

structure Thread where
  request : Request
  phase : Phase
  deriving DecidableEq

structure State where
  invites : Table String Invite
  redeemed : Table String (String × String)
  admitted : Table String (AdmissionInput × String)
  claims : List FleetClaim
  held : Table String Nat
  threads : List Thread
  admissions : List Admission

def State.initial : State := ⟨∅, ∅, ∅, [], ∅, [], []⟩

def State.membership (node : Node) (s : State) : Membership := Membership.fold node.anchor s.claims

/-! ## One request -/

def decideRow (node : Node) (request : Request) (token : Nat) (row : Invite) : Phase :=
  match node.verifyRequest request token with
  | .error .proof => .failing (row.failures + 1)
  | .error _ => .answered (.refused "request")
  | .ok () =>
    if request.migrate ≠ row.migrate then .answered (.refused "kind")
    else if row.name.any (· ≠ request.name) || !Join.validFleetNodeName (Join.text request.name) ||
        !(request.mode = "listening" || request.mode = "dial-out") then .answered (.refused "name")
    else match row.boundKey with
      | none => .checked token row.createdBy
      | some bound =>
        if bound ≠ request.memberKey || row.boundName ≠ some request.name then
          .answered (.refused "bound-to-another-key")
        else match row.admittedClaim with
          | some claim => .answered (.admitted token row.writerFloor claim false)
          | none => .admitting token row.createdBy row.writerFloor false

def admissionInput (request : Request) (createdBy : Option String) (floor : Option Nat) :
    AdmissionInput :=
  ⟨request.name, request.memberKey, request.mode, request.migrate, floor, createdBy⟩

structure Written where
  id : String
  sequence : Nat

def admissionClaim (node : Node) (invite : String) (input : AdmissionInput) (written : Written) :
    FleetClaim where
  id := written.id
  kind := memberAdmitted
  subject := "host/" ++ input.name
  writer := node.origin
  sequence := written.sequence
  signers := ∅
  fields := .ofList <|
    [("member_key", Value.string input.memberKey),
      ("via", .string (if input.migrate then "migration" else "invite")),
      ("sponsor", .string ("host/" ++ node.origin)),
      ("invite", .string ("fleet-invite/" ++ invite)), ("mode", .string input.mode)] ++
    (input.writerFloor.map fun floor => ("writer_floor", Value.number (.posInt floor))).toList ++
    (input.createdBy.map fun person => ("admitted_by", Value.string person)).toList

/-- A new admission claim, and its place in the history. -/
def State.append (node : Node) (s : State) (invite : String) (input : AdmissionInput)
    (written : Written) : State :=
  { s with
    admitted := s.admitted.insert invite (input, written.id)
    claims := s.claims ++ [admissionClaim node invite input written]
    admissions := ⟨invite, input, s.claims, s.held.get? input.name⟩ :: s.admissions }

def State.advance (node : Node) (s : State) (written : Written) (t : Thread) : State × Phase :=
  let id := t.request.invite
  match t.phase with
  | .arrived => (s, if s.invites.rows.any (·.2.token.isSome) then .opened else .answered .closed)
  | .opened =>
    match s.invites.get? id with
    | none => (s, .answered (.refused "unknown-invite"))
    | some row =>
      match row.token with
      | none => (s, .answered (.refused "unknown-invite"))
      | some token => (s, decideRow node t.request token row)
  | .failing failures =>
    ({ s with invites := s.invites.update id ({ · with failures }) }, .failed failures)
  | .failed failures =>
    (if failures ≥ FLEET_INVITE_FAILURE_LIMIT then
      { s with invites := s.invites.update id Join.Invite.erase } else s,
      .answered (.refused "proof"))
  | .checked token createdBy =>
    match fleetNameFloor (s.membership node) s.claims (s.held.get? t.request.name) t.request.name
        t.request.wroteAsName t.request.migrate with
    | .error reason => (s, .answered (.refused reason))
    | .ok floor => (s, .floored token createdBy floor)
  | .floored token createdBy floor =>
    if (s.invites.get? id).any Join.Invite.unbound then
      ({ s with
        invites :=
          s.invites.update id (Join.Invite.bind t.request.memberKey t.request.name floor) },
          .admitting token createdBy floor true)
    else (s, .answered (.refused "bound-to-another-key"))
  | .admitting token createdBy floor first =>
    match s.redeemed.get? id with
    | none =>
      ({ s with redeemed := s.redeemed.insert id (t.request.name, t.request.memberKey) },
        .redeemed token createdBy floor first)
    | some pair =>
      (s, if pair = (t.request.name, t.request.memberKey) then .redeemed token createdBy floor first
        else .aborted)
  | .redeemed token createdBy floor first =>
    let input := admissionInput t.request createdBy floor
    match s.admitted.get? id with
    | none => (s.append node id input written, .appended token floor written.id first)
    | some (stored, claim) =>
      (s, if stored = input then .appended token floor claim first else .aborted)
  | .appended token floor claim first =>
    ({ s with invites := s.invites.update id (Join.Invite.admits claim) },
      .answered (.admitted token floor claim first))
  | .answered _ => (s, t.phase)
  | .aborted => (s, t.phase)

inductive Label where
  | create (id : String) (token : Nat) (name : Option String) (migrate : Bool)
      (createdBy : Option String)
  | sweep (id : String)
  | request (request : Request)
  | advance (i : Nat) (written : Written)
  | abort (i : Nat)
  | crash
  | sealClaims
  | claim (claim : FleetClaim)
  | envelope (writer : String) (sequence : Nat)

def Phase.crashed : Phase → Phase
  | .answered answer => .answered answer
  | _ => .aborted

def sealClaims (node : Node) (claims : List FleetClaim) : List FleetClaim :=
  claims.map fun c => if c.writer = node.origin then
    { c with signers := insert node.memberKey c.signers } else c

/-- An expired or revoked invite loses its token, and claims and envelopes arrive
from elsewhere. The node seals its claims before it folds them and at any other
time. -/
def machine (node : Node) : Machine State Label where
  step s
    | .create id token name migrate createdBy =>
      some { s with invites := s.invites.insert id (newInvite token name migrate createdBy) }
    | .sweep id => some { s with invites := s.invites.update id Join.Invite.erase }
    | .request request => some { s with threads := s.threads ++ [⟨request, .arrived⟩] }
    | .advance i written =>
      (s.threads[i]?).map fun t =>
        let next := s.advance node written t
        { next.1 with threads := s.threads.set i { t with phase := next.2 } }
    | .abort i =>
      (s.threads[i]?).map fun t =>
        { s with threads := s.threads.set i { t with phase := .aborted } }
    | .crash =>
      some { s with threads := s.threads.map fun t => { t with phase := t.phase.crashed } }
    | .sealClaims => some { s with claims := sealClaims node s.claims }
    | .claim claim => some { s with claims := s.claims ++ [claim] }
    | .envelope writer sequence =>
      some { s with held := s.held.put writer (max sequence ((s.held.get? writer).getD 0)) }

/-! ## What a step can do -/

section
variable (node : Node) (s : State) (written : Written) (r : Request)

inductive Advances : Phase → State → Phase → Prop
  | openInvites (h : s.invites.rows.any (·.2.token.isSome) = true) : Advances .arrived s .opened
  | closed : Advances .arrived s (.answered .closed)
  | unknown : Advances .opened s (.answered (.refused "unknown-invite"))
  | read (row : Invite) (token : Nat) (hrow : s.invites.get? r.invite = some row)
      (htoken : row.token = some token) :
      Advances .opened s (decideRow node r token row)
  | count (failures : Nat) :
      Advances (.failing failures)
        { s with invites := s.invites.update r.invite ({ · with failures }) } (.failed failures)
  | revoke (failures : Nat) (h : failures ≥ FLEET_INVITE_FAILURE_LIMIT) :
      Advances (.failed failures) { s with invites := s.invites.update r.invite Join.Invite.erase }
        (.answered (.refused "proof"))
  | refuse (failures : Nat) (h : failures < FLEET_INVITE_FAILURE_LIMIT) :
      Advances (.failed failures) s (.answered (.refused "proof"))
  | floor (token : Nat) (createdBy : Option String) (floor : Option Nat)
      (h : fleetNameFloor (s.membership node) s.claims
        (s.held.get? r.name) r.name r.wroteAsName r.migrate = .ok floor) :
      Advances (.checked token createdBy) s (.floored token createdBy floor)
  | noFloor (token : Nat) (createdBy : Option String) (reason : String)
      (h : fleetNameFloor (s.membership node) s.claims
        (s.held.get? r.name) r.name r.wroteAsName r.migrate = .error reason) :
      Advances (.checked token createdBy) s (.answered (.refused reason))
  | bind (token : Nat) (createdBy : Option String) (floor : Option Nat)
      (h : (s.invites.get? r.invite).any Join.Invite.unbound = true) :
      Advances (.floored token createdBy floor)
        { s with invites := s.invites.update r.invite (Join.Invite.bind r.memberKey r.name floor) }
        (.admitting token createdBy floor true)
  | late (token : Nat) (createdBy : Option String) (floor : Option Nat) :
      Advances (.floored token createdBy floor) s (.answered (.refused "bound-to-another-key"))
  | redeem (token : Nat) (createdBy : Option String) (floor : Option Nat) (first : Bool) :
      Advances (.admitting token createdBy floor first)
        { s with redeemed := s.redeemed.insert r.invite (r.name, r.memberKey) }
          (.redeemed token createdBy floor first)
  | redeemAgain (token : Nat) (createdBy : Option String) (floor : Option Nat) (first : Bool) :
      Advances (.admitting token createdBy floor first) s (.redeemed token createdBy floor first)
  | redeemMismatch (token : Nat) (createdBy : Option String) (floor : Option Nat) (first : Bool) :
      Advances (.admitting token createdBy floor first) s .aborted
  | append (token : Nat) (createdBy : Option String) (floor : Option Nat) (first : Bool)
      (h : s.admitted.get? r.invite = none) :
      Advances (.redeemed token createdBy floor first)
        (s.append node r.invite (admissionInput r createdBy floor) written)
          (.appended token floor written.id first)
  | appendAgain (token : Nat) (createdBy : Option String) (floor : Option Nat) (first : Bool)
      (claim : String)
      (h : s.admitted.get? r.invite = some (admissionInput r createdBy floor, claim)) :
      Advances (.redeemed token createdBy floor first) s (.appended token floor claim first)
  | appendMismatch (token : Nat) (createdBy : Option String) (floor : Option Nat) (first : Bool) :
      Advances (.redeemed token createdBy floor first) s .aborted
  | note (token : Nat) (floor : Option Nat) (claim : String) (first : Bool) :
      Advances (.appended token floor claim first)
        { s with invites := s.invites.update r.invite (Join.Invite.admits claim) }
        (.answered (.admitted token floor claim first))
  | answered (answer : FleetRedemption) : Advances (.answered answer) s (.answered answer)
  | aborted : Advances .aborted s .aborted

end

theorem advance_cases (node : Node) (s : State) (written : Written) (r : Request) (p : Phase) :
    Advances node s written r p (s.advance node written ⟨r, p⟩).1
      (s.advance node written ⟨r, p⟩).2 := by
  cases p with
  | arrived =>
    simp only [State.advance]
    split
    next h => exact .openInvites h
    next => exact .closed
  | opened =>
    simp only [State.advance]
    split
    next => exact .unknown
    next row hr =>
      split
      next => exact .unknown
      next t ht => exact .read row t hr ht
  | failing failures => exact .count failures
  | failed failures =>
    simp only [State.advance]
    split
    next h => exact .revoke failures h
    next h => exact .refuse failures (Nat.lt_of_not_le h)
  | checked t createdBy =>
    simp only [State.advance]
    split
    next reason h => exact .noFloor t createdBy reason h
    next f h => exact .floor t createdBy f h
  | floored t createdBy f =>
    simp only [State.advance]
    split
    next h => exact .bind t createdBy f h
    next => exact .late t createdBy f
  | admitting t createdBy f first =>
    simp only [State.advance]
    split
    next => exact .redeem t createdBy f first
    next =>
      split
      next => exact .redeemAgain t createdBy f first
      next => exact .redeemMismatch t createdBy f first
  | redeemed t createdBy f first =>
    simp only [State.advance]
    split
    next h => exact .append t createdBy f first h
    next stored claim h =>
      split
      next heq => exact .appendAgain t createdBy f first claim (heq ▸ h)
      next => exact .appendMismatch t createdBy f first
  | appended t f claim first => exact .note t f claim first
  | answered answer => exact .answered answer
  | aborted => exact .aborted

end Smalltalk.Redemption
