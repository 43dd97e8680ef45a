import Mathlib
import Smalltalk.Lib.Settle

/-!
# Fleet membership

The membership fold turns `fleet.*` claims into incarnations and writer windows. A claim
counts when its envelope is signed by a member whose window holds the envelope's sequence, or,
for the anchor's own admission, by the pinned anchor key. Which members exist depends on which
claims count, so the fold iterates from the anchor.

`u64` values are natural numbers with saturating arithmetic.
-/

namespace Smalltalk

/-! ## JSON values -/

inductive Number where
  | posInt (n : Nat)
  | negInt (n : Int)
  | float (bits : UInt64)

inductive Value where
  | null
  | bool (b : Bool)
  | number (n : Number)
  | string (s : String)
  | array (items : List Value)
  | object (fields : List (String × Value))

namespace Value

def asStr : Value → Option String
  | string s => some s
  | _ => none

def asU64 : Value → Option Nat
  | number (.posInt n) => some n
  | _ => none

def asArray : Value → Option (List Value)
  | array items => some items
  | _ => none

end Value

def u64Max : Nat := 2 ^ 64 - 1

def i64Max : Nat := 2 ^ 63 - 1

def saturatingAdd (a b : Nat) : Nat := min (a + b) u64Max

def saturatingMul (a b : Nat) : Nat := min (a * b) u64Max

/-! ## Claims and incarnations -/

def memberAdmitted : String := "fleet.member-admitted"
def memberEndpoints : String := "fleet.member-endpoints"
def memberLeft : String := "fleet.member-left"
def memberRemoved : String := "fleet.member-removed"

/-- One admitted `fleet.*` claim with its envelope's writer, sequence and the member keys that have
a verified signature on it. -/
structure FleetClaim where
  id : String
  kind : String
  subject : String
  fields : Std.ExtTreeMap String Value compare
  writer : String
  sequence : Nat
  signers : Finset String

namespace FleetClaim

def name (claim : FleetClaim) : Option String :=
  (claim.subject.dropPrefix? "host/").map (·.toString)

def text (claim : FleetClaim) (field : String) : Option String :=
  claim.fields[field]?.bind Value.asStr

def number (claim : FleetClaim) (field : String) : Option Nat :=
  claim.fields[field]?.bind Value.asU64

def admission (id name key via writer : String) (sequence : Nat) (signer : String) : FleetClaim :=
  { id, kind := memberAdmitted, subject := "host/" ++ name, writer, sequence, signers := {signer}
    fields := .ofList [("member_key", Value.string key), ("via", Value.string via)] }

def removal (id name key : String) (highWater : Nat) (writer : String) (sequence : Nat)
    (signer : String) : FleetClaim :=
  { id, kind := memberRemoved, subject := "host/" ++ name, writer, sequence, signers := {signer}
    fields :=
      .ofList [("member_key", Value.string key), ("high_water", Value.number (.posInt highWater))] }

/-- One past the admission's writer floor. -/
def start (claim : FleetClaim) : Nat :=
  saturatingAdd ((claim.number "writer_floor").getD 0) 1

end FleetClaim

/-- The anchor `a` admits `b` and `r`, and `b` removes `r` above its fifth envelope. -/
def removedMember : List FleetClaim :=
  [ .admission "0a" "a" "ka" "anchor" "a" 1 "ka", .admission "1b" "b" "kb" "invite" "a" 2 "ka",
    .admission "1r" "r" "kr" "invite" "a" 3 "ka", .removal "2b" "r" "kr" 5 "b" 9 "kb" ]

inductive Ended where
  | left
  | removed
  deriving DecidableEq

/-- One member key under one node name, and the window of that writer's sequences it signs. -/
structure Incarnation where
  name : String
  memberKey : String
  via : String
  mode : String
  sponsor : Option String
  admittedClaim : String
  start : Nat
  «end» : Option Nat := none
  ended : Option Ended := none
  removedBy : Option String := none
  removalReason : Option String := none
  endpoints : List Value := []
  endpointsSequence : Option Nat := none

namespace Incarnation

def holds (incarnation : Incarnation) (sequence : Nat) : Bool :=
  decide (incarnation.start ≤ sequence) && incarnation.end.all (sequence ≤ ·)

def admitted (claim : FleetClaim) (name key : String) : Incarnation where
  name := name
  memberKey := key
  via := (claim.text "via").getD ""
  mode := (claim.text "mode").getD "listening"
  sponsor := claim.text "sponsor"
  admittedClaim := claim.id
  start := claim.start

/-- A removal or a leave at `highWater`: the latest end wins, and the first
removal says who and why. -/
def close (incarnation : Incarnation) (claim : FleetClaim) (highWater : Nat) : Incarnation :=
  let ended := if claim.kind = memberLeft then Ended.left else Ended.removed
  let incarnation := { incarnation with
    «end» := some (incarnation.end.elim highWater (max · highWater)) }
  if incarnation.ended = some .removed then incarnation
  else if ended = .removed then
    { incarnation with
      ended := some ended
      removedBy := claim.text "removed_by"
      removalReason := claim.text "reason" }
  else { incarnation with ended := some ended }

def listen (incarnation : Incarnation) (claim : FleetClaim) : Incarnation :=
  if incarnation.endpointsSequence.all (· < claim.sequence) then
    { incarnation with
      endpointsSequence := some claim.sequence
      endpoints := (claim.fields["endpoints"]?.bind Value.asArray).getD []
      mode := (claim.text "mode").getD incarnation.mode }
  else incarnation

end Incarnation

def updateKey (key : String) (f : Incarnation → Incarnation) : List Incarnation → List Incarnation
  | [] => []
  | i :: all => if i.memberKey = key then f i :: all else i :: updateKey key f all

inductive Window where
  | legacy
  | keyed (keys : Finset String)
  | fenced
  deriving DecidableEq

inductive MemberState where
  | current (incarnation : Incarnation)
  | conflicted (incarnations : List Incarnation)
  | ended (incarnation : Incarnation)
  | legacyRemoved (highWater : Nat)
  | notMember

structure Membership where
  anchor : Option String := none
  incarnations : Std.ExtTreeMap String (List Incarnation) compare := ∅
  legacyEnds : Std.ExtTreeMap String Nat compare := ∅
  valid : Finset String := ∅

namespace Membership

/-! ## Building a membership from the claims that count -/

/-- An admission adds an incarnation unless its key is known under the name. -/
def addIncarnation (membership : Membership) (claim : FleetClaim) : Membership :=
  match claim.name, claim.text "member_key" with
  | some name, some key =>
    let incarnations := membership.incarnations.getD name []
    { membership with
      incarnations :=
        membership.incarnations.insert name (if incarnations.any (·.memberKey = key) then
          incarnations
         else incarnations ++ [.admitted claim name key]) }
  | _, _ => membership

def updateIncarnation (membership : Membership) (name key : String)
    (f : Incarnation → Incarnation) : Membership :=
  { membership with incarnations := membership.incarnations.modify name (updateKey key f) }

/-- What a counted claim that is not an admission does. -/
def amend (membership : Membership) (claim : FleetClaim) : Membership :=
  match claim.name with
  | none => membership
  | some name =>
    if claim.kind = memberRemoved ∨ claim.kind = memberLeft then
      match claim.number "high_water", claim.text "member_key" with
      | none, _ => membership
      | some highWater, some key =>
        membership.updateIncarnation name key (·.close claim highWater)
      | some highWater, none =>
        { membership with
          legacyEnds :=
            membership.legacyEnds.insert name (max (membership.legacyEnds.getD name 0) highWater) }
    else if claim.kind = memberEndpoints then
      match claim.text "member_key" with
      | none => membership
      | some key => membership.updateIncarnation name key (·.listen claim)
    else membership

def build (anchor : String) (claims : List FleetClaim) (valid : Finset String) : Membership :=
  let counted := claims.filter (·.id ∈ valid)
  let admissions := counted.filter (·.kind = memberAdmitted)
  counted.foldl amend (admissions.foldl addIncarnation { anchor := some anchor, valid := valid })

/-! ## Reading a membership -/

def counts (membership : Membership) (claimId : String) : Bool := claimId ∈ membership.valid

def incarnationList (membership : Membership) : List Incarnation :=
  membership.incarnations.values.flatten

/-- The keys whose incarnation windows hold this writer sequence. -/
def keysFor (membership : Membership) (writer : String) (sequence : Nat) : Finset String :=
  (((membership.incarnations.getD writer []).filter (·.holds sequence)).map (·.memberKey)).toFinset

/-- The legacy window runs from 1 to the first keyed incarnation's floor, or to the high water of a
removal without a key, whichever comes first. -/
def legacyEnd (membership : Membership) (writer : String) : Option Nat :=
  let floor := ((membership.incarnations.getD writer []).map (·.start)).min?.map (· - 1)
  ([membership.legacyEnds[writer]?, floor].filterMap id).min?

def window (membership : Membership) (writer : String) (sequence : Nat) : Window :=
  let keys := membership.keysFor writer sequence
  if keys ≠ ∅ then .keyed keys
  else if (membership.incarnations.getD writer []).any (·.start ≤ 1) then .fenced
  else if (membership.legacyEnd writer).any (· < sequence) then .fenced
  else .legacy

def latest : List Incarnation → Option Incarnation :=
  List.foldl (fun best i =>
    best.elim (some i) fun b => if b.start ≤ i.start then some i else some b) none

def state (membership : Membership) (name : String) : MemberState :=
  let incarnations := membership.incarnations.getD name []
  match incarnations.filter (·.end.isNone) with
  | [incarnation] => .current incarnation
  | [] =>
    match latest incarnations with
    | some incarnation => .ended incarnation
    | none =>
      match membership.legacyEnds[name]? with
      | some highWater => .legacyRemoved highWater
      | none => .notMember
  | current => .conflicted current

end Membership

/-! ## Which claims count -/

/-- The anchor's own admission is the root: it admits its own writer with the pinned anchor key,
which signed the envelope inside the window it defines. -/
def anchorCounts (anchor : String) (claim : FleetClaim) (membership : Membership) : Bool :=
  let known := (membership.incarnations.getD claim.writer []).find? (·.memberKey = anchor)
  decide (claim.text "member_key" = some anchor) && decide (claim.name = some claim.writer) &&
    decide (anchor ∈ claim.signers) && decide (claim.start ≤ claim.sequence) &&
    (known.bind (·.end)).all (claim.sequence ≤ ·)

def claimCounts (anchor : String) (claim : FleetClaim) (membership : Membership) : Bool :=
  if claim.kind = memberAdmitted ∧ claim.text "via" = some "anchor" then
    anchorCounts anchor claim membership
  else
    let keys := membership.keysFor claim.writer claim.sequence
    if claim.signers ∩ keys = ∅ then false
    else if claim.kind = memberEndpoints ∨ claim.kind = memberLeft then
      (claim.text "member_key").any fun key =>
        claim.name = some claim.writer ∧ key ∈ keys ∧ key ∈ claim.signers
    else if claim.kind = memberAdmitted then claim.name.any (· ≠ claim.writer)
    else true

def validClaims (anchor : String) (claims : List FleetClaim) (membership : Membership) :
    Finset String :=
  ((claims.filter (claimCounts anchor · membership)).map (·.id)).toFinset

/-! ## The fold -/

def fleetClaims (claims : List FleetClaim) : List FleetClaim :=
  (claims.filter (·.kind.startsWith "fleet.")).insertionSort (·.id ≤ ·.id)

/-- The claims that count when `current` are the claims that count. -/
def nextRound (anchor : String) (claims : List FleetClaim) (current : Finset String) :
    Finset String :=
  validClaims anchor claims (.build anchor claims current)

def roundLimit (claims : Nat) : Nat := saturatingAdd (saturatingMul claims 2) 4

/-- Without an anchor nothing counts. With one, the rounds run until they settle or reach their
limit, and the claims the last two agree on count. -/
def Membership.fold (anchor : Option String) (claims : List FleetClaim) : Membership :=
  let claims := fleetClaims claims
  match anchor with
  | none => {}
  | some anchor =>
    .build anchor claims (settle (nextRound anchor claims) (roundLimit claims.length) ∅).meet

end Smalltalk
