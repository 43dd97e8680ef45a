import Smalltalk.Lib.Groups
import Smalltalk.Retention.Rules

/-!
# The drop planner

`plan_drops` marks the claims its rules would drop, takes the mark from guarded claims, and
then keeps more claims back, round by round, until every marked claim has a kept witness and
no operation or envelope is marked in part. A claim is named by its index in the sealed set.
-/

namespace Smalltalk.Retention

open Finset OrdSet

def recordOf (id : String) (row : ClaimRow) : ClaimRecord where
  id
  batchId := row.batchId
  subject := row.subject
  kind := row.kind
  origin := row.origin
  actor := row.actor
  body := row.body
  predecessors := row.predecessors
  acceptedAt := row.acceptedAt

def claimOf (claim : SealedClaim) : ClaimRecord := recordOf claim.id claim.row

/-- Whether a claim that sets the fields `own` is replaced by later claims of its slot that set the
fields `later`. A state transition clears every field of its kind. -/
def witnessedNames (schema : Schema) (kind : String) (own later : List String) (laterClaims : Nat) :
    Bool :=
  0 < laterClaims ∧
    ((schema.registry kind).any
      (fun spec => spec.cardinality = .stateTransition ∧ own.all (· ∈ spec.fields)) ∨
      own.all (· ∈ later))

/-- A slot newest first, so that a claim kept back can witness the ones before it. -/
def keepUnwitnessed (schema : Schema) (kinds : Nat → String) (names : Nat → List String) :
    List Nat → List String → Nat → Finset Nat → Finset Nat
  | [], _, _, dropped => dropped
  | i :: rest, later, laterClaims, dropped =>
    let dropped :=
      if witnessedNames schema (kinds i) (names i) later laterClaims then dropped
      else dropped.erase i
    if i ∈ dropped then keepUnwitnessed schema kinds names rest later laterClaims dropped
    else keepUnwitnessed schema kinds names rest (later ++ names i) (laterClaims + 1) dropped

/-- Keep a group of claims when only a part of it is dropped. -/
def keepMixed (members : List Nat) (dropped : Finset Nat) : Finset Nat :=
  if members.any (· ∈ dropped) ∧ members.any (· ∉ dropped) then dropped.filter (· ∉ members)
  else dropped

/-! ## The planner -/

section
variable (schema : Schema) (sealed : SealedSet)

/-- A claim takes part in the rules once, by its first occurrence. -/
def isFirst (i : Nat) : Bool :=
  (sealed.claims[i]?).any fun claim => ¬ (sealed.claims.take i).any (·.id = claim.id)

def indexes : List Nat := List.range sealed.claims.length

def slotKey (i : Nat) : Option SlotKey :=
  if isFirst sealed i then (sealed.claims[i]?).bind (slotOf schema ∘ claimOf) else none

def seatKey (i : Nat) : Option String :=
  if isFirst sealed i then
  (sealed.claims[i]?).bind fun claim => if statusSource (claimOf claim) then
    some claim.row.subject else none
  else none

def operationKey (i : Nat) : Option String :=
  (sealed.claims[i]?).bind fun claim => (operationParts claim.row.body).map (·.1)

def envelopeKey (i : Nat) : Option EnvelopeId := (sealed.claims[i]?).map (·.envelope)

def membersOf {κ : Type} [DecidableEq κ] (key : Nat → Option κ) (k : κ) : List Nat :=
  (indexes sealed).filter (key · = some k)

def groupKeys {κ : Type} [LinearOrder κ] (key : Nat → Option κ) : List κ :=
  (ofList ((indexes sealed).filterMap key)).toList

def claimsAt (members : List Nat) : List SealedClaim := members.filterMap (sealed.claims[·]?)

def statusKeep : List Nat :=
  (groupKeys sealed (seatKey sealed)).flatMap fun seat =>
    let members := membersOf sealed (seatKey sealed) seat
    (statusKeepPositions ((claimsAt sealed members).map claimOf) sealed.cut).filterMap (members[·]?)

def limitsNewest (group : AccountGroup) : Nat :=
  (((indexes sealed).filterMap fun i =>
    if isFirst sealed i then
      (sealed.claims[i]?).bind fun claim =>
        if claim.row.kind = "harness.limits" then
          (schema.limitsReading (claimOf claim)).bind
            fun reading => if reading.1 = group then some reading.2 else none
        else none
    else none).max?).getD 0

def closedRequests : List (String × String) :=
  sealed.claims.filterMap fun claim =>
    (closes (claimOf claim)).map fun request => (claim.row.subject, request)

def expiredQuestions : List String :=
  (indexes sealed).filterMap fun i =>
    if isFirst sealed i then
      (sealed.claims[i]?).bind fun claim =>
        if claim.row.kind = questionResolved ∧ questionExpired claim.row.acceptedAt sealed.cut then
          some claim.row.subject
        else none
    else none

def slotClosed (slot : SlotKey) : Bool :=
  match (ofLex slot).1 with
  | .deferral => ((ofLex slot).2.headD "", (ofLex slot).2.getLastD "") ∈ closedRequests sealed
  | .questionLifecycle => (ofLex slot).2.headD "" ∈ expiredQuestions sealed
  | _ => false

def slotDrops (slot : SlotKey) : List Nat :=
  let rule := (ofLex slot).1
  let members := membersOf sealed (slotKey schema sealed) slot
  let claims := (claimsAt sealed members).map claimOf
  let keep :=
    ruleKeep schema rule members.length claims (slotClosed sealed slot) (limitsNewest schema sealed)
    sealed.cut ++ if rule.keepsFieldCarriers then carriers (claims.map fieldNames) else []
  members.zipIdx.filterMap fun r =>
    if r.2 ∉ keep ∧ r.1 ∉ statusKeep sealed ∧
        (sealed.claims[r.1]?).any (fun claim => rule.oldEnough claim.row.acceptedAt sealed.cut)
        then some r.1
    else none

def ruleDrops : Finset Nat :=
  (groupKeys sealed (slotKey schema sealed)).foldl
    (fun dropped slot => dropped ∪ (slotDrops schema sealed slot).toFinset) ∅

def newestSequence (writer : String) : Option Nat :=
  (sealed.envelopes.filterMap fun envelope =>
    if envelope.id.writer = writer then some envelope.id.sequence else none).max?

def guarded (claim : SealedClaim) : Bool :=
  claim.row.actor.any (startsWith · "person/") ∨ guardedKind schema claim.row.kind ∨ ¬ claim.valid ∨
    claim.named ∨ 1 < sealed.claims.countP (·.id = claim.id) ∨
    claim.id ∈ sealed.claims.flatMap (citedBy ∘ claimOf) ∨
    newestSequence sealed claim.envelope.writer = some claim.envelope.sequence

def unguardedDrops : Finset Nat :=
  (ruleDrops schema sealed).filter fun i => ¬ (sealed.claims[i]?).any (guarded schema sealed)

def kindAt (i : Nat) : String := ((sealed.claims[i]?).map (·.row.kind)).getD ""

def namesAt (i : Nat) : List String := ((sealed.claims[i]?).map (fieldNames ∘ claimOf)).getD []

/-- D3 for one slot. A question goes whole, so no claim of it witnesses another. -/
def witnessSlot (slot : SlotKey) (dropped : Finset Nat) : Finset Nat :=
  if (ofLex slot).1 = .questionLifecycle then dropped
  else keepUnwitnessed schema (kindAt sealed) (namesAt sealed)
    (membersOf sealed (slotKey schema sealed) slot).reverse [] 0 dropped

def wholeOperation (operation : String) : Finset Nat → Finset Nat :=
  keepMixed (membersOf sealed (operationKey sealed) operation)

def wholeEnvelope (envelope : EnvelopeId) : Finset Nat → Finset Nat :=
  keepMixed (membersOf sealed (envelopeKey sealed) envelope)

def recordsOf (envelope : EnvelopeId) : Option Nat :=
  (sealed.envelopes.reverse.find? (·.id = envelope)).map (·.records)

/-- An envelope with a record that is no sealed claim stays. -/
def admittedEnvelope (envelope : EnvelopeId) (dropped : Finset Nat) : Finset Nat :=
  let members := membersOf sealed (envelopeKey sealed) envelope
  if recordsOf sealed envelope ≠ some members.length ∧ members.any (· ∈ dropped) then
    dropped.filter (· ∉ members)
  else dropped

/-- One round: witnesses, operations, envelopes, and records. -/
def keepRound (dropped : Finset Nat) : Finset Nat :=
  passGroups (admittedEnvelope sealed) (groupKeys sealed (envelopeKey sealed))
    (passGroups (wholeEnvelope sealed) (groupKeys sealed (envelopeKey sealed))
      (passGroups (wholeOperation sealed) (groupKeys sealed (operationKey sealed))
        (passGroups (witnessSlot schema sealed)
          (groupKeys sealed (slotKey schema sealed)) dropped)))

/-- The claims a plan drops. Each change keeps a claim, so the loop ends within as many rounds as
there are marks. -/
def plannedDrops : Finset Nat :=
  untilStable (keepRound schema sealed) (unguardedDrops schema sealed).card
    (unguardedDrops schema sealed)

end

/-! ## The plan -/

def droppedClaimKey (claim : DroppedClaim) :
    EnvelopeId ×ₗ String ×ₗ String ×ₗ WithBot String ×ₗ List String ×ₗ WithBot String ×ₗ WithBot
      String ×ₗ Nat :=
  toLex (claim.envelope, toLex
    (claim.subject, toLex (claim.kind, toLex (claim.actor, toLex (claim.predecessors,
    toLex (claim.operationId, toLex (claim.requestDigest, claim.acceptedAt)))))))

theorem droppedClaimKey_injective : Function.Injective droppedClaimKey := by
  rintro ⟨⟩ ⟨⟩ h
  obtain ⟨rfl, h⟩ := Prod.mk.inj (toLex.injective h)
  obtain ⟨rfl, h⟩ := Prod.mk.inj (toLex.injective h)
  obtain ⟨rfl, h⟩ := Prod.mk.inj (toLex.injective h)
  obtain ⟨rfl, h⟩ := Prod.mk.inj (toLex.injective h)
  obtain ⟨rfl, h⟩ := Prod.mk.inj (toLex.injective h)
  obtain ⟨rfl, h⟩ := Prod.mk.inj (toLex.injective h)
  obtain ⟨rfl, rfl⟩ := Prod.mk.inj (toLex.injective h)
  rfl

instance : LinearOrder DroppedClaim := LinearOrder.lift' droppedClaimKey droppedClaimKey_injective

structure Digests where
  identities : List EnvelopeId → String
  drop : List (EnvelopeId ×ₗ Nat) → List (String ×ₗ DroppedClaim) → String
  retained : List String → String

structure DropCount where
  sealed : Nat
  dropped : Nat
  deriving DecidableEq

structure DropPlan where
  cut : Nat
  sealedEnvelopes : Nat
  sealedClaims : Nat
  sealedDigest : String
  envelopes : List (EnvelopeId ×ₗ Nat)
  claims : List (String ×ₗ DroppedClaim)
  byKind : List (String × DropCount)
  dropDigest : String
  retainedDigest : String
  deriving DecidableEq

section
variable (schema : Schema) (digests : Digests) (sealed : SealedSet)

def firstsWhere (p : Nat → Bool) : List SealedClaim :=
  claimsAt sealed ((indexes sealed).filter fun i => isFirst sealed i ∧ p i)

def envelopeGoes (dropped : Finset Nat) (envelope : EnvelopeId) : Bool :=
  envelope ∈ groupKeys sealed (envelopeKey sealed) ∧
  (membersOf sealed (envelopeKey sealed) envelope).all (· ∈ dropped)

def planEnvelopes (dropped : Finset Nat) : List (EnvelopeId ×ₗ Nat) :=
  (ofList (sealed.envelopes.filterMap fun envelope =>
    if envelopeGoes sealed dropped envelope.id then some (toLex (envelope.id, envelope.acceptedAt))
    else none)).toList

def planClaims (dropped : Finset Nat) : List (String ×ₗ DroppedClaim) :=
  (ofList ((firstsWhere sealed (· ∈ dropped)).map fun claim => toLex (claimTombstone claim))).toList

def countKinds (dropped : Finset Nat) : List (String × DropCount) :=
  (ofList ((firstsWhere sealed fun _ => true).map (·.row.kind))).toList.filterMap fun kind =>
    let count : DropCount :=
      { sealed := (firstsWhere sealed fun _ => true).countP (·.row.kind = kind)
        dropped := (firstsWhere sealed (· ∈ dropped)).countP (·.row.kind = kind) }
    if 0 < count.dropped then some (kind, count) else none

/-- `plan_drops`. The drop digest covers the tombstones of earlier checkpoints
too. -/
def planDrops : DropPlan :=
  let dropped := plannedDrops schema sealed
  let envelopes := planEnvelopes sealed dropped
  let claims := planClaims sealed dropped
  { cut := sealed.cut
    sealedEnvelopes := sealed.envelopes.length
    sealedClaims := (firstsWhere sealed fun _ => true).length
    sealedDigest := digests.identities (ofList sealed.identities).toList
    envelopes
    claims
    byKind := countKinds sealed dropped
    dropDigest := digests.drop (ofList (sealed.envelopeTombstones.map toLex ++ envelopes)).toList
      (ofList (sealed.claimTombstones.map toLex ++ claims)).toList
    retainedDigest := digests.retained
      (ofList ((firstsWhere sealed (· ∉ dropped)).map (·.id))).toList }

end

end Smalltalk.Retention
