import Smalltalk.Checkpoint.Sealed
import Smalltalk.Lib.Texts

/-!
# Retention rules

A rule of the retention policy applies to a kind of claim under conditions, and groups its
claims into slots by subject, kind and the fields it names. Within a slot, in canonical order,
each rule keeps the claims a reader's answer can depend on.
-/

namespace Smalltalk.Retention

open Value

/-! ## Claim bodies -/

def entries : Value → Option (List (String × Value))
  | .object entries => some entries
  | _ => none

def member (value : Value) (name : String) : Option Value :=
  (entries value).bind fun entries => (entries.find? (·.1 = name)).map (·.2)

def pointer (value : Value) : List String → Option Value
  | [] => some value
  | name :: path => (member value name).bind fun inner => pointer inner path

def asBool : Value → Option Bool
  | .bool b => some b
  | _ => none

/-- `as_f64() == Some(0.0)`: both zeros of a float, and the integer. -/
def isZero : Value → Bool
  | .number (.posInt n) => n = 0
  | .number (.float bits) => bits = 0 ∨ bits = 0x8000000000000000
  | _ => false

def texts (items : List Value) : List String := items.filterMap asStr

section
variable (claim : ClaimRecord)

def fields : Option (List (String × Value)) := (member claim.body "fields").bind entries

def field (name : String) : Option Value :=
  (fields claim).bind fun fields => (fields.find? (·.1 = name)).map (·.2)

def fieldStr (name : String) : Option String := (field claim name).bind asStr

def fieldBool (name : String) : Option Bool := (field claim name).bind asBool

def fieldU64 (name : String) : Option Nat := (field claim name).bind asU64

def hasField (name : String) : Bool := (field claim name).isSome

def fieldNames : List String := ((fields claim).getD []).map (·.1)

end

/-! ## What the rules take from the registry and from other crates -/

inductive Cardinality where
  | append
  | once
  | oncePerActor
  | oncePerAttempt
  | stateTransition
  deriving DecidableEq

abbrev AccountGroup := String × String × String × Bool

inductive SloEvent where
  | pending
  | dispatched
  | ownerBlocked
  | ownerUnblocked
  | recovered
  deriving DecidableEq

structure SloRecord where
  event : SloEvent
  ordinal : Nat
  rest : String
  deriving DecidableEq

structure KindSpec where
  cardinality : Cardinality
  fields : List String

structure Schema where
  registry : String → Option KindSpec
  /-- `Value::to_string` of a value that is not text. -/
  valueText : Value → String
  limitsReading : ClaimRecord → Option (AccountGroup × Nat)
  sloRecord : Value → Option SloRecord

def guardedKind (schema : Schema) (kind : String) : Bool :=
  match (schema.registry kind).map KindSpec.cardinality with
  | some .append | some .stateTransition => false
  | _ => true

/-! ## Policy rules and slots -/

inductive Rule where
  | newest
  /-- The newest, and only claims accepted at least this long before the cut go. -/
  | newestAged (minAge : Nat)
  | harnessObserved
  | loopState
  | deferral
  | usageSeries
  | usageCumulative
  | accountLimits
  | sloEventFences
  | questionLifecycle
  deriving DecidableEq

/-- The constructor's number and its age: the order derived for `Rule`. -/
def Rule.rank : Rule → Nat ×ₗ Nat
  | newest => toLex (0, 0)
  | newestAged minAge => toLex (1, minAge)
  | harnessObserved => toLex (2, 0)
  | loopState => toLex (3, 0)
  | deferral => toLex (4, 0)
  | usageSeries => toLex (5, 0)
  | usageCumulative => toLex (6, 0)
  | accountLimits => toLex (7, 0)
  | sloEventFences => toLex (8, 0)
  | questionLifecycle => toLex (9, 0)

theorem Rule.rank_injective : Function.Injective Rule.rank := by
  intro a b h
  cases a <;> cases b <;> simp_all [Rule.rank]

instance : LinearOrder Rule := LinearOrder.lift' Rule.rank Rule.rank_injective

inductive Condition where
  | actorNull
  | set (name : String)
  | equals (name value : String)

inductive SlotPart where
  | origin
  | field (name : String)

structure RulePolicy where
  kind : String
  when : List Condition := []
  slot : List SlotPart := []
  requireSlot : Bool := false
  planned : Rule

def dayMs : Nat := 86400000

def hourMs : Nat := 60 * 60 * 1000

/-- The operation of a runtime that a `runtime.action.*` claim is about. -/
def actionSlot : List SlotPart :=
  [.field "action", .field "incarnation_id", .field "operation_status"]

/-- The rules of `retention.toml` that have a slot, in order. -/
def policyRules : List RulePolicy :=
  [{ kind := "harness.observed", slot := [.field "incarnation_id"], requireSlot := true,
     planned := .harnessObserved },
   { kind := "harness.timeline", slot := [.field "incarnation_id"],
     planned := .newestAged (5 * dayMs) },
   { kind := "loop.state", planned := .loopState },
   { kind := "subscription.mission-deferred", slot := [.field "request"], planned := .deferral },
   { kind := "observer.observed", planned := .newest },
   { kind := "daemon.diagnostic", slot := [.field "code"], planned := .newest },
   { kind := "transport.observed", slot := [.origin], planned := .newest },
   { kind := "runtime.action.requested", when := [.actorNull], slot := actionSlot,
     planned := .newestAged (5 * dayMs) },
   { kind := "runtime.action.succeeded", when := [.actorNull], slot := actionSlot,
     planned := .newestAged (5 * dayMs) },
   { kind := "runtime.action.failed", when := [.actorNull], slot := actionSlot,
     planned := .newestAged (5 * dayMs) },
   { kind := "runtime.action.deadline-reached", when := [.actorNull], slot := actionSlot
     planned := .newestAged (5 * dayMs) },
   { kind := "harness.usage", when := [.equals "semantics" "response_rollup"]
     slot :=
       [.field "incarnation_id", .field "model", .field "account", .field "owner_run",
         .field "owner_step",
       .field "host"]
     planned := .usageSeries },
   { kind := "harness.usage", when := [.equals "semantics" "session_cumulative"],
     slot := [.field "incarnation_id"]
     planned := .usageCumulative },
   { kind := "harness.usage", when := [.equals "semantics" "context_occupancy"],
     slot := [.field "incarnation_id"]
     planned := .newest },
   { kind := "harness.limits", planned := .accountLimits },
   { kind := "runtime.reconcile-decision", slot := [.field "key"], planned := .newest },
   { kind := "resource.observed", when := [.actorNull, .set "observer"], planned := .newest },
   { kind := "render.applied", planned := .newestAged (5 * dayMs) },
   { kind := "runtime.readiness-deadline-reached", planned := .newestAged (5 * dayMs) },
   { kind := "sekret.called", planned := .newestAged (5 * dayMs) },
   { kind := "sekret.exited", planned := .newestAged (5 * dayMs) },
   { kind := "sekret.refused", planned := .newestAged (5 * dayMs) },
   { kind := "sekret.changed", planned := .newestAged (5 * dayMs) },
   { kind := "harness.todo.observed", planned := .newest },
   { kind := "slo.breach-transition", planned := .sloEventFences },
   { kind := "harness-question.observed", planned := .questionLifecycle }]

abbrev SlotKey := Rule ×ₗ List String

section
variable (schema : Schema) (claim : ClaimRecord)

def conditionHolds : Condition → Bool
  | .actorNull => claim.actor.isNone
  | .set name => hasField claim name
  | .equals name value => fieldStr claim name = some value

def fieldText (name : String) : String :=
  match field claim name with
  | some (.string text) => text
  | some value => schema.valueText value
  | none => ""

def slotPart (requireSlot : Bool) : SlotPart → Option String
  | .origin => some claim.origin
  | .field name => if requireSlot then fieldStr claim name else some (fieldText schema claim name)

/-- The rule and slot of a claim. The first policy rule for the claim's kind whose conditions hold
applies. -/
def slotOf : Option SlotKey := do
  let rule ← policyRules.find? fun rule => rule.kind = claim.kind ∧
    rule.when.all (conditionHolds claim)
  let parts ← rule.slot.mapM (slotPart schema claim rule.requireSlot)
  return toLex (rule.planned, claim.subject :: claim.kind :: parts)

end

/-! ## What each rule keeps

Positions are those of a slot's claims in canonical order. -/

section
variable {α : Type}

def rposition (p : α → Bool) (items : List α) : Option Nat :=
  (items.reverse.findIdx? p).map fun i => items.length - 1 - i

def positions (p : α → Bool) (items : List α) : List Nat :=
  items.zipIdx.filterMap fun r => if p r.1 then some r.2 else none

def lastPosition (items : List α) : List Nat := if items = [] then [] else [items.length - 1]

end

/-- The newest claim of a slot carrying each field name, from the field names of its claims in
order. -/
def carriers (names : List (List String)) : List Nat :=
  names.zipIdx.filterMap fun r =>
    if r.1.any fun name => ¬ (names.drop (r.2 + 1)).any (name ∈ ·) then some r.2 else none

def harnessOptionalFields : List String :=
  ["driver", "transport", "reason", "blocked_on", "ask", "input_buffer", "exit", "provider_auth",
    "provider_auth_sequence", "ownership_sequence"]

section
variable (claims : List ClaimRecord)

def harnessReady (claim : ClaimRecord) : Bool :=
  fieldStr claim "state" ∈ [some "ready", some "working", some "idle"]

def runStart (outside : ClaimRecord → Bool) : Nat := ((rposition outside claims).map (· + 1)).getD 0

def harnessWorking : List Nat :=
  let other := fun claim : ClaimRecord => (fieldStr claim "state").any (· ≠ "working")
  let after := runStart claims other
  (rposition other claims).toList ++
    (positions (fun claim => fieldStr claim "state" = some "working") claims).filter (after ≤ ·)

def harnessAuthRun : List Nat :=
  match claims.reverse.findSome? (fieldBool · "provider_auth") with
  | some last =>
    let after := runStart claims fun claim => (fieldBool claim "provider_auth").any (· ≠ last)
    ((positions (fun claim => fieldBool claim "provider_auth" = some last) claims).filter
      (after ≤ ·)).head?.toList
  | none => []

def harnessStateRun : List Nat :=
  match claims.getLast?.bind (fieldStr · "state") with
  | some last => [runStart claims fun claim => fieldStr claim "state" ≠ some last]
  | none => []

def harnessKeep : List Nat :=
  [0, claims.length - 1] ++ (claims.findIdx? harnessReady).toList ++
    (claims.findIdx? fun claim => harnessReady claim ∧
      fieldStr claim "reason" ≠ some "providerAuth").toList ++
    harnessWorking claims ++
    harnessOptionalFields.filterMap (fun name => rposition (hasField · name) claims) ++
    harnessAuthRun claims ++ harnessStateRun claims

def usageObservedAt (claim : ClaimRecord) : Nat :=
  (fieldU64 claim "observed_at_unix_ms").getD claim.acceptedAt

def usageWindowMs : Nat := 7 * dayMs

/-- The last snapshot of each hour in the window, the newest before it, and the newest of all. -/
def usageSeriesKeep (cut : Nat) : List Nat :=
  let window := cut - usageWindowMs
  let hour :=
    fun claim => if window ≤ usageObservedAt claim then
      some (usageObservedAt claim / hourMs) else none
  claims.zipIdx.filterMap (fun r =>
      if (hour r.1).any fun h =>
        ¬ (claims.drop (r.2 + 1)).any fun later => hour later = some h then some r.2 else none) ++
    (rposition (fun claim => usageObservedAt claim < window) claims).toList ++ lastPosition claims

def usageCumulativeKeep : List Nat :=
  let total := fun claim => (fieldU64 claim "total_tokens").getD 0
  let largest := ((claims.map total).max?).getD 0
  lastPosition claims ++ (rposition (fun claim => total claim = largest) claims).toList

def accountReadingWindowMs : Nat := 3600000

/-- A seat's newest claim, its newest accepted readings, and every reading within an hour of the
newest of its account group. -/
def limitsKeep (schema : Schema) (newestMeasured : AccountGroup → Nat) : List Nat :=
  let accepted :=
    claims.filterMap fun claim => (schema.limitsReading claim).map fun _ => claim.acceptedAt
  lastPosition claims ++
    positions (fun claim => (schema.limitsReading claim).isSome ∧
      accepted.max? = some claim.acceptedAt) claims ++
    positions (fun claim => (schema.limitsReading claim).any fun reading =>
      newestMeasured reading.1 - accountReadingWindowMs ≤ reading.2) claims

/-- The ends of each run of one status and round, and the first state with items. -/
def loopKeep (schema : Schema) : List Nat :=
  let key := fun claim => (fieldText schema claim "status", fieldText schema claim "round")
  (List.range claims.length).filter (fun i =>
      i = 0 ∨ (claims[i - 1]?).map key ≠ (claims[i]?).map key ∨
        (claims[i + 1]?).map key ≠ (claims[i]?).map key) ++
    (claims.findIdx? (hasField · "items")).toList

def leastId (members : List Nat) : Option Nat :=
  (members.foldl (fun best i =>
    match best, claims[i]? with
    | some (j, id), some claim => if claim.id < id then some (i, claim.id) else some (j, id)
    | none, some claim => some (i, claim.id)
    | best, none => best) none).map (·.1)

/-- The fences of one event: the claim of least id, the one of least id with the largest ordinal,
and the one of least id that differs from the first. -/
def sloEventFences (records : List SloRecord) (event : SloEvent) : List Nat :=
  let members := positions (·.event = event) records
  let largest := ((members.filterMap (records[·]?)).map (·.ordinal)).max?
  match leastId claims members with
  | none => []
  | some first =>
    [first] ++
      (leastId claims (members.filter fun i => (records[i]?).map (·.ordinal) = largest)).toList ++
      (leastId claims (members.filter fun i => records[i]? ≠ records[first]?)).toList

/-- No episode is compacted until its recovery is seven days old. -/
def sloFencesKeep (schema : Schema) (cut : Nat) : List Nat :=
  let all := List.range claims.length
  match claims.mapM fun claim => (field claim "record").bind schema.sloRecord with
  | none => all
  | some records =>
    let recovered := (records.zip claims).filterMap fun r =>
      if r.1.event = .recovered then some r.2.acceptedAt else none
    if recovered.max?.all (cut - 7 * dayMs ≤ ·) then all
    else (records.map (·.event)).dedup.flatMap (sloEventFences claims records)

end

def Rule.keepsFieldCarriers : Rule → Bool
  | loopState | questionLifecycle => false
  | _ => true

def Rule.oldEnough (rule : Rule) (acceptedAt cut : Nat) : Bool :=
  match rule with
  | newestAged minAge => acceptedAt < cut - minAge
  | _ => true

def Rule.readsBodies : Rule → Bool
  | harnessObserved | usageSeries | usageCumulative | accountLimits | loopState | sloEventFences =>
    true
  | _ => false

/-- The claims a slot's rule keeps, before field carriers. The claims are there
when the rule reads bodies, and `closed` says whether a deferral's request is
closed or a question expired. -/
def ruleKeep (schema : Schema) (rule : Rule) (len : Nat) (claims : List ClaimRecord) (closed : Bool)
    (limitsNewest : AccountGroup → Nat) (cut : Nat) : List Nat :=
  match rule with
  | .newest | .newestAged _ => [len - 1]
  | .harnessObserved => harnessKeep claims
  | .usageSeries => usageSeriesKeep claims cut
  | .usageCumulative => usageCumulativeKeep claims
  | .accountLimits => limitsKeep claims schema limitsNewest
  | .loopState => loopKeep claims schema
  | .sloEventFences => sloFencesKeep claims schema cut
  | .deferral | .questionLifecycle => if closed then [len - 1] else List.range len

/-! ## Status history -/

structure Status where
  harness : Option String := none
  prompt : Option String := none
  updatePrompt : Bool := false
  providerAuth : Option Bool := none
  blockedOn : Option String := none
  ask : Option String := none
  state : Option String := none

structure Transitions where
  runtime : Option String := none
  statuses : List (String × Status) := []
  entries : List Nat := []

def Transitions.status? (t : Transitions) (incarnation : String) : Option Status :=
  (t.statuses.find? (·.1 = incarnation)).map (·.2)

def Transitions.setStatus (t : Transitions) (incarnation : String) (status : Status) :
    Transitions :=
  { t with statuses := (incarnation, status) :: t.statuses.filter (·.1 ≠ incarnation) }

def permissionBlocked (state : String) (blockedOn ask : Option String) : Bool :=
  state ∉ ["ended", "indeterminate"] ∧ blockedOn = some "human" ∧ ask = some "permission"

def statusFields (claim : ClaimRecord) : Value := (member claim.body "fields").getD claim.body

def observedStatus (fields : Value) (status : Status) : Option Status := do
  let state ← (member fields "state").bind asStr
  let status :=
    if state ∈ ["ended", "indeterminate"] then { status with blockedOn := none, ask := none } else
    { status with
      blockedOn :=
        match member fields "blocked_on" with | some value => value.asStr | none => status.blockedOn
      ask := match member fields "ask" with | some value => value.asStr | none => status.ask }
  let harness := if permissionBlocked state status.blockedOn status.ask then "blocked" else state
  let auth := (member fields "provider_auth").bind asBool
  return { status with harness := some harness, providerAuth := auth.or status.providerAuth }

def diagnosedStatus (fields : Value) (status : Status) : Option Status :=
  match (member fields "code").bind asStr with
  | some "provider-auth-expired" => some { status with prompt := some "unauthenticated" }
  | some "provider-trust-prompt" => some { status with prompt := some "blocked" }
  | some "provider-auth-restored" => some { status with prompt := none }
  | some "provider-update-prompt" => some { status with updatePrompt := true }
  | some "provider-update-restored" => some { status with updatePrompt := false }
  | _ => none

def Status.next (status : Status) : Option String :=
  if status.updatePrompt then some "blocked"
  else if status.providerAuth = some false then some "unauthenticated"
  else status.prompt.or status.harness

def transition (t : Transitions) (position : Nat) (claim : ClaimRecord) : Transitions :=
  let fields := statusFields claim
  let stamp := (member fields "status_transition").bind asBool
  match (member fields "incarnation_id").bind asStr with
  | none => t
  | some incarnation =>
    if claim.kind = "runtime.observed" ∧ (member fields "status").bind asStr = some "running" then
      if t.runtime = some incarnation then t
      else if t.runtime.isSome ∨ (t.status? incarnation).isNone then
        { t.setStatus incarnation {} with
          runtime := some incarnation
          entries := t.entries ++ [position] }
      else { t with runtime := some incarnation }
    else
      let reset := t.runtime.isNone ∧ (t.status? incarnation).isNone
      let updated :=
        if claim.kind = "harness.observed" then
        observedStatus fields ((t.status? incarnation).getD {})
        else if claim.kind = "harness.diagnostic" then
          (t.status? incarnation).bind (diagnosedStatus fields)
        else none
      match updated with
      | none => t
      | some status =>
        let heartbeat := claim.kind = "harness.observed" ∧ stamp = some false
        let recorded := claim.kind = "harness.observed" ∧ status.prompt = none ∧
          status.providerAuth ≠ some false ∧ ¬ status.updatePrompt ∧ stamp = some true
        let t := if (reset ∨ status.state ≠ status.next ∨ recorded) ∧ ¬ heartbeat then
          { t with entries := t.entries ++ [position] } else t
        t.setStatus incarnation { status with state := status.next }

def transitionPositions (claims : List ClaimRecord) : List Nat :=
  (claims.zipIdx.foldl (fun t r => transition t r.2 r.1) {}).entries

def observationTime (claim : ClaimRecord) : Nat :=
  min (((pointer claim.body ["fields", "observed_at_ms"]).bind asU64).getD claim.acceptedAt)
    claim.acceptedAt

def historySource (claim : ClaimRecord) : Bool :=
  claim.kind ≠ "harness.observed" ∨
    ¬ (pointer claim.body ["fields", "status_transition"]).any
      fun stamp => asBool stamp = some false ∨ isZero stamp

def statusSource (claim : ClaimRecord) : Bool :=
  claim.kind ∈ ["harness.observed", "runtime.observed", "harness.diagnostic"] ∧ historySource claim

def statusWindowMs : Nat := 7 * dayMs

def maxTransitions : Nat := 200

section
variable (sources : List ClaimRecord) (cut : Nat)

def recentTransitions : List Nat :=
  (((transitionPositions sources).reverse).filter fun position =>
    (sources[position]?).any fun claim =>
      cut - statusWindowMs ≤ observationTime claim).take maxTransitions

def statusPredecessors : List Nat :=
  let incarnation := fun position =>
    (sources[position]?).bind fun claim => (member (statusFields claim) "incarnation_id").bind asStr
  let marked :=
    (transitionPositions sources).filterMap fun p => (incarnation p).map fun name => (name, p)
  (marked.map (·.1)).dedup.filterMap fun name =>
    let own := (marked.filter (·.1 = name)).map (·.2)
    (own.findIdx? (· ∈ recentTransitions sources cut)).bind fun i => if i = 0 then none
      else own[i - 1]?

/-- A restored prompt exposes the harness state hidden under it. -/
def restoredSource (position : Nat) : Option Nat :=
  (sources[position]?).bind fun source =>
    if source.kind = "harness.diagnostic" ∧
        fieldStr source "code" ∈
          [some "provider-auth-restored", some "provider-update-restored"] then
      rposition (fun claim => claim.kind = "harness.observed" ∧
        fieldStr claim "incarnation_id" = fieldStr source "incarnation_id" ∧
        fieldBool claim "status_transition" ≠ some false) (sources.take position)
    else none

def statusKeepPositions : List Nat :=
  let kept := recentTransitions sources cut ++ statusPredecessors sources cut
  kept ++ kept.filterMap (restoredSource sources)

end

/-! ## References between claims -/

def reviewKinds : List String :=
  ["gate.head-bound", "gate.review-verdict", "gate.review-withdrawn", "gate.remediation-attached"]

def reviewReferences (claim : ClaimRecord) : List String :=
  if claim.kind ∈ reviewKinds ∨ claim.kind = "gate.requested" then
    let fields := (member claim.body "fields").getD .null
    ["binding_claim", "previous_binding", "request", "verdict", "carry_forward_from",
        "attempt_receipt", "observation"].filterMap (fun name => (member fields name).bind asStr) ++
      ["evidence", "finding_refs", "authorization_evidence"].flatMap fun name =>
        texts (((member fields name).bind asArray).getD [])
  else []

/-- The claims a claim cites as evidence, pins as a mission run's input, or references as a review
record. -/
def citedBy (claim : ClaimRecord) : List String :=
  let body := claim.body
  texts (((member body "evidence").bind asArray).getD []) ++
      (if claim.kind = "mission-run.created" then
      (((pointer body ["fields", "inputs"]).bind entries).getD []).filterMap fun input =>
        (member input.2 "claim_id").bind asStr
    else []) ++
    reviewReferences claim ++
    (if claim.kind ∈ reviewKinds then claim.predecessors else []) ++
    (if claim.kind = "slo.breach-transition" then
      ((pointer body ["fields", "record", "previous_recovery"]).bind asStr).toList
    else [])

def requestClosers : List String :=
  ["subscription.mission-started", "subscription.mission-failed",
    "subscription.mission-request-cancelled"]

def closes (claim : ClaimRecord) : Option String :=
  if claim.kind ∈ requestClosers then fieldStr claim "request" else none

def questionResolved : String := "harness-question.resolved"

def resolvedRetentionMs : Nat := 24 * 60 * 60 * 1000

def questionExpired (resolvedAt now : Nat) : Bool := resolvedAt + resolvedRetentionMs ≤ now

end Smalltalk.Retention
