import Smalltalk.Lib.Machine
import Smalltalk.Lib.Table

/-!
# Mailbox custody

A channel binds a seat's component under a token and gets an epoch; the owner row names the
newest epoch, the lease the provider process that holds custody. What the claims say of a seat
is read from the world of a call.
-/

namespace Smalltalk.Mailbox

structure St3Error where
  code : String
  message : String
  deriving DecidableEq

structure Fence where
  subject : String
  incarnation : String
  component : String
  epoch : Nat
  token : String
  deriving DecidableEq

structure Authority where
  provider : String
  session : String
  sequence : Nat
  pid : Nat
  processToken : Nat
  deriving DecidableEq

structure Seat where
  subject : String
  component : String
  deriving DecidableEq

def Fence.seat (f : Fence) : Seat := ⟨f.subject, f.component⟩

inductive MemberKind where
  | agent
  | exec
  | pty
  deriving DecidableEq

inductive LaunchSpec where
  | shell (source : String)
  | argv (arguments : List String)
  deriving DecidableEq

def LaunchSpec.isArgv : LaunchSpec → Bool
  | .argv arguments => !arguments.isEmpty
  | .shell _ => false

structure TerminalBinding where
  subject : String
  incarnation : String
  id : String
  deriving DecidableEq

def TerminalBinding.agentIncarnation (b : TerminalBinding) : String :=
  b.incarnation ++ ":bound:" ++ b.id

structure MemberSpec where
  kind : MemberKind
  host : String
  runtimeId : String
  workspace : String
  cwd : String
  terminal : Bool
  launch : LaunchSpec
  terminalBinding : Option TerminalBinding
  driver : Option String
  deriving DecidableEq

/-- Pairs of flag and value that st puts after the program of a typed harness. -/
def skipChannelFlags : List String → List String
  | flag :: value :: rest =>
    if flag = "--channels" ∨ flag = "--settings" then skipChannelFlags rest
    else flag :: value :: rest
  | [flag] => if flag = "--channels" ∨ flag = "--settings" then [] else [flag]
  | [] => []

def authoredLaunch : LaunchSpec → List String
  | .shell source => [source]
  | .argv argv =>
    match argv.dropWhile (· ≠ "--") with
    | [] => argv
    | separator :: provider =>
      argv.takeWhile (· ≠ "--") ++ [separator] ++ provider.take 1 ++
        skipChannelFlags (provider.drop 1)

def MemberSpec.launchChanges (m launched : MemberSpec) : List String :=
  (if m.host ≠ launched.host then ["host"] else []) ++
  (if m.workspace ≠ launched.workspace ∨ m.cwd ≠ launched.cwd then ["workspace"] else []) ++
  (if m.driver ≠ launched.driver then ["harness"] else []) ++
  (if m.terminal ≠ launched.terminal then ["terminal"] else []) ++
  (if authoredLaunch m.launch ≠ authoredLaunch launched.launch then ["launch"] else [])

structure DesiredRow where
  kind : String
  member : Option MemberSpec

structure RuntimeObserved where
  claim : String := ""
  status : Option String := none
  incarnation : Option String := none

structure HarnessObserved where
  state : Option String
  incarnation : Option String

structure World where
  host : String
  resolveReference : String → Except St3Error String
  runtime : String → RuntimeObserved
  harness : String → Except St3Error (Option HarnessObserved)
  /-- `mailbox_harness_ended` of a subject, an incarnation and a runtime claim. -/
  harnessEnded : String → String → String → Except St3Error Bool
  desired : String → Except St3Error (Option DesiredRow)

structure Owner where
  incarnation : String
  epoch : Nat
  deriving DecidableEq

structure Binding where
  seat : Seat
  incarnation : String
  epoch : Nat
  deriving DecidableEq

structure ArgvBinding where
  binding : Binding
  member : MemberSpec

structure Lease where
  incarnation : String
  token : String
  epoch : Nat
  authority : Authority
  revoked : Bool
  deriving DecidableEq

structure Mailboxes where
  owners : Table Seat Owner := ∅
  bindings : Table String Binding := ∅
  argvBindings : Table String ArgvBinding := ∅
  leases : Table Seat Lease := ∅

def refused (reason : String) : St3Error := ⟨"stale-mailbox-session", reason⟩

def maxInteger : Nat := 9223372036854775807

/-! ## Checks -/

def checkMailboxIncarnation (w : World) (fence : Fence) : Except St3Error Unit := do
  let subject ← w.resolveReference fence.subject
  let runtime := w.runtime subject
  let live := runtime.status = some "running" ∧ runtime.incarnation = some fence.incarnation
  let describesAnother := runtime.incarnation ≠ some fence.incarnation
  if ¬live ∧ fence.epoch = 0 ∧
    (describesAnother ∨ runtime.status = none ∨ runtime.status = some "starting") then
    if let some harness ← w.harness subject then
      if harness.state.any (["starting", "ready", "idle", "working", "blocked"].contains ·) ∧
          harness.incarnation = some fence.incarnation then
        throw ⟨"mailbox-session-starting", "waiting for the seat's running incarnation"⟩
  let stale := refused "this is not the seat's live incarnation"
  if ¬live then throw stale
  if ← w.harnessEnded subject fence.incarnation runtime.claim then throw stale

def checkArgvDeclaration (w : World) (s : Mailboxes) (fence : Fence) (captured : MemberSpec) :
    Except St3Error Unit := do
  if (s.leases.get? fence.seat).isSome then
    throw (refused "qualified mailbox history cannot become an argv-only transport")
  let some desired ← w.desired fence.subject | throw (refused "the argv seat is no longer declared")
  let some current := desired.member | throw (refused "the argv seat is intentionally stopped")
  if desired.kind = "stop" ∨ current.kind ≠ .agent ∨ current.host ≠ w.host ∨ current.driver.isSome ∨
      current.terminalBinding.isSome ∨
      ¬current.launch.isArgv ∨
      current.kind ≠ captured.kind ∨ current.terminalBinding ≠ captured.terminalBinding ∨
      current.runtimeId ≠ captured.runtimeId ∨ current.launchChanges captured ≠ [] ∨
      current.launch ≠ captured.launch then
    throw (refused "the explicit argv seat declaration was stopped or replaced")

/-- The member is not the declared seat of this provider on this host. -/
def replaced (w : World) (fence : Fence) (provider : String) (member : MemberSpec) : Bool :=
  member.driver ≠ some provider || member.host ≠ w.host ||
    member.terminalBinding.any fun binding => binding.agentIncarnation ≠ fence.incarnation

def checkDeclaration (w : World) (fence : Fence) (authority : Authority) :
    Except St3Error Unit := do
  let some declared ← w.desired fence.subject | throw (refused "the seat is no longer declared")
  let some member := declared.member | throw (refused "the seat is intentionally stopped")
  if declared.kind = "stop" ∨ replaced w fence authority.provider member then
    throw (refused "the seat is stopped, moved or belongs to another provider")

def checkLeaseDeclaration (w : World) (fence : Fence) (provider : String) :
    Except St3Error Unit := do
  let some desired ← w.desired fence.subject | throw (refused "the seat is no longer declared")
  if desired.kind = "stop" ∨ (desired.member.map (replaced w fence provider)).getD true then
    throw (refused "the lease's declared provider was stopped or replaced")

/-- `argv_binding` and the check of its declaration. -/
def checkArgvBinding (w : World) (s : Mailboxes) (fence : Fence) : Except St3Error Unit :=
  match s.argvBindings.get? fence.token with
  | none => .ok ()
  | some held =>
    if held.binding ≠ ⟨fence.seat, fence.incarnation, fence.epoch⟩ then
      .error (refused "the argv capability belongs to another binding")
    else checkArgvDeclaration w s fence held.member

def checkLeaseFence (w : World) (s : Mailboxes) (fence : Fence) : Except St3Error Unit := do
  checkArgvBinding w s fence
  match s.leases.get? fence.seat with
  | none => pure ()
  | some held =>
    if held.revoked ∨ held.token ≠ fence.token ∨ held.epoch ≠ fence.epoch ∨
      held.incarnation ≠ fence.incarnation then
      throw (refused "the authenticated lease was superseded or revoked")
    checkLeaseDeclaration w fence held.authority.provider

def ownerOf (s : Mailboxes) (fence : Fence) : Option Owner := do
  let owner ← s.owners.get? fence.seat
  let binding ← s.bindings.get? fence.token
  if binding = ⟨fence.seat, owner.incarnation, owner.epoch⟩ then some owner else none

def checkMailboxFence (w : World) (s : Mailboxes) (fence : Fence) : Except St3Error Unit := do
  let subject ← w.resolveReference fence.subject
  let fence := { fence with subject }
  checkMailboxIncarnation w fence
  checkLeaseFence w s fence
  if ownerOf s fence ≠ some ⟨fence.incarnation, fence.epoch⟩ then
    throw (refused "a newer channel owns this seat")

/-! ## Admission -/

inductive ChannelLiveness where
  | alive
  | dead
  | indeterminate
  deriving DecidableEq

/-- The process that bootstrapped custody shows its provider session. -/
def bootstrapPromotion (prior authority : Authority) : Bool :=
  prior.sequence = 0 ∧ 0 < authority.sequence ∧ prior.provider = authority.provider ∧
    prior.pid = authority.pid ∧ prior.processToken = authority.processToken

def admitWithProbe (s : Mailboxes) (request : Fence) (authority : Authority)
    (liveness : Authority → ChannelLiveness) :
    Except St3Error Unit :=
  if authority.session = "" ∨
      (authority.sequence = 0 ∧ (authority.provider ≠ "codex" ∨ request.component ≠ "delivery" ∨
        authority.session ≠ "runtime:" ++ request.incarnation)) ∨
      maxInteger < authority.sequence then
    .error (refused "missing authenticated provider ownership")
  else
    match s.leases.get? request.seat with
    | none =>
      -- A binding that has no lease yet may be authenticated in place, by its own token.
      if request.epoch = 0 ∧ (s.owners.get? request.seat).map (·.incarnation) =
          some request.incarnation ∧ ¬((ownerOf s request).isSome ∧
            (s.bindings.get? request.token).map (·.incarnation) = some request.incarnation) then
        .error (refused "unqualified ownership history does not authorize a fresh takeover")
      else .ok ()
    | some held =>
      if held.incarnation ≠ request.incarnation then .ok ()
      else if held.revoked then .error (refused "the mailbox lease was revoked")
      else if request.token = held.token ∧
          (authority = held.authority ∨ bootstrapPromotion held.authority authority) then
        if (s.bindings.get? request.token).isSome then .ok ()
        else .error (refused "the binding token was revoked")
      else if authority.provider ≠ held.authority.provider ∨
          authority.sequence < held.authority.sequence ∨
          (authority.sequence = held.authority.sequence ∧
            (authority.session ≠ held.authority.session ∨ liveness held.authority ≠ .dead)) then
        .error (refused "another live channel holds this provider session's lease")
      else if request.epoch ≠ 0 then
        .error (refused "a retired binding cannot acquire a successor lease")
      else .ok ()

def record (s : Mailboxes) (fence : Fence) (authority : Authority) : Except St3Error Mailboxes :=
  if maxInteger < authority.sequence then .error ⟨"internal", "the sequence is out of range"⟩
  else .ok
    { s with leases := s.leases.put fence.seat ⟨fence.incarnation, fence.token, fence.epoch,
               authority, false⟩ }

def refuseArgvNativeAdoption (s : Mailboxes) (fence : Fence) : Except St3Error Unit :=
  if (s.argvBindings.get? fence.token).isSome then
    .error (refused "an argv capability cannot be reissued or adopted as native custody")
  else .ok ()

def recordArgvBinding (s : Mailboxes) (fence : Fence) (member : MemberSpec) : Mailboxes :=
  { s with
    argvBindings :=
      s.argvBindings.insert fence.token ⟨⟨fence.seat, fence.incarnation, fence.epoch⟩, member⟩ }

/-! ## Operations -/

inductive Credential where
  | native (authority : Authority) (liveness : Authority → ChannelLiveness)
  | argv (member : MemberSpec)

def Credential.record (s : Mailboxes) (fence : Fence) : Credential → Except St3Error Mailboxes
  | .native authority _ => Mailbox.record s fence authority
  | .argv member => .ok (recordArgvBinding s fence member)

/-- What is checked of the credential before anything is bound. -/
def Credential.check (w : World) (s : Mailboxes) (request : Fence)
    (validate : Except St3Error Unit) :
    Credential → Except St3Error Unit
  | .native authority liveness => do
    validate
    refuseArgvNativeAdoption s request
    checkDeclaration w request authority
    admitWithProbe s request authority liveness
  | .argv member => do
    checkArgvDeclaration w s request member
    validate

/-- `bind_mailbox_with_admission_checked`, for callers that are authenticated. -/
def bindMailbox (w : World) (s : Mailboxes) (request : Fence) (credential : Credential)
    (validate : Except St3Error Unit) : Except St3Error (Fence × Mailboxes) := do
  let subject ← w.resolveReference request.subject
  let request := { request with subject }
  checkMailboxIncarnation w request
  credential.check w s request validate
  if request.epoch ≠ 0 then
    checkMailboxFence w s request
    return (request, ← credential.record s request)
  if request.token = "" ∨ 128 < request.token.utf8ByteSize then
    throw ⟨"invalid-mailbox-token", "binding requires a stable request token"⟩
  match s.bindings.get? request.token with
  | some prior =>
    if prior.seat ≠ request.seat ∨ prior.incarnation ≠ request.incarnation then
      throw ⟨"invalid-mailbox-token", "binding token belongs to another session"⟩
    let bound := { request with epoch := prior.epoch }
    checkMailboxFence w s bound
    return (bound, ← credential.record s bound)
  | none =>
    refuseArgvNativeAdoption s request
    let epoch := ((s.owners.get? request.seat).map (·.epoch)).getD 0 + 1
    if maxInteger < epoch then throw ⟨"internal", "mailbox epoch exhausted"⟩
    let bound := { request with epoch }
    let next := { s with
      bindings := s.bindings.insert bound.token ⟨bound.seat, bound.incarnation, bound.epoch⟩
      owners := s.owners.put bound.seat ⟨bound.incarnation, bound.epoch⟩ }
    return (bound, ← credential.record next bound)

def promotionIsNoop (row : Option Lease) (authority : Authority) : Bool :=
  match row with
  | none => true
  | some held =>
    let prior := held.authority
    let advancing :=
      0 < prior.sequence ∧ prior.sequence < authority.sequence ∧ authority.session = prior.session
    authority.sequence = 0 ∨ (prior.sequence ≠ 0 ∧ ¬advancing)

/-- `observed` is the row a reader saw before the writer was borrowed. -/
def promoteCurrentMailboxOwnership (w : World) (s : Mailboxes) (fence : Fence)
    (authority : Authority) (observed : Option Lease) : Except St3Error Mailboxes := do
  if promotionIsNoop observed authority then return s
  if promotionIsNoop (s.leases.get? fence.seat) authority then return s
  let some held := s.leases.get? fence.seat | return s
  if held.incarnation ≠ fence.incarnation ∨ held.token ≠ fence.token ∨ held.epoch ≠ fence.epoch then
    return s
  let prior := held.authority
  if held.revoked ∨ prior.pid ≠ authority.pid ∨ prior.processToken ≠ authority.processToken ∨
      prior.provider ≠ authority.provider then
    throw (refused "current custody belongs to another physical process")
  checkMailboxIncarnation w fence
  checkMailboxFence w s fence
  checkDeclaration w fence authority
  record s fence authority

def repairMailbox (w : World) (s : Mailboxes) (fence : Fence) (authority : Authority)
    (validate : Except St3Error Unit) : Except St3Error (Bool × Mailboxes) := do
  checkMailboxIncarnation w fence
  validate
  checkDeclaration w fence authority
  let some held :=
    s.leases.get? fence.seat | throw (refused "this binding has no authenticated recovery lease")
  if held.revoked ∨ held.token ≠ fence.token ∨ held.epoch ≠ fence.epoch ∨
      held.incarnation ≠ fence.incarnation ∨ held.authority ≠ authority then
    throw (refused "the authenticated mailbox lease is superseded or revoked")
  if s.bindings.get? fence.token ≠ some ⟨fence.seat, fence.incarnation, fence.epoch⟩ then
    throw (refused "the binding token was revoked")
  if (checkMailboxFence w s fence).toBool then return (false, s)
  if (s.owners.get? fence.seat).isSome then
    throw (refused "a successor owner cannot be rewound by recovery")
  let next := { s with owners := s.owners.put fence.seat ⟨fence.incarnation, fence.epoch⟩ }
  checkMailboxFence w next fence
  return (true, next)

inductive Label where
  | bind (w : World) (request : Fence) (credential : Credential) (validate : Except St3Error Unit)
  | promote (w : World) (fence : Fence) (authority : Authority) (observed : Option Lease)
  | repair (w : World) (fence : Fence) (authority : Authority) (validate : Except St3Error Unit)
  /-- The owner row of a component under lease is lost; repair brings it back. -/
  | lose (seat : Seat)

/-- A failed call changes nothing. -/
def Mailboxes.step (s : Mailboxes) : Label → Option Mailboxes
  | .bind w request credential validate =>
    match bindMailbox w s request credential validate with
    | .ok (_, t) => some t
    | .error _ => some s
  | .promote w fence authority observed =>
    match promoteCurrentMailboxOwnership w s fence authority observed with
    | .ok t => some t
    | .error _ => some s
  | .repair w fence authority validate =>
    match repairMailbox w s fence authority validate with
    | .ok (_, t) => some t
    | .error _ => some s
  | .lose seat =>
    if (s.leases.get? seat).isSome then some { s with owners := s.owners.delete seat } else none

def mailboxes : Machine Mailboxes Label where
  step := Mailboxes.step

end Smalltalk.Mailbox
