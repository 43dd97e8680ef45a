import Mathlib
import Smalltalk.Lib.Machine
import Smalltalk.Lib.Table
import Smalltalk.Lib.Texts

/-!
# Public names

Naming claims give an identity public names, each from the one before. The smallest claim
owns a name that several identities claim. The heads and names are folded from all held
claims, whenever triggers have marked that a claim or a repair came.
-/

namespace Smalltalk.Identities

inductive IdentityKind where
  | agent
  | mission
  deriving DecidableEq

namespace IdentityKind

def label : IdentityKind → String
  | agent => "agent"
  | mission => "mission"

def of (id : String) : Option IdentityKind :=
  if startsWith id "agent/" then some .agent
  else if startsWith id "mission/" then some .mission
  else none

end IdentityKind

inductive ClaimKind where
  | agentRenamed
  | missionRenamed
  | intentDesired
  | missionPublished
  | agentRetired
  | recordRepaired
  deriving DecidableEq

def ClaimKind.naming : ClaimKind → Option IdentityKind
  | agentRenamed => some .agent
  | missionRenamed => some .mission
  | _ => none

structure Desired where
  kind : String
  host : Option String
  deriving DecidableEq

structure Claim where
  kind : ClaimKind
  subject : String
  origin : String
  source : Option String := none
  target : Option String := none
  declaration : Option String := none
  ownerHost : Option String := none
  previousRevision : Option String := none
  operation : Option String := none
  desired : Option Desired := none
  predecessors : List String := []
  deriving DecidableEq

inductive RecordState where
  | pending | valid | unknown | invalid | repaired
  deriving DecidableEq

structure Record where
  state : RecordState
  claim : Option String := none
  subjectHint : Option String := none
  kindHint : Option String := none
  deriving DecidableEq

inductive Reason where
  | conflict
  | pendingReplication
  deriving DecidableEq

structure Head where
  kind : IdentityKind
  canonical : String
  revision : Option String
  blocked : Option Reason
  deriving DecidableEq

structure Name where
  identity : String
  claim : Option String
  deriving DecidableEq

structure Store where
  claims : Table String Claim := ∅
  records : Table String Record := ∅
  conflicts : List String := []
  heads : Table String Head := ∅
  names : Table String Name := ∅
  dirty : Bool := false

namespace Store

def repaired (s : Store) (claim : String) : Bool :=
  s.records.rows.any fun r => r.2.claim = some claim ∧ r.2.state = .repaired

end Store

/-! ## Reducing the naming claims -/

structure Fact where
  id : String
  kind : IdentityKind
  identity : String
  source : String
  target : String
  previous : Option String
  declaration : String
  origin : String
  repaired : Bool
  operationConflict : Bool
  deriving DecidableEq

/-- Its fields are texts, of the kind of the claim, and its owner wrote it. -/
def Claim.edge (claim : Claim) (kind : IdentityKind) : Option (String × String × String) :=
  match claim.source, claim.target, claim.declaration with
  | some source, some target, some declaration =>
    if IdentityKind.of claim.subject = some kind ∧ IdentityKind.of source = some kind ∧
        IdentityKind.of target = some kind ∧ claim.ownerHost = some claim.origin then
      some (source, target, declaration)
    else none
  | _, _, _ => none

structure Progress where
  heads : Table String Head
  done : List String := []
  advanced : Bool := false

structure Graph where
  claims : Table String Claim
  facts : List Fact
  repaired : String → Bool

def namings (claims : Table String Claim) : List (String × Claim × IdentityKind) :=
  (claims.rows.filterMap fun r => r.2.kind.naming.map fun kind => (r.1, r.2, kind)).mergeSort
    fun a b => a.1 ≤ b.1

def Store.graph (s : Store) : Graph where
  claims := s.claims
  facts := (namings s.claims).filterMap fun r => (r.2.1.edge r.2.2).map fun edge =>
    { id := r.1, kind := r.2.2, identity := r.2.1.subject, source := edge.1, target := edge.2.1,
      previous := r.2.1.previousRevision, declaration := edge.2.2, origin := r.2.1.origin,
      repaired := s.repaired r.1, operationConflict := r.2.1.operation.any s.conflicts.contains }
  repaired := s.repaired

def mentioned (claims : Table String Claim) : List String :=
  (namings claims).flatMap fun r => r.2.1.subject :: (r.2.1.target.toList ++ r.2.1.source.toList)

def declared (claims : Table String Claim) : List (String × IdentityKind) :=
  (claims.rows.filterMap fun r =>
    if r.2.kind = .intentDesired ∧ (mentioned claims).contains r.2.subject ∧
      IdentityKind.of r.2.subject = some .agent then
      some (r.2.subject, .agent)
    else none) ++
  claims.rows.filterMap fun r =>
    if r.2.kind = .missionPublished ∧ (mentioned claims).contains r.2.subject then
      some (r.2.subject, .mission) else none

def baseHeads (claims : Table String Claim) : Table String Head :=
  (namings claims).foldl (fun heads r =>
    let heads := heads.insert r.2.1.subject ⟨r.2.2, r.2.1.subject, none, some .pendingReplication⟩
    if (r.2.1.edge r.2.2).isSome then heads
    else heads.update r.2.1.subject fun head => { head with blocked := some .conflict })
    ((∅ : Table String Head).putAll ((declared claims).map fun r => (r.1, ⟨r.2, r.1, none, none⟩)))

def baseNames (claims : Table String Claim) : Table String Name :=
  (namings claims).foldl (fun names r => names.insert r.2.1.subject ⟨r.2.1.subject, none⟩)
    ((∅ : Table String Name).putAll ((declared claims).map fun r => (r.1, ⟨r.1, none⟩)))

namespace Graph

/-- The smallest claim of each name that is no identity's own. -/
def winners (g : Graph) : Table String String :=
  g.facts.foldl (fun winners fact =>
    if ((baseNames g.claims).get? fact.target).isSome then winners
    else winners.insert fact.target fact.id) ∅

def branches (g : Graph) (identity : String) (previous : Option String) : Nat :=
  (g.facts.filter fun fact =>
    !fact.repaired && fact.identity = identity && fact.previous = previous).length

/-- `retirements::declaration`, back over stops to what they stopped; `none` is an error. -/
def declarationOf (g : Graph) (subject : String) : Nat → String → List String → Option Desired
  | 0, _, _ => none
  | fuel + 1, token, visited =>
    (g.claims.get? token).bind fun claim =>
      if visited.contains token then none
      else if claim.subject ≠ subject ∨ claim.kind ≠ .intentDesired then none
      else claim.desired.bind fun desired =>
        if desired.kind = "agent" then some desired
        else
          match desired.kind, claim.predecessors with
          | "stop", [predecessor] => g.declarationOf subject fuel predecessor (token :: visited)
          | _, _ => none

def ownerAdmitted (g : Graph) (fact : Fact) : Bool :=
  let owner := match fact.kind with
    | .agent =>
      (g.declarationOf fact.identity (g.claims.rows.length + 1) fact.declaration []).bind (·.host)
    | .mission => (g.claims.get? fact.declaration).map (·.origin)
  owner = some fact.origin

def declares (fact : Fact) (claim : Claim) : Bool :=
  claim.subject = fact.identity && claim.kind = match fact.kind with
    | .agent => .intentDesired
    | .mission => .missionPublished

/-- Why a fact whose turn it is cannot be applied. The later checks overrule the first. -/
def refusal (g : Graph) (head : Head) (fact : Fact) : Option Reason :=
  let evidence := match g.claims.get? fact.declaration with
    | none => some Reason.pendingReplication
    | some claim => if declares fact claim && g.ownerAdmitted fact then none else some .conflict
  if g.repaired fact.declaration ∨ g.branches fact.identity fact.previous > 1 ∨
      g.winners.get? fact.target ≠ some fact.id ∨ fact.source ≠ head.canonical ∨
      fact.operationConflict then
    some .conflict
  else evidence

def apply (g : Graph) (head : Head) (fact : Fact) : Head :=
  match g.refusal head fact with
  | some reason => { head with blocked := some reason }
  | none =>
    if head.blocked = some .conflict then head
    else { head with blocked := none, canonical := fact.target, revision := some fact.id }

def consider (g : Graph) (p : Progress) (fact : Fact) : Progress :=
  if p.done.contains fact.id then p
  else if fact.repaired then { p with done := fact.id :: p.done }
  else
    match p.heads.get? fact.identity with
    | none => p
    | some head =>
      if fact.previous ≠ head.revision then p
      else
        { heads := p.heads.update fact.identity fun head => g.apply head fact
          done := fact.id :: p.done
          advanced := true }

def pass (g : Graph) (p : Progress) : Progress :=
  g.facts.foldl g.consider { p with advanced := false }

/-- Passes until one advances nothing. -/
def passes (g : Graph) : Nat → Progress → Progress
  | 0, p => p
  | fuel + 1, p => if (g.pass p).advanced then g.passes fuel (g.pass p) else g.pass p

def waitsFor (g : Graph) (fact : Fact) : Nat → Option String → List String → Reason
  | 0, _, _ => .conflict
  | _, none, _ => .conflict
  | fuel + 1, some id, visited =>
    if visited.contains id then .conflict
    else
      match g.facts.find? (·.id = id) with
      | none => .pendingReplication
      | some predecessor =>
        if predecessor.identity ≠ fact.identity ∨ predecessor.repaired then .conflict
        else g.waitsFor fact fuel predecessor.previous (id :: visited)

def heads (g : Graph) : Table String Head :=
  let p := g.passes (g.facts.length + 1) { heads := baseHeads g.claims }
  g.facts.foldl (fun heads fact =>
    if p.done.contains fact.id then heads
    else heads.update fact.identity fun head =>
      if head.blocked = none then
        { head with blocked := some (g.waitsFor fact (g.facts.length + 1) fact.previous []) }
      else head) p.heads

/-- Every target is reserved for its winner, then every asserted prior spelling. -/
def names (g : Graph) : Table String Name :=
  g.facts.foldl (fun names fact => names.insert fact.source ⟨fact.identity, some fact.id⟩)
    (g.facts.foldl (fun names fact =>
      if g.winners.get? fact.target = some fact.id then
        names.put fact.target ⟨fact.identity, some fact.id⟩ else names)
      (baseNames g.claims))

end Graph

namespace Store

def reduce (s : Store) (clear : Bool) : Store :=
  { s with
    heads := (if clear then ∅ else s.heads).putAll s.graph.heads.rows
    names := (if clear then ∅ else s.names).putAll s.graph.names.rows
    dirty := false }

end Store

/-! ## Resolving -/

inductive IdentityError where
  | crossKind (id : String) (kind : IdentityKind)
  | subject (id : String)
  | unavailable (id : String) (reason : Reason)
  | unknown (id : String)
  deriving DecidableEq

structure ResolvedIdentity where
  kind : IdentityKind
  identity : String
  canonical : String
  revision : Option String
  deriving DecidableEq

def lifecycleKinds : List String :=
  ["agent.renamed", "mission.renamed", "agent.retired", "intent.desired", "mission.published"]

namespace Store

def waiting (s : Store) (identity : String) : List Record :=
  (s.records.rows.map (·.2)).filter fun record => record.subjectHint = some identity ∧
    (record.state = .unknown ∨ record.state = .invalid) ∧
    record.kindHint.all lifecycleKinds.contains

def pending (s : Store) (identity : String) : Option Reason :=
  if (s.waiting identity).isEmpty then none
  else if (s.waiting identity).any (·.state = .invalid) then some .conflict
  else some .pendingReplication

section
variable (validSubject : String → Bool) (declarationToken : IdentityKind → String → Option String)

def validateName (kind : IdentityKind) (id : String) : Except IdentityError Unit :=
  if IdentityKind.of id ≠ some kind then .error (.crossKind id kind)
  else if validSubject id = false then .error (.subject id)
  else .ok ()

def joined (s : Store) (kind : IdentityKind) (id : String) : Option (String × Head) :=
  (s.names.get? id).bind fun name => (s.heads.get? name.identity).bind fun head =>
    if head.kind = kind then some (name.identity, head) else none

def available (s : Store) (resolved : ResolvedIdentity) (blocked : Option Reason) :
    Except IdentityError ResolvedIdentity :=
  match blocked.or (s.pending resolved.identity) with
  | some reason => .error (.unavailable resolved.identity reason)
  | none => .ok resolved

def resolveIdentity (s : Store) (kind : IdentityKind) (id : String) :
    Except IdentityError ResolvedIdentity :=
  (validateName validSubject kind id).bind fun _ =>
    match s.joined kind id with
    | some (identity, head) =>
      s.available ⟨kind, identity, head.canonical, head.revision⟩ head.blocked
    | none =>
      match s.pending id with
      | some reason => .error (.unavailable id reason)
      | none =>
        if (declarationToken kind id).isNone then .error (.unknown id)
        else s.available ⟨kind, id, id, none⟩ none

/-- `resolve_reference`, which reads names that today's grammar would refuse. -/
def resolveReference (s : Store) (id : String) : Except IdentityError String :=
  if (IdentityKind.of id).isNone then .ok id
  else
    let identity := ((s.names.get? id).map (·.identity)).getD id
    let blocked := ((s.names.get? id).bind fun name => s.heads.get? name.identity).bind (·.blocked)
    match blocked.or (s.pending identity) with
    | some reason => .error (.unavailable identity reason)
    | none => .ok identity

end

end Store

/-! ## Records arrive -/

inductive Label where
  | claim (id : String) (claim : Claim)
  | record (ref : String) (record : Record)
  | updateRecord (ref : String) (record : Record)
  | conflict (operation : String)
  | flush
  | rebuild

namespace Store

def step (s : Store) : Label → Option Store
  | .claim id claim =>
    if (s.claims.get? id).isSome then none
    else some { s with claims := s.claims.insert id claim, dirty := true }
  | .record ref record =>
    if (s.records.get? ref).isSome then none
    else some { s with records := s.records.insert ref record }
  | .updateRecord ref record =>
    (s.records.get? ref).map fun old =>
      { s with
        records := s.records.update ref fun _ => record
        dirty := s.dirty || (decide (old.state ≠ record.state) &&
          (decide (old.state = .repaired) || decide (record.state = .repaired))) }
  | .conflict operation => some { s with conflicts := operation :: s.conflicts }
  | .flush => some (if s.dirty then s.reduce false else s)
  | .rebuild => some (s.reduce true)

end Store

def identities : Machine Store Label where
  step := Store.step

end Smalltalk.Identities
