/-!
# Verdicts on claim signatures

Principals hold keys, key grants delegate them, and `judge` decides what a
claim's signature is worth from facts it asks the store. `principal.rs`.
-/

namespace Smalltalk.Principals

def keyGranted : String := "principal.key-granted"

inductive Role where
  | root
  | device
  | agent
  | plugin
  deriving DecidableEq

inductive Family where
  | node
  | person
  | agent
  | plugin
  deriving DecidableEq

def Role.debug : Role → String
  | .root => "Root"
  | .device => "Device"
  | .agent => "Agent"
  | .plugin => "Plugin"

def Family.debug : Family → String
  | .node => "Node"
  | .person => "Person"
  | .agent => "Agent"
  | .plugin => "Plugin"

def splitOnce (subject : String) : Option (String × String) :=
  match subject.toList.dropWhile (· ≠ '/') with
  | [] => none
  | _ :: rest => some (String.ofList (subject.toList.takeWhile (· ≠ '/')), String.ofList rest)

def Family.of (subject : String) : Option Family :=
  match splitOnce subject with
  | none => none
  | some (first, rest) =>
    if rest = "" then none
    else if first = "host" then some .node
    else if first = "person" then some .person
    else if first = "agent" then some .agent
    else if first = "plugin" then some .plugin
    else none

def Family.accepts (family : Family) (role : Role) (issuer : Family) (samePrincipal : Bool) :
    Bool :=
  match family, role with
  | .person, .root => issuer = .node
  | .person, .device => issuer = .person && samePrincipal
  | .agent, .agent => issuer = .node
  | .plugin, .plugin => issuer = .node
  | _, _ => false

def Family.signsWith (family : Family) (role : Role) : Bool :=
  match family, role with
  | .person, .device | .agent, .agent | .plugin, .plugin => true
  | _, _ => false

structure KeyGrant where
  key : String
  role : Role
  issuer : String
  issuerKey : String
  deriving DecidableEq

structure ClaimSignature where
  signer : String
  onBehalf : Option String
  key : String
  chain : List String
  nonce : String
  signedAtUnixMs : Nat
  signature : String
  format : Option String
  signedFields : List String

inductive Verdict where
  | verified
  | unsigned
  | held (reason : String)
  | invalid (reason : String)
  deriving DecidableEq

structure Library where
  Value : Type
  fromFields : Value → Option KeyGrant
  /-- The canonical text of a field, `null` for a missing one. -/
  fieldText : Value → String → String
  /-- `verify_key_signature` of the UTF-8 bytes of a text. -/
  verifyKeySignature : String → String → String → Bool

variable (library : Library)

structure Judged where
  id : String
  subject : String
  kind : String
  actor : Option String
  content : String
  fields : library.Value

structure Delegation where
  subject : String
  grant : KeyGrant
  verdict : Verdict

structure Facts where
  delegation : String → Option Delegation
  isRoot : String → String → Bool
  revokedBefore : String → String → Bool
  nonceUsedBefore : String → String → Bool

/-! ## Signed bytes -/

def claimSignatureDomain : String := "smallclaims-claim-v1"

def fieldsFormat : String := "fields-v1"

def fieldsDomain : String := "smallclaims-claim-fields-v1"

def ClaimSignature.signerText (signature : ClaimSignature) : String :=
  let onBehalf := signature.onBehalf.getD ""
  let chain := ",".intercalate signature.chain
  s!"{signature.signer}\n{onBehalf}\n{signature.key}\n{chain}\n{signature.nonce}\n{signature.signedAtUnixMs}"

def ClaimSignature.signingBytes (signature : ClaimSignature) (content : String) : String :=
  s!"{claimSignatureDomain}\n{content}\n" ++ signature.signerText

def sortedNames (names : List String) : List String :=
  (names.mergeSort fun a b => decide (a ≤ b)).eraseDups

variable {library}

def ClaimSignature.fieldsSigningBytes (signature : ClaimSignature) (claim : Judged library) :
    String :=
  let actor := claim.actor.getD ""
  let lines :=
    (sortedNames signature.signedFields).map
      fun name => name ++ "=" ++ library.fieldText claim.fields name ++ "\n"
  s!"{fieldsDomain}\n{claim.subject}\n{claim.kind}\n{actor}\n" ++ String.join lines ++
    signature.signerText

def ClaimSignature.verifies (signature : ClaimSignature) (claim : Judged library) : Bool :=
  match signature.format with
  | none =>
    library.verifyKeySignature signature.key
      (signature.signingBytes claim.content) signature.signature
  | some format =>
    if format = fieldsFormat ∧ signature.signedFields ≠ [] then
      library.verifyKeySignature signature.key
        (signature.fieldsSigningBytes claim) signature.signature
    else false

/-! ## The verdict -/

/-- The loop of `judge_chain`. The walk stands at `key` of `principal`, and `first`
is set at the signing key. -/
def judgeChain (claim : Judged library) (family : Family) (facts : Facts) :
    Bool → String → String → List String → Verdict
  | _, _, _, [] => .invalid "the chain does not reach a node"
  | first, principal, key, id :: rest =>
    match facts.delegation id with
    | none => .held s!"delegation {id} has not arrived"
    | some delegation =>
      if delegation.subject ≠ principal ∨ delegation.grant.key ≠ key then
        .invalid s!"delegation {id} does not grant the key the chain needs"
      else if first ∧ claim.kind ≠ keyGranted ∧ ¬ family.signsWith delegation.grant.role then
        .invalid s!"a {delegation.grant.role.debug} key does not sign claims"
      else if ¬ first ∧ delegation.grant.role ≠ .root then
        .invalid s!"delegation {id} cannot issue keys"
      else if facts.revokedBefore principal key then
        .invalid s!"the key of `{principal}` in the chain was revoked"
      else match delegation.verdict with
        | .held reason => .held reason
        | .unsigned => .invalid s!"delegation {id} is unsigned"
        | .invalid reason => .invalid s!"delegation {id} is invalid: {reason}"
        | .verified =>
          if Family.of delegation.grant.issuer = some .node then
            -- The delegation's own verdict checked the node key.
            if rest = [] then .verified else .invalid "the chain goes on past a node"
          else judgeChain claim family facts false delegation.grant.issuer
            delegation.grant.issuerKey rest

/-- What `judge` refuses of a key grant. -/
def judgeGrant (claim : Judged library) (signature : ClaimSignature) (family : Family) :
    Option String :=
  match library.fromFields claim.fields with
  | none => some "the key grant's fields are malformed"
  | some grant =>
    if grant.issuer = signature.signer ∧ grant.issuerKey = signature.key then
      match Family.of claim.subject with
      | none => some s!"`{claim.subject}` cannot hold keys"
      | some subjectFamily =>
        if subjectFamily.accepts grant.role family (claim.subject = grant.issuer) then none
        else some s!"a {family.debug} cannot grant a {grant.role.debug} key to `{claim.subject}`"
    else some "a key grant must be signed by its issuer's key"

def judge (claim : Judged library) (signature : Option ClaimSignature) (facts : Facts) : Verdict :=
  match signature with
  | none => .unsigned
  | some signature =>
    if ¬ signature.verifies claim then .invalid "the signature does not match the claim"
    else if facts.nonceUsedBefore signature.key signature.nonce then
      .invalid "the signature was used by an earlier claim"
    else if signature.onBehalf = some signature.signer then
      .invalid "a signer cannot act on its own behalf"
    else match Family.of signature.signer with
      | none => .invalid s!"`{signature.signer}` is not a principal"
      | some family =>
        match if claim.kind = keyGranted then judgeGrant claim signature family else none with
        | some reason => .invalid reason
        | none =>
          if family = .node then
            if signature.chain ≠ [] then .invalid "a node key needs no chain"
            else if facts.isRoot signature.signer signature.key then .verified
            else .held s!"fleet membership admits no such key for `{signature.signer}`"
          else if signature.chain = [] then .invalid "the signature names no delegation for its key"
          else judgeChain claim family facts true signature.signer signature.key signature.chain

end Smalltalk.Principals
