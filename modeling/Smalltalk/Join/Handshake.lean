import Smalltalk.Lib.Table
import Smalltalk.Join.Terms

/-!
# The join handshake

The joiner proves the invite token with an HMAC over the request and signs it with its
member key. The sponsor looks the invite up, checks the request, seals the payload for the
joiner and signs the answer.
-/

namespace Smalltalk.Join

def PROTOCOL : Bytes := text "st3-join-v1"

structure WriterHead where
  sequence : Nat
  hash : Bytes
  deriving DecidableEq

structure JoinRequest where
  protocol : Bytes
  invite : Bytes
  name : Bytes
  mode : Bytes
  memberKey : Bytes
  ephemeral : Bytes
  writerHead : Option WriterHead
  build : Bytes
  migrate : Bool
  proof : Bytes
  signature : Bytes
  deriving DecidableEq

def jsonBool (b : Bool) : Bytes := if b then text "true" else text "false"

def jsonHead : Option WriterHead → Bytes
  | none => text "null"
  | some head =>
    text "\x7b\"hash\":" ++ (quote head.hash ++
      (text ",\"sequence\":" ++ (decimal head.sequence ++ text "\x7d")))

/-- Every field except the proof and signature, as JSON with sorted keys. -/
def JoinRequest.transcript (r : JoinRequest) : Bytes :=
  text "\x7b\"build\":" ++ (quote r.build ++ (text ",\"ephemeral\":" ++ (quote r.ephemeral ++
    (text ",\"invite\":" ++ (quote r.invite ++ (text ",\"member_key\":" ++ (quote r.memberKey ++
      (text ",\"migrate\":" ++ (jsonBool r.migrate ++ (text ",\"mode\":" ++ (quote r.mode ++
        (text ",\"name\":" ++ (quote r.name ++ (text ",\"protocol\":" ++ (quote r.protocol ++
          (text ",\"writer_head\":" ++ (jsonHead r.writerHead ++ text "\x7d")))))))))))))))))

structure JoinResponse where
  protocol : Bytes
  sponsor : Bytes
  sponsorKey : Bytes
  ephemeral : Bytes
  nonce : Bytes
  sealed : Bytes
  signature : Bytes
  deriving DecidableEq

def JoinResponse.signedBytes (response : JoinResponse) (request : JoinRequest) : Bytes :=
  request.transcript ++ lines newline
    [request.proof, response.sponsor, response.sponsorKey, response.ephemeral, response.nonce,
      response.sealed]

def proof (token : Nat) (transcript : Bytes) : Term := .mac (.token token) (pack transcript)

def aad (transcript sponsorKey : Bytes) (sponsorEphemeral : Term) : Term :=
  .hash (pack (transcript ++ sponsorKey ++ encode sponsorEphemeral))

def sealKey (shared : Term) (token : Nat) (aad : Term) : Term := .sealKey shared (.token token) aad

structure JoinCode where
  invite : Bytes
  token : Nat
  fingerprint : Term
  migrate : Bool

structure Joiner where
  ephemeral : Nat
  token : Nat
  fingerprint : Term
  request : JoinRequest
  deriving DecidableEq

def unsignedRequest (code : JoinCode) (member ephemeral : Nat) (name mode : Bytes)
    (writerHead : Option WriterHead) (build : Bytes) : JoinRequest :=
  { protocol := PROTOCOL, invite := code.invite, name, mode,
    memberKey := encode (.memberPublic member)
    ephemeral := encode (.ephemeralPublic ephemeral), writerHead, build, migrate := code.migrate
    proof := [], signature := [] }

def Joiner.start (code : JoinCode) (member ephemeral : Nat) (name mode : Bytes)
    (writerHead : Option WriterHead) (build : Bytes) : Joiner :=
  let request := unsignedRequest code member ephemeral name mode writerHead build
  let transcript := request.transcript
  { ephemeral, token := code.token, fingerprint := code.fingerprint
    request := { request with
      proof := encode (proof code.token transcript)
      signature := encode (.signature member (pack transcript)) } }

/-- Check the sponsor and open what it sealed. -/
def Joiner.opens (joiner : Joiner) (response : JoinResponse) : Except String Nat := do
  if response.protocol ≠ PROTOCOL then throw "the sponsor speaks another join protocol"
  if Join.fingerprint response.sponsorKey ≠ joiner.fingerprint then
    throw "the sponsor's key does not match the join code; this is not the machine that made it"
  if !verifySignature response.sponsorKey (response.signedBytes joiner.request)
      response.signature then
    throw "the sponsor's answer is not signed by its key"
  let some sponsorEphemeral :=
    decode response.ephemeral | throw "the join message has invalid base64"
  let aad := aad joiner.request.transcript response.sponsorKey sponsorEphemeral
  let some shared :=
    agree joiner.ephemeral sponsorEphemeral | throw "the sponsor's ephemeral key is invalid"
  let key := sealKey shared joiner.token aad
  let some nonce := decode response.nonce | throw "the join message has invalid base64"
  match decode response.sealed with
  | some (.sealed key' nonce' aad' opened) =>
    if key' = key ∧ nonce' = nonce ∧ aad' = aad then
      match opened with
      | .payload n => pure n
      | _ => throw "decode the sealed join answer"
    else throw "the sealed join answer does not open"
  | some _ => throw "the sealed join answer does not open"
  | none => throw "the join message has invalid base64"

inductive RequestFault where
  | protocol
  | proof
  | signature
  deriving DecidableEq

def verifyRequest (request : JoinRequest) (token : Nat) : Except RequestFault Unit :=
  if request.protocol ≠ PROTOCOL then .error .protocol
  else match decode request.proof with
    | none => .error .proof
    | some expected =>
      if proof token request.transcript ≠ expected then .error .proof
      else if !verifySignature request.memberKey request.transcript request.signature then
        .error .signature
      else .ok ()

/-- Seal a payload for the joiner that sent `request` and sign the answer. -/
def sealResponse (request : JoinRequest) (token : Nat) (sponsor : Bytes)
    (sponsorKey ephemeral nonce payload : Nat) :
    Option JoinResponse := do
  let joinerEphemeral ← decode request.ephemeral
  let aad := aad request.transcript (encode (.memberPublic sponsorKey)) (.ephemeralPublic ephemeral)
  let shared ← agree ephemeral joinerEphemeral
  let response : JoinResponse :=
    { protocol := PROTOCOL, sponsor, sponsorKey := encode (.memberPublic sponsorKey)
      ephemeral := encode (.ephemeralPublic ephemeral), nonce := encode (.data nonce)
      sealed := encode (.sealed (sealKey shared token aad) (.data nonce) aad (.payload payload))
      signature := [] }
  pure { response with
    signature := encode (.signature sponsorKey (pack (response.signedBytes request))) }

def FLEET_INVITE_FAILURE_LIMIT : Nat := 5

def nameChar : Term → Bool
  | .char c => c.isAlphanum || c = '.' || c = '_' || c = '-'
  | _ => false

def nameStart : Term → Bool
  | .char c => c.isAlphanum
  | _ => false

def validFleetNodeName (name : Bytes) : Bool :=
  !name.isEmpty && name.length ≤ 63 && name ≠ text "local" && name.head?.any nameStart &&
  name.all nameChar

/-! ## Redeeming an invite -/

/-- A row of `fleet_invite_tokens`, over the texts of a name and a key. -/
structure Invite (τ : Type) where
  token : Option Nat
  name : Option τ
  migrate : Bool
  createdBy : Option String
  boundKey : Option τ
  boundName : Option τ
  failures : Nat
  admittedClaim : Option String
  writerFloor : Option Nat
  deriving DecidableEq

inductive FleetRedemption where
  | closed
  | refused (reason : String)
  | admitted (token : Nat) (writerFloor : Option Nat) (admittedClaim : String) (first : Bool)
  deriving DecidableEq

section
variable {τ : Type}

def newInvite (token : Nat) (name : Option τ) (migrate : Bool) (createdBy : Option String) :
    Invite τ :=
  ⟨some token, name, migrate, createdBy, none, none, 0, none, none⟩

def Invite.erase (row : Invite τ) : Invite τ := { row with token := none }

def Invite.fail (failures : Nat) (row : Invite τ) : Invite τ :=
  { row with failures, token := if failures ≥ FLEET_INVITE_FAILURE_LIMIT then none else row.token }

def Invite.admits (claim : String) (row : Invite τ) : Invite τ :=
  { row with admittedClaim := some claim }

def Invite.bind (memberKey name : τ) (floor : Option Nat) (row : Invite τ) : Invite τ :=
  { row with boundKey := some memberKey, boundName := some name, writerFloor := floor }

def Invite.unbound (row : Invite τ) : Bool := row.boundKey.isNone && row.token.isSome

end

abbrev Invites := Table (Nat × Bytes) (Invite Bytes)

def Invites.hasOpen (invites : Invites) (sponsor : Nat) : Bool :=
  invites.rows.any fun row => row.1.1 = sponsor && row.2.token.isSome

/-- The first half of `redeem_fleet_invite`, up to the row that was read. -/
def Invites.lookup (invites : Invites) (sponsor : Nat) (request : JoinRequest) :
    Except FleetRedemption (Nat × Invite Bytes) :=
  if !invites.hasOpen sponsor then .error .closed
  else match invites.get? (sponsor, request.invite) with
    | none => .error (.refused "unknown-invite")
    | some row =>
      match row.token with
      | none => .error (.refused "unknown-invite")
      | some token => .ok (token, row)

theorem lookup_eq_ok {invites : Invites} {sponsor token : Nat} {request : JoinRequest}
    {row : Invite Bytes} (h : invites.lookup sponsor request = .ok (token, row)) :
    invites.get? (sponsor, request.invite) = some row ∧ row.token = some token := by
  unfold Invites.lookup at h
  repeat' split at h
  all_goals simp_all

/-- The second half in one step, on the row that was read. The name's floor and the id of the
admission are what the sponsor's store answers. -/
def Invites.redeem (invites : Invites) (sponsor : Nat) (request : JoinRequest) (token : Nat)
    (row : Invite Bytes) (nameFloor : Except String (Option Nat)) (claim : String) :
    FleetRedemption × Invites :=
  let key := (sponsor, request.invite)
  match verifyRequest request token with
  | .error .proof => (.refused "proof", invites.update key (Invite.fail (row.failures + 1)))
  | .error _ => (.refused "request", invites)
  | .ok () =>
    if request.migrate ≠ row.migrate then (.refused "kind", invites)
    else if row.name.any (· ≠ request.name) || !validFleetNodeName request.name ||
        !(request.mode = text "listening" || request.mode = text "dial-out") then
          (.refused "name", invites)
    else match row.boundKey with
      | some bound =>
        if bound ≠ request.memberKey || row.boundName ≠ some request.name then
          (.refused "bound-to-another-key", invites)
        else match row.admittedClaim with
          | some claim => (.admitted token row.writerFloor claim false, invites)
          | none =>
            (.admitted token row.writerFloor claim false, invites.update key (Invite.admits claim))
      | none =>
        match nameFloor with
        | .error reason => (.refused reason, invites)
        | .ok floor =>
          if (invites.get? key).any Invite.unbound then
            (.admitted token floor claim true,
              (invites.update key (Invite.bind request.memberKey request.name floor)).update key
                (Invite.admits claim))
          else (.refused "bound-to-another-key", invites)

end Smalltalk.Join
