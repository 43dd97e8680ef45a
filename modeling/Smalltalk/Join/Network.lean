import Smalltalk.Join.Handshake

/-!
# Joiners, sponsors and an attacker

Any number of honest joiners and sponsors run the handshake at once. Every message goes
through the attacker, who may deliver whatever they can derive. Honest parties draw tokens,
keys and payloads the attacker does not hold.
-/

namespace Smalltalk.Join

structure Sponsor where
  key : Nat
  node : Bytes
  node_valid : validFleetNodeName node = true

structure Pending where
  sponsor : Sponsor
  request : JoinRequest
  token : Nat
  row : Invite Bytes

structure Answer where
  sponsor : Sponsor
  request : JoinRequest
  token : Nat
  payload : Nat
  response : JoinResponse

structure Opened where
  joiner : Joiner
  payload : Nat

structure State where
  invites : Invites
  sessions : List Joiner
  pending : List Pending
  seen : List Term
  issued : List (Nat × Bytes × Nat)
  started : List Joiner
  answers : List Answer
  opened : List Opened

def State.initial : State := ⟨∅, [], [], [], [], [], [], []⟩

def headSymbols : Option WriterHead → Bytes
  | none => []
  | some head => decimal head.sequence ++ head.hash

def JoinRequest.symbols (r : JoinRequest) : Bytes :=
  r.protocol ++ r.invite ++ r.name ++ r.mode ++ r.memberKey ++ r.ephemeral ++
    headSymbols r.writerHead ++ r.build ++
    r.proof ++ r.signature

def JoinResponse.symbols (r : JoinResponse) : Bytes :=
  r.protocol ++ r.sponsor ++ r.sponsorKey ++ r.ephemeral ++ r.nonce ++ r.sealed ++ r.signature

def State.start (s : State) (joiner : Joiner) : State :=
  { s with
    sessions := joiner :: s.sessions
    started := joiner :: s.started
    seen := joiner.request.symbols ++ s.seen }

/-- The sponsor's answer to a request: nothing, unless it is admitted. -/
def State.answer (s : State) (rest : List Pending) (p : Pending)
    (nameFloor : Except String (Option Nat)) (claim : String) (ephemeral nonce payload : Nat) :
    State :=
  let redeemed := s.invites.redeem p.sponsor.key p.request p.token p.row nameFloor claim
  let s := { s with invites := redeemed.2, pending := rest }
  match redeemed.1 with
  | .admitted token _ _ _ =>
    match sealResponse p.request token p.sponsor.node p.sponsor.key ephemeral nonce payload with
    | some response =>
      { s with
        seen := response.symbols ++ s.seen
        answers := ⟨p.sponsor, p.request, token, payload, response⟩ :: s.answers }
    | none => s
  | _ => s

/-- The joiner gives up its half whether or not the answer opens. -/
def State.open (s : State) (rest : List Joiner) (joiner : Joiner) (response : JoinResponse) :
    State :=
  match joiner.opens response with
  | .ok payload => { s with sessions := rest, opened := ⟨joiner, payload⟩ :: s.opened }
  | .error _ => { s with sessions := rest }

section
variable (held : Held)

inductive Step : State → State → Prop
  | invite (s : State) (sponsor : Sponsor) (id : Bytes) (token : Nat) (name : Option Bytes)
      (migrate : Bool)
      (createdBy : Option String) (hsponsor : sponsor.key ∉ held.members)
        (htoken : token ∉ held.tokens)
      (hname : name.all validFleetNodeName = true) :
      Step s { s with
        invites := s.invites.insert (sponsor.key, id) (newInvite token name migrate createdBy)
        issued := (sponsor.key, id, token) :: s.issued }
  | sweep (s : State) (key : Nat × Bytes) :
      Step s { s with invites := s.invites.update key Invite.erase }
  | start (s : State) (code : JoinCode) (member ephemeral : Nat) (name mode : Bytes)
      (writerHead : Option WriterHead)
      (build : Bytes) (hmember : member ∉ held.members) (hephemeral : ephemeral ∉ held.ephemerals)
      (htexts : ∀ t ∈ code.invite ++ name ++ mode ++ headSymbols writerHead ++ build,
        Derives held s.seen t) :
      Step s (s.start (Joiner.start code member ephemeral name mode writerHead build))
  | receive (s : State) (sponsor : Sponsor) (request : JoinRequest) (token : Nat)
      (row : Invite Bytes)
      (hsponsor : sponsor.key ∉ held.members)
        (hrequest : ∀ t ∈ request.symbols, Derives held s.seen t)
      (hlookup : s.invites.lookup sponsor.key request = .ok (token, row)) :
      Step s { s with pending := ⟨sponsor, request, token, row⟩ :: s.pending }
  | answer (s : State) (before after : List Pending) (p : Pending)
      (nameFloor : Except String (Option Nat))
      (claim : String) (ephemeral nonce payload : Nat) (hpending : s.pending = before ++ p :: after)
      (hephemeral : ephemeral ∉ held.ephemerals) (hpayload : payload ∉ held.payloads) :
      Step s (s.answer (before ++ after) p nameFloor claim ephemeral nonce payload)
  | open (s : State) (before after : List Joiner) (joiner : Joiner) (response : JoinResponse)
      (hsession : s.sessions = before ++ joiner :: after)
      (hresponse : ∀ t ∈ response.symbols, Derives held s.seen t) :
      Step s (s.open (before ++ after) joiner response)

def Reachable (s : State) : Prop := Relation.ReflTransGen (Step held) State.initial s

end

end Smalltalk.Join
