import Smalltalk.Redemption.Step

/-!
# A redemption that nothing interrupts

The handshake redeems an invite in one step, over the bytes of a request. Here it takes one step
for each read and write of the store. A request that reads its row and is then carried to its
answer with no step of another request between gives the answer of the one step, and leaves the
invites the one step leaves.
-/

namespace Smalltalk.Redemption

open Option Table
open Join (JoinRequest Bytes text FleetRedemption)

/-! ## Rows and requests as bytes -/

section
variable (encodeKey : String → Bytes)

def bytesOf (row : Invite) : Join.Invite Bytes where
  token := row.token
  name := row.name.map text
  migrate := row.migrate
  createdBy := row.createdBy
  boundKey := row.boundKey.map encodeKey
  boundName := row.boundName.map text
  failures := row.failures
  admittedClaim := row.admittedClaim
  writerFloor := row.writerFloor

/-- The sponsor's rows of the handshake are the rows of the store. -/
def Represents (sponsor : Nat) (stored : Table String Invite) (invites : Join.Invites) : Prop :=
  ∀ id, invites.get? (sponsor, text id) = (stored.get? id).map (bytesOf encodeKey)

structure Reads (node : Node) (request : JoinRequest) (r : Request) : Prop where
  invite : request.invite = text r.invite
  name : request.name = text r.name
  mode : request.mode = text r.mode
  memberKey : request.memberKey = encodeKey r.memberKey
  migrate : request.migrate = r.migrate
  wroteAsName : request.writerHead.isSome = r.wroteAsName
  verified : ∀ token, Join.verifyRequest request token = node.verifyRequest r token

end

theorem text_injective : Function.Injective text := by
  intro a b h
  have hl : a.toList = b.toList :=
    List.map_injective_iff.mpr (fun _ _ hc => Join.Term.char.inj hc) h
  exact String.toList_injective hl

section
variable {encodeKey : String → Bytes} {sponsor : Nat} {stored : Table String Invite}
    {invites : Join.Invites}

theorem Represents.update (h : Represents encodeKey sponsor stored invites) (id : String)
    {f : Invite → Invite} {g : Join.Invite Bytes → Join.Invite Bytes}
    (hf : ∀ row, g (bytesOf encodeKey row) = bytesOf encodeKey (f row)) :
    Represents encodeKey sponsor (stored.update id f) (invites.update (sponsor, text id) g) := by
  intro id'
  rw [get?_update, get?_update, h id']
  by_cases hi : id' = id
  · rw [if_pos hi, if_pos (by rw [hi]), h id]
    simp [Function.comp_def, hf]
  · have hn : (sponsor, text id') ≠ (sponsor, text id) :=
      fun he => hi (text_injective (Prod.mk.inj he).2)
    rw [if_neg hi, if_neg hn]

/-- The count of a failure and the revocation of the invite are two writes. -/
theorem Represents.fail (h : Represents encodeKey sponsor stored invites) (id : String)
    (failures : Nat) :
    Represents encodeKey sponsor
      (if failures ≥ Join.FLEET_INVITE_FAILURE_LIMIT then
        (stored.update id ({ · with failures })).update id Join.Invite.erase
      else stored.update id ({ · with failures }))
      (invites.update (sponsor, text id) (Join.Invite.fail failures)) := by
  by_cases hl : failures ≥ Join.FLEET_INVITE_FAILURE_LIMIT
  · rw [if_pos hl]
    intro id'
    have hu := h.update id (f := fun row => Join.Invite.erase { row with failures })
      (g := Join.Invite.fail failures)
        (fun row => by simp [Join.Invite.fail, Join.Invite.erase, bytesOf, hl]) id'
    rw [hu]
    by_cases hi : id' = id
    · simp [get?_update, hi, Function.comp_def]
    · simp [get?_update, hi]
  · rw [if_neg hl]
    exact h.update id fun row => by simp [Join.Invite.fail, bytesOf, hl]

variable {node : Node} {request : JoinRequest} {r : Request} {s : State}

/-- Reading the row is the step of an opened request. -/
theorem advance_of_lookup {token : Nat} {read : Join.Invite Bytes} (written : Written)
    (hr : Reads encodeKey node request r) (hi : Represents encodeKey sponsor s.invites invites)
    (h : invites.lookup sponsor request = .ok (token, read)) :
    ∃ row, read = bytesOf encodeKey row ∧
    s.advance node written ⟨r, .opened⟩ = (s, decideRow node r token row) := by
  obtain ⟨hg, ht⟩ := Join.lookup_eq_ok h
  rw [hr.invite, hi r.invite] at hg
  obtain ⟨row, hrow, rfl⟩ := Option.map_eq_some_iff.mp hg
  have ht : row.token = some token := ht
  exact ⟨row, rfl, by simp [State.advance, hrow, ht]⟩

end

/-! ## From the row to the answer -/

section
variable (node : Node) (written : Written) (r : Request)

def carry (next : State × Phase) : State × Phase := next.1.advance node written ⟨r, next.2⟩

/-- A request has its answer after at most five steps from the row it read. -/
def State.serve (s : State) (token : Nat) (row : Invite) : State × Phase :=
  (carry node written r)^[5] (s, decideRow node r token row)

variable {node written r} {s : State}

theorem carry_answered (n : Nat) (answer : FleetRedemption) :
    (carry node written r)^[n] (s, .answered answer) = (s, .answered answer) :=
  Function.iterate_fixed rfl n

theorem carry_aborted (n : Nat) : (carry node written r)^[n] (s, .aborted) = (s, .aborted) :=
  Function.iterate_fixed rfl n

/-- The request stops, or it is admitted under a claim that its row then notes. -/
def Admits (invites : Table String Invite) (r : Request) (token : Nat) (floor : Option Nat)
    (first : Bool) (last : State × Phase) : Prop :=
  last.2 = .aborted ∨ ∃ claim, last.2 = .answered (.admitted token floor claim first) ∧
    last.1.invites = invites.update r.invite (Join.Invite.admits claim)

section
variable (n token : Nat) (createdBy : Option String) (floor : Option Nat) (first : Bool)

theorem admits_appended (claim : String) :
    Admits s.invites r token floor first
      ((carry node written r)^[n + 1] (s, .appended token floor claim first)) := by
  rw [Function.iterate_succ_apply]
  simp only [carry, State.advance, carry_answered]
  exact .inr ⟨claim, rfl, rfl⟩

theorem admits_redeemed :
    Admits s.invites r token floor first
      ((carry node written r)^[n + 2] (s, .redeemed token createdBy floor first)) := by
  rw [Function.iterate_succ_apply]
  simp only [carry, State.advance]
  split
  next => exact admits_appended n token floor first written.id
  next stored claim _ =>
    split
    · exact admits_appended n token floor first claim
    · rw [carry_aborted]
      exact .inl rfl

theorem admits_admitting :
    Admits s.invites r token floor first
      ((carry node written r)^[n + 3] (s, .admitting token createdBy floor first)) := by
  rw [Function.iterate_succ_apply]
  simp only [carry, State.advance]
  split
  next => exact admits_redeemed n token createdBy floor first
  next =>
    split
    · exact admits_redeemed n token createdBy floor first
    · rw [carry_aborted]
      exact .inl rfl

end

end

section
variable {encodeKey : String → Bytes} {sponsor : Nat} {invites : Join.Invites} {node : Node}
  {request : JoinRequest} {r : Request} {s : State}

/-- The request stops, or ends as the one step does for some id of its admission. -/
def EndsAs (encodeKey : String → Bytes) (sponsor : Nat)
    (redeem : String → FleetRedemption × Join.Invites) (last : State × Phase) : Prop :=
  last.2 = .aborted ∨ ∃ answer claim, last.2 = .answered answer ∧ (redeem claim).1 = answer ∧
    Represents encodeKey sponsor last.1.invites (redeem claim).2

theorem Represents.endsAs_answered (hi : Represents encodeKey sponsor s.invites invites)
    (written : Written) (n : Nat) {answer : FleetRedemption}
    {redeem : String → FleetRedemption × Join.Invites}
    (h : ∀ claim, redeem claim = (answer, invites)) :
    EndsAs encodeKey sponsor redeem ((carry node written r)^[n] (s, .answered answer)) := by
  rw [carry_answered]
  exact .inr ⟨answer, "", rfl, by rw [h], by rwa [h]⟩

theorem Admits.endsAs {stored : Table String Invite} {token : Nat} {floor : Option Nat}
    {first : Bool} {last : State × Phase} {redeem : String → FleetRedemption × Join.Invites}
    (h : Admits stored r token floor first last) (hi : Represents encodeKey sponsor stored invites)
    (hr : ∀ claim, redeem claim =
      (.admitted token floor claim first,
      invites.update (sponsor, text r.invite) (Join.Invite.admits claim))) :
    EndsAs encodeKey sponsor redeem last := by
  rcases h with h | ⟨claim, ha, hs⟩
  · exact .inl h
  · refine .inr ⟨_, claim, ha, by rw [hr], ?_⟩
    rw [hs, hr]
    exact hi.update r.invite fun row => rfl

theorem Represents.endsAs_failing (hi : Represents encodeKey sponsor s.invites invites)
    (written : Written) (n failures : Nat) :
    EndsAs encodeKey sponsor
      (fun _ =>
        (.refused "proof", invites.update (sponsor, text r.invite) (Join.Invite.fail failures)))
      ((carry node written r)^[n + 2] (s, .failing failures)) := by
  have hf := hi.fail r.invite failures
  rw [Function.iterate_succ_apply, Function.iterate_succ_apply]
  simp only [carry, State.advance, carry_answered]
  refine .inr ⟨_, "", rfl, rfl, ?_⟩
  by_cases hl : failures ≥ Join.FLEET_INVITE_FAILURE_LIMIT
  · simpa only [if_pos hl] using hf
  · simpa only [if_neg hl] using hf

theorem Represents.endsAs_checked (hi : Represents encodeKey sponsor s.invites invites)
    (written : Written) (n token : Nat) (createdBy : Option String) :
    EndsAs encodeKey sponsor
      (fun claim =>
        match fleetNameFloor (s.membership node) s.claims
          (s.held.get? r.name) r.name r.wroteAsName r.migrate with
        | .error reason => (.refused reason, invites)
        | .ok floor =>
          if (invites.get? (sponsor, text r.invite)).any Join.Invite.unbound then
            (.admitted token floor claim true,
              (invites.update (sponsor, text r.invite)
                (Join.Invite.bind (encodeKey r.memberKey) (text r.name) floor)).update
                  (sponsor, text r.invite)
                (Join.Invite.admits claim))
          else (.refused "bound-to-another-key", invites))
      ((carry node written r)^[n + 5] (s, .checked token createdBy)) := by
  have hu : (invites.get? (sponsor, text r.invite)).any Join.Invite.unbound =
      (s.invites.get? r.invite).any Join.Invite.unbound := by
    rw [hi r.invite]
    cases s.invites.get? r.invite <;> simp [bytesOf, Join.Invite.unbound]
  rw [Function.iterate_succ_apply]
  simp only [carry, State.advance, hu]
  cases fleetNameFloor (s.membership node) s.claims
      (s.held.get? r.name) r.name r.wroteAsName r.migrate with
  | error reason => exact hi.endsAs_answered written (n + 4) fun _ => rfl
  | ok floor =>
    simp only
    rw [Function.iterate_succ_apply]
    simp only [carry, State.advance]
    by_cases hb : (s.invites.get? r.invite).any Join.Invite.unbound = true
    · have hbind := hi.update r.invite (f := Join.Invite.bind r.memberKey r.name floor)
        (g := Join.Invite.bind (encodeKey r.memberKey) (text r.name) floor) fun row => rfl
      simp only [if_pos hb]
      exact (admits_admitting n token createdBy floor true).endsAs hbind fun _ => rfl
    · simp only [if_neg hb]
      exact hi.endsAs_answered written (n + 3) fun _ => rfl

/-- Carried on alone from the row it read, a request ends as the handshake's one step ends, on the
row it read then and the invites of now. -/
theorem serve_redeems (hkey : Function.Injective encodeKey) (hr : Reads encodeKey node request r)
    (hi : Represents encodeKey sponsor s.invites invites) (written : Written) (token : Nat)
    (row : Invite) :
    EndsAs encodeKey sponsor
      (invites.redeem sponsor request token (bytesOf encodeKey row)
        (fleetNameFloor (s.membership node) s.claims
          (s.held.get? r.name) r.name r.wroteAsName r.migrate))
      (s.serve node written r token row) := by
  have hname : (row.name.map text).any (¬ · = text r.name) = row.name.any (¬ · = r.name) := by
    cases row.name <;> simp [text_injective.eq_iff]
  have hboundName : (row.boundName.map text = some (text r.name)) =
      (row.boundName = some r.name) := by
    cases row.boundName <;> simp [text_injective.eq_iff]
  unfold State.serve decideRow
  show EndsAs encodeKey sponsor (fun claim => invites.redeem _ _ _ _ _ claim) _
  simp only [Join.Invites.redeem, hr.verified, hr.migrate, hr.name, hr.mode, hr.memberKey,
    hr.invite, bytesOf, ne_eq, hname, hboundName, text_injective.eq_iff]
  cases node.verifyRequest r token with
  | error fault =>
    cases fault with
    | proof => exact hi.endsAs_failing written 3 (row.failures + 1)
    | protocol | signature => exact hi.endsAs_answered written 5 fun _ => rfl
  | ok =>
    by_cases hm : ¬ r.migrate = row.migrate
    · simp only [if_pos hm]
      exact hi.endsAs_answered written 5 fun _ => rfl
    simp only [if_neg hm]
    split
    · exact hi.endsAs_answered written 5 fun _ => rfl
    cases row.boundKey with
    | none => exact hi.endsAs_checked written 0 token row.createdBy
    | some bound =>
      simp only [map_some, hkey.eq_iff]
      split
      · exact hi.endsAs_answered written 5 fun _ => rfl
      cases row.admittedClaim with
      | some claim => exact hi.endsAs_answered written 5 fun _ => rfl
      | none =>
        exact (admits_admitting 2 token row.createdBy row.writerFloor false).endsAs hi fun _ => rfl

end

end Smalltalk.Redemption
