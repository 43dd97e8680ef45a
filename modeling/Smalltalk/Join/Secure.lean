import Smalltalk.Join.Network
import Smalltalk.Join.Binding

/-!
# Authenticity and secrecy of the join handshake

What the attacker can derive is guarded: it holds no honest key, every proof under an honest
token and every signature by an honest key was made by an honest party, and what an honest
sponsor sealed stays closed. The guard is closed under derivation and kept by every step.
-/

namespace Smalltalk.Join

open List Table

section
variable (held : Held) (started : List Joiner) (answers : List Answer)

/-- A key that opens an honest answer: its secret and its token are both honest. -/
def Closed (key : Term) : Prop :=
  ∃ x y n aad, key = .sealKey (.shared x y) (.token n) aad ∧ x ∉ held.ephemerals ∧
  y ∉ held.ephemerals ∧ n ∉ held.tokens

def Guarded : Term → Prop
  | .token n => n ∈ held.tokens
  | .payload n => n ∈ held.payloads
  | .memberKey k => k ∈ held.members
  | .ephemeralKey x => x ∈ held.ephemerals
  | .shared x y => x ∈ held.ephemerals ∨ y ∈ held.ephemerals
  | .cons a b => Guarded a ∧ Guarded b
  | .mac key m => Guarded key ∨ ∃ j ∈ started, key = .token j.token ∧ m = pack j.request.transcript
  | .signature k m => k ∈ held.members ∨ (∃ j ∈ started, m = pack j.request.transcript) ∨
      ∃ a ∈ answers, a.sponsor.key = k ∧ m = pack (a.response.signedBytes a.request)
  | .sealKey secret token _ => Guarded secret ∧ Guarded token
  | .sealed key _ _ p => Closed held key ∨ Guarded p
  | _ => True

variable {held started answers}

theorem Guarded.mono {started' : List Joiner} {answers' : List Answer} (hs : started ⊆ started')
    (hn : answers ⊆ answers') {t : Term} (h : Guarded held started answers t) :
    Guarded held started' answers' t := by
  induction t with
  | cons a b iha ihb => exact ⟨iha h.1, ihb h.2⟩
  | mac key m ihkey _ =>
    rcases h with h | ⟨j, hj, h⟩
    · exact .inl (ihkey h)
    · exact .inr ⟨j, hs hj, h⟩
  | signature k m _ =>
    rcases h with h | ⟨j, hj, h⟩ | ⟨a, ha, h⟩
    · exact .inl h
    · exact .inr (.inl ⟨j, hs hj, h⟩)
    · exact .inr (.inr ⟨a, hn ha, h⟩)
  | sealKey secret token aad ihs iht _ => exact ⟨ihs h.1, iht h.2⟩
  | sealed key nonce aad p _ _ _ ihp =>
    rcases h with h | h
    · exact .inl h
    · exact .inr (ihp h)
  | _ => exact h

/-- An honest answer's key is not one the attacker comes to know. -/
theorem Closed.not_guarded {key : Term} (h : Closed held key) :
    ¬ Guarded held started answers key := by
  obtain ⟨x, y, n, aad, rfl, hx, hy, hn⟩ := h
  rintro ⟨hs, -⟩
  exact hs.elim hx hy

/-- The guard is closed under everything the attacker can do. -/
theorem guarded_of_derives {seen : List Term}
    (hs : ∀ t ∈ seen, Guarded held started answers t) {t : Term}
    (h : Derives held seen t) : Guarded held started answers t := by
  induction h with
  | seen h => exact hs _ h
  | char | data | memberPublic | ephemeralPublic | nil | hash => trivial
  | token h | payload h | memberKey h | ephemeralKey h => exact h
  | cons _ _ iha ihb => exact ⟨iha, ihb⟩
  | head _ ih => exact ih.1
  | tail _ ih => exact ih.2
  | mac _ _ ihkey _ => exact .inl ihkey
  | signature _ _ ihk _ => exact .inl ihk
  | @agree x peer secret _ _ ha ihx _ =>
    obtain ⟨y, -, rfl⟩ := agree_eq_some ha
    have hx : x ∈ held.ephemerals := ihx
    rcases le_total x y with hy | hy
    · exact .inl (by rwa [min_eq_left hy])
    · exact .inr (by rwa [max_eq_left hy])
  | sealKey _ _ _ ihs iht _ => exact ⟨ihs, iht⟩
  | sealed _ _ _ _ _ _ _ ihp => exact .inr ihp
  | opened _ _ i ihkey => exact i.resolve_left fun hc => hc.not_guarded ihkey

end

section
variable (held : Held)

structure Joiner.Made (joiner : Joiner) : Prop where
  ephemeral : joiner.ephemeral ∉ held.ephemerals
  request_ephemeral : joiner.request.ephemeral = encode (.ephemeralPublic joiner.ephemeral)
  proof : joiner.request.proof = encode (proof joiner.token joiner.request.transcript)
  signature : ∃ k, joiner.request.memberKey = encode (.memberPublic k) ∧
    joiner.request.signature = encode (.signature k (pack joiner.request.transcript))

structure Answer.Made (issued : List (Nat × Bytes × Nat)) (a : Answer) : Prop where
  verified : verifyRequest a.request a.token = .ok ()
  issued : (a.sponsor.key, a.request.invite, a.token) ∈ issued
  payload : a.payload ∉ held.payloads
  response : ∃ ephemeral nonce,
    sealResponse a.request a.token a.sponsor.node a.sponsor.key ephemeral nonce a.payload =
      some a.response

def Opened.Authentic (issued : List (Nat × Bytes × Nat)) (answers : List Answer) (o : Opened) :
    Prop :=
  ∃ k, o.joiner.fingerprint = fingerprint (encode (.memberPublic k)) ∧ (k ∈ held.members ∨
      ∃ a ∈ answers, a.sponsor.key = k ∧ a.request = o.joiner.request ∧
        a.request.ephemeral = encode (.ephemeralPublic o.joiner.ephemeral) ∧
        a.token = o.joiner.token ∧ (k, o.joiner.request.invite, o.joiner.token) ∈ issued ∧
        a.payload = o.payload)

structure Invariant (s : State) : Prop where
  seen : ∀ t ∈ s.seen, Guarded held s.started s.answers t
  started : ∀ j ∈ s.started, j.Made held
  sessions : s.sessions ⊆ s.started
  issued : ∀ e ∈ s.issued, e.2.2 ∉ held.tokens
  tokens : ∀ key row token, s.invites.get? key = some row → row.token = some token →
    (key.1, key.2, token) ∈ s.issued
  pending : ∀ p ∈ s.pending, (p.sponsor.key, p.request.invite, p.token) ∈ s.issued ∧
    ∀ t ∈ p.request.symbols, Guarded held s.started s.answers t
  answers : ∀ a ∈ s.answers, a.Made held s.issued
  opened : ∀ o ∈ s.opened, o.Authentic held s.issued s.answers

end

variable {held : Held} {s : State}

theorem Invariant.guarded (h : Invariant held s) {t : Term} (ht : Derives held s.seen t) :
    Guarded held s.started s.answers t :=
  guarded_of_derives h.seen ht

variable {issued : List (Nat × Bytes × Nat)} {a : Answer}

theorem newline_notMem_parts (ha : a.Made held issued) :
    ∀ part ∈ [a.request.proof, a.response.sponsor, a.response.sponsorKey, a.response.ephemeral,
      a.response.nonce, a.response.sealed], newline ∉ part := by
  obtain ⟨e, nonce, hr⟩ := ha.response
  obtain ⟨x, -, hf⟩ := sealResponse_eq_some hr
  rw [hf, (verifyRequest_eq_ok ha.verified).1]
  intro part hp
  simp only [mem_cons, not_mem_nil, or_false] at hp
  rcases hp with rfl | rfl | rfl | rfl | rfl | rfl
  · exact newline_notMem_encode nofun
  · exact newline_notMem_of_valid a.sponsor.node_valid
  all_goals exact newline_notMem_encode nofun

/-- An honest key signs the bytes of an answer only for the request it was asked with: the lines
split in one way, and the transcript fixes every field. -/
theorem request_eq_of_signedBytes (ha : a.Made held issued) {j : Joiner} (hj : j.Made held)
    {r : JoinResponse} (h : a.response.signedBytes a.request = r.signedBytes j.request) :
    a.request = j.request ∧ a.token = j.token ∧ a.response.sealed = r.sealed := by
  unfold JoinResponse.signedBytes at h
  obtain ⟨ht, hp⟩ := lines_inj (newline_notMem_transcript _) (newline_notMem_parts ha) (by simp) h
  simp only [List.cons.injEq, and_true] at hp
  obtain ⟨hr, -, -, -, -, hl⟩ := hp
  obtain ⟨hv, k, hy, hs⟩ := verifyRequest_eq_ok ha.verified
  obtain ⟨k', hy', hs'⟩ := hj.signature
  have hf := transcript_inj ht
  have hk : k = k' := by
    have hm : a.request.memberKey = j.request.memberKey := by rw [hf]
    simpa [hy, hy', encode] using hm
  refine ⟨?_, ?_, hl⟩
  · rw [hf, hr, hs, hk, ht, ← hs']
  · rw [hv, hj.proof, ht] at hr
    simpa [encode, Join.proof] using hr

theorem Invariant.authentic (h : Invariant held s) {joiner : Joiner} (hj : joiner ∈ s.sessions)
    {r : JoinResponse} (hderives : ∀ t ∈ r.symbols, Derives held s.seen t) {p : Nat}
    (ho : joiner.opens r = .ok p) : (Opened.mk joiner p).Authentic held s.issued s.answers := by
  have hd := h.started joiner (h.sessions hj)
  obtain ⟨k, -, hp, hg, secret, nonce, aad, hl⟩ := opens_eq_ok ho
  refine ⟨k, hp, ?_⟩
  have hguarded : Guarded held s.started s.answers
      (.signature k (pack (r.signedBytes joiner.request))) :=
    h.guarded (hderives _ (by simp [JoinResponse.symbols, hg, encode]))
  rcases hguarded with hk | ⟨j, -, hm⟩ | ⟨a, ha, hk, hm⟩
  · exact .inl hk
  · exact absurd (pack_injective hm) (signedBytes_ne_transcript _ _ _)
  · have hn := h.answers a ha
    obtain ⟨hr, ht, hs⟩ := request_eq_of_signedBytes hn hd (pack_injective hm).symm
    refine .inr ⟨a, ha, hk, hr, hr ▸ hd.request_ephemeral, ht, ?_, ?_⟩
    · rw [← hk, ← hr, ← ht]
      exact hn.issued
    · obtain ⟨e, _, hresponse⟩ := hn.response
      obtain ⟨x, -, hf⟩ := sealResponse_eq_some hresponse
      rw [hf, hl] at hs
      simp [encode] at hs
      exact hs.2.2.2

theorem guarded_of_chars {started : List Joiner} {answers : List Answer} {bytes : Bytes}
    (h : ∀ t ∈ bytes, ∃ c, t = .char c) : ∀ t ∈ bytes, Guarded held started answers t := by
  intro t ht
  obtain ⟨c, rfl⟩ := h t ht
  trivial

theorem char_of_mem_text {str : String} : ∀ t ∈ text str, ∃ c, t = .char c := by
  intro t ht
  obtain ⟨c, -, rfl⟩ := mem_map.mp ht
  exact ⟨c, rfl⟩

theorem char_of_valid {name : Bytes} (h : validFleetNodeName name = true) :
    ∀ t ∈ name, ∃ c, t = .char c := by
  simp only [validFleetNodeName, Bool.and_eq_true, all_eq_true] at h
  intro t ht
  have hc := h.2 t ht
  unfold nameChar at hc
  split at hc
  next c => exact ⟨c, rfl⟩
  next => cases hc

def Erases (f : Invite Bytes → Invite Bytes) : Prop :=
  ∀ row token, (f row).token = some token → row.token = some token

theorem erases_erase : Erases Invite.erase := fun _ _ h => by simp [Invite.erase] at h

theorem erases_admits (claim : String) : Erases (Invite.admits claim) := fun _ _ h => h

theorem erases_bind (memberKey name : Bytes) (floor : Option Nat) :
    Erases (Invite.bind memberKey name floor) := fun _ _ h => h

theorem erases_fail (failures : Nat) : Erases (Invite.fail failures) := by
  intro row t h
  simp only [Invite.fail] at h
  split at h
  · cases h
  · exact h

def TokensIn (more fewer : Invites) : Prop :=
  ∀ key row token, fewer.get? key = some row → row.token = some token →
    ∃ row', more.get? key = some row' ∧ row'.token = some token

theorem TokensIn.refl (invites : Invites) : TokensIn invites invites :=
  fun _ row _ h ht => ⟨row, h, ht⟩

theorem TokensIn.trans {a b c : Invites} (h : TokensIn a b) (h' : TokensIn b c) : TokensIn a c := by
  intro key row t hg ht
  obtain ⟨row', hg', ht'⟩ := h' key row t hg ht
  exact h key row' t hg' ht'

theorem tokensIn_update {f : Invite Bytes → Invite Bytes} (hf : Erases f) (invites : Invites)
    (key : Nat × Bytes) :
    TokensIn invites (invites.update key f) := by
  intro key' row t hg ht
  rw [get?_update] at hg
  split at hg
  next heq =>
    obtain ⟨row', hr', rfl⟩ := Option.map_eq_some_iff.mp hg
    exact ⟨row', heq ▸ hr', hf row' t ht⟩
  next => exact ⟨row, hg, ht⟩

theorem tokensIn_redeem (invites : Invites) (sponsor : Nat) (request : JoinRequest) (t : Nat)
    (row : Invite Bytes) (nameFloor : Except String (Option Nat)) (claim : String) :
    TokensIn invites (invites.redeem sponsor request t row nameFloor claim).2 := by
  simp only [Invites.redeem]
  repeat' split
  all_goals first
    | exact TokensIn.refl _
    | exact tokensIn_update (erases_fail _) _ _
    | exact tokensIn_update (erases_admits _) _ _
    | exact (tokensIn_update (erases_bind _ _ _) _ _).trans (tokensIn_update (erases_admits _) _ _)

section
variable {invites : Invites} {sponsor : Nat} {request : JoinRequest} {token : Nat}
    {row : Invite Bytes}

/-- Only a checked request is admitted, under the token read for it. -/
theorem redeem_eq_admitted
    {nameFloor : Except String (Option Nat)} {claim admitted : String} {t' : Nat} {f : Option Nat}
    {first : Bool}
    (h : (invites.redeem sponsor request token row nameFloor claim).1 =
      .admitted t' f admitted first) :
    verifyRequest request token = .ok () ∧ t' = token := by
  simp only [Invites.redeem] at h
  repeat' split at h
  all_goals simp_all

end

variable {issued' : List (Nat × Bytes × Nat)}

theorem Opened.Authentic.mono {answers answers' : List Answer} {o : Opened}
    (h : o.Authentic held issued answers) (hi : issued ⊆ issued') (hsubset : answers ⊆ answers') :
    o.Authentic held issued' answers' := by
  obtain ⟨k, hp, hk | ⟨a, ha, hy, hr, he, ht, hn, hpayload⟩⟩ := h
  · exact ⟨k, hp, .inl hk⟩
  · exact ⟨k, hp, .inr ⟨a, hsubset ha, hy, hr, he, ht, hi hn, hpayload⟩⟩

theorem Answer.Made.mono (h : a.Made held issued) (hi : issued ⊆ issued') : a.Made held issued' :=
  ⟨h.verified, hi h.issued, h.payload, h.response⟩

/-- An accepted request comes from an honest joiner, since nobody else can prove the token; so the
answer is sealed between two honest ephemeral keys. -/
theorem Invariant.closed (h : Invariant held s) {p : Pending} (hp : p ∈ s.pending)
    (hv : verifyRequest p.request p.token = .ok ()) {ephemeral x : Nat}
    (he : ephemeral ∉ held.ephemerals) (hx : p.request.ephemeral = encode (.ephemeralPublic x))
    (bound : Term) :
    Closed held (sealKey (.shared (min ephemeral x) (max ephemeral x)) p.token bound) := by
  obtain ⟨hi, hg⟩ := h.pending p hp
  have ht : p.token ∉ held.tokens := h.issued _ hi
  have hproof := (verifyRequest_eq_ok hv).1
  have hc : Guarded held s.started s.answers (proof p.token p.request.transcript) :=
    hg _ (by simp [JoinRequest.symbols, hproof, encode])
  obtain ⟨j, hj, -, hr⟩ := hc.resolve_left ht
  have hd := h.started j hj
  have hephemeral : x = j.ephemeral := by
    have hs : p.request.ephemeral = j.request.ephemeral := by
      rw [transcript_inj (pack_injective hr)]
    simpa [hx, hd.request_ephemeral, encode] using hs
  have hh : x ∉ held.ephemerals := hephemeral ▸ hd.ephemeral
  refine ⟨_, _, _, bound, rfl, ?_, ?_, ht⟩
  · rcases min_choice ephemeral x with hm | hm <;> rw [hm] <;> assumption
  · rcases max_choice ephemeral x with hmax | hmax <;> rw [hmax] <;> assumption

theorem invariant_initial : Invariant held State.initial where
  seen := nofun
  started := nofun
  sessions := nil_subset _
  issued := nofun
  tokens := nofun
  pending := nofun
  answers := nofun
  opened := nofun

section
variable (h : Invariant held s)
include h

theorem Invariant.invite (sponsor : Sponsor) (id : Bytes) {t : Nat}
    (ht : t ∉ held.tokens) (name : Option Bytes) (m : Bool) (createdBy : Option String) :
    Invariant held { s with
      invites := s.invites.insert (sponsor.key, id) (newInvite t name m createdBy)
      issued := (sponsor.key, id, t) :: s.issued } where
  seen := h.seen
  started := h.started
  sessions := h.sessions
  issued := by
    rintro e (_ | ⟨_, he⟩)
    · exact ht
    · exact h.issued e he
  tokens := by
    intro key row t' hg ht'
    rcases of_get?_insert hg with hg | ⟨rfl, rfl⟩
    · exact mem_cons_of_mem _ (h.tokens key row t' hg ht')
    · cases ht'
      exact mem_cons_self
  pending p hp := ⟨mem_cons_of_mem _ (h.pending p hp).1, (h.pending p hp).2⟩
  answers a ha := (h.answers a ha).mono (subset_cons_self _ _)
  opened o ho := (h.opened o ho).mono (subset_cons_self _ _) (List.Subset.refl _)

theorem Invariant.start {c : JoinCode} {member e : Nat} {name m : Bytes}
    {writerHead : Option WriterHead} {build : Bytes} (he : e ∉ held.ephemerals)
    (hderives : ∀ t ∈ c.invite ++ name ++ m ++ headSymbols writerHead ++ build,
      Derives held s.seen t) :
    Invariant held (s.start (Joiner.start c member e name m writerHead build)) := by
  set joiner := Joiner.start c member e name m writerHead build with hn
  have hs : s.started ⊆ joiner :: s.started := subset_cons_self _ _
  have hm : joiner.Made held := ⟨he, rfl, rfl, member, rfl, rfl⟩
  refine ⟨?_, ?_, ?_, h.issued, h.tokens, ?_, h.answers, h.opened⟩
  · intro t ht
    rcases mem_append.mp ht with ht | ht
    · have hx : t ∈ c.invite ++ name ++ m ++ headSymbols writerHead ++ build →
          Guarded held (joiner :: s.started) s.answers t :=
            fun ht => (h.guarded (hderives t ht)).mono hs (List.Subset.refl _)
      simp only [mem_append] at hx
      simp only [JoinRequest.symbols, hn, Joiner.start, unsignedRequest, encode, mem_append,
        mem_singleton] at ht
      rcases ht with ((((((((ht | ht) | ht) | ht) | rfl) | rfl) | ht) | ht) | rfl) | rfl
      · exact guarded_of_chars char_of_mem_text t ht
      · exact hx (by simp [ht])
      · exact hx (by simp [ht])
      · exact hx (by simp [ht])
      · trivial
      · trivial
      · exact hx (by simp [ht])
      · exact hx (by simp [ht])
      · exact .inr ⟨joiner, mem_cons_self, rfl, rfl⟩
      · exact .inr (.inl ⟨joiner, mem_cons_self, rfl⟩)
    · exact (h.seen t ht).mono hs (List.Subset.refl _)
  · rintro j (_ | ⟨_, hj⟩)
    · exact hm
    · exact h.started j hj
  · exact cons_subset_cons _ h.sessions
  · exact fun p hp =>
      ⟨(h.pending p hp).1, fun t ht => ((h.pending p hp).2 t ht).mono hs (List.Subset.refl _)⟩

theorem Invariant.receive {sponsor : Sponsor} {request : JoinRequest} {token : Nat}
    {row : Invite Bytes} (hr : ∀ t ∈ request.symbols, Derives held s.seen t)
    (hl : s.invites.lookup sponsor.key request = .ok (token, row)) :
    Invariant held { s with pending := ⟨sponsor, request, token, row⟩ :: s.pending } := by
  refine ⟨h.seen, h.started, h.sessions, h.issued, h.tokens, ?_, h.answers, h.opened⟩
  rintro p (_ | ⟨_, hp⟩)
  · obtain ⟨hg, hk⟩ := lookup_eq_ok hl
    exact ⟨h.tokens _ row token hg hk, fun t ht => h.guarded (hr t ht)⟩
  · exact h.pending p hp

theorem Invariant.tables {invites : Invites} (hi : TokensIn s.invites invites)
    {pending : List Pending} (hn : pending ⊆ s.pending) :
    Invariant held { s with invites, pending } := by
  refine ⟨h.seen, h.started, h.sessions, h.issued, ?_, fun p hp => h.pending p (hn hp),
    h.answers, h.opened⟩
  intro key row token hg ht
  obtain ⟨row', hg', ht'⟩ := hi key row token hg ht
  exact h.tokens key row' token hg' ht'

variable {p : Pending} {r : JoinResponse}

theorem Invariant.seal (hp : p ∈ s.pending) (hv : verifyRequest p.request p.token = .ok ())
    {e n payload : Nat} (he : e ∉ held.ephemerals) (hy : payload ∉ held.payloads)
    (hr : sealResponse p.request p.token p.sponsor.node p.sponsor.key e n payload = some r) :
    Invariant held { s with
      seen := r.symbols ++ s.seen
      answers := ⟨p.sponsor, p.request, p.token, payload, r⟩ :: s.answers } := by
  set a : Answer := ⟨p.sponsor, p.request, p.token, payload, r⟩ with ha
  have hs : s.answers ⊆ a :: s.answers := subset_cons_self _ _
  refine ⟨?_, h.started, h.sessions, h.issued, h.tokens, ?_, ?_,
    fun o ho => (h.opened o ho).mono (List.Subset.refl _) hs⟩
  · intro t ht
    rcases mem_append.mp ht with ht | ht
    · obtain ⟨x, hx, hf⟩ := sealResponse_eq_some hr
      have hg : Guarded held s.started (a :: s.answers)
          (.signature p.sponsor.key (pack (r.signedBytes p.request))) :=
        .inr (.inr ⟨a, mem_cons_self, rfl, rfl⟩)
      rw [hf] at ht
      simp only [JoinResponse.symbols, encode, mem_append, mem_singleton] at ht
      rcases ht with (((((ht | ht) | rfl) | rfl) | rfl) | rfl) | rfl
      · exact guarded_of_chars char_of_mem_text t ht
      · exact guarded_of_chars (char_of_valid p.sponsor.node_valid) t ht
      · trivial
      · trivial
      · trivial
      · exact .inl (h.closed hp hv he hx _)
      · exact hg
    · exact (h.seen t ht).mono (List.Subset.refl _) hs
  · exact fun p hp =>
      ⟨(h.pending p hp).1, fun t ht => ((h.pending p hp).2 t ht).mono (List.Subset.refl _) hs⟩
  · rintro b (_ | ⟨_, hb⟩)
    · exact ⟨hv, (h.pending p hp).1, hy, e, n, hr⟩
    · exact h.answers b hb

theorem Invariant.answer {before after : List Pending}
    (hn : s.pending = before ++ p :: after) (nameFloor : Except String (Option Nat))
    (claim : String) {ephemeral : Nat} (nonce : Nat) {payload : Nat}
    (he : ephemeral ∉ held.ephemerals) (hy : payload ∉ held.payloads) :
    Invariant held (s.answer (before ++ after) p nameFloor claim ephemeral nonce payload) := by
  have hp : p ∈ s.pending := by simp [hn]
  have hr : before ++ after ⊆ s.pending := by
    rw [hn]
    exact (List.Sublist.append_left (sublist_cons_self _ _) _).subset
  have ht := tokensIn_redeem s.invites p.sponsor.key p.request p.token p.row nameFloor claim
  have hinvariant := h.tables ht hr
  unfold State.answer
  dsimp only
  split
  next token floor admitted first ha =>
    obtain ⟨hv, rfl⟩ := redeem_eq_admitted ha
    split
    next response hs =>
      -- the answer is sealed before the request leaves the queue
      exact (h.seal hp hv he hy hs).tables ht hr
    next => exact hinvariant
  next => exact hinvariant

theorem Invariant.open {before after : List Joiner} {j : Joiner}
    (hs : s.sessions = before ++ j :: after) (hderives : ∀ t ∈ r.symbols, Derives held s.seen t) :
    Invariant held (s.open (before ++ after) j r) := by
  have hr : before ++ after ⊆ s.started := by
    refine List.Subset.trans ?_ h.sessions
    rw [hs]
    exact (List.Sublist.append_left (sublist_cons_self _ _) _).subset
  unfold State.open
  split
  next payload hp =>
    refine ⟨h.seen, h.started, hr, h.issued, h.tokens, h.pending, h.answers, ?_⟩
    rintro o (_ | ⟨_, ho⟩)
    · exact h.authentic (by simp [hs]) hderives hp
    · exact h.opened o ho
  next => exact ⟨h.seen, h.started, hr, h.issued, h.tokens, h.pending, h.answers, h.opened⟩

theorem Step.keeps {t : State} (hs : Step held s t) : Invariant held t := by
  cases hs with
  | invite sponsor id token name migrate createdBy _ hk _ =>
    exact h.invite sponsor id hk name migrate createdBy
  | sweep key => exact h.tables (tokensIn_update erases_erase _ _) (List.Subset.refl _)
  | start code member ephemeral name mode writerHead build _ he ht => exact h.start he ht
  | receive sponsor request token row _ hq hl => exact h.receive hq hl
  | answer before after p nameFloor claim ephemeral nonce payload hn he hp =>
    exact h.answer hn nameFloor claim nonce he hp
  | «open» before after joiner response hsessions hr => exact h.open hsessions hr

end

theorem Reachable.invariant (h : Reachable held s) : Invariant held s := by
  induction h with
  | refl => exact invariant_initial
  | tail _ hs ih => exact Step.keeps ih hs

/-- A payload an honest joiner opens was sealed by the holder of the key fingerprinted in its code,
for that joiner's request and ephemeral key, under the token issued for its invite; and no
payload an honest sponsor seals can be derived. -/
theorem join_handshake_secure (h : Reachable held s) :
    (∀ o ∈ s.opened, o.Authentic held s.issued s.answers) ∧
      ∀ a ∈ s.answers, ¬ Derives held s.seen (.payload a.payload) := by
  have hi := h.invariant
  refine ⟨hi.opened, fun a ha hd => ?_⟩
  exact (hi.answers a ha).payload (hi.guarded hd)

def sampleHeld : Held := ⟨∅, ∅, ∅, ∅⟩

def sampleSponsor : Sponsor := ⟨0, text "oak", by decide⟩

def sampleCode : JoinCode := ⟨text "a1", 7, fingerprint (encode (.memberPublic 0)), false⟩

def sampleJoiner : Joiner :=
  Joiner.start sampleCode 1 2 (text "elm") (text "listening") none (text "b")

def sampleInvites : Invites := Table.insert ∅ (0, text "a1") (newInvite 7 none false none)

def sampleInvited : State :=
  { State.initial with invites := sampleInvites, issued := [(0, text "a1", 7)] }

def sampleReceived : State :=
  { sampleInvited.start sampleJoiner with
    pending := [⟨sampleSponsor, sampleJoiner.request, 7, newInvite 7 none false none⟩] }

def sampleAnswered : State :=
  sampleReceived.answer [] ⟨sampleSponsor, sampleJoiner.request, 7, newInvite 7 none false none⟩
    (.ok none) "claim-1" 3 0 5

def sampleResponse : JoinResponse :=
  (sealResponse sampleJoiner.request 7 (text "oak") 0 3 0 5).get (by decide +kernel)

def sampleOpened : State := sampleAnswered.open [] sampleJoiner sampleResponse

theorem reachable_sampleOpened : Reachable sampleHeld sampleOpened := by
  have hi : Step sampleHeld State.initial sampleInvited :=
    Step.invite State.initial sampleSponsor (text "a1") 7 none false none nofun nofun rfl
  have hs : Step sampleHeld sampleInvited (sampleInvited.start sampleJoiner) := by
    refine Step.start sampleInvited sampleCode 1 2 (text "elm") (text "listening") none
      (text "b") nofun nofun ?_
    intro t ht
    obtain ⟨c, rfl⟩ : ∃ c, t = .char c := by
      simp only [headSymbols, append_nil, mem_append] at ht
      rcases ht with ((ht | ht) | ht) | ht <;> exact char_of_mem_text t ht
    exact .char c
  have hr : Step sampleHeld (sampleInvited.start sampleJoiner) sampleReceived :=
    Step.receive _ sampleSponsor sampleJoiner.request 7 (newInvite 7 none false none) nofun
      (fun t ht => .seen (mem_append_left _ ht)) rfl
  have ha : Step sampleHeld sampleReceived sampleAnswered :=
    Step.answer sampleReceived [] [] _ (.ok none) "claim-1" 3 0 5 rfl nofun nofun
  have ho : Step sampleHeld sampleAnswered sampleOpened := by
    have hsessions : sampleAnswered.sessions = [sampleJoiner] := by decide +kernel
    have hn : ∀ t ∈ sampleResponse.symbols, t ∈ sampleAnswered.seen := by decide +kernel
    exact Step.open sampleAnswered [] [] sampleJoiner sampleResponse hsessions
      fun t ht => .seen (hn t ht)
  exact .tail (.tail (.tail (.tail (.tail .refl hi) hs) hr) ha) ho

theorem sampleJoin_secure :
    sampleOpened.opened.map (fun o => (o.joiner, o.payload)) = [(sampleJoiner, 5)] ∧
      sampleOpened.answers.map Answer.payload = [5] ∧
      (∀ o ∈ sampleOpened.opened, o.Authentic sampleHeld sampleOpened.issued sampleOpened.answers) ∧
      ∀ a ∈ sampleOpened.answers, ¬ Derives sampleHeld sampleOpened.seen (.payload a.payload) :=
  ⟨by decide +kernel, by decide +kernel, join_handshake_secure reachable_sampleOpened⟩

end Smalltalk.Join
