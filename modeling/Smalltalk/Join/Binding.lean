import Smalltalk.Join.Handshake

/-!
# What the handshake's bytes bind

A transcript determines every field of its request. The signed bytes of an answer determine
the request's transcript and proof and the answer's fields, and are no transcript.
-/

namespace Smalltalk.Join

open List

theorem framed_jsonBool : Framed jsonBool := by
  refine framed_of_prefix_free fun a b => ?_
  cases a <;> cases b <;> decide

theorem framed_jsonHead : Framed jsonHead := by
  intro a b x y h
  cases a with
  | none =>
    cases b with
    | none => exact ⟨rfl, append_cancel_left h⟩
    | some b => simp [jsonHead, text] at h
  | some a =>
    cases b with
    | none => simp [jsonHead, text] at h
    | some b =>
      simp only [jsonHead, append_assoc] at h
      obtain ⟨hh, h⟩ := framed_quote (append_cancel_left h)
      have hd : Framed fun n => decimal n ++ [.char '\x7d'] :=
        framed_until decimal_injective fun n => notMem_decimal (by decide) n
      obtain ⟨hs, hx⟩ := hd (by simpa [text] using append_cancel_left h)
      refine ⟨?_, hx⟩
      cases a
      cases b
      simp_all

/-- The transcript leaves no field open. -/
theorem transcript_inj {r q : JoinRequest} (h : r.transcript = q.transcript) :
    r = { q with proof := r.proof, signature := r.signature } := by
  simp only [JoinRequest.transcript] at h
  obtain ⟨hb, h⟩ := framed_quote (append_cancel_left h)
  obtain ⟨he, h⟩ := framed_quote (append_cancel_left h)
  obtain ⟨hi, h⟩ := framed_quote (append_cancel_left h)
  obtain ⟨hm, h⟩ := framed_quote (append_cancel_left h)
  obtain ⟨hg, h⟩ := framed_jsonBool (append_cancel_left h)
  obtain ⟨hd, h⟩ := framed_quote (append_cancel_left h)
  obtain ⟨hn, h⟩ := framed_quote (append_cancel_left h)
  obtain ⟨hp, h⟩ := framed_quote (append_cancel_left h)
  obtain ⟨hh, -⟩ := framed_jsonHead (append_cancel_left h)
  cases r
  cases q
  simp_all

theorem newline_notMem_text {s : String} (h : '\n' ∉ s.toList) : newline ∉ text s := by
  rw [text, newline, mem_map_of_injective char_injective]
  exact h

theorem newline_notMem_jsonHead (head : Option WriterHead) : newline ∉ jsonHead head := by
  cases head with
  | none => exact newline_notMem_text (by decide)
  | some head =>
    simp only [jsonHead, mem_append, not_or]
    exact ⟨newline_notMem_text (by decide), newline_notMem_quote _, newline_notMem_text (by decide),
      notMem_decimal (by decide) _, newline_notMem_text (by decide)⟩

theorem newline_notMem_jsonBool (b : Bool) : newline ∉ jsonBool b := by
  cases b <;> exact newline_notMem_text (by decide)

theorem newline_notMem_transcript (r : JoinRequest) : newline ∉ r.transcript := by
  simp only [JoinRequest.transcript, mem_append, not_or, newline_notMem_quote,
    newline_notMem_jsonBool, newline_notMem_jsonHead, not_false_eq_true, true_and]
  refine ⟨?_, ?_, ?_, ?_, ?_, ?_, ?_, ?_, ?_, ?_⟩ <;> exact newline_notMem_text (by decide)

theorem signedBytes_ne_transcript (response : JoinResponse) (r q : JoinRequest) :
    response.signedBytes r ≠ q.transcript := by
  intro h
  refine newline_notMem_transcript q (h ▸ ?_)
  simp [JoinResponse.signedBytes, lines]

theorem newline_notMem_encode {value : Term} (h : value ≠ newline) : newline ∉ encode value := by
  rw [encode, mem_singleton]
  exact h.symm

theorem newline_notMem_of_valid {name : Bytes} (h : validFleetNodeName name = true) :
    newline ∉ name := by
  simp only [validFleetNodeName, Bool.and_eq_true, all_eq_true] at h
  intro hm
  exact absurd (h.2 _ hm) (by decide)

theorem verifyRequest_eq_ok {request : JoinRequest} {t : Nat}
    (h : verifyRequest request t = .ok ()) :
    request.proof = encode (proof t request.transcript) ∧
    ∃ k, request.memberKey = encode (.memberPublic k) ∧
        request.signature = encode (.signature k (pack request.transcript)) := by
  unfold verifyRequest at h
  split at h
  · cases h
  · split at h
    · cases h
    next expected hp =>
      by_cases hproof : proof t request.transcript = expected
      · by_cases hs : verifySignature request.memberKey request.transcript request.signature = true
        · exact ⟨hproof ▸ decode_eq_some hp, verifySignature_eq_true hs⟩
        · simp [hproof, hs] at h
      · simp [hproof] at h

theorem sealResponse_eq_some {request : JoinRequest} {token : Nat} {node : Bytes}
    {key ephemeral nonce payload : Nat} {response : JoinResponse}
    (h : sealResponse request token node key ephemeral nonce payload = some response) :
    ∃ x, request.ephemeral = encode (.ephemeralPublic x) ∧
      let bound := aad request.transcript (encode (.memberPublic key)) (.ephemeralPublic ephemeral)
      response = { protocol := PROTOCOL, sponsor := node, sponsorKey := encode (.memberPublic key)
                   ephemeral := encode (.ephemeralPublic ephemeral), nonce := encode (.data nonce)
                   sealed :=
                     encode (.sealed (sealKey (.shared (min ephemeral x) (max ephemeral x))
                       token bound)
                     (.data nonce) bound (.payload payload))
                   signature :=
                     encode (.signature key (pack (response.signedBytes request))) } := by
  simp only [sealResponse, Option.bind_eq_bind, Option.bind_eq_some_iff, Option.pure_def,
    Option.some.injEq] at h
  obtain ⟨peer, hp, secret, hs, rfl⟩ := h
  obtain ⟨x, rfl, rfl⟩ := agree_eq_some hs
  exact ⟨x, decode_eq_some hp, rfl⟩

/-- An answer opens only if the key of the code signed it over the joiner's own request and it is
sealed under the joiner's token. -/
theorem opens_eq_ok {j : Joiner} {r : JoinResponse} {p : Nat} (h : j.opens r = .ok p) :
    ∃ k, r.sponsorKey = encode (.memberPublic k) ∧
      j.fingerprint = fingerprint (encode (.memberPublic k)) ∧
      r.signature = encode (.signature k (pack (r.signedBytes j.request))) ∧
      ∃ s no aad, r.sealed = encode (.sealed (sealKey s j.token aad) no aad (.payload p)) := by
  unfold Joiner.opens at h
  simp only [bind, Except.bind, throw, throwThe, MonadExceptOf.throw, pure, Except.pure] at h
  split at h
  · cases h
  split at h
  · cases h
  next hp =>
  split at h
  · cases h
  next hv =>
  split at h
  next sponsorEphemeral _ =>
    split at h
    next s _ =>
      split at h
      next no _ =>
        split at h
        next key nonce' aad' opened hs =>
          split at h
          next heq =>
            obtain ⟨rfl, rfl, rfl⟩ := heq
            split at h
            next n =>
              cases h
              obtain ⟨k, hk, hg⟩ := verifySignature_eq_true (by simpa using hv)
              refine ⟨k, hk, ?_, hg, s, _, _, decode_eq_some hs⟩
              rw [← not_not.mp hp, hk]
            next => cases h
          next => cases h
        next => cases h
        next => cases h
      next => cases h
    next => cases h
  next => cases h

end Smalltalk.Join
