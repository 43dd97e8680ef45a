import Smalltalk.Agreement.Certificates

/-!
# The cut a stable checkpoint is filed under

Certificates are grouped by the name of their checkpoint, which fixes only the
UTC day, and filed under the cut of the first one.
-/

namespace Smalltalk.Agreement

open List Option Table

def chosenCertificate (certificates : List Certificate) : Option Certificate :=
  let key := fun certificate : Certificate =>
    toLex (OrderDual.toDual certificate.terms.participants.card,
      toLex (certificate.terms.dropDigest, certificate.terms))
  certificates.foldl (fun chosen certificate =>
    match chosen with
    | none => some certificate
    | some best => if key certificate < key best then some certificate else some best) none

section
variable (checkpointName : Nat → String) (claims : List CheckpointClaim)

def Certified (checkpoint : String) (terms : VerifiedTerms) : Prop :=
  terms.participants.Nonempty ∧
    ∀ writer ∈ terms.participants, ∃ id,
    (firstVerifications checkpointName claims checkpoint).get? writer = some (id, terms)

end

section
variable {checkpointName : Nat → String} {claims : List CheckpointClaim} {checkpoint : String}
    {terms : VerifiedTerms}

theorem certificateOf_isSome {verifications : Table String (String × VerifiedTerms)}
    (hn : terms.participants.Nonempty)
    (h : ∀ writer ∈ terms.participants, ∃ id, verifications.get? writer = some (id, terms)) :
    ∃ certificate, certificateOf checkpoint verifications terms = some certificate := by
  have ha : ∀ writer ∈ terms.participants,
      writer ∈
        (verifications.rows.filter fun r => r.2.2 = terms && r.1 ∈ terms.participants).map
          (·.1) := by
    intro writer hw
    obtain ⟨id, hg⟩ := h writer hw
    refine List.mem_map.mpr ⟨(writer, id, terms), mem_filter.mpr ⟨mem_rows.mpr hg, ?_⟩, rfl⟩
    simpa using hw
  exact ⟨_, if_pos ⟨hn, ha⟩⟩

theorem certified_iff : Certified checkpointName claims checkpoint terms ↔
    ∃ c ∈ certificates checkpointName claims checkpoint, c.terms = terms := by
  constructor
  · rintro ⟨hn, ha⟩
    obtain ⟨c, hc⟩ := @certificateOf_isSome checkpoint terms _ hn ha
    refine ⟨c, mem_filterMap.mpr ⟨terms, ?_, hc⟩, (certificateOf_eq_some hc).1⟩
    obtain ⟨writer, hw⟩ := hn
    obtain ⟨id, hg⟩ := ha writer hw
    rw [(perm_insertionSort _ _).mem_iff, mem_dedup]
    exact List.mem_map.mpr ⟨(writer, id, terms), mem_rows.mpr hg, rfl⟩
  · rintro ⟨c, hc, rfl⟩
    obtain ⟨terms, -, ht⟩ := mem_filterMap.mp hc
    obtain ⟨rfl, hn, ha⟩ := certificateOf_eq_some ht
    exact ⟨hn, ha⟩

theorem name_of_verifiedTerms {claim : CheckpointClaim}
    (h : claim.verifiedTerms checkpointName = some terms) :
    checkpointName terms.cutUnixMs = claim.subject := by
  rw [CheckpointClaim.verifiedTerms, if_neg (not_not.mpr (kind_of_verifiedTerms h))] at h
  obtain ⟨cut, hc, h⟩ := bind_eq_some_iff.mp h
  obtain ⟨-, hn⟩ := filter_eq_some_iff.mp hc
  have ht : terms.cutUnixMs = cut := by
    simp only [bind_eq_bind, bind_eq_some_iff, Option.some.injEq] at h
    obtain ⟨_, -, _, -, _, -, _, -, _, -, _, -, _, -, rfl⟩ := h
    rfl
  rw [ht]
  simpa using hn

theorem certificate_name {c : Certificate} (h : c ∈ certificates checkpointName claims checkpoint) :
    checkpointName c.terms.cutUnixMs = checkpoint ∧
      checkpoint ∈ (claims.filter (·.kind = .verified)).map (·.subject) := by
  obtain ⟨⟨writer, hw⟩, hv⟩ := certificate_verified h
  obtain ⟨claim, hc, hs, -, ht⟩ := hv writer hw
  refine ⟨(name_of_verifiedTerms ht).trans hs,
    List.mem_map.mpr ⟨claim, mem_filter.mpr ⟨hc, ?_⟩, hs⟩⟩
  simpa using kind_of_verifiedTerms ht

/-- Checkpoints are filed under distinct cuts, so none replaces another. -/
theorem stableCheckpoints_get? {certificate : Certificate}
    (h : (certificates checkpointName claims checkpoint).head? = some certificate) :
    (stableCheckpoints checkpointName claims).get? certificate.terms.cutUnixMs =
      some (certificates checkpointName claims checkpoint) := by
  refine get?_putAll_mem ?_ _ (mem_filterMap.mpr ⟨checkpoint, ?_, by rw [h, map_some]⟩)
  · rw [map_filterMap]
    refine List.Nodup.filterMap ?_ ((perm_insertionSort _ _).nodup_iff.mpr (nodup_dedup _))
    intro a b cut ha hb
    simp only [Option.mem_def, Option.map_map, map_eq_some_iff, Function.comp_apply] at ha hb
    obtain ⟨first, hcertificates, hcut⟩ := ha
    obtain ⟨f, hf, hc⟩ := hb
    rw [← (certificate_name (mem_of_mem_head? hcertificates)).1,
      ← (certificate_name (mem_of_mem_head? hf)).1, hcut, hc]
  · rw [(perm_insertionSort _ _).mem_iff, mem_dedup]
    exact (certificate_name (mem_of_mem_head? h)).2

end

/-- Certificates are filed under their own cut exactly when no checkpoint is certified with two
cuts. -/
theorem filed_under_own_cut_iff (checkpointName : Nat → String) (claims : List CheckpointClaim) :
    (∀ cut entry, (stableCheckpoints checkpointName claims).get? cut = some entry →
        ∀ certificate ∈ entry, certificate.terms.cutUnixMs = cut) ↔
      ∀ checkpoint terms terms', Certified checkpointName claims checkpoint terms →
        Certified checkpointName claims checkpoint terms' → terms.cutUnixMs = terms'.cutUnixMs := by
  constructor
  · intro h checkpoint terms terms' ht ht'
    obtain ⟨certificate, hc, rfl⟩ := certified_iff.mp ht
    obtain ⟨certificate', hc', rfl⟩ := certified_iff.mp ht'
    cases hf : (certificates checkpointName claims checkpoint).head? with
    | none => simp [head?_eq_none_iff.mp hf] at hc
    | some first =>
      have he := stableCheckpoints_get? hf
      rw [h _ _ he certificate hc, h _ _ he certificate' hc']
  · intro h cut entry he certificate hc
    obtain ⟨checkpoint, first, rfl, hf, rfl⟩ := of_stableCheckpoints he
    exact h checkpoint _ _ (certified_iff.mpr ⟨certificate, hc, rfl⟩)
      (certified_iff.mpr ⟨first, mem_of_mem_head? hf, rfl⟩)

def dayName (cut : Nat) : String := "checkpoint/" ++ toString (cut / dayMs)

def sampleVerification (writer : String) (cut : Nat) (participants : Finset String) :
    CheckpointClaim :=
  (samplePass writer ∅ [] writer).verificationClaim (dayName cut)
    ⟨cut, participants, "sealed", "rules"⟩
    ⟨"drop", "retained", "graph", "reader"⟩

/-- `ash` certifies the start of a day, the others a cut one millisecond later. Both name the same
checkpoint, and the one chosen for the filed cut is the other one. -/
theorem two_cuts_of_one_day :
    let claims :=
  [sampleVerification "ash" dayMs {"ash"}, sampleVerification "birch" (dayMs + 1) {"birch", "fern"},
      sampleVerification "fern" (dayMs + 1) {"birch", "fern"}]
    (stableCheckpoints dayName claims).rows.map (fun r =>
        (r.1, r.2.map (·.terms.cutUnixMs), (chosenCertificate r.2).map (·.terms.cutUnixMs))) =
      [(dayMs, [dayMs, dayMs + 1], some (dayMs + 1))] := by
  decide +kernel

end Smalltalk.Agreement
