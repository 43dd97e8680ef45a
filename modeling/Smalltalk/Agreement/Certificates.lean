import Smalltalk.Agreement.Step

/-!
# One certificate for a checkpoint

Every participant of a certificate verified with its terms, and a node verifies only
with the writers it has heard of. So the participants are closed under having heard of.
-/

namespace Smalltalk.Agreement

open List Option Table CheckpointClaim

variable {checkpointName : Nat → String} {claims : List CheckpointClaim} {checkpoint : String}

/-! ## What a certificate rests on -/

variable {terms : VerifiedTerms} {certificate : Certificate} {claim : CheckpointClaim}

variable {id writer : String} {pass : Pass} {view : List CheckpointClaim}

theorem of_firstVerifications_fold :
    ∀ {claims : List CheckpointClaim} {verifications : Table String (String × VerifiedTerms)},
    (claims.foldl (fun verifications claim =>
      match claim.verifiedTerms checkpointName with
      | some terms => verifications.insert claim.writer (claim.id, terms)
      | none => verifications) verifications).get? writer = some (id, terms) →
      verifications.get? writer = some (id, terms) ∨
      ∃ claim ∈ claims, claim.writer = writer ∧
      claim.verifiedTerms checkpointName = some terms := by
  intro claims
  induction claims with
  | nil => exact fun h => .inl h
  | cons claim rest ih =>
    intro verifications h
    rw [foldl_cons] at h
    rcases ih h with h | ⟨f, hm, hf⟩
    · split at h
      · rename_i f hf
        rcases of_get?_insert h with h | ⟨hw, ht⟩
        · exact .inl h
        · cases ht
          exact .inr ⟨claim, by simp, hw.symm, hf⟩
      · exact .inl h
    · exact .inr ⟨f, by simp [hm], hf⟩

theorem of_firstVerifications
    (h : (firstVerifications checkpointName claims checkpoint).get? writer = some (id, terms)) :
    ∃ claim ∈ claims, claim.subject = checkpoint ∧ claim.writer = writer ∧
      claim.verifiedTerms checkpointName = some terms := by
  rcases of_firstVerifications_fold h with h | ⟨claim, hm, hc⟩
  · cases h
  · obtain ⟨hm, hs⟩ := mem_filter.mp hm
    exact ⟨claim, hm, by simpa using hs, hc⟩

theorem certificateOf_eq_some {verifications : Table String (String × VerifiedTerms)}
    (h : certificateOf checkpoint verifications terms = some certificate) :
    certificate.terms = terms ∧ terms.participants.Nonempty ∧
      ∀ writer ∈ terms.participants, ∃ id, verifications.get? writer = some (id, terms) := by
  simp only [certificateOf] at h
  split at h
  · rename_i hc
    cases h
    refine ⟨rfl, hc.1, fun writer hw => ?_⟩
    obtain ⟨r, hr, rfl⟩ := List.mem_map.mp (hc.2 writer hw)
    obtain ⟨hm, hg⟩ := mem_filter.mp hr
    simp only [Bool.and_eq_true, decide_eq_true_eq] at hg
    exact ⟨r.2.1, hg.1 ▸ mem_rows.mp hm⟩
  · cases h

/-- A certificate has participants, and each verified with its terms. -/
theorem certificate_verified (h : certificate ∈ certificates checkpointName claims checkpoint) :
    certificate.terms.participants.Nonempty ∧
      ∀ writer ∈ certificate.terms.participants, ∃ claim ∈ claims,
      claim.subject = checkpoint ∧ claim.writer = writer ∧
      claim.verifiedTerms checkpointName = some certificate.terms := by
  obtain ⟨terms, -, ht⟩ := mem_filterMap.mp h
  obtain ⟨rfl, hn, ha⟩ := certificateOf_eq_some ht
  refine ⟨hn, fun writer hw => ?_⟩
  obtain ⟨id, hg⟩ := ha writer hw
  exact of_firstVerifications hg

theorem nodup_certificate_terms :
    ((certificates checkpointName claims checkpoint).map (·.terms)).Nodup := by
  have hs : ∀ (verifications : Table String (String × VerifiedTerms)) (groups : List VerifiedTerms),
      ((groups.filterMap (certificateOf checkpoint verifications)).map (·.terms)).Sublist
        groups := by
    intro verifications groups
    induction groups with
    | nil => exact List.Sublist.refl _
    | cons terms rest ih =>
      cases hc : certificateOf checkpoint verifications terms with
      | none =>
        rw [filterMap_cons_none hc]
        exact ih.cons _
      | some certificate =>
        rw [filterMap_cons_some hc, map_cons, (certificateOf_eq_some hc).1]
        exact ih.cons_cons _
  refine (hs _ _).nodup ?_
  exact (perm_insertionSort _ _).nodup_iff.mpr (nodup_dedup _)

theorem of_stableCheckpoints {cut : Nat} {e : List Certificate}
    (h : (stableCheckpoints checkpointName claims).get? cut = some e) :
    ∃ checkpoint f, e = certificates checkpointName claims checkpoint ∧ e.head? = some f ∧
      f.terms.cutUnixMs = cut := by
  rw [stableCheckpoints, get?_putAll] at h
  rcases or_eq_some_iff.mp h with h | ⟨-, h⟩
  · obtain ⟨r, hr, rfl⟩ := map_eq_some_iff.mp h
    have hm := mem_reverse.mp (mem_of_find?_eq_some hr)
    obtain ⟨checkpoint, -, he⟩ := mem_filterMap.mp hm
    obtain ⟨f, hf, rfl⟩ := map_eq_some_iff.mp he
    exact ⟨checkpoint, f, rfl, hf, by simpa using find?_some hr⟩
  · cases h

/-! ## What a pass publishes -/

theorem excusedWritersForRules_eq_empty {rulesDigest : String}
    (h : ∀ claim ∈ claims, claim.kind ≠ .excused) :
    excusedWritersForRules checkpointName claims rulesDigest = ∅ := by
  unfold excusedWritersForRules
  induction claims with
  | nil => rfl
  | cons claim rest ih =>
    rw [foldl_cons, if_neg (h claim (by simp))]
    simpa using ih fun claim hc => h claim (by simp [hc])

theorem known_subset_participants (hkind : ∀ claim ∈ pass.claims, claim.kind ≠ .excused)
    (hl : pass.left = ∅) : pass.known ⊆ pass.participants checkpointName := by
  intro writer hw
  simp only [Pass.participants, participantsForRules, excusedWritersForRules_eq_empty hkind, hl,
    Finset.sdiff_empty]
  exact Finset.mem_insert_of_mem (Finset.mem_union_left _ hw)

/-- A pass publishes a seal, or a verification of a checkpoint the node has not verified, with its
own participants. -/
theorem of_checkpointStep (h : checkpointStep checkpointName pass = some claim) :
    claim.writer = pass.origin ∧ (claim.kind = .sealed ∨ claim.kind = .verified ∧
      (firstVerifications checkpointName pass.claims claim.subject).get? pass.origin = none ∧
      ∃ terms, claim.verifiedTerms checkpointName = some terms ∧
      terms.participants = pass.participants checkpointName) := by
  simp only [checkpointStep] at h
  split at h
  · cases h
  · split at h
    · cases h
    · rename_i hv
      split at h
      · cases h
        exact ⟨rfl, .inl rfl⟩
      · split at h
        · obtain ⟨proof, -, rfl⟩ := map_eq_some_iff.mp h
          refine ⟨rfl, .inr ⟨rfl, not_isSome_iff_eq_none.mp hv,
            ⟨newestDueCut pass.nowUnixMs, pass.participants checkpointName, pass.sealedDigest,
              pass.rulesDigest, proof.dropDigest, proof.retainedDigest, proof.graphDigest,
              proof.readerDigest⟩, ?_, rfl⟩⟩
          simp [verifiedTerms, cut, Pass.verificationClaim, Option.filter]
        · cases h

structure Sound (checkpointName : Nat → String) (heard : String → Finset String)
    (published : List CheckpointClaim) : Prop where
  excused : ∀ claim ∈ published, claim.kind ≠ .excused
  closed : ∀ claim ∈ published, ∀ terms, claim.verifiedTerms checkpointName = some terms →
    heard claim.writer ⊆ terms.participants

def Hears (heard : String → Finset String) (pass : Pass) : Prop :=
  heard pass.origin ⊆ pass.known ∧ pass.left = ∅

variable {heard : String → Finset String} {published : List CheckpointClaim}

theorem machine_keeps_sound :
    (machine checkpointName).Keeps (Hears heard) (Sound checkpointName heard) := by
  intro published pass published' hh hn hs
  simp only [machine] at hs
  split at hs
  · rename_i hl
    cases hs
    have hkind : ∀ claim ∈ pass.claims, claim.kind ≠ .excused :=
      fun claim hc => hn.excused claim (hl hc)
    refine ⟨fun claim hc => ?_, fun claim hc terms ht => ?_⟩
    · rcases mem_append.mp hc with hc | hc
      · exact hn.excused claim hc
      · obtain ⟨-, hk | ⟨hk, -⟩⟩ := of_checkpointStep (mem_toList.mp hc)
        · simp [hk]
        · simp [hk]
    · rcases mem_append.mp hc with hc | hc
      · exact hn.closed claim hc terms ht
      · obtain ⟨hw, hk | ⟨-, -, terms', ht', hp⟩⟩ := of_checkpointStep (mem_toList.mp hc)
        · simp [verifiedTerms, hk] at ht
        · cases ht.symm.trans ht'
          rw [hw, hp]
          exact hh.1.trans (known_subset_participants hkind hh.2)
  · cases hs

def VerifiedOnce (published : List CheckpointClaim) : Prop :=
  ∀ claim ∈ published, ∀ claim' ∈ published, claim.kind = .verified → claim'.kind = .verified →
    claim.writer = claim'.writer → claim.subject = claim'.subject → claim = claim'

theorem firstVerifications_ne_none (hc : claim ∈ claims)
    (ht : claim.verifiedTerms checkpointName = some terms) :
    (firstVerifications checkpointName claims claim.subject).get? claim.writer ≠ none := by
  have ha : ∀ (t : Table String (String × VerifiedTerms)) (c : CheckpointClaim) (writer : String),
      (match c.verifiedTerms checkpointName with
        | some terms => t.insert c.writer (c.id, terms)
        | none => t).get? writer ≠ none ↔
      t.get? writer ≠ none ∨ c.writer = writer ∧ c.verifiedTerms checkpointName ≠ none := by
    intro t c writer
    cases c.verifiedTerms checkpointName with
    | none => simp
    | some terms =>
      rw [get?_insert_ne_none]
      exact or_congr_right ⟨fun h => ⟨h.symm, by simp⟩, fun h => h.1.symm⟩
  refine (foldl_ne_none ha _ _ _).mpr (.inr ⟨claim, ?_, rfl, by simp [ht]⟩)
  exact mem_filter.mpr ⟨hc, by simp⟩

def keepsOwn (published : List CheckpointClaim) (pass : Pass) : Bool :=
  published.all fun claim => claim.writer ≠ pass.origin || claim ∈ pass.claims

/-- Nodes that keep their own claims verify a checkpoint once. -/
theorem machine_keeps_once :
    ((machine checkpointName).restrict keepsOwn).Keeps (fun _ => True) (fun published =>
    VerifiedOnce published ∧ ∀ claim ∈ published, claim.kind = .verified →
    claim.verifiedTerms checkpointName ≠ none) := by
  rintro published pass published' - ⟨hon, hr⟩ hs
  obtain ⟨hn, hs⟩ := Machine.step_of_restrict hs
  simp only [machine] at hs
  split at hs
  · cases hs
    -- A new verification has none of its writer and checkpoint before it.
    have hf : ∀ claim ∈ published, ∀ new, checkpointStep checkpointName pass = some new →
        claim.kind = .verified → new.kind = .verified → claim.writer = new.writer →
        claim.subject ≠ new.subject := by
      intro claim hc new hnew hk hk' hw hb
      obtain ⟨ho, hl | ⟨-, hn', -⟩⟩ := of_checkpointStep hnew
      · rw [hk'] at hl
        cases hl
      · obtain ⟨terms, ht⟩ := ne_none_iff_exists'.mp (hr claim hc hk)
        have hd : claim ∈ pass.claims := by
          have ho' := List.all_eq_true.mp hn claim hc
          simpa [hw, ho] using ho'
        refine firstVerifications_ne_none hd ht ?_
        rw [hb, hw, ho]
        exact hn'
    refine ⟨?_, ?_⟩
    · intro claim hc claim' hc' hk hk' hw hb
      rcases mem_append.mp hc with hc | hc
      · rcases mem_append.mp hc' with hc' | hc'
        · exact hon claim hc claim' hc' hk hk' hw hb
        · exact absurd hb (hf claim hc claim' (mem_toList.mp hc') hk hk' hw)
      · rcases mem_append.mp hc' with hc' | hc'
        · exact absurd hb.symm (hf claim' hc' claim (mem_toList.mp hc) hk' hk hw.symm)
        · exact Option.some.inj ((mem_toList.mp hc).symm.trans (mem_toList.mp hc'))
    · intro claim hc hk
      rcases mem_append.mp hc with hc | hc
      · exact hr claim hc hk
      · obtain ⟨-, hl | ⟨-, -, terms, ht, -⟩⟩ := of_checkpointStep (mem_toList.mp hc)
        · rw [hk] at hl
          cases hl
        · simp [ht]
  · cases hs

/-! ## Closed sets of writers -/

def Leads (heard : String → Finset String) : String → String → Prop :=
  Relation.ReflTransGen fun a b => b ∈ heard a

theorem mem_of_leads {writers : Finset String} (hc : ∀ writer ∈ writers, heard writer ⊆ writers)
    {a c : String} (ha : a ∈ writers) (h : Leads heard a c) : c ∈ writers := by
  induction h with
  | refl => exact ha
  | tail _ hs ih => exact hc _ ih hs

theorem participants_closed (hs : Sound checkpointName heard published)
    (hv : view ⊆ published) (h : certificate ∈ certificates checkpointName view checkpoint) :
    ∀ writer ∈ certificate.terms.participants, heard writer ⊆ certificate.terms.participants := by
  intro writer hw
  obtain ⟨claim, hc, -, rfl, ht⟩ := (certificate_verified h).2 writer hw
  exact hs.closed claim (hv hc) _ ht

theorem kind_of_verifiedTerms (h : claim.verifiedTerms checkpointName = some terms) :
    claim.kind = .verified := by
  by_contra hk
  simp [verifiedTerms, hk] at h

/-- Certificates of a checkpoint have the same terms, whoever reads them. -/
theorem certificate_terms_eq (hs : Sound checkpointName heard published)
    (ho : VerifiedOnce published) {writers : Set String}
    (hwriters : ∀ claim ∈ published, claim.writer ∈ writers)
    (hj : ∀ a ∈ writers, ∀ b ∈ writers, ∃ c, Leads heard a c ∧ Leads heard b c)
    {view' : List CheckpointClaim} (hv : view ⊆ published) (hv' : view' ⊆ published)
    {certificate' : Certificate} (h : certificate ∈ certificates checkpointName view checkpoint)
    (h' : certificate' ∈ certificates checkpointName view' checkpoint) :
    certificate.terms = certificate'.terms := by
  obtain ⟨⟨a, ha⟩, hr⟩ := certificate_verified h
  obtain ⟨⟨b, hb⟩, hr'⟩ := certificate_verified h'
  have hw : ∀ {c : String}, c ∈ certificate.terms.participants → c ∈ writers := by
    intro c hc
    obtain ⟨claim, hl, -, rfl, -⟩ := hr c hc
    exact hwriters claim (hv hl)
  have hw' : ∀ {c : String}, c ∈ certificate'.terms.participants → c ∈ writers := by
    intro c hc
    obtain ⟨claim, hl, -, rfl, -⟩ := hr' c hc
    exact hwriters claim (hv' hl)
  obtain ⟨c, hleads, hleads'⟩ := hj a (hw ha) b (hw' hb)
  -- The common writer verified once, with the terms of both.
  obtain ⟨claim, hl, hsubject, hn, ht⟩ :=
    hr c (mem_of_leads (participants_closed hs hv h) ha hleads)
  obtain ⟨claim', hl', hsubject', hn', ht'⟩ :=
    hr' c (mem_of_leads (participants_closed hs hv' h') hb hleads')
  have hm := ho claim (hv hl) claim' (hv' hl') (kind_of_verifiedTerms ht)
    (kind_of_verifiedTerms ht') (hn.trans hn'.symm) (hsubject.trans hsubject'.symm)
  subst hm
  exact Option.some.inj (ht.symm.trans ht')

theorem machine_keeps_writers {writers : Set String} :
    (machine checkpointName).Keeps (fun pass => pass.origin ∈ writers)
      (fun published => ∀ claim ∈ published, claim.writer ∈ writers) := by
  intro published pass published' ho hw hs
  simp only [machine] at hs
  split at hs
  · cases hs
    intro claim hc
    rcases mem_append.mp hc with hc | hc
    · exact hw claim hc
    · rw [(of_checkpointStep (mem_toList.mp hc)).1]
      exact ho
  · cases hs

/-- Nodes that take passes over any claims published so far, without excusals and leaves, where
each verifies a checkpoint at most once and any two writers lead to a common one, see one
certificate of a checkpoint. -/
theorem certificates_agree {writers : Set String}
    (hjoined : ∀ a ∈ writers, ∀ b ∈ writers, ∃ c, Leads heard a c ∧ Leads heard b c)
    {passes : List Pass} (hpasses : ∀ pass ∈ passes, pass.origin ∈ writers ∧ Hears heard pass)
    (hrun : (machine checkpointName).run [] passes = some published)
    (honce : VerifiedOnce published) {view : List CheckpointClaim} (hview : view ⊆ published) :
    (∀ cut entry, (stableCheckpoints checkpointName view).get? cut = some entry →
      entry.length = 1) ∧
    (∀ checkpoint, (certificates checkpointName view checkpoint).length ≤ 1) ∧
    ∀ view' ⊆ published, ∀ checkpoint, ∀ certificate ∈ certificates checkpointName view checkpoint,
      ∀ certificate' ∈ certificates checkpointName view' checkpoint,
      certificate.terms = certificate'.terms := by
  have hsound : Sound checkpointName heard published :=
    machine_keeps_sound.run (fun pass hp => (hpasses pass hp).2) ⟨by simp, by simp⟩ hrun
  have hw : ∀ claim ∈ published, claim.writer ∈ writers :=
    machine_keeps_writers.run (fun pass hp => (hpasses pass hp).1) (by simp) hrun
  have hs : ∀ view' ⊆ published, ∀ checkpoint,
      ∀ certificate ∈ certificates checkpointName view checkpoint,
      ∀ certificate' ∈ certificates checkpointName view' checkpoint,
      certificate.terms = certificate'.terms :=
    fun view' hv' checkpoint certificate h certificate' h' =>
      certificate_terms_eq hsound honce hw hjoined hview hv' h h'
  have ho : ∀ checkpoint, (certificates checkpointName view checkpoint).length ≤ 1 := by
    intro checkpoint
    have hn : ((certificates checkpointName view checkpoint).map (·.terms)).Nodup :=
      nodup_certificate_terms
    rcases hc : certificates checkpointName view checkpoint with _ | ⟨first, _ | ⟨second, rest⟩⟩
    · simp
    · simp
    · have heq := hs view hview checkpoint first (by simp [hc]) second (by simp [hc])
      rw [hc] at hn
      simp [heq] at hn
  refine ⟨fun cut entry he => ?_, ho, hs⟩
  obtain ⟨checkpoint, first, rfl, hf, -⟩ := of_stableCheckpoints he
  have hpos := length_pos_of_mem (mem_of_mem_head? hf)
  have hl := ho checkpoint
  omega

def sampleName (cut : Nat) : String :=
  if cut = dayMs then "checkpoint/1970-01-02" else "checkpoint/other"

def fernHeard (writer : String) : Finset String :=
  if writer = "fern" then {"ash", "birch", "fern"} else {writer}

def samplePass (origin : String) (known : Finset String) (claims : List CheckpointClaim)
    (id : String) : Pass where
  origin := origin
  claims := claims
  ready := true
  nowUnixMs := 3 * dayMs
  known := known
  left := ∅
  sealedDigest := "sealed"
  rulesDigest := "rules"
  proof := some ⟨"drop", "retained", "graph", "reader"⟩
  id := id

def sampleSeal (origin : String) (known : Finset String) (id : String) : CheckpointClaim :=
  (samplePass origin known [] id).sealClaim "checkpoint/1970-01-02"
    ⟨dayMs, known, "sealed", "rules"⟩

def fernPasses : List Pass :=
  [samplePass "ash" {"ash"} [] "s1", samplePass "ash" {"ash"} [sampleSeal "ash" {"ash"} "s1"] "v1",
    samplePass "birch" {"birch"} [] "s2",
    samplePass "birch" {"birch"} [sampleSeal "birch" {"birch"} "s2"] "v2"]

/-- The two that have heard of nobody certify the checkpoint for themselves. -/
theorem two_certificates : (∀ a ∈ ["ash", "birch", "fern"], ∀ b ∈ ["ash", "birch", "fern"],
      Relation.ReflTransGen (fun a b => b ∈ fernHeard a ∨ a ∈ fernHeard b) a b) ∧
    (∀ pass ∈ fernPasses, Hears fernHeard pass) ∧
    ((machine sampleName).run [] fernPasses).map (fun published =>
      ((published.filter (·.kind = .verified)).map (·.writer),
        (certificates sampleName published "checkpoint/1970-01-02").map (·.terms.participants))) =
      some (["ash", "birch"], [{"ash"}, {"birch"}]) := by
  refine ⟨?_, ?_, by decide +kernel⟩
  · have hl : ∀ a ∈ ["ash", "birch", "fern"], a ∈ fernHeard "fern" := by decide
    intro a ha b hb
    have hf : Relation.ReflTransGen (fun a b => b ∈ fernHeard a ∨ a ∈ fernHeard b) a "fern" :=
      .single (.inr (hl a ha))
    exact hf.tail (.inl (hl b hb))
  · intro pass hp
    simp only [fernPasses, mem_cons, not_mem_nil, or_false] at hp
    rcases hp with rfl | rfl | rfl | rfl <;> exact ⟨by decide, rfl⟩

def fernKnown (writer : String) : Finset String := {"fern", writer}

def agreeingPasses : List Pass :=
  let both : Finset String := {"ash", "fern"}
  let seals := [sampleSeal "ash" both "s1", sampleSeal "fern" both "s2"]
  [samplePass "ash" both [] "s1", samplePass "fern" both [] "s2", samplePass "ash" both seals "v1",
    samplePass "fern" both seals "v2"]

theorem agreeingPasses_agree :
    ∃ published, (machine sampleName).run [] agreeingPasses = some published ∧
    certificates sampleName published "checkpoint/1970-01-02" ≠ [] ∧
    (certificates sampleName published "checkpoint/1970-01-02").length ≤ 1 := by
  have hr : (((machine sampleName).restrict keepsOwn).run [] agreeingPasses).map (fun published =>
      (certificates sampleName published "checkpoint/1970-01-02").isEmpty) = some false := by
        decide +kernel
  obtain ⟨published, hr, hf⟩ := map_eq_some_iff.mp hr
  have ho : VerifiedOnce published :=
    (machine_keeps_once.run (fun _ _ => trivial) ⟨by simp [VerifiedOnce], by simp⟩ hr).1
  have hj : ∀ a ∈ ({"ash", "fern"} : Set String), ∀ b ∈ ({"ash", "fern"} : Set String),
      ∃ c, Leads fernKnown a c ∧ Leads fernKnown b c :=
    fun a _ b _ => ⟨"fern", .single (by simp [fernKnown]), .single (by simp [fernKnown])⟩
  have hs : ∀ pass ∈ agreeingPasses, pass.origin ∈ ({"ash", "fern"} : Set String) ∧
      Hears fernKnown pass := by
    intro pass hp
    simp only [agreeingPasses, mem_cons, not_mem_nil, or_false] at hp
    rcases hp with rfl | rfl | rfl | rfl <;> exact ⟨by simp [samplePass], by decide, rfl⟩
  refine ⟨published, Machine.run_of_restrict hr, by simpa using hf, ?_⟩
  exact (certificates_agree hj hs (Machine.run_of_restrict hr) ho (List.Subset.refl _)).2.1 _

end Smalltalk.Agreement
