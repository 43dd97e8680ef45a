import Smalltalk.Retention.Planner

/-!
# Soundness of the drop planner

Rounds only keep more, so the planner's loop ends where a further round changes nothing.
Such a round says of each of its passes that it changes nothing.
-/

namespace Smalltalk.Retention

open Finset List

/-! ## Rounds only keep more -/

section
variable {schema : Schema} {sealed : SealedSet}

@[simp] theorem mem_membersOf {κ : Type} [DecidableEq κ] {key : Nat → Option κ} {k : κ} {i : Nat} :
    i ∈ membersOf sealed key k ↔ i < sealed.claims.length ∧ key i = some k := by
  simp [membersOf, indexes]

@[simp] theorem mem_groupKeys {κ : Type} [LinearOrder κ] {key : Nat → Option κ} {k : κ} :
    k ∈ groupKeys sealed key ↔ ∃ i < sealed.claims.length, key i = some k := by
  rw [groupKeys, ← OrdSet.mem_def, OrdSet.mem_ofList]
  simp [indexes]

theorem nodup_groupKeys {κ : Type} [LinearOrder κ] (key : Nat → Option κ) :
    (groupKeys sealed key).Nodup :=
  OrdSet.nodup _

theorem keepMixed_subset (members : List Nat) (d : Finset Nat) : keepMixed members d ⊆ d := by
  unfold keepMixed
  split
  · exact filter_subset _ _
  · exact Subset.refl _

theorem admittedEnvelope_subset (e : EnvelopeId) (d : Finset Nat) :
    admittedEnvelope sealed e d ⊆ d := by
  unfold admittedEnvelope
  dsimp only
  split
  · exact filter_subset _ _
  · exact Subset.refl _

section
variable {kinds : Nat → String} {names : Nat → List String}

theorem keepUnwitnessed_subset (members : List Nat) : ∀ l n (d : Finset Nat),
    keepUnwitnessed schema kinds names members l n d ⊆ d := by
  induction members with
  | nil => intro l n d; exact Subset.refl d
  | cons i rest ih =>
    intro l n d
    have hh : (if witnessedNames schema (kinds i) (names i) l n then d else d.erase i) ⊆ d := by
      split
      · exact Subset.refl d
      · exact erase_subset i d
    rw [keepUnwitnessed]
    generalize (if witnessedNames schema (kinds i) (names i) l n then d else d.erase i) =
      kept at hh ⊢
    split
    · exact (ih _ _ _).trans hh
    · exact (ih _ _ _).trans hh

/-- When a slot keeps its marks, each marked claim is witnessed by the claims kept after it. -/
theorem witnessed_of_keepUnwitnessed_eq {d : Finset Nat} (members : List Nat) : ∀ l n,
    keepUnwitnessed schema kinds names members l n d = d →
    ∀ newer i o, members = newer ++ i :: o → i ∈ d →
        witnessedNames schema (kinds i) (names i) (l ++ (newer.filter (· ∉ d)).flatMap names)
          (n + (newer.filter (· ∉ d)).length) = true := by
  induction members with
  | nil => intro l n _ newer i o h; simp at h
  | cons m rest ih =>
    intro l n heq newer i o hs hi
    -- the head kept its mark, since nothing later can give a mark back
    have hh : (if witnessedNames schema (kinds m) (names m) l n then d else d.erase m) = d := by
      apply Subset.antisymm
      · split
        · exact Subset.refl d
        · exact erase_subset m d
      · rw [keepUnwitnessed] at heq
        generalize (if witnessedNames schema (kinds m) (names m) l n then d else d.erase m) =
          kept at heq ⊢
        split at heq
        · exact heq.symm.subset.trans (keepUnwitnessed_subset _ _ _ _)
        · exact heq.symm.subset.trans (keepUnwitnessed_subset _ _ _ _)
    have hw : m ∈ d → witnessedNames schema (kinds m) (names m) l n = true := by
      intro hm
      by_contra hn
      rw [if_neg hn] at hh
      rw [← hh] at hm
      exact notMem_erase m d hm
    rw [keepUnwitnessed, hh] at heq
    cases newer with
    | nil =>
      obtain ⟨rfl, rfl⟩ := cons.inj hs
      simpa using hw hi
    | cons m' newer =>
      obtain ⟨rfl, hr⟩ := cons.inj hs
      by_cases hm : m ∈ d
      · rw [if_pos hm] at heq
        simpa [hm] using ih _ _ heq newer i o hr hi
      · rw [if_neg hm] at heq
        have := ih _ _ heq newer i o hr hi
        simpa [hm, Nat.add_comm, Nat.add_left_comm, Nat.add_assoc] using this

end

theorem witnessSlot_subset (slot : SlotKey) (d : Finset Nat) :
    witnessSlot schema sealed slot d ⊆ d := by
  unfold witnessSlot
  split
  · exact Subset.refl d
  · exact keepUnwitnessed_subset _ _ _ _

theorem keepRound_subset (d : Finset Nat) : keepRound schema sealed d ⊆ d :=
  calc keepRound schema sealed d
    _ ⊆ _ := passGroups_subset admittedEnvelope_subset _ _
    _ ⊆ _ := passGroups_subset (fun _ => keepMixed_subset _) _ _
    _ ⊆ _ := passGroups_subset (fun _ => keepMixed_subset _) _ _
    _ ⊆ d := passGroups_subset witnessSlot_subset _ _

/-! ## What a round that changes nothing says -/

structure Settled (schema : Schema) (sealed : SealedSet) (d : Finset Nat) : Prop where
  witness : ∀ slot ∈ groupKeys sealed (slotKey schema sealed), witnessSlot schema sealed slot d = d
  operation : ∀ operation ∈ groupKeys sealed (operationKey sealed),
    wholeOperation sealed operation d = d
  envelope : ∀ envelope ∈ groupKeys sealed (envelopeKey sealed), wholeEnvelope sealed envelope d = d
  records : ∀ envelope ∈ groupKeys sealed (envelopeKey sealed),
    admittedEnvelope sealed envelope d = d

variable {d : Finset Nat} {slot : SlotKey}

theorem settled_of_keepRound_eq (h : keepRound schema sealed d = d) : Settled schema sealed d := by
  have hs : ∀ d, passGroups (witnessSlot schema sealed)
      (groupKeys sealed (slotKey schema sealed)) d ⊆ d :=
    passGroups_subset witnessSlot_subset _
  have hp : ∀ d, passGroups (wholeOperation sealed)
      (groupKeys sealed (operationKey sealed)) d ⊆ d :=
    passGroups_subset (fun _ => keepMixed_subset _) _
  have hn : ∀ d, passGroups (wholeEnvelope sealed) (groupKeys sealed (envelopeKey sealed)) d ⊆ d :=
    passGroups_subset (fun _ => keepMixed_subset _) _
  have hc : ∀ d, passGroups (admittedEnvelope sealed)
      (groupKeys sealed (envelopeKey sealed)) d ⊆ d :=
    passGroups_subset admittedEnvelope_subset _
  obtain ⟨hr, h⟩ := eq_of_comp_eq hc (fun d => (hn _).trans ((hp _).trans (hs d))) h
  obtain ⟨he, h⟩ := eq_of_comp_eq hn (fun d => (hp _).trans (hs d)) h
  obtain ⟨ho, hw⟩ := eq_of_comp_eq hp hs h
  exact ⟨step_eq_of_passGroups_eq witnessSlot_subset hw,
    step_eq_of_passGroups_eq (fun _ => keepMixed_subset _) ho,
    step_eq_of_passGroups_eq (fun _ => keepMixed_subset _) he,
    step_eq_of_passGroups_eq admittedEnvelope_subset hr⟩

theorem whole_of_keepMixed_eq {members : List Nat} (h : keepMixed members d = d) {i j : Nat}
    (hi : i ∈ members) (hd : i ∈ d) (hj : j ∈ members) : j ∈ d := by
  by_contra hn
  have hm : members.any (· ∈ d) ∧ members.any (· ∉ d) := by
    constructor
    · exact any_eq_true.mpr ⟨i, hi, by simpa using hd⟩
    · exact any_eq_true.mpr ⟨j, hj, by simpa using hn⟩
  rw [keepMixed, if_pos hm] at h
  rw [← h] at hd
  exact (mem_filter.mp hd).2 hi

theorem records_of_admittedEnvelope_eq {e : EnvelopeId}
    (h : admittedEnvelope sealed e d = d) {i : Nat}
    (hi : i ∈ membersOf sealed (envelopeKey sealed) e) (hd : i ∈ d) :
    recordsOf sealed e = some (membersOf sealed (envelopeKey sealed) e).length := by
  by_contra hn
  have hk : recordsOf sealed e ≠ some (membersOf sealed (envelopeKey sealed) e).length ∧
      (membersOf sealed (envelopeKey sealed) e).any (· ∈ d) :=
    ⟨hn, any_eq_true.mpr ⟨i, hi, by simpa using hd⟩⟩
  rw [admittedEnvelope, if_pos hk] at h
  rw [← h] at hd
  exact (mem_filter.mp hd).2 hi

/-! ## What a plan drops -/

variable {i : Nat}

theorem mem_ruleDrops : i ∈ ruleDrops schema sealed ↔
      ∃ slot ∈ groupKeys sealed (slotKey schema sealed), i ∈ slotDrops schema sealed slot := by
  have hf : ∀ (slots : List SlotKey) (d : Finset Nat),
      i ∈ slots.foldl (fun dropped slot => dropped ∪ (slotDrops schema sealed slot).toFinset) d ↔
        i ∈ d ∨ ∃ slot ∈ slots, i ∈ slotDrops schema sealed slot := by
    intro slots
    induction slots with
    | nil => simp
    | cons slot slots ih =>
      intro d
      rw [foldl_cons, ih]
      simp only [mem_union, mem_toFinset, exists_mem_cons_iff, or_assoc]
  rw [ruleDrops, hf]
  simp

theorem slotKey_of_mem_slotDrops (h : i ∈ slotDrops schema sealed slot) :
    slotKey schema sealed i = some slot := by
  obtain ⟨⟨j, position⟩, hm, hi⟩ := mem_filterMap.mp h
  simp only [Option.ite_none_right_eq_some, Option.some.injEq] at hi
  obtain ⟨-, rfl⟩ := hi
  exact (mem_membersOf.mp (fst_mem_of_mem_zipIdx hm)).2

theorem plannedDrops_subset : plannedDrops schema sealed ⊆ unguardedDrops schema sealed :=
  untilStable_subset keepRound_subset _ _

theorem plannedDrops_settled (schema : Schema) (sealed : SealedSet) :
    Settled schema sealed (plannedDrops schema sealed) :=
  settled_of_keepRound_eq (untilStable_stable keepRound_subset _ _ le_rfl)

theorem slotKey_of_mem_plannedDrops (h : i ∈ plannedDrops schema sealed) :
    ∃ slot, slotKey schema sealed i = some slot := by
  obtain ⟨slot, -, hs⟩ := mem_ruleDrops.mp (mem_filter.mp (plannedDrops_subset h)).1
  exact ⟨slot, slotKey_of_mem_slotDrops hs⟩

theorem isFirst_of_slotKey (h : slotKey schema sealed i = some slot) :
    isFirst sealed i = true ∧ ∃ claim, sealed.claims[i]? = some claim ∧
    slotOf schema (claimOf claim) = some slot := by
  unfold slotKey at h
  split at h
  · obtain ⟨claim, hclaim, hs⟩ := Option.bind_eq_some_iff.mp h
    exact ⟨by assumption, claim, hclaim, hs⟩
  · cases h

theorem lt_length {claim : SealedClaim} (h : sealed.claims[i]? = some claim) :
    i < sealed.claims.length :=
  (List.getElem?_eq_some_iff.mp h).1

theorem not_guarded {claim : SealedClaim} (hi : i ∈ plannedDrops schema sealed)
    (hc : sealed.claims[i]? = some claim) : guarded schema sealed claim = false := by
  have := (mem_filter.mp (plannedDrops_subset hi)).2
  simpa [hc] using this

end

def DropPlan.Drops (plan : DropPlan) (claim : SealedClaim) : Prop :=
  claim.id ∈ plan.claims.map fun tombstone => (ofLex tombstone).1

structure KeptLater (schema : Schema) (sealed : SealedSet) (plan : DropPlan)
    (slot : SlotKey) (i : Nat) (claim : SealedClaim) : Prop where
  later : ∃ j, i < j ∧ sealed.claims[j]? = some claim ∧ slotKey schema sealed j = some slot
  kept : ¬ plan.Drops claim

structure Unguarded (schema : Schema) (sealed : SealedSet) (claim : SealedClaim) : Prop where
  person : ∀ actor, claim.row.actor = some actor → ¬ startsWith actor "person/"
  kind : guardedKind schema claim.row.kind = false
  valid : claim.valid = true
  named : claim.named = false
  once : sealed.claims.countP (·.id = claim.id) = 1
  cited : ∀ other ∈ sealed.claims, claim.id ∉ citedBy (claimOf other)
  newest : ∃ envelope ∈ sealed.envelopes,
    envelope.id.writer = claim.envelope.writer ∧ claim.envelope.sequence < envelope.id.sequence

/-- What holds at once of a plan. -/
structure DropPlan.Sound (schema : Schema) (sealed : SealedSet) (plan : DropPlan) : Prop where
  whole_envelope : ∀ claim ∈ sealed.claims, plan.Drops claim →
    ∀ other ∈ sealed.claims, other.envelope = claim.envelope → plan.Drops other
  every_record : ∀ claim ∈ sealed.claims, plan.Drops claim →
    recordsOf sealed claim.envelope = some (sealed.claims.countP (·.envelope = claim.envelope))
  envelopes : ∀ envelope, envelope ∈ plan.envelopes.map (fun tombstone => (ofLex tombstone).1) ↔
    ∃ claim ∈ sealed.claims, claim.envelope = envelope ∧ plan.Drops claim
  whole_operation : ∀ claim ∈ sealed.claims, plan.Drops claim →
    ∀ other ∈ sealed.claims, ∀ operation,
      (operationParts claim.row.body).map (·.1) = some operation →
      (operationParts other.row.body).map (·.1) = some operation → plan.Drops other
  unguarded : ∀ claim ∈ sealed.claims, plan.Drops claim → Unguarded schema sealed claim
  witnessed : ∀ i claim, sealed.claims[i]? = some claim → plan.Drops claim →
    ∃ slot, slotKey schema sealed i = some slot ∧ ((ofLex slot).1 = .questionLifecycle ∨
        (∀ name ∈ fieldNames (claimOf claim), ∃ later, KeptLater schema sealed plan slot i later ∧
          name ∈ fieldNames (claimOf later)) ∨
        ((schema.registry claim.row.kind).any (·.cardinality = .stateTransition) ∧
          ∃ later, KeptLater schema sealed plan slot i later))

section
variable {schema : Schema} {digests : Digests} {sealed : SealedSet}

theorem mem_planClaims {d : Finset Nat} {id : String} :
    id ∈ (planClaims sealed d).map (fun tombstone => (ofLex tombstone).1) ↔
      ∃ i ∈ d, isFirst sealed i = true ∧ ∃ claim, sealed.claims[i]? = some claim ∧
      claim.id = id := by
  simp only [planClaims, List.mem_map, ← OrdSet.mem_def, OrdSet.mem_ofList]
  constructor
  · rintro ⟨_, ⟨claim, hclaim, rfl⟩, rfl⟩
    obtain ⟨i, hi, ha⟩ := List.mem_filterMap.mp hclaim
    simp only [List.mem_filter, decide_eq_true_eq] at hi
    exact ⟨i, hi.2.2, hi.2.1, claim, ha, rfl⟩
  · rintro ⟨i, hd, hf, claim, hclaim, rfl⟩
    refine ⟨_, ⟨claim, List.mem_filterMap.mpr ⟨i, ?_, hclaim⟩, rfl⟩, rfl⟩
    simp [indexes, lt_length hclaim, hf, hd]

variable {claim : SealedClaim} {i : Nat}

theorem guarded_eq_false (h : guarded schema sealed claim = false) :
    (∀ a, claim.row.actor = some a → ¬ startsWith a "person/") ∧
      guardedKind schema claim.row.kind = false ∧ claim.valid = true ∧ claim.named = false ∧
      sealed.claims.countP (·.id = claim.id) ≤ 1 ∧
      (∀ other ∈ sealed.claims, claim.id ∉ citedBy (claimOf other)) ∧
      newestSequence sealed claim.envelope.writer ≠ some claim.envelope.sequence := by
  simp only [guarded, decide_eq_false_iff_not, not_or, not_lt, Bool.not_eq_true] at h
  obtain ⟨hp, hk, hv, hnamed, hn, hc, hw⟩ := h
  refine ⟨fun a ha => ?_, hk, ?_, hnamed, hn, fun other ho hm => ?_, hw⟩
  · simpa [ha] using hp
  · simpa using hv
  · exact hc (mem_flatMap.mpr ⟨other, ho, hm⟩)

theorem length_members_envelope (e : EnvelopeId) :
    (membersOf sealed (envelopeKey sealed) e).length = sealed.claims.countP (·.envelope = e) := by
  apply length_filter_range
  intro i claim hc
  simp [envelopeKey, hc]

theorem mem_of_same_operation {j : Nat} {o : String} (hi : operationKey sealed i = some o)
    (hj : operationKey sealed j = some o) (hl : i < sealed.claims.length)
    (ht : j < sealed.claims.length) (hd : i ∈ plannedDrops schema sealed) :
    j ∈ plannedDrops schema sealed := by
  have hw := (plannedDrops_settled schema sealed).operation o (mem_groupKeys.mpr ⟨i, hl, hi⟩)
  exact whole_of_keepMixed_eq hw (mem_membersOf.mpr ⟨hl, hi⟩) hd (mem_membersOf.mpr ⟨ht, hj⟩)

section
variable (h : sealed.claims[i]? = some claim)
include h

/-- The plan's tombstones say of each claim whether its index is marked: a claim held twice is
not. -/
theorem mem_planIds :
    claim.id ∈ (planClaims sealed (plannedDrops schema sealed)).map
      (fun tombstone => (ofLex tombstone).1) ↔ i ∈ plannedDrops schema sealed := by
  rw [mem_planClaims]
  constructor
  · rintro ⟨j, hj, -, other, ho, hd⟩
    have hn := (guarded_eq_false (not_guarded hj ho)).2.2.2.2.1
    have hp : ∀ c : SealedClaim, c.id = other.id → decide (c.id = other.id) = true :=
      fun c hc => by simpa using hc
    rcases Nat.lt_trichotomy i j with hl | rfl | hl
    · exact absurd (one_lt_countP hl h ho (hp _ hd.symm) (hp _ rfl)) (not_lt.mpr hn)
    · exact hj
    · exact absurd (one_lt_countP hl ho h (hp _ rfl) (hp _ hd.symm)) (not_lt.mpr hn)
  · intro hi
    obtain ⟨slot, hs⟩ := slotKey_of_mem_plannedDrops hi
    exact ⟨i, hi, (isFirst_of_slotKey hs).1, claim, h, rfl⟩

theorem drops_iff :
    (planDrops schema digests sealed).Drops claim ↔ i ∈ plannedDrops schema sealed := mem_planIds h

theorem mem_members_envelope (envelope : EnvelopeId) :
    i ∈ membersOf sealed (envelopeKey sealed) envelope ↔ claim.envelope = envelope := by
  rw [mem_membersOf, envelopeKey, h]
  simp [lt_length h]

theorem mem_of_same_envelope {j : Nat} {other : SealedClaim} (ho : sealed.claims[j]? = some other)
    (heq : other.envelope = claim.envelope)
    (hi : i ∈ plannedDrops schema sealed) : j ∈ plannedDrops schema sealed := by
  have hw := (plannedDrops_settled schema sealed).envelope claim.envelope
    (mem_groupKeys.mpr ⟨i, lt_length h, by simp [envelopeKey, h]⟩)
  exact whole_of_keepMixed_eq hw ((mem_members_envelope h _).mpr rfl) hi
    ((mem_members_envelope ho _).mpr heq)

theorem records_of_mem (hi : i ∈ plannedDrops schema sealed) :
    recordsOf sealed claim.envelope =
      some (sealed.claims.countP (·.envelope = claim.envelope)) := by
  have hm := (mem_members_envelope h claim.envelope).mpr rfl
  rw [← length_members_envelope]
  apply records_of_admittedEnvelope_eq ((plannedDrops_settled schema sealed).records _ _) hm hi
  exact mem_groupKeys.mpr ⟨i, lt_length h, by simp [envelopeKey, h]⟩

/-- The newest sealed envelope of a dropped claim's writer is a later one. -/
theorem newer_envelope (hi : i ∈ plannedDrops schema sealed) : ∃ envelope ∈ sealed.envelopes,
      envelope.id.writer = claim.envelope.writer ∧
      claim.envelope.sequence < envelope.id.sequence := by
  have hr := records_of_mem h hi
  obtain ⟨own, henvelopes, -⟩ := Option.map_eq_some_iff.mp hr
  have hd : own.id = claim.envelope := by simpa using find?_some henvelopes
  have ho : own ∈ sealed.envelopes := mem_reverse.mp (mem_of_find?_eq_some henvelopes)
  have hsequence := (guarded_eq_false (not_guarded hi h)).2.2.2.2.2.2
  have hm : claim.envelope.sequence ∈ sealed.envelopes.filterMap fun envelope =>
      if envelope.id.writer = claim.envelope.writer then some envelope.id.sequence else none :=
    mem_filterMap.mpr ⟨own, ho, by simp [hd]⟩
  obtain ⟨newest, hx⟩ :=
    Option.ne_none_iff_exists'.mp fun hn : newestSequence sealed claim.envelope.writer = none => by
    rw [newestSequence, max?_eq_none_iff] at hn
    rw [hn] at hm
    cases hm
  obtain ⟨hin, hl⟩ := max?_eq_some_iff.mp hx
  obtain ⟨envelope, he, hf⟩ := mem_filterMap.mp hin
  simp only [Option.ite_none_right_eq_some, Option.some.injEq] at hf
  obtain ⟨hw, rfl⟩ := hf
  refine ⟨envelope, he, hw, lt_of_le_of_ne (hl _ hm) fun heq => hsequence ?_⟩
  rw [hx, heq]

end

variable {slot : SlotKey}

theorem newer_members (hi : i ∈ membersOf sealed (slotKey schema sealed) slot) :
    ∃ newer o, (membersOf sealed (slotKey schema sealed) slot).reverse = newer ++ i :: o ∧
      ∀ j ∈ newer, i < j ∧ slotKey schema sealed j = some slot := by
  obtain ⟨newer, o, hs⟩ := append_of_mem (mem_reverse.mpr hi)
  refine ⟨newer, o, hs, fun j hj => ⟨?_, ?_⟩⟩
  · have hpairwise : (membersOf sealed (slotKey schema sealed) slot).Pairwise (· < ·) :=
      pairwise_lt_range.filter _
    have hr := pairwise_reverse.mpr hpairwise
    rw [hs] at hr
    exact (pairwise_append.mp hr).2.2 j hj i mem_cons_self
  · have hm : j ∈ (membersOf sealed (slotKey schema sealed) slot).reverse := by
      rw [hs]
      exact mem_append_left _ hj
    exact (mem_membersOf.mp (mem_reverse.mp hm)).2

/-- A later claim of the slot without a mark is one the plan keeps. -/
theorem keptLater_of_not_mem {j : Nat} (hi : i < j) (hs : slotKey schema sealed j = some slot)
    (hj : j ∉ plannedDrops schema sealed) :
    ∃ l, KeptLater schema sealed (planDrops schema digests sealed) slot i l ∧
      namesAt sealed j = fieldNames (claimOf l) := by
  obtain ⟨-, l, hl, -⟩ := isFirst_of_slotKey hs
  refine ⟨l, ⟨⟨j, hi, hl, hs⟩, ?_⟩, by simp [namesAt, hl]⟩
  rwa [drops_iff hl]

theorem witnessed_of_mem (hc : sealed.claims[i]? = some claim)
    (hs : slotKey schema sealed i = some slot) (hi : i ∈ plannedDrops schema sealed)
    (hr : (ofLex slot).1 ≠ .questionLifecycle) : (∀ name ∈ fieldNames (claimOf claim),
        ∃ l, KeptLater schema sealed (planDrops schema digests sealed) slot i l ∧
        name ∈ fieldNames (claimOf l)) ∨
      ((schema.registry claim.row.kind).any (·.cardinality = .stateTransition) ∧
        ∃ l, KeptLater schema sealed (planDrops schema digests sealed) slot i l) := by
  have hmem : i ∈ membersOf sealed (slotKey schema sealed) slot :=
    mem_membersOf.mpr ⟨lt_length hc, hs⟩
  obtain ⟨newer, older, hnewer, hlt'⟩ := newer_members hmem
  have hslot :=
    (plannedDrops_settled schema sealed).witness slot (mem_groupKeys.mpr ⟨i, lt_length hc, hs⟩)
  rw [witnessSlot, if_neg hr] at hslot
  have hw := witnessed_of_keepUnwitnessed_eq _ _ _ hslot newer i older hnewer hi
  simp only [witnessedNames, kindAt, namesAt, hc, Option.map_some, Option.getD_some, nil_append,
    Nat.zero_add, decide_eq_true_eq] at hw
  obtain ⟨hs', ht | hn⟩ := hw
  · right
    refine ⟨?_, ?_⟩
    · cases hp : schema.registry claim.row.kind with
      | none => simp [hp] at ht
      | some spec =>
        simp only [hp, Option.any_some, decide_eq_true_eq] at ht
        simp [ht.1]
    obtain ⟨j, hj⟩ := exists_mem_of_length_pos hs'
    obtain ⟨hj, hk⟩ := mem_filter.mp hj
    obtain ⟨hij, hl⟩ := hlt' j hj
    obtain ⟨l, hlt, -⟩ := keptLater_of_not_mem hij hl (by simpa using hk)
    exact ⟨l, hlt⟩
  · left
    intro name hnames
    have hin : name ∈ (newer.filter (· ∉ plannedDrops schema sealed)).flatMap (namesAt sealed) := by
      simpa using all_eq_true.mp hn name hnames
    obtain ⟨j, hj, hm⟩ := mem_flatMap.mp hin
    obtain ⟨hj, hk⟩ := mem_filter.mp hj
    obtain ⟨hij, hl⟩ := hlt' j hj
    obtain ⟨l, hlt, hn⟩ := keptLater_of_not_mem hij hl (by simpa using hk)
    exact ⟨l, hlt, hn ▸ hm⟩

theorem mem_planEnvelopes {d : Finset Nat} {e : EnvelopeId} :
    e ∈ (planEnvelopes sealed d).map (fun tombstone => (ofLex tombstone).1) ↔
      e ∈ sealed.envelopes.map (·.id) ∧ envelopeGoes sealed d e = true := by
  simp only [planEnvelopes, List.mem_map, ← OrdSet.mem_def, OrdSet.mem_ofList, List.mem_filterMap,
    Option.ite_none_right_eq_some, Option.some.injEq]
  constructor
  · rintro ⟨_, ⟨row, hr, hg, rfl⟩, rfl⟩
    exact ⟨⟨row, hr, rfl⟩, hg⟩
  · rintro ⟨⟨row, hr, rfl⟩, hg⟩
    exact ⟨_, ⟨row, hr, hg, rfl⟩, rfl⟩

theorem envelopeGoes_iff {envelope : EnvelopeId} :
    envelopeGoes sealed (plannedDrops schema sealed) envelope = true ↔
      ∃ i claim, sealed.claims[i]? = some claim ∧ claim.envelope = envelope ∧
      i ∈ plannedDrops schema sealed := by
  simp only [envelopeGoes, decide_eq_true_eq, mem_groupKeys, all_eq_true]
  constructor
  · rintro ⟨⟨i, hi, hk⟩, ha⟩
    obtain ⟨claim, hclaim, rfl⟩ := Option.map_eq_some_iff.mp hk
    exact ⟨i, claim, hclaim, rfl, by simpa using ha i (mem_membersOf.mpr ⟨hi, hk⟩)⟩
  · rintro ⟨i, claim, hclaim, rfl, hd⟩
    have hk : envelopeKey sealed i = some claim.envelope := by simp [envelopeKey, hclaim]
    refine ⟨⟨i, lt_length hclaim, hk⟩, fun j hj => ?_⟩
    obtain ⟨hj, hy⟩ := mem_membersOf.mp hj
    obtain ⟨other, ho, he⟩ := Option.map_eq_some_iff.mp hy
    simpa using mem_of_same_envelope hclaim ho he hd

theorem plan_sound (schema : Schema) (digests : Digests) (sealed : SealedSet) :
    (planDrops schema digests sealed).Sound schema sealed := by
  have hr : ∀ claim ∈ sealed.claims, (planDrops schema digests sealed).Drops claim →
      ∃ i, sealed.claims[i]? = some claim ∧ i ∈ plannedDrops schema sealed := by
    intro claim hm hd
    obtain ⟨i, hclaim⟩ := mem_iff_getElem?.mp hm
    exact ⟨i, hclaim, (drops_iff hclaim).mp hd⟩
  constructor
  case whole_envelope =>
    intro claim hm hd other ho heq
    obtain ⟨i, hclaim, hi⟩ := hr claim hm hd
    obtain ⟨j, hj⟩ := mem_iff_getElem?.mp ho
    exact (drops_iff hj).mpr (mem_of_same_envelope hclaim hj heq hi)
  case every_record =>
    intro claim hm hd
    obtain ⟨i, hclaim, hi⟩ := hr claim hm hd
    exact records_of_mem hclaim hi
  case envelopes =>
    intro envelope
    change envelope ∈ (planEnvelopes sealed (plannedDrops schema sealed)).map _ ↔ _
    rw [mem_planEnvelopes, envelopeGoes_iff]
    constructor
    · rintro ⟨-, i, claim, hclaim, he, hi⟩
      exact ⟨claim, mem_of_getElem? hclaim, he, (drops_iff hclaim).mpr hi⟩
    · rintro ⟨claim, hm, rfl, hd⟩
      obtain ⟨i, hclaim, hi⟩ := hr claim hm hd
      obtain ⟨own, hf, -⟩ := Option.map_eq_some_iff.mp (records_of_mem hclaim hi)
      refine ⟨mem_map.mpr ⟨own, mem_reverse.mp (mem_of_find?_eq_some hf), ?_⟩, i, claim,
        hclaim, rfl, hi⟩
      simpa using find?_some hf
  case whole_operation =>
    intro claim hm hd other ho operation hp hp'
    obtain ⟨i, hclaim, hi⟩ := hr claim hm hd
    obtain ⟨j, hj⟩ := mem_iff_getElem?.mp ho
    have hk : operationKey sealed i = some operation := by rw [operationKey, hclaim]; exact hp
    have hk' : operationKey sealed j = some operation := by rw [operationKey, hj]; exact hp'
    exact (drops_iff hj).mpr (mem_of_same_operation hk hk' (lt_length hclaim) (lt_length hj) hi)
  case unguarded =>
    intro claim hm hd
    obtain ⟨i, hclaim, hi⟩ := hr claim hm hd
    obtain ⟨hr', hkind, hv, hnamed, hn, hc, -⟩ := guarded_eq_false (not_guarded hi hclaim)
    refine ⟨hr', hkind, hv, hnamed, le_antisymm hn ?_, hc, newer_envelope hclaim hi⟩
    exact countP_pos_iff.mpr ⟨claim, hm, by simp⟩
  case witnessed =>
    intro i claim hclaim hd
    have hi := (drops_iff hclaim).mp hd
    obtain ⟨slot, hs⟩ := slotKey_of_mem_plannedDrops hi
    refine ⟨slot, hs, ?_⟩
    by_cases hl : (ofLex slot).1 = .questionLifecycle
    · exact .inl hl
    · exact .inr (witnessed_of_mem hclaim hs hi hl)

end

end Smalltalk.Retention
