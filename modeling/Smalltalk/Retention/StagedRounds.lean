import Smalltalk.Retention.StagedRules

/-!
# Rounds over staged tables

`plan_drops` keeps claims back group by group, `plan_staged` by one statement for all groups
of a kind. A step for a group neither reads nor moves the marks of another group.
-/

namespace Smalltalk.Retention

open Finset Option

section
variable {s : Schema} {sealed : SealedSet}

theorem mem_keepMixed {members : List Nat} {d : Finset Nat} {i : Nat} :
    i ∈ keepMixed members d ↔ i ∈ d ∧ (i ∈ members → ∀ j ∈ members, j ∈ d) := by
  unfold keepMixed
  split
  · rename_i hm
    simp only [List.any_eq_true, decide_eq_true_eq] at hm
    obtain ⟨_, j, hj, hk⟩ := hm
    rw [mem_filter]
    exact and_congr_right fun _ => ⟨fun h hi => absurd hi h, fun h hi => hk (h hi j hj)⟩
  · rename_i hm
    simp only [List.any_eq_true, decide_eq_true_eq, not_and, not_exists, not_not] at hm
    refine ⟨fun hi => ⟨hi, fun hmem => ?_⟩, And.left⟩
    exact hm ⟨i, hmem, hi⟩

theorem mem_admittedEnvelope {e : EnvelopeId} {d : Finset Nat} {i : Nat} :
    i ∈ admittedEnvelope sealed e d ↔ i ∈ d ∧ (i ∈ membersOf sealed (envelopeKey sealed) e →
        recordsOf sealed e = some (membersOf sealed (envelopeKey sealed) e).length) := by
  unfold admittedEnvelope
  dsimp only
  by_cases hr : recordsOf sealed e = some (membersOf sealed (envelopeKey sealed) e).length
  · simp [hr]
  · split
    · rw [mem_filter]
      simp [hr]
    · rename_i ha
      simp only [ne_eq, hr, not_false_eq_true, true_and, List.any_eq_true, decide_eq_true_eq,
        not_exists, not_and] at ha
      refine ⟨fun hi => ⟨hi, fun hm => absurd hi (ha i hm)⟩, And.left⟩

section
variable {kinds : Nat → String} {names : Nat → List String}

theorem mem_keepUnwitnessed_of_not (members : List Nat) :
    ∀ l n (d : Finset Nat) {i : Nat}, i ∉ members →
    (i ∈ keepUnwitnessed s kinds names members l n d ↔ i ∈ d) := by
  induction members with
  | nil => intro l n d i _; rfl
  | cons m r ih =>
    intro l n d i hi
    rw [List.mem_cons, not_or] at hi
    have hh : i ∈ (if witnessedNames s (kinds m) (names m) l n then d else d.erase m) ↔ i ∈ d := by
      split
      · rfl
      · simp [hi.1]
    rw [keepUnwitnessed]
    generalize (if witnessedNames s (kinds m) (names m) l n then d else d.erase m) = kept at hh ⊢
    split
    · rw [ih _ _ _ hi.2, hh]
    · rw [ih _ _ _ hi.2, hh]

theorem keepUnwitnessed_congr (members : List Nat) : ∀ l n (d d' : Finset Nat),
    (∀ i ∈ members, (i ∈ d ↔ i ∈ d')) →
    ∀ i ∈ members, (i ∈ keepUnwitnessed s kinds names members l n d ↔
        i ∈ keepUnwitnessed s kinds names members l n d') := by
  induction members with
  | nil => intro l n d d' _ i hi; cases hi
  | cons m r ih =>
    intro l n d d' ha i hi
    have hk : ∀ j ∈ m :: r,
          (j ∈ (if witnessedNames s (kinds m) (names m) l n then d else d.erase m) ↔
          j ∈ (if witnessedNames s (kinds m) (names m) l n then d' else d'.erase m)) := by
      intro j hj
      split
      · exact ha j hj
      · simp [ha j hj]
    rw [keepUnwitnessed, keepUnwitnessed]
    generalize (if witnessedNames s (kinds m) (names m) l n then d else d.erase m) = kept at hk ⊢
    generalize (if witnessedNames s (kinds m) (names m) l n then d' else d'.erase m) = kept' at hk ⊢
    have hs : ∀ j ∈ r, (j ∈ kept ↔ j ∈ kept') := fun j hj => hk j (List.mem_cons_of_mem _ hj)
    have hm := hk m List.mem_cons_self
    have hc : ∀ l n, (i ∈ keepUnwitnessed s kinds names r l n kept ↔
        i ∈ keepUnwitnessed s kinds names r l n kept') := by
      intro l n
      by_cases hr : i ∈ r
      · exact ih l n kept kept' hs i hr
      · rw [mem_keepUnwitnessed_of_not _ _ _ _ hr, mem_keepUnwitnessed_of_not _ _ _ _ hr]
        exact hk i hi
    by_cases hkept : m ∈ kept
    · rw [if_pos hkept, if_pos (hm.mp hkept)]
      exact hc _ _
    · rw [if_neg hkept, if_neg fun h => hkept (hm.mpr h)]
      exact hc _ _

end

/-! ## All groups of a kind -/

def KeyOfClaims {κ : Type} (sealed : SealedSet) (key : Nat → Option κ) : Prop :=
  ∀ i k, key i = some k → i < sealed.claims.length

theorem slotKey_ofClaims : KeyOfClaims sealed (slotKey s sealed) := by
  intro i k h
  unfold slotKey at h
  split at h
  · obtain ⟨claim, hc, _⟩ := bind_eq_some_iff.mp h
    exact lt_length hc
  · cases h

theorem operationKey_ofClaims : KeyOfClaims sealed (operationKey sealed) := by
  intro i k h
  obtain ⟨claim, hc, _⟩ := bind_eq_some_iff.mp h
  exact lt_length hc

theorem envelopeKey_ofClaims : KeyOfClaims sealed (envelopeKey sealed) := by
  intro i k h
  obtain ⟨claim, hc, _⟩ := map_eq_some_iff.mp h
  exact lt_length hc

theorem witnessSlot_groupwise : Groupwise (slotKey s sealed) (witnessSlot s sealed) where
  frame := by
    intro slot d i hi
    unfold witnessSlot
    split
    · rfl
    · exact mem_keepUnwitnessed_of_not _ _ _ _ fun hm =>
        hi (by simpa using (mem_membersOf.mp (List.mem_reverse.mp hm)).2)
  reads := by
    intro slot d d' ha i hi
    unfold witnessSlot
    split
    · exact ha i hi
    · apply keepUnwitnessed_congr
      · intro j hj
        exact ha j (mem_membersOf.mp (List.mem_reverse.mp hj)).2
      · exact List.mem_reverse.mpr (mem_membersOf.mpr ⟨slotKey_ofClaims i slot hi, hi⟩)

theorem keepMixed_groupwise {κ : Type} [DecidableEq κ] {key : Nat → Option κ} :
    Groupwise key fun k => keepMixed (membersOf sealed key k) where
  frame := by
    intro k d i hi
    rw [mem_keepMixed]
    exact ⟨And.left, fun hd => ⟨hd, fun hm => absurd (mem_membersOf.mp hm).2 hi⟩⟩
  reads := by
    intro k d d' ha i hi
    rw [mem_keepMixed, mem_keepMixed, ha i hi]
    refine and_congr_right fun _ => forall_congr' fun _ => forall₂_congr fun j hj => ?_
    exact ha j (mem_membersOf.mp hj).2

theorem admittedEnvelope_groupwise : Groupwise (envelopeKey sealed) (admittedEnvelope sealed) where
  frame := by
    intro e d i hi
    rw [mem_admittedEnvelope]
    exact ⟨And.left, fun hd => ⟨hd, fun hm => absurd (mem_membersOf.mp hm).2 hi⟩⟩
  reads := by
    intro e d d' ha i hi
    rw [mem_admittedEnvelope, mem_admittedEnvelope, ha i hi]

/-- A pass over every group decides a claim by its own group. -/
theorem mem_pass_groupKeys {κ : Type} [LinearOrder κ] {key : Nat → Option κ}
    {step : κ → Finset Nat → Finset Nat} (hy : KeyOfClaims sealed key) (hs : Groupwise key step)
    {d : Finset Nat} {i : Nat} :
    i ∈ passGroups step (groupKeys sealed key) d ↔
    ((key i).map fun k => i ∈ step k d).getD (i ∈ d) := by
  cases hk : key i with
  | none =>
    apply hs.mem_pass_of_not
    intro k _ heq
    rw [hk] at heq
    cases heq
  | some k =>
    exact hs.mem_pass_of_mem hk (nodup_groupKeys key) (mem_groupKeys.mpr ⟨i, hy i k hk, hk⟩)

/-! ## The statements -/

variable {c : Codec} {db : Db} {staging : Staging}

theorem Mirrors.witnessSlot (h : Mirrors s c db sealed staging) (slot : SlotKey) (d : Finset Nat) :
    stagedWitnessSlot staging s c (c.slotText slot) d = witnessSlot s sealed slot d := by
  have hk : stagedKindAt staging = kindAt sealed := by
    funext i
    rw [stagedKindAt, h.claims i, Option.map_map]
    rfl
  have hn : stagedNamesAt staging = namesAt sealed := by
    funext i
    rw [stagedNamesAt, h.claims i, Option.map_map]
    rfl
  unfold stagedWitnessSlot Retention.witnessSlot
  rw [c.slot_roundtrip, h.slot.members c.slotText_injective h.length, hk, hn]
  simp

theorem Mirrors.witnessPass (h : Mirrors s c db sealed staging) (d : Finset Nat) :
    passGroups (stagedWitnessSlot staging s c) (stagedGroups staging (·.slot)) d =
      passGroups (Retention.witnessSlot s sealed) (groupKeys sealed (slotKey s sealed)) d := by
  have hd : ((stagedGroups staging (·.slot)).filterMap c.slotFromText).map c.slotText =
      stagedGroups staging (·.slot) := by
    apply map_decode c.slot_roundtrip
    intro text ht
    obtain ⟨slot, _, hs⟩ := (h.slot.mem_groups h.length).mp ht
    exact ⟨slot, hs⟩
  have hn : ((stagedGroups staging (·.slot)).filterMap c.slotFromText).Nodup := by
    apply List.Nodup.of_map c.slotText
    rw [hd]
    exact OrdSet.nodup _
  have hm (slot : SlotKey) : slot ∈ (stagedGroups staging (·.slot)).filterMap c.slotFromText ↔
      slot ∈ groupKeys sealed (slotKey s sealed) := by
    rw [← List.mem_map_of_injective c.slotText_injective, hd, h.slot.mem_groups h.length]
    constructor
    · rintro ⟨slot', hs', heq⟩
      rwa [← c.slotText_injective heq]
    · exact fun hs => ⟨slot, hs, rfl⟩
  rw [← hd, ← witnessSlot_groupwise.pass_congr hn (nodup_groupKeys _) hm d]
  unfold passGroups
  rw [List.foldl_map]
  congr 1
  funext d slot
  exact h.witnessSlot slot d

theorem existsKept_iff {d : Finset Nat} {p : StagedClaim → Bool} :
    existsKept staging d p = true ↔ ∃ i, (staging.claims[i]?).any p = true ∧ i ∉ d := by
  unfold existsKept
  simp only [List.any_eq_true, List.mem_range, decide_eq_true_eq]
  constructor
  · rintro ⟨i, _, hi⟩
    exact ⟨i, hi⟩
  · rintro ⟨i, ha, hi⟩
    refine ⟨i, ?_, ha, hi⟩
    by_contra hl
    rw [List.getElem?_eq_none (by omega)] at ha
    cases ha

section
variable {κ : Type} [LinearOrder κ] [DecidableEq κ] {c : StagedClaim → Option κ}
    {key : Nat → Option κ}

omit [LinearOrder κ] in
theorem any_column (hc : ∀ i, (staging.claims[i]?).bind c = key i) (i : Nat) (k : κ) :
    (staging.claims[i]?).any (fun claim => decide (c claim = some k)) = true ↔ key i = some k := by
  rw [← hc i]
  cases staging.claims[i]? <;> simp

/-- One statement keeps the groups that are dropped in part. -/
theorem keepWhere_existsKept (hy : KeyOfClaims sealed key)
    (hclaims : ∀ i, (staging.claims[i]?).bind c = key i) (d : Finset Nat) :
    keepWhere staging (fun claim => (c claim).isSome ∧
      existsKept staging d fun other => c other = c claim) d =
      passGroups (fun k => keepMixed (membersOf sealed key k)) (groupKeys sealed key) d := by
  ext i
  rw [mem_pass_groupKeys hy keepMixed_groupwise, keepWhere, mem_filter]
  have hc := hclaims i
  cases hl : staging.claims[i]? with
  | none =>
    rw [hl] at hc
    simp [← hc]
  | some claim =>
    rw [hl, bind_some] at hc
    cases hk : key i with
    | none => simp [hc, hk]
    | some k =>
      have hm : i ∈ membersOf sealed key k := mem_membersOf.mpr ⟨hy i k hk, hk⟩
      rw [hk] at hc
      simp only [any_some, hc, isSome_some, true_and, map_some, getD_some, mem_keepMixed,
        hm, forall_const, decide_eq_true_eq]
      refine and_congr_right fun _ => ?_
      rw [existsKept_iff]
      simp only [any_column hclaims, not_exists, not_and, not_not]
      exact ⟨fun ha j hj => ha j (mem_membersOf.mp hj).2,
        fun ha j hj => ha j (mem_membersOf.mpr ⟨hy j k hj, hj⟩)⟩

end

section
variable (h : Mirrors s c db sealed staging)
include h

theorem Mirrors.operations (d : Finset Nat) :
    stagedOperations staging d =
      passGroups (wholeOperation sealed) (groupKeys sealed (operationKey sealed)) d := by
  apply keepWhere_existsKept operationKey_ofClaims
  intro i
  rw [h.claims i, operationKey, bind_map]
  rfl

theorem Mirrors.envelope_at (i : Nat) :
    (staging.claims[i]?).bind (fun claim => some claim.envelope) = envelopeKey sealed i := by
  rw [h.claims i, envelopeKey]
  cases sealed.claims[i]? <;> rfl

theorem Mirrors.envelopePass (d : Finset Nat) :
    stagedEnvelopes staging d =
      passGroups (wholeEnvelope sealed) (groupKeys sealed (envelopeKey sealed)) d := by
  refine Eq.trans ?_ (keepWhere_existsKept envelopeKey_ofClaims h.envelope_at d)
  simp [stagedEnvelopes]

theorem Mirrors.recordsOf {envelope : EnvelopeId} {row : StagedEnvelope}
    (hw : staging.envelopes.get? envelope = some row) (hi : row.included = true) :
    recordsOf sealed envelope = some row.records := by
  have hs : ∀ e ∈ sealed.envelopes, e.id = envelope → e.records = row.records := by
    intro e he heq
    obtain ⟨⟨k, row'⟩, hr, rfl⟩ := List.mem_map.mp (h.envelopes.mem_iff.mpr he)
    obtain rfl : k = envelope := heq
    have hg := Table.mem_rows.mp (List.mem_filter.mp hr).1
    rw [hw] at hg
    rw [some.inj hg]
  have hl : (⟨envelope, row.acceptedAt, row.records⟩ : SealedEnvelope) ∈ sealed.envelopes := by
    rw [← h.envelopes.mem_iff, List.mem_map]
    exact ⟨(envelope, row), List.mem_filter.mpr ⟨Table.mem_rows.mpr hw, hi⟩, rfl⟩
  unfold Retention.recordsOf
  cases hf : sealed.envelopes.reverse.find? (·.id = envelope) with
  | none => exact absurd (List.find?_eq_none.mp hf _ (List.mem_reverse.mpr hl)) (by simp)
  | some e =>
    have hm := List.mem_reverse.mp (List.mem_of_find?_eq_some hf)
    rw [map_some, hs e hm (by simpa using List.find?_some hf)]

theorem Mirrors.recordsPass (d : Finset Nat) :
    stagedRecords staging d =
      passGroups (admittedEnvelope sealed) (groupKeys sealed (envelopeKey sealed)) d := by
  ext i
  rw [mem_pass_groupKeys envelopeKey_ofClaims admittedEnvelope_groupwise, stagedRecords, keepWhere,
    mem_filter, h.claims i]
  cases hc : sealed.claims[i]? with
  | none => simp [envelopeKey, hc]
  | some claim =>
    have hk : envelopeKey sealed i = some claim.envelope := by simp [envelopeKey, hc]
    have hm : i ∈ membersOf sealed (envelopeKey sealed) claim.envelope :=
      mem_membersOf.mpr ⟨lt_length hc, hk⟩
    have hi := h.sealedBy claim (List.mem_of_getElem? hc)
    rw [any_eq_true] at hi
    obtain ⟨row, hr, hi⟩ := hi
    have hn : staging.claims.countP
        (·.envelope = (mirrorRow s c (isFirst sealed i) claim).envelope) =
        (membersOf sealed (envelopeKey sealed) claim.envelope).length := by
      rw [membersOf, indexes, ← h.length]
      symm
      apply length_filter_range
      intro j other ho
      rw [← h.envelope_at j, ho]
      simp only [bind_some, some.injEq]
      rfl
    simp only [map_some, any_some, hk, getD_some, mem_admittedEnvelope, hm, forall_const]
    change i ∈ d ∧ (¬ (staging.envelopes.get? claim.envelope).any _ = true) ↔ _
    rw [hr, h.recordsOf hr hi, hn]
    simp

theorem Mirrors.round (d : Finset Nat) : stagedRound staging s c d = keepRound s sealed d := by
  rw [stagedRound, h.witnessPass, h.operations, h.envelopePass, h.recordsPass]
  rfl

/-- `plan_staged` marks exactly the claims `plan_drops` drops. -/
theorem Mirrors.planStaged : planStaged db staging s c = .ok (plannedDrops s sealed) := by
  obtain ⟨newest, hl, hn⟩ := h.limitsNewest
  obtain ⟨marked, hm, hd⟩ := h.marks hn
  unfold Retention.planStaged plannedDrops unguardedDrops
  rw [h.statusKeep, hl, funext h.round, ← hd, ← h.unguarded]
  change ((stagedGroups staging (·.slot)).mapM
    (stagedSlotDrops db staging s c (Retention.statusKeep sealed) newest)).bind _ = _
  rw [hm]
  rfl

end

end

end Smalltalk.Retention
