import Smalltalk.Lib.Results
import Smalltalk.Retention.Capture
import Smalltalk.Retention.Soundness

/-!
# The rules over staged tables

Over tables that mirror a sealed set, each statement of `plan_staged` computes what
`plan_drops` computes over the set itself.
-/

namespace Smalltalk.Retention

open Finset OrdSet
open List hiding mem_filterMap
open Option hiding map_map

theorem Codec.slotText_injective (codec : Codec) : Function.Injective codec.slotText := by
  intro a b h
  have := codec.slot_roundtrip a
  rw [h, codec.slot_roundtrip b] at this
  exact (some.inj this).symm

theorem Codec.groupText_injective (codec : Codec) : Function.Injective codec.groupText := by
  intro a b h
  have := codec.group_roundtrip a
  rw [h, codec.group_roundtrip b] at this
  exact (some.inj this).symm

theorem map_decode {κ : Type} {encode : κ → String} {decode : String → Option κ}
    (hr : ∀ k, decode (encode k) = some k) {texts : List String}
    (h : ∀ text ∈ texts, ∃ k, encode k = text) :
    (texts.filterMap decode).map encode = texts := by
  rw [List.map_filterMap, List.filterMap_congr (g := some), List.filterMap_some]
  intro text ht
  obtain ⟨k, rfl⟩ := h text ht
  rw [hr, map_some]

section
variable {schema : Schema} {c : Codec} {db : Db} {sealed : SealedSet} {staging : Staging}

theorem Mirrors.ids (h : Mirrors schema c db sealed staging) :
    staging.claims.map (·.id) = sealed.claims.map (·.id) := by
  apply ext_getElem?
  intro i
  rw [getElem?_map, getElem?_map, h.claims i, Option.map_map]
  rfl

theorem Mirrors.length (h : Mirrors schema c db sealed staging) :
    staging.claims.length = sealed.claims.length := by
  have := congrArg List.length h.ids
  simpa using this

def Encodes {κ : Type} (staging : Staging) (column : StagedClaim → Option String)
    (key : Nat → Option κ) (text : κ → String) : Prop :=
  ∀ i, (staging.claims[i]?).bind column = (key i).map text

theorem Mirrors.slot (h : Mirrors schema c db sealed staging) :
    Encodes staging (·.slot) (slotKey schema sealed) c.slotText := by
  intro i
  rw [h.claims i, slotKey]
  cases hc : sealed.claims[i]? with
  | none => simp
  | some claim => cases hf : isFirst sealed i <;> simp [mirrorRow, claimFacts]

theorem Mirrors.seat (h : Mirrors schema c db sealed staging) :
    Encodes staging (·.seat) (seatKey sealed) id := by
  intro i
  rw [h.claims i, seatKey]
  cases hc : sealed.claims[i]? with
  | none => simp
  | some claim => cases hf : isFirst sealed i <;> simp [mirrorRow, claimFacts]

section
variable {κ : Type} {c : StagedClaim → Option String} {key : Nat → Option κ} {text : κ → String}

theorem Encodes.members [DecidableEq κ] (h : Encodes staging c key text)
    (ht : Function.Injective text) (hl : staging.claims.length = sealed.claims.length) (k : κ) :
    stagedMembers staging c (text k) = membersOf sealed key k := by
  unfold stagedMembers membersOf indexes
  rw [hl]
  apply List.filter_congr
  intro i _
  rw [h i]
  cases hk : key i with
  | none => simp
  | some k' => simp [ht.eq_iff]

theorem Encodes.mem_groups [LinearOrder κ] (h : Encodes staging c key text)
    (hl : staging.claims.length = sealed.claims.length) {value : String} :
    value ∈ stagedGroups staging c ↔ ∃ k ∈ groupKeys sealed key, text k = value := by
  rw [stagedGroups, ← OrdSet.mem_def, OrdSet.mem_ofList, ← filterMap_range, List.mem_filterMap, hl]
  simp only [h _, mem_groupKeys, List.mem_range, map_eq_some_iff]
  constructor
  · rintro ⟨i, hi, k, hk, rfl⟩
    exact ⟨k, ⟨i, hi, hk⟩, rfl⟩
  · rintro ⟨k, ⟨i, hi, hk⟩, rfl⟩
    exact ⟨i, hi, k, hk, rfl⟩

end

section
variable (h : Mirrors schema c db sealed staging)
include h

/-- Seats are their own text, so their groups come in the same order. -/
theorem Mirrors.groups_seat :
    stagedGroups staging (·.seat) = groupKeys sealed (seatKey sealed) := by
  apply toList_ext (sorted _) (sorted _)
  intro seat
  rw [← stagedGroups, h.seat.mem_groups h.length]
  simp [groupKeys]

theorem Mirrors.plannerClaims (members : List Nat) :
    plannerClaims db staging members = .ok ((claimsAt sealed members).map claimOf) := by
  unfold Retention.plannerClaims claimsAt
  induction members with
  | nil => rfl
  | cons i members ih =>
    rw [filterMap_cons, filterMap_cons, h.claims i]
    cases hc : sealed.claims[i]? with
    | none => exact ih
    | some claim =>
      have hs := h.store claim (mem_of_getElem? hc)
      simp only [map_some, mapM_cons, ih]
      simp only [mirrorRow, hs]
      rfl

theorem Mirrors.statusKeep : stagedStatusKeep db staging = .ok (statusKeep sealed) := by
  have hs := mapM_ok (f := fun seat => do
      let members := stagedMembers staging (·.seat) seat
      let sources ← Retention.plannerClaims db staging members
      return (statusKeepPositions sources staging.cut).filterMap (members[·]?))
    (g := fun seat =>
      let members := membersOf sealed (seatKey sealed) seat
      (statusKeepPositions ((claimsAt sealed members).map claimOf) sealed.cut).filterMap
        (members[·]?))
    (stagedGroups staging (·.seat)) (by
      intro seat _
      have hm := h.seat.members Function.injective_id h.length seat
      rw [id] at hm
      simp only [hm, h.plannerClaims, h.cut]
      rfl)
  unfold stagedStatusKeep Retention.statusKeep
  rw [hs, h.groups_seat]
  rfl

end

/-! ## The newest limits -/

def limitsReadings (schema : Schema) (sealed : SealedSet) : List (AccountGroup × Nat) :=
  (indexes sealed).filterMap fun i =>
    if isFirst sealed i then
      (sealed.claims[i]?).bind fun claim =>
        if claim.row.kind = "harness.limits" then schema.limitsReading (claimOf claim) else none
    else none

theorem limitsNewest_eq (g : AccountGroup) : limitsNewest schema sealed g =
    (((limitsReadings schema sealed).filterMap fun r => if r.1 = g then some r.2
      else none).max?).getD 0 := by
  unfold limitsNewest limitsReadings
  rw [filterMap_filterMap]
  congr 3
  funext i
  by_cases hf : isFirst sealed i
  · cases hc : sealed.claims[i]? with
    | none => simp [hf]
    | some claim => by_cases hk : claim.row.kind = "harness.limits" <;> simp [hf, hk]
  · simp [hf]

section
variable (h : Mirrors schema c db sealed staging)
include h

theorem Mirrors.readings : (staging.claims.filterMap fun claim =>
        if claim.first ∧ claim.kind = "harness.limits" then claim.limits else none) =
      (limitsReadings schema sealed).map fun r => (c.groupText r.1, r.2) := by
  rw [← filterMap_range, h.length, limitsReadings, map_filterMap]
  apply filterMap_congr
  intro i _
  rw [h.claims i]
  cases hc : sealed.claims[i]? with
  | none => simp
  | some claim =>
    by_cases hf : isFirst sealed i <;> by_cases hk : claim.row.kind = "harness.limits" <;>
      simp [mirrorRow, claimFacts, claimOf, recordOf, hf, hk]

theorem Mirrors.stagedLimits :
    ∃ groups : List AccountGroup, (∀ g, g ∈ groups ↔ g ∈ (limitsReadings schema sealed).map (·.1)) ∧
      stagedLimits staging = groups.map fun g => (c.groupText g, limitsNewest schema sealed g) := by
  set texts :=
    (ofList (((limitsReadings schema sealed).map fun r => (c.groupText r.1, r.2)).map (·.1))).toList
    with hx
  have hm (value : String) : value ∈ texts ↔
      ∃ r ∈ limitsReadings schema sealed, c.groupText r.1 = value := by
    rw [hx, ← OrdSet.mem_def, mem_ofList, List.map_map, List.mem_map]
    rfl
  have hd : (texts.filterMap c.groupFromText).map c.groupText = texts := by
    apply map_decode c.group_roundtrip
    intro value hv
    obtain ⟨r, _, ht⟩ := (hm value).mp hv
    exact ⟨r.1, ht⟩
  refine ⟨texts.filterMap c.groupFromText, ?_, ?_⟩
  · intro g
    rw [List.mem_filterMap, List.mem_map]
    constructor
    · rintro ⟨value, hv, hg⟩
      obtain ⟨r, hr, rfl⟩ := (hm value).mp hv
      rw [c.group_roundtrip] at hg
      exact ⟨r, hr, some.inj hg⟩
    · rintro ⟨r, hr, rfl⟩
      exact ⟨_, (hm _).mpr ⟨r, hr, rfl⟩, c.group_roundtrip _⟩
  · unfold Retention.stagedLimits
    rw [h.readings]
    change texts.map _ = _
    conv_lhs => rw [← hd]
    rw [List.map_map]
    apply map_congr_left
    intro g _
    simp only [Function.comp_apply, limitsNewest_eq, filterMap_map]
    congr 4
    funext r
    simp [c.groupText_injective.eq_iff]

theorem Mirrors.limitsNewest : ∃ newest, stagedLimitsNewest staging c = .ok newest ∧
      ∀ group, ((newest.find? (·.1 = group)).map (·.2)).getD 0 =
        limitsNewest schema sealed group := by
  obtain ⟨groups, hg, hw⟩ := h.stagedLimits
  refine ⟨groups.map fun group => (group, Retention.limitsNewest schema sealed group), ?_, ?_⟩
  · unfold stagedLimitsNewest
    rw [hw, mapM_map]
    apply mapM_ok
    intro group _
    simp [c.group_roundtrip]
  · intro group
    rw [find?_map]
    cases hf : groups.find? ((fun r : AccountGroup × Nat => decide (r.1 = group)) ∘
        fun group => (group, Retention.limitsNewest schema sealed group)) with
    | some f =>
      obtain rfl : f = group := by simpa using find?_some hf
      simp
    | none =>
      have hn : group ∉ groups := fun hm => find?_eq_none.mp hf group hm (by simp)
      rw [hg, List.mem_map] at hn
      have he : ((limitsReadings schema sealed).filterMap fun r => if r.1 = group then some r.2
        else none) = [] := by
        rw [filterMap_eq_nil_iff]
        intro r hr
        exact if_neg fun heq => hn ⟨r, hr, heq⟩
      rw [limitsNewest_eq, he]
      rfl

end

theorem Mirrors.expired (h : Mirrors schema c db sealed staging) :
    stagedExpired staging = expiredQuestions sealed := by
  unfold stagedExpired expiredQuestions indexes
  rw [← filterMap_range, h.length]
  apply filterMap_congr
  intro i _
  rw [h.claims i, h.cut]
  cases hc : sealed.claims[i]? with
  | none => simp
  | some claim => by_cases hf : isFirst sealed i <;> simp [mirrorRow, hf]

theorem Mirrors.slotClosed (h : Mirrors schema c db sealed staging) (slot : SlotKey) :
    stagedClosed staging slot = slotClosed sealed slot := by
  unfold stagedClosed Retention.slotClosed
  rewrite [h.closed, h.expired]
  cases (ofLex slot).1 <;> simp only [contains_eq_mem]

theorem ruleKeep_nil {r : Rule} (h : r.readsBodies = false) (len : Nat) (claims : List ClaimRecord)
    (closed : Bool) (newest : AccountGroup → Nat) (cut : Nat) :
    ruleKeep schema r len [] closed newest cut =
      ruleKeep schema r len claims closed newest cut := by
  cases r <;> simp [Rule.readsBodies] at h <;> rfl

section
variable (h : Mirrors schema c db sealed staging)
include h

theorem Mirrors.claimsAt (members : List Nat) :
    (members.filterMap (staging.claims[·]?)).map (·.fields) =
      ((claimsAt sealed members).map claimOf).map fieldNames := by
  unfold Retention.claimsAt
  rw [List.map_filterMap, List.map_map, List.map_filterMap]
  apply List.filterMap_congr
  intro i _
  rw [h.claims i, Option.map_map]
  rfl

theorem Mirrors.oldEnough (r : Rule) (i : Nat) :
    (staging.claims[i]?).any (fun claim => r.oldEnough claim.acceptedAt staging.cut) =
      (sealed.claims[i]?).any (fun claim => r.oldEnough claim.row.acceptedAt sealed.cut) := by
  rw [h.claims i, h.cut, Option.any_map]
  rfl

section
variable {newest : List (AccountGroup × Nat)}
    (hn : ∀ g, ((newest.find? (·.1 = g)).map (·.2)).getD 0 = Retention.limitsNewest schema sealed g)
include hn

theorem Mirrors.slotDrops
    (slot : SlotKey) :
    stagedSlotDrops db staging schema c (Retention.statusKeep sealed) newest (c.slotText slot) =
      .ok (slotDrops schema sealed slot) := by
  unfold stagedSlotDrops Retention.slotDrops
  rw [c.slot_roundtrip, h.slot.members c.slotText_injective h.length]
  simp only [pure_bind, h.plannerClaims, h.claimsAt, h.slotClosed, h.oldEnough]
  simp only [h.cut, funext hn]
  cases hr : (ofLex slot).1.readsBodies with
  | true => rfl
  | false =>
    rw [← ruleKeep_nil hr _ ((Retention.claimsAt sealed _).map claimOf)]
    rfl

theorem Mirrors.marks : ∃ marked, (stagedGroups staging (·.slot)).mapM
        (stagedSlotDrops db staging schema c (Retention.statusKeep sealed) newest) = .ok marked ∧
      marked.flatten.toFinset = ruleDrops schema sealed := by
  refine ⟨(stagedGroups staging (·.slot)).map fun text =>
    ((c.slotFromText text).map (Retention.slotDrops schema sealed)).getD [], mapM_ok _ ?_, ?_⟩
  · intro text ht
    obtain ⟨slot, _, rfl⟩ := (h.slot.mem_groups h.length).mp ht
    rw [h.slotDrops hn, c.slot_roundtrip]
    rfl
  · ext i
    rw [List.mem_toFinset, List.mem_flatten, mem_ruleDrops]
    constructor
    · rintro ⟨drops, hd, hi⟩
      obtain ⟨text, ht, rfl⟩ := mem_map.mp hd
      obtain ⟨slot, hs, rfl⟩ := (h.slot.mem_groups h.length).mp ht
      rw [c.slot_roundtrip] at hi
      exact ⟨slot, hs, hi⟩
    · rintro ⟨slot, hs, hi⟩
      refine ⟨_, mem_map.mpr ⟨_, (h.slot.mem_groups h.length).mpr ⟨slot, hs, rfl⟩, rfl⟩, ?_⟩
      rw [c.slot_roundtrip]
      exact hi

end

end

/-! ## The guards -/

theorem max?_congr {l m : List Nat} (h : ∀ n, n ∈ l ↔ n ∈ m) : l.max? = m.max? := by
  ext n
  rw [max?_eq_some_iff, max?_eq_some_iff, h]
  simp [h]

theorem Mirrors.newestSequence (h : Mirrors schema c db sealed staging) (writer : String) :
    stagedNewest staging writer = newestSequence sealed writer := by
  apply max?_congr
  intro n
  simp only [List.mem_filterMap, ← h.envelopes.mem_iff, List.mem_map, List.mem_filter]
  constructor
  · rintro ⟨r, hr, hi⟩
    simp only [ite_none_right_eq_some] at hi
    exact ⟨_, ⟨r, ⟨hr, hi.1.2⟩, rfl⟩, by simpa [hi.1.1] using hi.2⟩
  · rintro ⟨_, ⟨r, ⟨hr, hn⟩, rfl⟩, hi⟩
    exact ⟨r, hr, by simpa [hn] using hi⟩

theorem startsWith_person (text : String) :
    startsWith text "person/" = decide (text.toList.take 7 = "person/".toList) := by
  rw [Bool.eq_iff_iff, decide_eq_true_eq, startsWith, isPrefixOf_iff_prefix,
    prefix_iff_eq_take, eq_comm]
  rfl

section
variable (h : Mirrors schema c db sealed staging)
include h

theorem Mirrors.countP_id (id : String) :
    staging.claims.countP (·.id = id) = sealed.claims.countP (·.id = id) := by
  have := congrArg (countP (· = id)) h.ids
  simpa [countP_map, Function.comp_def] using this

theorem Mirrors.mem_kinds {claim : SealedClaim}
    (hc : claim ∈ sealed.claims) : claim.row.kind ∈ staging.claims.map (·.kind) := by
  obtain ⟨i, hi⟩ := mem_iff_getElem?.mp hc
  refine mem_map.mpr ⟨mirrorRow schema c (isFirst sealed i) claim, mem_of_getElem? (i := i) ?_, rfl⟩
  rw [h.claims i, hi]
  rfl

theorem Mirrors.guarded {claim : SealedClaim} (hl : claim ∈ sealed.claims) (f : Bool) :
    stagedGuarded staging schema (mirrorRow schema c f claim) = guarded schema sealed claim := by
  have hk : claim.row.kind ∈ (staging.claims.map (·.kind)).dedup.filter (guardedKind schema) ↔
      guardedKind schema claim.row.kind = true := by
    simp [List.mem_filter, List.mem_dedup, -List.mem_map, h.mem_kinds hl]
  have hc : staging.claims.countP (·.id = (mirrorRow schema c f claim).id) =
      sealed.claims.countP (·.id = claim.id) := h.countP_id claim.id
  unfold stagedGuarded Retention.guarded
  rw [hc]
  simp only [mirrorRow, hk, h.cited, h.newestSequence, startsWith_person]

theorem Mirrors.unguarded (marks : Finset Nat) :
    marks.filter (fun i => ¬ (staging.claims[i]?).any (stagedGuarded staging schema)) =
      marks.filter fun i => ¬ (sealed.claims[i]?).any (Retention.guarded schema sealed) := by
  apply Finset.filter_congr
  intro i _
  rw [h.claims i]
  cases hc : sealed.claims[i]? with
  | none => simp
  | some claim => simp [h.guarded (mem_of_getElem? hc)]

end

end

end Smalltalk.Retention
