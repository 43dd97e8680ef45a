import Smalltalk.Projection.Sums

/-!
# Projection digests are exact

Each row change moves the digests with the rows, as long as a claim and its
tombstone are the one row that the triggers take them for.
-/

namespace Smalltalk.Projection

open List Option Table Tables ExactBut Statement

section
variable {registry : Registry} {rowHash : String → List String → Row → Accumulator}
variable {s t u : Db} {stale : String → Prop}

/-! ## Claims -/

def Tables.sameTime (s : Tables) (id acceptedAt : String) : Bool :=
  s.repaired id || (s.checkpointClaims.get? id).all
    fun tombstone => toString tombstone.acceptedAt = acceptedAt

theorem Tables.seen_of_sameTime {s : Tables} {id : String} {claim : Claim}
    (hoperation : s.sameTime id claim.acceptedAt = true)
    (h : ¬ ((s.checkpointClaims.get? id).isNone = true ∧ s.repaired id = false)) :
    seen id none (s.checkpointClaims.get? id) (s.repaired id) =
      seen id (some claim) (s.checkpointClaims.get? id) (s.repaired id) := by
  cases hr : s.repaired id with
  | true => rfl
  | false =>
    cases ht : s.checkpointClaims.get? id with
    | none => exact absurd ⟨by simpa using ht, hr⟩ h
    | some tombstone =>
      have hm : toString tombstone.acceptedAt = claim.acceptedAt := by
        simpa [sameTime, hr, ht] using hoperation
      simp [hm]

section
variable (hs : Exact registry rowHash s)
include hs

theorem Exact.of_claims (claims : Table String Claim) (id : String)
    (ho : ∀ other, other ≠ id → claims.get? other = s.claims.get? other)
    (hm : Moves rowHash claimSources
      (seen id (s.claims.get? id) (s.checkpointClaims.get? id) (s.repaired id))
      (seen id (claims.get? id) (s.checkpointClaims.get? id) (s.repaired id))
      { s with claims := claims } t) :
    Exact registry rowHash t := by
  refine of_source hs { s.toTables with claims := claims } id rfl ?_ (fun _ _ => rfl) hm
  intro other hn
  change seen other (claims.get? other) _ _ = seen other (s.claims.get? other) _ _
  rw [ho other hn]
  rfl

theorem Exact.insertClaim {id : String} {claim : Claim}
    (hm : s.sameTime id claim.acceptedAt = true) (h : s.insertClaim rowHash id claim = some t) :
    Exact registry rowHash t := by
  unfold Db.insertClaim at h
  split at h
  · cases h
  · rename_i hn
    have hc : s.claims.get? id = none := by simpa using hn
    refine hs.of_claims (s.claims.insert id claim) id
      (fun other hne => by simp [get?_insert, hne]) ?_
    rw [get?_insert, if_pos rfl, hc]
    dsimp only at h
    split at h
    · rename_i hf
      have ht : s.checkpointClaims.get? id = none := by simpa using hf.1
      rw [ht, show s.repaired id = false from hf.2]
      exact .inl ⟨1, rfl, h⟩
    · rename_i hf
      exact .inr ⟨seen_of_sameTime hm hf, (some.inj h).symm⟩

theorem Exact.updateClaim {id m : String} {claim : Claim}
    (h : s.updateClaim rowHash id m claim = some t) : Exact registry rowHash t := by
  unfold Db.updateClaim at h
  split at h
  · cases h
    exact hs
  · rename_i old hold
    split at h
    · cases h
    · refine hs.of_claims (s.claims.update id fun _ => claim) id
        (fun other hn => by simp [get?_update, hn]) ?_
      rw [get?_update, if_pos rfl, hold]
      dsimp only at h
      split at h
      · rename_i hf
        rw [show s.repaired id = false from hf.2]
        exact .inl ⟨0, rfl, h⟩
      · rename_i hf
        refine .inr ⟨?_, (some.inj h).symm⟩
        cases hr : s.repaired id with
        | true => rfl
        | false =>
          have ht : old.acceptedAt = claim.acceptedAt := by
            by_contra hn
            exact hf ⟨hn, hr⟩
          simp [ht]

theorem Exact.deleteClaim {id : String}
    (hm : (s.claims.get? id).all (fun claim => s.sameTime id claim.acceptedAt) = true)
    (h : s.deleteClaim rowHash id = some t) : Exact registry rowHash t := by
  unfold Db.deleteClaim at h
  split at h
  · cases h
    exact hs
  · rename_i old hold
    refine hs.of_claims (s.claims.delete id) id (fun other hn => by simp [get?_delete, hn]) ?_
    rw [get?_delete, if_pos rfl, hold]
    dsimp only at h
    split at h
    · rename_i hf
      have ht : s.checkpointClaims.get? id = none := by simpa using hf.1
      rw [ht, show s.repaired id = false from hf.2]
      exact .inl ⟨-1, rfl, h⟩
    · rename_i hf
      have hm : s.sameTime id old.acceptedAt = true := by simpa [hold] using hm
      exact .inr ⟨(seen_of_sameTime hm hf).symm, (some.inj h).symm⟩

end

/-! ## Tombstones -/

section
variable (hs : ExactBut registry rowHash stale s)
include hs

theorem ExactBut.mono {f : String → Prop} (h : ∀ o, stale o → f o) :
    ExactBut registry rowHash f s :=
  ⟨hs.registered, hs.sources, hs.summed, fun o hf => hs.cached o fun ht => hf (h _ ht), hs.only⟩

theorem ExactBut.refreshDropped {o : Option String}
    (hc : ∀ other, stale other → s.operations.get? other = none)
    (h : s.refreshDropped rowHash o = some t) :
    t.toTables = s.toTables ∧
    ExactBut registry rowHash (fun other => stale other ∧ some other ≠ o) t := by
  unfold Db.refreshDropped at h
  split at h
  · rename_i o
    split at h
    · obtain ⟨hb, ht⟩ := hs.refresh h
      exact ⟨hb, ht.mono fun other hstale => ⟨hstale.1, fun heq => hstale.2 (some.inj heq)⟩⟩
    · rename_i hh
      cases h
      refine ⟨rfl, hs.mono fun other hstale => ⟨hstale, fun heq => hh ?_⟩⟩
      rw [← some.inj heq, hc other hstale]
      rfl
  · cases h
    exact ⟨rfl, hs.mono fun other hstale => ⟨hstale, some_ne_none other⟩⟩

end

theorem Tables.currentOperation_congr {s t : Tables} {operation : String}
    (ho : t.operations = s.operations)
    (h : s.operations.get? operation = none → t.members operation = s.members operation) :
    t.currentOperation operation = s.currentOperation operation := by
  unfold currentOperation
  rw [ho]
  cases hh : s.operations.get? operation with
  | some _ => rfl
  | none => simp only [operationFallback, h hh]

/-- The operations whose fold a changed tombstone can be part of. -/
def Tables.touched (s : Tables) (old new : Option Tombstone) (operation : String) : Prop :=
  s.operations.get? operation = none ∧
  (old.bind (·.operation) = some operation ∨ new.bind (·.operation) = some operation)

theorem Exact.of_tombstones (hs : Exact registry rowHash s) (tombstones : Table String Tombstone)
    (id : String) (ho : ∀ other, other ≠ id → tombstones.get? other = s.checkpointClaims.get? other)
    (hmembers : ∀ o, (s.checkpointClaims.get? id).bind (·.operation) ≠ some o →
      (tombstones.get? id).bind (·.operation) ≠ some o →
        ({ s.toTables with checkpointClaims := tombstones } : Tables).members o = s.members o)
    (hm : Moves rowHash claimSources
      (seen id (s.claims.get? id) (s.checkpointClaims.get? id) (s.repaired id))
      (seen id (s.claims.get? id) (tombstones.get? id) (s.repaired id))
      { s with checkpointClaims := tombstones } t) :
    t.toTables = { s.toTables with checkpointClaims := tombstones } ∧
      ExactBut registry rowHash
        (s.touched (s.checkpointClaims.get? id) (tombstones.get? id)) t := by
  refine ⟨hm.frame.1, of_source hs { s.toTables with checkpointClaims := tombstones } id
    rfl ?_ ?_ hm⟩
  · intro other hne
    change seen other _ (tombstones.get? other) _ = seen other _ (s.checkpointClaims.get? other) _
    rw [ho other hne]
    rfl
  · intro o ht
    refine currentOperation_congr rfl fun hc => hmembers o ?_ ?_
    · exact fun hold => ht ⟨hc, .inl hold⟩
    · exact fun hn => ht ⟨hc, .inr hn⟩

/-- Behind a claim, or of a repaired one, no tombstone shows. -/
theorem Tables.seen_covered {s : Tables} {id : String}
    (h : ¬ ((s.claims.get? id).isNone = true ∧ s.repaired id = false))
    (old new : Option Tombstone) :
    seen id (s.claims.get? id) old (s.repaired id) =
      seen id (s.claims.get? id) new (s.repaired id) := by
  cases hr : s.repaired id with
  | true => rfl
  | false =>
    cases hc : s.claims.get? id with
    | none => exact absurd ⟨by simpa using hc, hr⟩ h
    | some claim => rfl

section
variable (hs : Exact registry rowHash s)
include hs

theorem Exact.insertTombstone {id : String} {tombstone : Tombstone}
    (h : s.insertTombstone rowHash id tombstone = some t) : Exact registry rowHash t := by
  unfold Db.insertTombstone at h
  split at h
  · cases h
  · rename_i hnoClaims
    have hold : s.checkpointClaims.get? id = none := by simpa using hnoClaims
    have hn : (s.checkpointClaims.insert id tombstone).get? id = some tombstone := by
      simp [get?_insert, hold]
    obtain ⟨u, hu, ht⟩ := bind_eq_some_iff.mp h
    have hm : Moves rowHash claimSources (seen id (s.claims.get? id) none (s.repaired id))
        (seen id (s.claims.get? id) (some tombstone) (s.repaired id))
        { s with checkpointClaims := s.checkpointClaims.insert id tombstone } u := by
      split at hu
      · rename_i hf
        have hl : s.claims.get? id = none := by simpa using hf.1
        rw [hl, show s.repaired id = false from hf.2]
        exact .inl ⟨1, rfl, hu⟩
      · rename_i hf
        exact .inr ⟨seen_covered hf _ _, (some.inj hu).symm⟩
    rw [← hold, ← hn] at hm
    obtain ⟨hb, hr⟩ := hs.of_tombstones (s.checkpointClaims.insert id tombstone) id
      (fun other hne => by simp [get?_insert, hne])
      (fun o _ ho =>
        filterMap_insert _ (if_neg fun hoperation => ho (by rw [hn]; exact hoperation.1))) hm
    refine (hr.refreshDropped (fun other hc => ?_) ht).2.mono fun o htouched => htouched.2 ?_
    · rw [hb]
      exact hc.1
    · have hc := htouched.1.2
      rw [hold, hn] at hc
      rcases hc with hc | hc
      · cases hc
      · exact hc.symm

theorem Exact.updateTombstone {id m : String} {tombstone : Tombstone}
    (h : s.updateTombstone rowHash id m tombstone = some t) : Exact registry rowHash t := by
  unfold Db.updateTombstone at h
  split at h
  · cases h
    exact hs
  · rename_i old hold
    split at h
    · cases h
    · have hn : (s.checkpointClaims.update id fun _ => tombstone).get? id = some tombstone := by
        simp [get?_update, hold]
      obtain ⟨u, hu, h⟩ := bind_eq_some_iff.mp h
      obtain ⟨v, hv, ht⟩ := bind_eq_some_iff.mp h
      have hmoves : Moves rowHash claimSources
          (seen id (s.claims.get? id) (some old) (s.repaired id))
          (seen id (s.claims.get? id) (some tombstone) (s.repaired id))
          { s with checkpointClaims := s.checkpointClaims.update id fun _ => tombstone } u := by
        split at hu
        · rename_i hf
          have hclaims : s.claims.get? id = none := by simpa using hf.1
          rw [hclaims, show s.repaired id = false from hf.2.2]
          exact .inl ⟨0, rfl, hu⟩
        · rename_i hf
          refine .inr ⟨?_, (some.inj hu).symm⟩
          by_cases heq' : old.acceptedAt = tombstone.acceptedAt
          · simp [seen, heq']
          · exact seen_covered (fun hh => hf ⟨hh.1, heq', hh.2⟩) _ _
      rw [← hold, ← hn] at hmoves
      obtain ⟨hb, hbut'⟩ := hs.of_tombstones (s.checkpointClaims.update id fun _ => tombstone) id
        (fun other hne => by simp [get?_update, hne])
        (fun o ho ho' => filterMap_update _ fun stored hclaims' => by
          rw [hclaims'] at ho
          rw [hn] at ho'
          exact (if_neg fun hm => ho' hm.1).trans (if_neg fun hm => ho hm.1).symm) hmoves
      have hl : ∀ other, s.touched (s.checkpointClaims.get? id)
          ((s.checkpointClaims.update id fun _ => tombstone).get? id) other →
              u.operations.get? other = none := by
        intro other hc
        rw [hb]
        exact hc.1
      obtain ⟨htables', hbut⟩ := hbut'.refreshDropped hl hv
      have hr : ∀ other, (s.touched (s.checkpointClaims.get? id)
          ((s.checkpointClaims.update id fun _ => tombstone).get? id) other ∧
            some other ≠ old.operation) → tombstone.operation = some other := by
        rintro other ⟨hc, hne⟩
        have hc := hc.2
        rw [hold, hn] at hc
        exact hc.resolve_left fun heq => hne heq.symm
      split at ht
      · refine (hbut.refreshDropped (fun other htouched => ?_) ht).2.mono fun other htouched =>
          htouched.2 (hr other htouched.1).symm
        rw [htables']
        exact hl other htouched.1
      · rename_i hoperation
        cases ht
        refine hbut.mono fun other htouched => htouched.2 ?_
        rw [← not_not.mp hoperation, hr other htouched]

theorem Exact.deleteTombstone {id : String} (h : s.deleteTombstone rowHash id = some t) :
    Exact registry rowHash t := by
  unfold Db.deleteTombstone at h
  split at h
  · cases h
    exact hs
  · rename_i old hold
    have hn : (s.checkpointClaims.delete id).get? id = none := by
      simp [get?_delete]
    obtain ⟨u, hu, ht⟩ := bind_eq_some_iff.mp h
    have hm : Moves rowHash claimSources (seen id (s.claims.get? id) (some old) (s.repaired id))
        (seen id (s.claims.get? id) none (s.repaired id))
        { s with checkpointClaims := s.checkpointClaims.delete id } u := by
      split at hu
      · rename_i hf
        have hl : s.claims.get? id = none := by simpa using hf.1
        rw [hl, show s.repaired id = false from hf.2]
        exact .inl ⟨-1, rfl, hu⟩
      · rename_i hf
        exact .inr ⟨seen_covered hf _ _, (some.inj hu).symm⟩
    rw [← hold, ← hn] at hm
    obtain ⟨hb, hbut⟩ := hs.of_tombstones (s.checkpointClaims.delete id) id
      (fun other hne => by simp [get?_delete, hne])
      (fun o ho _ => filterMap_deleteWhere _ fun key stored hr hk => by
        obtain rfl : key = id := by simpa using hk
        rw [hr] at ho
        exact if_neg fun hoperation => ho hoperation.1) hm
    refine (hbut.refreshDropped (fun other hc => ?_) ht).2.mono fun o htouched => htouched.2 ?_
    · rw [hb]
      exact hc.1
    · have hc := htouched.1.2
      rw [hold, hn] at hc
      rcases hc with hc | hc
      · exact hc.symm
      · cases hc

end

/-! ## Operations -/

theorem Tables.currentOperation_operations {s : Tables} {operations : Table String Operation}
    {operation : String} (h : operations.get? operation = s.operations.get? operation) :
    ({ s with operations := operations } : Tables).currentOperation operation =
      s.currentOperation operation := by
  change ((operations.get? operation).map _).or _ = _
  rw [h]
  rfl

section
variable (hs : Exact registry rowHash s)
include hs

theorem Exact.insertOperation {id : String} {o : Operation}
    (h : s.insertOperation rowHash id o = some t) : Exact registry rowHash t := by
  unfold Db.insertOperation at h
  split at h
  · cases h
  · have ht : ExactBut registry rowHash (· = id)
        { s with operations := s.operations.insert id o } :=
      of_operations hs { s.toTables with operations := s.operations.insert id o }
        rfl (fun _ => rfl) fun other hn => currentOperation_operations (by simp [get?_insert, hn])
    exact (ht.refresh h).2.mono fun other ho => ho.2 ho.1

theorem Exact.updateOperation {id m : String} {o : Operation}
    (h : s.updateOperation rowHash id m o = some t) : Exact registry rowHash t := by
  unfold Db.updateOperation at h
  split at h
  · cases h
    exact hs
  · rename_i old hold
    split at h
    · cases h
    · rename_i hf
      have hg : ∀ other, ((s.operations.delete id).insert m o).get? other =
          if other = m then some o else if other = id then none else s.operations.get? other := by
        intro other
        rw [get?_insert, get?_delete, get?_delete]
        by_cases hv : m = id
        · simp [hv]
        · have hoperations : s.operations.get? m = none := by simpa [hv] using hf
          simp [hv, hoperations]
      have hbut : ∀ stale : String → Prop, (∀ other, ¬ stale other →
          ((s.operations.delete id).insert m o).get? other = s.operations.get? other) →
            ExactBut registry rowHash stale
              { s with operations := (s.operations.delete id).insert m o } :=
        fun stale ho => of_operations hs
          { s.toTables with operations := (s.operations.delete id).insert m o }
          rfl (fun _ => rfl) fun other hn => currentOperation_operations (ho other hn)
      dsimp only at h
      split at h
      · rename_i hm
        cases h
        refine hbut _ fun other _ => ?_
        rw [hg, hm.1]
        by_cases hi : other = id
        · rw [if_pos hi, hi, hold, hm.2]
        · rw [if_neg hi, if_neg hi]
      · obtain ⟨u, hu, ht⟩ := bind_eq_some_iff.mp h
        have hu := (hbut (fun other => other = id ∨ other = m) (fun other hn => by
          rw [hg, if_neg (fun h => hn (.inr h)), if_neg (fun h => hn (.inl h))])).refresh hu
        split at ht
        · refine (hu.2.refresh ht).2.mono fun other ho => ?_
          exact ho.1.1.elim ho.1.2 ho.2
        · rename_i hm
          cases ht
          refine hu.2.mono fun other ho => ho.2 ?_
          exact ho.1.elim (fun h => h) fun h => h.trans (not_not.mp hm)

theorem Exact.deleteOperation {id : String} (h : s.deleteOperation rowHash id = some t) :
    Exact registry rowHash t := by
  unfold Db.deleteOperation at h
  split at h
  · cases h
    exact hs
  · have ht : ExactBut registry rowHash (· = id) { s with operations := s.operations.delete id } :=
      of_operations hs { s.toTables with operations := s.operations.delete id }
        rfl (fun _ => rfl) fun other hn => currentOperation_operations (by simp [get?_delete, hn])
    exact (ht.refresh h).2.mono fun other ho => ho.2 ho.1

end

/-! ## Repaired claims -/

def Tables.sameOperation (s : Tables) (id : String) : Bool :=
  match (s.claims.get? id).bind (·.operation), (s.checkpointClaims.get? id).bind (·.operation) with
  | some claimed, some dropped => claimed = dropped
  | _, _ => true

theorem Tables.operationOf_eq {s : Tables} {id operation : String} (hm : s.sameOperation id = true)
    (h : (s.checkpointClaims.get? id).bind (·.operation) = some operation) :
    s.operationOf id = some operation := by
  unfold operationOf
  unfold sameOperation at hm
  rw [h] at hm ⊢
  cases hc : (s.claims.get? id).bind (·.operation) with
  | none => rfl
  | some claimed =>
    rw [hc] at hm
    simp at hm
    simp [hm]

theorem Exact.of_repaired (hs : Exact registry rowHash s) (repairedClaims : Table String Unit)
    (id : String) (hclaims : ∀ other, other ≠ id →
      repairedClaims.get? other = s.repairedClaims.get? other)
    (hv : Moves rowHash claimSources
      (seen id (s.claims.get? id) (s.checkpointClaims.get? id) (s.repaired id))
      (seen id (s.claims.get? id) (s.checkpointClaims.get? id) (repairedClaims.get? id).isSome)
      { s with repairedClaims := repairedClaims } t) :
    ExactBut registry rowHash
      (fun operation => (s.checkpointClaims.get? id).bind (·.operation) = some operation) t := by
  have hp : ∀ other, other ≠ id →
      ({ s.toTables with repairedClaims := repairedClaims } : Tables).repaired other =
        s.repaired other := by
    intro other hn
    change (repairedClaims.get? other).isSome = (s.repairedClaims.get? other).isSome
    rw [hclaims other hn]
  refine of_source hs { s.toTables with repairedClaims := repairedClaims } id rfl ?_ ?_ hv
  · intro other hn
    change seen other _ _ (repaired _ other) = seen other _ _ (s.repaired other)
    rw [hp other hn]
  · intro operation ht
    refine currentOperation_congr rfl fun _ => filterMap_congr fun r hr => ?_
    by_cases hi : r.1 = id
    · have ho : r.2.operation ≠ some operation := by
        intro heq
        refine ht ?_
        rw [← hi, mem_rows.mp (show (r.1, r.2) ∈ s.checkpointClaims.rows from hr)]
        exact heq
      exact (if_neg fun hm => ho hm.1).trans (if_neg fun hm => ho hm.1).symm
    · rw [hp r.1 hi]

theorem ExactBut.refreshIfAny (hs : ExactBut registry rowHash stale s) {o : Option String}
    (ht : ∀ other, stale other → o = some other) (h : s.refreshIfAny rowHash o = some t) :
    Exact registry rowHash t := by
  unfold Db.refreshIfAny at h
  split at h
  · refine (hs.refresh h).2.mono fun other ho => ho.2 ?_
    exact (some.inj (ht other ho.1)).symm
  · cases h
    exact hs.mono fun other ho => nomatch ht other ho

section
variable (hs : Exact registry rowHash s) {id : String} (hoperation : s.sameOperation id = true)
include hs hoperation

theorem Exact.insertRepaired (h : s.insertRepaired rowHash id = some t) :
    Exact registry rowHash t := by
  unfold Db.insertRepaired at h
  split at h
  · cases h
  · rename_i hnoRepaired
    have hp : s.repaired id = false := by simpa using hnoRepaired
    have hn : ((s.repairedClaims.insert id ()).get? id).isSome = true := by
      simp [get?_insert]
    have ho : ∀ other, other ≠ id →
        (s.repairedClaims.insert id ()).get? other = s.repairedClaims.get? other :=
      fun other hne => by simp [get?_insert, hne]
    dsimp only at h
    split at h
    · rename_i hr
      cases h
      refine (hs.of_repaired (s.repairedClaims.insert id ()) id ho (.inr ⟨?_, rfl⟩)).mono
        fun o hclaims => ?_
      · rw [hp, hn]
        exact hr
      · obtain ⟨tombstone, hm, -⟩ := bind_eq_some_iff.mp hclaims
        simp [sourceOf, hm] at hr
    · rename_i row hr
      obtain ⟨u, hu, ht⟩ := bind_eq_some_iff.mp h
      have hseen : seen id (s.claims.get? id) (s.checkpointClaims.get? id) false = some row := hr
      refine (hs.of_repaired (s.repairedClaims.insert id ()) id ho (t := u) ?_).refreshIfAny
        (fun o hclaims => operationOf_eq hoperation hclaims) ht
      rw [hp, hn, hseen]
      exact .inl ⟨-1, rfl, hu⟩

theorem Exact.deleteRepaired (h : s.deleteRepaired rowHash id = some t) :
    Exact registry rowHash t := by
  unfold Db.deleteRepaired at h
  split at h
  · cases h
    exact hs
  · rename_i hnot
    have hp : s.repaired id = true := by simpa using hnot
    have hn : ((s.repairedClaims.delete id).get? id).isSome = false := by
      simp [get?_delete]
    have ho : ∀ other, other ≠ id →
        (s.repairedClaims.delete id).get? other = s.repairedClaims.get? other :=
      fun other hne => by simp [get?_delete, hne]
    dsimp only at h
    split at h
    · rename_i hr
      cases h
      refine (hs.of_repaired (s.repairedClaims.delete id) id ho (.inr ⟨?_, rfl⟩)).mono
        fun o hclaims => ?_
      · rw [hp, hn]
        exact hr.symm
      · obtain ⟨tombstone, hm, -⟩ := bind_eq_some_iff.mp hclaims
        simp [sourceOf, hm] at hr
    · rename_i row hr
      obtain ⟨u, hu, ht⟩ := bind_eq_some_iff.mp h
      have hseen : seen id (s.claims.get? id) (s.checkpointClaims.get? id) false = some row := hr
      refine (hs.of_repaired (s.repairedClaims.delete id) id ho (t := u) ?_).refreshIfAny
        (fun o hclaims => operationOf_eq hoperation hclaims) ht
      rw [hp, hn, hseen]
      exact .inl ⟨1, rfl, hu⟩

end

def Write.repairs : Write String Record → Option String
  | .insert _ ⟨.repaired, claim⟩ => claim
  | .update _ _ ⟨.repaired, claim⟩ => claim
  | _ => none

section
variable (hs : Exact registry rowHash s)
include hs

theorem Exact.of_records (records : Table String Record) :
    Exact registry rowHash { s with replicaRecords := records } :=
  of_operations hs { s.toTables with replicaRecords := records } rfl (fun _ => rfl) fun _ _ => rfl

theorem Exact.repairRecord {record : Record}
    (hm : ∀ id, record = ⟨.repaired, some id⟩ → s.sameOperation id = true)
    (h : s.repairRecord rowHash record = some t) : Exact registry rowHash t := by
  unfold Db.repairRecord at h
  split at h
  · rename_i id
    split at h
    · cases h
      exact hs
    · exact hs.insertRepaired (hm id rfl) h
  · cases h
    exact hs

theorem Exact.writeRecord {write : Write String Record}
    (hm : write.repairs.all (fun id => s.sameOperation id) = true)
    (h : s.writeRecord rowHash write = some t) : Exact registry rowHash t := by
  cases write with
  | insert key record =>
    unfold Db.writeRecord at h
    dsimp only at h
    split at h
    · cases h
    · refine (hs.of_records _).repairRecord (fun id hr => ?_) h
      subst hr
      have hi : s.sameOperation id = true := by simpa [Write.repairs] using hm
      exact hi
  | update key m record =>
    unfold Db.writeRecord at h
    dsimp only at h
    split at h
    · cases h
      exact hs
    · split at h
      · cases h
      · refine (hs.of_records _).repairRecord (fun id hr => ?_) h
        subst hr
        have hi : s.sameOperation id = true := by simpa [Write.repairs] using hm
        exact hi
  | delete key =>
    cases h
    exact hs.of_records _

end

/-! ## Registered tables -/

theorem sum_tableRows {s : Tables} {registered : Table (String × Nat) Row} {key : String × Nat}
    (ho : ∀ other, other ≠ key → registered.get? other = s.registered.get? other)
    (table : Registered) (weight : Row → Sum) :
    ((({ s with registered := registered } : Tables).tableRows table).map weight).sum =
      ((s.tableRows table).map weight).sum - weigh weight (s.rowOf table key) +
        weigh weight (({ s with registered := registered } : Tables).rowOf table key) := by
  rw [tableRows_eq, tableRows_eq]
  refine (covers_rows table).sum_change (covers_rows table) key fun other hn => ?_
  change (registered.get? other).bind _ = _
  rw [ho other hn]
  rfl

theorem Tables.rowOf_self (s : Tables) (table : Registered) (key : Nat) :
    s.rowOf table (table.name, key) = (s.registered.get? (table.name, key)).map table.rowSql := by
  cases h : s.registered.get? (table.name, key) <;> simp [rowOf, h]

theorem Tables.rowOf_other (s : Tables) {table other : Registered} (hn : other.name ≠ table.name)
    (key : Nat) :
    s.rowOf other (table.name, key) = none := by
  cases h : s.registered.get? (table.name, key) <;> simp [rowOf, h, hn.symm]

theorem Registry.eq_of_name {table other : Registered} (ht : table ∈ registry.tables)
    (ho : other ∈ registry.tables) (h : other.name = table.name) : other = table := by
  have hn := registry.names
  simp only [nodup_cons] at hn
  exact inj_on_of_nodup_map hn.2.2 ho ht h

section
variable (hs : Exact registry rowHash s)
include hs

variable {table : Registered} {key : Nat}

section
variable (htables : table ∈ registry.tables)
include htables

theorem Exact.of_registered (registered : Table (String × Nat) Row) (old new : Option Row)
    (hsum : ∀ weight : Row → Sum,
      ((({ s.toTables with registered := registered } : Tables).tableRows table).map weight).sum =
      ((s.tableRows table).map weight).sum - weigh weight old + weigh weight new)
    (hr : ∀ other : Registered, other.name ≠ table.name → ∀ weight : Row → Sum,
      ((({ s.toTables with registered := registered } : Tables).tableRows other).map weight).sum =
        ((s.tableRows other).map weight).sum)
    (hv : Moves rowHash table.name old new { s with registered := registered } t) :
    Exact registry rowHash t := by
  obtain ⟨ht, hc⟩ := hv.frame
  obtain ⟨hd, hf⟩ := hv.digests (hs.registered table htables) (hsum _)
  have hm := Registry.name_ne table htables
  constructor
  · intro other ho
    rw [ht]
    by_cases hn : other.name = table.name
    · rw [Registry.eq_of_name htables ho hn]
      exact hd
    · rw [hf _ hn, scan_congr (hr other hn _)]
      exact hs.registered other ho
  · rw [hf _ hm.1.symm, ht]
    exact hs.sources
  · rw [hf _ hm.2.symm, hc]
    exact hs.summed
  · intro o hs'
    rw [hc, ht]
    exact hs.cached o hs'
  · intro name hn
    by_cases hl : name = table.name
    · rw [hl]
      exact mem_cons_of_mem _ (mem_cons_of_mem _ (mem_map.mpr ⟨table, htables, rfl⟩))
    · rw [hf _ hl] at hn
      exact hs.only name hn

theorem Exact.insertRegistered {row : Row} (h : s.insertRegistered rowHash table key row = some t) :
    Exact registry rowHash t := by
  unfold Db.insertRegistered at h
  split at h
  · cases h
  · rename_i hf
    have hold : s.registered.get? (table.name, key) = none := by simpa using hf
    have ho : ∀ other, other ≠ (table.name, key) →
        (s.registered.insert (table.name, key) row).get? other = s.registered.get? other :=
      fun other hn => by simp [get?_insert, hn]
    refine hs.of_registered htables (s.registered.insert (table.name, key) row) none
      (some (table.rowSql row)) (fun weight => ?_) (fun other hn weight => ?_) (.inl ⟨1, rfl, h⟩)
    · rw [sum_tableRows ho, rowOf_self, rowOf_self, hold]
      simp [get?_insert, hold]
    · rw [sum_tableRows ho, rowOf_other _ hn, rowOf_other _ hn]
      simp

theorem Exact.deleteRegistered (h : s.deleteRegistered rowHash table key = some t) :
    Exact registry rowHash t := by
  unfold Db.deleteRegistered at h
  split at h
  · cases h
    exact hs
  · rename_i old hold
    have ho : ∀ other, other ≠ (table.name, key) →
        (s.registered.delete (table.name, key)).get? other = s.registered.get? other :=
      fun other hn => by simp [get?_delete, hn]
    refine hs.of_registered htables (s.registered.delete (table.name, key))
      (some (table.rowSql old)) none (fun weight => ?_) (fun other hn weight => ?_)
        (.inl ⟨-1, rfl, h⟩)
    · rw [sum_tableRows ho, rowOf_self, rowOf_self, hold]
      simp [get?_delete]
    · rw [sum_tableRows ho, rowOf_other _ hn, rowOf_other _ hn]
      simp

theorem Exact.updateRegistered {m : Nat} {row : Row}
    (h : s.updateRegistered rowHash table key m row = some t) :
    Exact registry rowHash t := by
  unfold Db.updateRegistered at h
  split at h
  · cases h
    exact hs
  · rename_i old hold
    split at h
    · cases h
    · rename_i hf
      have hg : (s.registered.delete (table.name, key)).get? (table.name, m) = none := by
        by_cases hv : m = key
        · simp [get?_delete, hv]
        · have hregistered : s.registered.get? (table.name, m) = none := by simpa [hv] using hf
          simp [get?_delete, hv, hregistered]
      have hd : ∀ other, other ≠ (table.name, key) →
          (s.registered.delete (table.name, key)).get? other = s.registered.get? other :=
        fun other hn => by simp [get?_delete, hn]
      have hi : ∀ other, other ≠ (table.name, m) →
          ((s.registered.delete (table.name, key)).insert (table.name, m) row).get? other =
            (s.registered.delete (table.name, key)).get? other :=
        fun other hn => by simp [get?_insert, hn]
      -- The row leaves its key and comes back under the other.
      have hm : ∀ (any : Registered) (weight : Row → Sum),
          ((({ s.toTables with
            registered := (s.registered.delete (table.name, key)).insert (table.name, m) row } :
            Tables).tableRows any).map weight).sum = _ :=
        fun any weight =>
          (sum_tableRows (s := { s.toTables with
            registered := s.registered.delete (table.name, key) })
          hi any weight).trans (by rw [sum_tableRows hd any weight])
      refine hs.of_registered htables
        ((s.registered.delete (table.name, key)).insert (table.name, m) row)
        (some (table.rowSql old)) (some (table.rowSql row)) (fun weight => ?_)
          (fun other hn weight => ?_) ?_
      · rw [hm]
        simp only [rowOf_self, hold, hg]
        simp [get?_insert, get?_delete, hg]
      · rw [hm]
        simp [rowOf_other _ hn]
      · dsimp only at h
        split at h
        · rename_i hoperation
          exact .inr ⟨by rw [hoperation], (some.inj h).symm⟩
        · exact .inl ⟨0, rfl, h⟩

end

end

/-! ## Seeding and runs -/

theorem exact_seeded (tables : Tables) :
    Exact registry rowHash (seeded registry rowHash tables) := by
  have hc : ∀ operation, (seeded registry rowHash tables).operationCache.get? operation =
      tables.currentOperation operation := by
    intro operation
    have hw : tables.operations.rows.map (fun r => (r.1, r.2.row r.1)) ++
        (tables.dropped.filterMap fun operation =>
          (tables.operationFallback operation).map fun row => (operation, row)) =
          tables.operationKeys.filterMap fun operation =>
            (tables.currentOperation operation).map fun row => (operation, row) := by
      unfold operationKeys
      rw [filterMap_append, filterMap_map]
      congr 1
      · rw [← filterMap_eq_map]
        apply filterMap_congr
        intro r hr
        simp [currentOperation, mem_rows.mp (show (r.1, r.2) ∈ tables.operations.rows from hr)]
      · apply filterMap_congr
        intro operation ho
        simp [currentOperation, (mem_dropped.mp ho).1]
    change ((∅ : Table String Row).putAll _).get? operation = _
    rw [hw]
    exact get?_putAll_of_covers covers_operations operation
  have hn : (((claimSources, scan rowHash claimSources sourceColumns tables.sourceQuery) ::
      (operationsTable, scan rowHash operationsTable operationColumns tables.operationRows) ::
      registry.tables.map fun (table : Registered) =>
        (table.name, scan rowHash table.name table.columns (tables.tableRows table))).map
            (·.1)).Nodup := by
    simpa [Function.comp_def] using registry.names
  refine ⟨fun table h => ?_, ?_, ?_, fun operation _ => hc operation, fun name hm => ?_⟩
  · exact get?_putAll_mem hn _ (mem_cons_of_mem _ (mem_cons_of_mem _ (mem_map.mpr ⟨table, h, rfl⟩)))
  · exact get?_putAll_mem hn _ mem_cons_self
  · have hd : (seeded registry rowHash tables).digests.get? operationsTable =
        some (scan rowHash operationsTable operationColumns tables.operationRows) :=
      get?_putAll_mem hn _ (mem_cons_of_mem _ mem_cons_self)
    rw [hd, rows_snd, funext hc, operationRows_eq]
    have hv := (seeded registry rowHash tables).operationCache.covers_get?
    rw [funext hc] at hv
    exact congrArg some (scan_congr (hv.sum_congr covers_operations))
  · have hk := (get?_putAll_ne_none.mp hm).resolve_right fun he => he rfl
    simpa [Function.comp_def] using hk

/-- A claim comes and goes while its tombstone, if it shows, has its accepted time, and it is
repaired while both name one operation. -/
def oneRow (s : Db) : RowChange → Bool
  | .claims (.insert id claim) => s.sameTime id claim.acceptedAt
  | .claims (.delete id) => (s.claims.get? id).all fun claim => s.sameTime id claim.acceptedAt
  | .replicaRecords write => write.repairs.all fun id => s.sameOperation id
  | .insertRepaired id => s.sameOperation id
  | .deleteRepaired id => s.sameOperation id
  | _ => true

theorem Exact.change (hs : Exact registry rowHash s) {change : RowChange}
    (ho : oneRow s change = true) (h : s.change registry rowHash change = some t) :
    Exact registry rowHash t := by
  cases change with
  | registered name write =>
    obtain ⟨table, htable, h⟩ := bind_eq_some_iff.mp h
    have hm := mem_of_find?_eq_some htable
    cases write with
    | insert key row => exact hs.insertRegistered hm h
    | update key m row => exact hs.updateRegistered hm h
    | delete key => exact hs.deleteRegistered hm h
  | claims write =>
    cases write with
    | insert id claim => exact hs.insertClaim ho h
    | update id m claim => exact hs.updateClaim h
    | delete id => exact hs.deleteClaim ho h
  | checkpointClaims write =>
    cases write with
    | insert id tombstone => exact hs.insertTombstone h
    | update id m tombstone => exact hs.updateTombstone h
    | delete id => exact hs.deleteTombstone h
  | operations write =>
    cases write with
    | insert id o => exact hs.insertOperation h
    | update id m o => exact hs.updateOperation h
    | delete id => exact hs.deleteOperation h
  | replicaRecords write => exact hs.writeRecord ho h
  | insertRepaired id => exact hs.insertRepaired ho h
  | deleteRepaired id => exact hs.deleteRepaired ho h
  | rebuild =>
    cases h
    exact exact_seeded _

theorem exact_run {tables : Tables} {changes : List RowChange}
    (h : ((digests registry rowHash).restrict oneRow).run
      (seeded registry rowHash tables) changes = some s) :
    Exact registry rowHash s := by
  refine Machine.Keeps.run (m := (digests registry rowHash).restrict oneRow) ?_ (fun _ _ => trivial)
    (exact_seeded tables) h
  intro s change t _ hs ht
  obtain ⟨ho, ht⟩ := Machine.step_of_restrict ht
  exact hs.change ho ht

theorem ExactBut.digests_eq (hs : Exact registry rowHash s) (name : String) :
    s.digests.get? name = (logicalRows registry s.toTables name).map
      fun rows => scan rowHash name rows.1 rows.2 := by
  unfold logicalRows
  by_cases hr : name = claimSources
  · rw [if_pos hr, hr]
    exact hs.sources
  rw [if_neg hr]
  by_cases ho : name = operationsTable
  · rw [if_pos ho, ho, hs.summed, rows_snd, operationRows_eq]
    have hcache : s.operationCache.get? = s.currentOperation :=
      funext fun o => hs.cached o fun h => h
    have hc := s.operationCache.covers_get?
    rw [hcache] at hc ⊢
    exact congrArg some (scan_congr (covers_operations.sum_congr hc))
  rw [if_neg ho]
  cases hf : registry.tables.find? (·.name = name) with
  | some table =>
    have hn : table.name = name := by simpa using find?_some hf
    rw [← hn]
    exact hs.registered table (mem_of_find?_eq_some hf)
  | none =>
    by_contra hne
    have hm := hs.only name hne
    simp only [mem_cons, hr, ho, false_or] at hm
    obtain ⟨table, htable, rfl⟩ := mem_map.mp hm
    simpa using find?_eq_none.mp hf table htable

/-- However the rows are ordered, they have one digest. -/
theorem scan_perm {name : String} {columns : List String} {rows more : List Row}
    (h : rows.Perm more) :
    scan rowHash name columns rows = scan rowHash name columns more :=
  scan_congr (h.map _).sum_eq

end

/-- Every count and sum that triggers keep is the one a scan computes, and two
stores with the same logical rows report the same digest. -/
theorem projection_digests_exact (registry : Registry)
    (rowHash : String → List String → Row → Accumulator) (tableDigest : String → Digest → String)
    (start : Tables) (statements : List Statement) (s : Db)
    (h : ((digests registry rowHash).restrict oneRow).run (seeded registry rowHash start)
      (statements.flatMap changes) = some s) : (∀ name, s.digests.get? name =
      (logicalRows registry s.toTables name).map fun rows => scan rowHash name rows.1 rows.2) ∧
    (∀ name, tables tableDigest s name = oracle registry rowHash tableDigest s.toTables name) ∧
    ∀ (start' : Tables) (statements' : List Statement) (s' : Db),
      ((digests registry rowHash).restrict oneRow).run (seeded registry rowHash start')
        (statements'.flatMap changes) = some s' →
      ∀ name columns rows rows', logicalRows registry s.toTables name = some (columns, rows) →
        logicalRows registry s'.toTables name = some (columns, rows') → rows.Perm rows' →
          s.digests.get? name = s'.digests.get? name ∧
          tables tableDigest s name = tables tableDigest s' name := by
  have hs := exact_run h
  refine ⟨hs.digests_eq, fun name => ?_,
    fun start' statements' s' h' name columns rows rows' hr hr' hp => ?_⟩
  · rw [tables, oracle, hs.digests_eq, Option.map_map]
    rfl
  · have hd : s.digests.get? name = s'.digests.get? name := by
      rw [hs.digests_eq, (exact_run h').digests_eq, hr, hr']
      exact congrArg some (scan_perm hp)
    exact ⟨hd, by rw [tables, tables, hd]⟩

def sampleRegistry : Registry := ⟨[⟨"desired", ["subject"], []⟩], by decide⟩

def sampleHash (_ : String) (_ : List String) (row : Row) : Accumulator :=
  if row = sourceRow "claim" "1" then ⟨replicate accumulatorBytes 1, by simp⟩ else .zero

def sampleTombstone : Tombstone := ⟨1, some "operation", some "digest"⟩

def sampleStatements (acceptedAt : String) : List Statement :=
  [{ change := .registered "desired" (.insert 1 [.text "agent"]) },
    { change := .checkpointClaims (.insert "claim" sampleTombstone) },
    { change := .claims (.insert "claim" ⟨acceptedAt, some "operation"⟩) },
    { displaced := [.registered "desired" 1],
      change := .registered "desired" (.insert 2 [.text "person"]) },
    { change := .operations (.insert "operation" ⟨"claim", "digest", "active"⟩) },
    { change := .replicaRecords (.insert "record" ⟨.repaired, some "claim"⟩) }]

theorem sampleStatements_exact : ∃ s : Db,
    ((digests sampleRegistry sampleHash).restrict oneRow).run (seeded sampleRegistry sampleHash {})
      ((sampleStatements "1").flatMap changes) = some s ∧ ∀ name, s.digests.get? name =
      (logicalRows sampleRegistry s.toTables name).map
        fun rows => scan sampleHash name rows.1 rows.2 := by
  have hm :
      (((digests sampleRegistry sampleHash).restrict oneRow).run
        (seeded sampleRegistry sampleHash {})
      ((sampleStatements "1").flatMap changes)).isSome = true := by
    decide +kernel
  obtain ⟨s, hs⟩ := isSome_iff_exists.mp hm
  exact ⟨s, hs,
    (projection_digests_exact sampleRegistry sampleHash (fun name _ => name) {} _ s hs).1⟩

def Inexact (statements : List Statement) (name : String) : Prop :=
  ∃ s : Db, (digests sampleRegistry sampleHash).run (seeded sampleRegistry sampleHash {})
    (statements.flatMap changes) =
      some s ∧ s.digests.get? name ≠
    (logicalRows sampleRegistry s.toTables name).map fun rows => scan sampleHash name rows.1 rows.2

theorem inexact_of_run {statements : List Statement} {name : String}
    (h : ((digests sampleRegistry sampleHash).run (seeded sampleRegistry sampleHash {})
      (statements.flatMap changes)).map (fun s => decide (s.digests.get? name ≠
        (logicalRows sampleRegistry s.toTables name).map
          fun rows => scan sampleHash name rows.1 rows.2)) = some true) :
    Inexact statements name := by
  obtain ⟨s, hs, hn⟩ := map_eq_some_iff.mp h
  exact ⟨s, hs, of_decide_eq_true hn⟩

/-- The claim and its tombstone name two operations, and the claim is repaired. -/
def twoOperations : List Statement :=
  [{ change := .checkpointClaims (.insert "claim" { sampleTombstone with
    operation := some "other" }) }, { change := .claims (.insert "claim" ⟨"1", some "operation"⟩) },
    { change := .replicaRecords (.insert "record" ⟨.repaired, some "claim"⟩) }]

/-- A claim that comes with another time than its tombstone leaves the sum of the tombstone's row.
The repair of a claim refreshes its own operation and leaves the row of the tombstone's. -/
theorem split_row_not_exact :
    Inexact ((sampleStatements "2").take 3) claimSources ∧ Inexact twoOperations operationsTable :=
  ⟨inexact_of_run (by decide +kernel), inexact_of_run (by decide +kernel)⟩

end Smalltalk.Projection
