import Smalltalk.Canonical.Positions

/-!
# Claims stay at their least position

What removals leave unchanged, and what whole runs show: the least position recorded,
unless a step stored a position over a lower record that no stored position covered.
-/

namespace Smalltalk.Canonical

open List Option Table Machine

/-! ## Removals -/

variable {id : Text} {db : Db} {claim : ClaimRow}

theorem leastRecord_congr {records records' : Table Text RecordRow}
    (h : ∀ ref record, record.claimId = some id →
      (records'.get? ref = some record ↔ records.get? ref = some record)) :
    leastRecord records' id = leastRecord records id := by
  refine ext fun p => ?_
  rw [leastRecord_eq_some, leastRecord_eq_some]
  constructor
  · rintro ⟨⟨ref, record, hg, hi, hp⟩, hl⟩
    exact ⟨⟨ref, record, (h ref record hi).mp hg, hi, hp⟩,
      fun ref record hg hi => hl ref record ((h ref record hi).mpr hg) hi⟩
  · rintro ⟨⟨ref, record, hg, hi, hp⟩, hl⟩
    exact ⟨⟨ref, record, (h ref record hi).mpr hg, hi, hp⟩,
      fun ref record hg hi => hl ref record ((h ref record hi).mp hg) hi⟩

theorem known_deleteRecord (db : Db) (ref id : Text) :
    known (deleteRecord db ref) id = known db id := by
  unfold deleteRecord
  cases hr : db.records.get? ref with
  | none => rfl
  | some record =>
    by_cases hi : record.claimId = some id
    · have hn := keepRecords_stored hr id hi
      rw [get?_keepRecords, if_pos hi] at hn
      obtain ⟨p, hp⟩ := ne_none_iff_exists'.mp hn
      rw [hp]
      simp only [known, get?_keepRecords, if_pos hi]
      rw [← known, hp]
      rfl
    · simp only [known, get?_keepRecords, if_neg hi, keepRecords_records]
      rw [leastRecord_congr]
      intro ref' other ho
      rw [get?_delete]
      split
      · rename_i heq
        subst heq
        rw [hr]
        simp only [reduceCtorEq, some.injEq, false_iff]
        rintro rfl
        exact hi ho
      · rfl

theorem deleteRecord_claims (db : Db) (ref : Text) : (deleteRecord db ref).claims = db.claims := by
  unfold deleteRecord
  split
  · rfl
  · exact keepRecords_claims db _

theorem position_congr {db' : Db} (hk : known db' id = known db id)
    (hc : db'.claims = db.claims) : position db' id claim = position db id claim := by
  rw [position, position, hk, hc]

theorem removeEnvelope_fields (db : Db) (e : Envelope) :
    (removeEnvelope db e).claims = db.claims ∧
    ∀ id, known (removeEnvelope db e) id = known db id := by
  unfold removeEnvelope
  refine List.foldlRecOn (motive := fun db' => db'.claims = db.claims ∧
    ∀ id, known db' id = known db id) _ _
    ⟨rfl, fun _ => rfl⟩ fun db' hd' ref _ => ⟨?_, fun id => ?_⟩
  · rw [deleteRecord_claims, hd'.1]
  · rw [known_deleteRecord, hd'.2]

theorem earlier_delete {claims : Table Text ClaimRow} {g : Text}
    (hg : claims.get? g = some claim) {batchId : Text} {index : Nat}
    (hn : ¬ (batchId = claim.batchId ∧ claim.storeIndex < index)) :
    earlier (claims.delete g) batchId index = earlier claims batchId index := by
  unfold earlier Table.delete Table.deleteWhere
  simp only [countP_filter]
  refine countP_congr fun r hr => ?_
  by_cases hk : r.1 = g
  · have hw : claims.get? r.1 = some r.2 := mem_rows.mp hr
    rw [hk, hg] at hw
    cases hw
    simp only [hk, decide_true, Bool.not_true, Bool.and_false, Bool.false_eq_true, false_iff,
      Bool.and_eq_true, decide_eq_true_eq]
    exact fun h => hn ⟨h.1.symm, h.2⟩
  · simp [hk]

theorem position_deleteClaim {g : Text}
    (hc : db.claims.get? id = some claim) :
    position (deleteClaim db g) id claim = position db id claim := by
  unfold deleteClaim
  cases hclaims : db.claims.get? g with
  | none => rfl
  | some removed =>
    have hg := get?_keepSiblings db removed id
    obtain ⟨hrecords, hl⟩ := keepSiblings_fields db removed
    simp only [position, known, hg, hrecords, hl]
    cases hs : db.positions.get? id with
    | some p => rfl
    | none =>
      cases hf : (siblings db removed).find? (·.1 = id) with
      | some f =>
        -- The trigger stored what the legacy expression gave.
        obtain ⟨f, p⟩ := f
        obtain rfl : f = id := by simpa using find?_some hf
        obtain ⟨row, hr, -, -, rfl⟩ := mem_siblings.mp (mem_of_find?_eq_some hf)
        rw [hc] at hr
        cases hr
        simp
      | none =>
        have hn : ¬ (claim.batchId = removed.batchId ∧ removed.storeIndex < claim.storeIndex) := by
          rintro ⟨hb, ht⟩
          have := find?_eq_none.mp hf _ (mem_siblings.mpr ⟨claim, hc, hb, ht, rfl⟩)
          simp at this
        simp only [map_none, or_none, none_or]
        rw [earlier_delete hclaims hn]

/-- No removal moves a surviving claim, in any store. -/
theorem position_of_removes {db' : Db} {label : Label} (hl : label.removes = true)
    (ha : apply db label = some db') (hc : db'.claims.get? id = some claim) :
    position db' id claim = position db id claim := by
  cases label with
  | deleteRecord ref =>
    cases ha
    exact position_congr (known_deleteRecord db ref id) (deleteRecord_claims db ref)
  | removeEnvelope e =>
    cases ha
    exact position_congr ((removeEnvelope_fields db e).2 id) (removeEnvelope_fields db e).1
  | deleteClaim g =>
    cases ha
    refine position_deleteClaim ?_
    unfold deleteClaim at hc
    cases hg : db.claims.get? g with
    | none => simpa [hg] using hc
    | some row =>
      simp only [hg, (keepSiblings_fields db row).2] at hc
      exact of_get?_delete hc
  | _ => cases hl

/-! ## Whole runs -/

/-- No stored position is above a record, as in a store without `claim_positions`. -/
def Joined (db : Db) : Prop :=
  ∀ id place, db.positions.get? id = some place →
    ∀ ref record, db.records.get? ref = some record → record.claimId = some id →
    place ≤ record.position

theorem begin_tracked (hd : Joined db) : Tracked (begin db) := by
  have hm : ∀ id place, (id, place) ∈ (begin db).recorded ↔ db.positions.get? id = some place ∨
      ∃ ref record, db.records.get? ref = some record ∧ record.claimId = some id ∧
      record.position = place := by
    intro id place
    simp only [begin, mem_append, mem_rows, mem_flatMap, Prod.exists, List.mem_map, mem_toList,
      Prod.mk.injEq]
    constructor
    · rintro (hs | ⟨ref, record, hg, _, hi, rfl, rfl⟩)
      · exact .inl hs
      · exact .inr ⟨ref, record, hg, hi, rfl⟩
    · rintro (hs | ⟨ref, record, hg, hi, rfl⟩)
      · exact .inl hs
      · exact .inr ⟨ref, record, hg, id, hi, rfl, rfl⟩
  intro id
  refine ⟨fun ref record hg hi => (hm _ _).mpr (.inr ⟨ref, record, hg, hi, rfl⟩),
    fun place hp => ?_, ?_⟩
  · refine ⟨(hm _ _).mpr (.inl hp), fun other ho => ?_⟩
    rcases (hm _ _).mp ho with hs | ⟨ref, record, hg, hi, rfl⟩
    · exact Nat.le_of_eq (some.inj (hp.symm.trans hs))
    · exact hd id place hp ref record hg hi
  · intro hn place hp
    rcases (hm _ _).mp hp with hs | hr
    · exact absurd (hs.symm.trans hn) (by simp)
    · exact hr

/-- A run that shows the least positions all along stores none over a lower record. -/
theorem run_restrict_of_proper {labels : List Label} :
    ∀ {h h' : History}, Tracked h → machine.run h labels = some h' →
    (∀ f r s, labels = f ++ r → machine.run h f = some s → Proper s) →
    (machine.restrict meets).run h labels = some h' := by
  induction labels with
  | nil => exact fun _ hr _ => hr
  | cons label labels ih =>
    intro h h' hh hr hp
    obtain ⟨u, hu, hr⟩ := run_cons_eq_some.mp hr
    have hm : meets h label = true := by
      by_contra hm
      refine not_proper_of_not_meets (Bool.eq_false_iff.mpr hm) hh hu ?_
      exact hp [label] labels u rfl (by rw [run_singleton, hu])
    refine run_cons_eq_some.mpr ⟨u, by simp [restrict, hm, hu], ?_⟩
    refine ih (step_tracked hm hh hu) hr fun f r s hl hs => ?_
    exact hp (label :: f) r s (by rw [hl]; rfl) (run_cons_eq_some.mpr ⟨u, hu, hs⟩)

theorem restrict_tracked {start : Db} (hs : Joined start) {labels : List Label} {h : History}
    (hr : (machine.restrict meets).run (begin start) labels = some h) : Tracked h :=
  restrict_keeps_tracked.run (fun _ _ => trivial) (begin_tracked hs) hr

/-- Surviving claims are at the least position ever recorded for them all along a run exactly
when no step of it stores a position over a lower record. No removal moves a survivor, and two
runs that recorded the same positions put a claim at the same one. -/
theorem least_positions_iff {start : Db} (hstart : Joined start) {labels : List Label} {h : History}
    (hrun : machine.run (begin start) labels = some h) :
    ((∀ first rest s, labels = first ++ rest →
      machine.run (begin start) first = some s → Proper s) ↔
      (machine.restrict meets).run (begin start) labels = some h) ∧
    (∀ label db id claim, label.removes = true → apply h.db label = some db →
      db.claims.get? id = some claim → position db id claim = position h.db id claim) ∧
    ∀ start' labels' h' id claim claim', Joined start' →
      (machine.restrict meets).run (begin start) labels = some h →
      (machine.restrict meets).run (begin start') labels' = some h' →
      h.db.claims.get? id = some claim → h'.db.claims.get? id = some claim' →
      (∃ place, (id, place) ∈ h.recorded) →
        (∀ place, (id, place) ∈ h.recorded ↔ (id, place) ∈ h'.recorded) →
        position h.db id claim = position h'.db id claim' := by
  refine ⟨⟨run_restrict_of_proper (begin_tracked hstart) hrun, ?_⟩, ?_, ?_⟩
  · rintro hr first rest s rfl hf
    obtain ⟨u, hu, -⟩ := run_append_eq_some.mp hr
    have hs : s = u := some.inj (hf.symm.trans (run_of_restrict hu))
    rw [hs]
    exact (restrict_tracked hstart hu).proper
  · intro label db id claim hb ha hc
    exact position_of_removes hb ha hc
  · intro start' labels' h' id claim claim' ht' hr hr' hc hc' hrecorded hm
    obtain ⟨place, hp⟩ := hrecorded
    have hl := (restrict_tracked hstart hr).proper id claim hc ⟨place, hp⟩
    have hl' := (restrict_tracked ht' hr').proper id claim' hc' ⟨place, (hm place).mp hp⟩
    exact hl.unique hl' hm

def sampleLabels : List Label :=
  [.insertBatch [98] ⟨[119], 1⟩, .admitClaim [120] ⟨[98], [57]⟩ 5 [1] ⟨[119], 1, [1]⟩,
    .admitClaim [120] ⟨[98], [57]⟩ 3 [2] ⟨[119], 2, [2]⟩, .removeEnvelope ⟨[119], 2, [2]⟩]

theorem sampleLabels_least : ∃ h, machine.run (begin Db.empty) sampleLabels = some h ∧
    LeastRecorded h.recorded [120] (position h.db [120] ⟨1, [98], [57]⟩) := by
  have ht : Joined Db.empty := fun id place hl => by cases hl
  have he : ((machine.restrict meets).run (begin Db.empty) sampleLabels).map (fun h =>
      decide (h.db.claims.get? [120] = some ⟨1, [98], [57]⟩ ∧ ([120], 5) ∈ h.recorded)) =
        some true := by decide +kernel
  obtain ⟨h, hs, hh⟩ := map_eq_some_iff.mp he
  obtain ⟨hclaims, hc⟩ := of_decide_eq_true hh
  have hr := run_of_restrict hs
  have hp := (least_positions_iff ht hr).1.mpr hs sampleLabels [] h (append_nil _).symm hr
  exact ⟨h, hr, hp [120] _ hclaims ⟨5, hc⟩⟩

/-- A store from before `claim_positions`: one claim with a record at 8 and one
at 4. -/
def legacyDb : Db where
  batches := ⟨[([98], ⟨[112], 1⟩)], by decide⟩
  claims := ⟨[([100], ⟨4, [98], [57]⟩)], by decide⟩
  lastIndex := 4
  positions := ∅
  records :=
    ⟨[([1], ⟨⟨[112], 1, [1]⟩, 8, some [100]⟩), ([2], ⟨⟨[112], 2, [2]⟩, 4, some [100]⟩)], by decide⟩

/-- The envelope with the record at 8 is admitted again, and the claim moves from 4 to 8. -/
theorem readmission_raises_position : ∃ h,
    machine.run (begin legacyDb) [.admitClaim [100] ⟨[98], [57]⟩ 8 [1] ⟨[112], 1, [1]⟩] = some h ∧
      position legacyDb [100] ⟨4, [98], [57]⟩ = 4 ∧ h.db.claims.get? [100] = some ⟨4, [98], [57]⟩ ∧
      ([100], 4) ∈ h.recorded ∧ position h.db [100] ⟨4, [98], [57]⟩ = 8 := by
  have he :
      (machine.run (begin legacyDb) [.admitClaim [100] ⟨[98], [57]⟩ 8 [1] ⟨[112], 1, [1]⟩]).map
      (fun h => decide (position legacyDb [100] ⟨4, [98], [57]⟩ = 4 ∧
        h.db.claims.get? [100] = some ⟨4, [98], [57]⟩ ∧
        ([100], 4) ∈ h.recorded ∧ position h.db [100] ⟨4, [98], [57]⟩ = 8)) = some true := by
          decide +kernel
  obtain ⟨h, hr, hh⟩ := map_eq_some_iff.mp he
  exact ⟨h, hr, of_decide_eq_true hh⟩

end Smalltalk.Canonical
