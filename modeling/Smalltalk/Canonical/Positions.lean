import Smalltalk.Canonical.Tables
import Smalltalk.Lib.Least
import Smalltalk.Lib.Machine

/-!
# The positions of claims

Admission stores a claim's position, and triggers keep it: a record lowers it, and whatever
could raise it later is stored before it goes. The ghost list `recorded` holds every
position ever stored or recorded.
-/

namespace Smalltalk.Canonical

open List Option Table

/-! ## Statements and triggers -/

/-- `INSERT … ON CONFLICT(claim_id) DO UPDATE SET position=MIN(position, excluded.position)`. -/
def joinPosition (positions : Table Text Nat) (id : Text) (place : Nat) : Table Text Nat :=
  match positions.get? id with
  | none => positions.insert id place
  | some stored => positions.update id fun _ => min stored place

def recordPosition (db : Db) (id : Text) (place : Nat) : Db :=
  { db with positions := joinPosition db.positions id place }

/-- What `record_local_position_tx` stores: the claims its batch already holds. -/
def localPosition (db : Db) (batchId : Text) : Nat := db.claims.rows.countP (·.2.batchId = batchId)

structure NewClaim where
  batchId : Text
  acceptedAtUnixMs : Text
  deriving DecidableEq

def insertClaim (db : Db) (id : Text) (claim : NewClaim) : Option Db :=
  if (db.claims.get? id).isSome then some db
  else if (db.batches.get? claim.batchId).isNone then none
  else some
    { db with
      claims := db.claims.insert id ⟨db.lastIndex + 1, claim.batchId, claim.acceptedAtUnixMs⟩
      lastIndex := db.lastIndex + 1 }

/-- `claim_positions_record_insert_v1` and `claim_positions_record_changed_v1`. -/
def joinRecords (db : Db) (claimId : Option Text) : Db :=
  match claimId with
  | none => db
  | some id => match leastRecord db.records id with
    | none => db
    | some place => { db with positions := joinPosition db.positions id place }

/-- `claim_positions_record_change_v1` and `claim_positions_record_delete_v1`. -/
def keepRecords (db : Db) (claimId : Option Text) : Db :=
  match claimId with
  | none => db
  | some id => match leastRecord db.records id with
    | none => db
    | some place => { db with positions := db.positions.insert id place }

def insertRecord (db : Db) (ref : Text) (record : RecordRow) : Option Db :=
  if (db.records.get? ref).isSome then none
  else some (joinRecords { db with records := db.records.insert ref record } record.claimId)

/-- An update that changes neither column fires neither trigger. -/
def updateRecord (db : Db) (ref : Text) (claimId : Option Text) (place : Nat) : Option Db :=
  (db.records.get? ref).map fun old =>
    if old.claimId = claimId ∧ old.position = place then db
    else
      let kept := keepRecords db old.claimId
      joinRecords { kept with
        records :=
          kept.records.update ref fun row => { row with position := place, claimId } } claimId

/-- Admission's upsert. A record that is there keeps its position. -/
def upsertRecord (db : Db) (ref : Text) (record : RecordRow) : Option Db :=
  match db.records.get? ref with
  | none => insertRecord db ref record
  | some old => updateRecord db ref record.claimId old.position

def deleteRecord (db : Db) (ref : Text) : Db :=
  match db.records.get? ref with
  | none => db
  | some record =>
    let kept := keepRecords db record.claimId
    { kept with records := kept.records.delete ref }

def removeEnvelope (db : Db) (envelope : Envelope) : Db :=
  ((db.records.rows.filter (·.2.envelope = envelope)).map (·.1)).foldl deleteRecord db

/-- The later claims of a claim's batch, each with its position as the legacy expression gives
it. -/
def siblings (db : Db) (claim : ClaimRow) : List (Text × Nat) :=
  (db.claims.rows.filter fun r =>
    r.2.batchId = claim.batchId && claim.storeIndex < r.2.storeIndex).map fun r =>
    (r.1, (leastRecord db.records r.1).getD (earlier db.claims r.2.batchId r.2.storeIndex))

/-- `claim_positions_sibling_delete_v1`. -/
def keepSiblings (db : Db) (claim : ClaimRow) : Db :=
  if (siblings db claim).any fun r => (db.positions.get? r.1).isNone then
    { db with positions := db.positions.insertAll (siblings db claim) }
  else db

def deleteClaim (db : Db) (id : Text) : Db :=
  match db.claims.get? id with
  | none => db
  | some claim =>
    let kept := keepSiblings db claim
    { kept with claims := kept.claims.delete id }

/-! ## Runs -/

inductive Label where
  | insertBatch (id : Text) (batch : Batch)
  /-- A valid claim of an envelope and its record, when no checkpoint dropped the
  claim. -/
  | admitClaim (id : Text) (claim : NewClaim) (place : Nat) (ref : Text) (envelope : Envelope)
  /-- A claim of a restored batch, which has no record. -/
  | restoreClaim (id : Text) (claim : NewClaim) (place : Nat)
  | appendClaim (id : Text) (claim : NewClaim)
  | insertRecord (ref : Text) (record : RecordRow)
  | updateRecord (ref : Text) (claimId : Option Text) (place : Nat)
  | deleteRecord (ref : Text)
  | removeEnvelope (envelope : Envelope)
  | deleteClaim (id : Text)

def Label.removes : Label → Bool
  | .deleteRecord _ | .removeEnvelope _ | .deleteClaim _ => true
  | _ => false

def apply (db : Db) : Label → Option Db
  | .insertBatch id batch => some { db with batches := db.batches.insert id batch }
  | .admitClaim id claim place ref envelope =>
    (insertClaim (recordPosition db id place) id claim).bind
      fun db => upsertRecord db ref ⟨envelope, place, some id⟩
  | .restoreClaim id claim place => insertClaim (recordPosition db id place) id claim
  | .appendClaim id claim =>
    if (db.claims.get? id).isSome then none
    else insertClaim (recordPosition db id (localPosition db claim.batchId)) id claim
  | .insertRecord ref record => insertRecord db ref record
  | .updateRecord ref claimId place => updateRecord db ref claimId place
  | .deleteRecord ref => some (deleteRecord db ref)
  | .removeEnvelope envelope => some (removeEnvelope db envelope)
  | .deleteClaim id => some (deleteClaim db id)

def adds (db : Db) : Label → List (Text × Nat)
  | .admitClaim id _ place ref _ =>
    [(id, place)] ++ [(id, ((db.records.get? ref).map (·.position)).getD place)]
  | .restoreClaim id _ place => [(id, place)]
  | .appendClaim id claim => [(id, localPosition db claim.batchId)]
  | .insertRecord _ record => record.claimId.toList.map fun id => (id, record.position)
  | .updateRecord _ claimId place => claimId.toList.map fun id => (id, place)
  | .deleteClaim id => match db.claims.get? id with
    | none => []
    | some claim => (siblings db claim).filter fun r => (db.positions.get? r.1).isNone
  | _ => []

structure History where
  db : Db
  recorded : List (Text × Nat)

def machine : Machine History Label where
  step h label := (apply h.db label).map fun db => ⟨db, h.recorded ++ adds h.db label⟩

def begin (db : Db) : History where
  db
  recorded :=
    db.positions.rows ++ db.records.rows.flatMap
      fun r => r.2.claimId.toList.map fun id => (id, r.2.position)

def LeastRecorded (recorded : List (Text × Nat)) (id : Text) (place : Nat) : Prop :=
  Least (fun other => (id, other) ∈ recorded) (some place)

theorem LeastRecorded.unique {recorded recorded' : List (Text × Nat)} {id : Text}
    {place place' : Nat} (h : LeastRecorded recorded id place)
    (h' : LeastRecorded recorded' id place')
    (hs : ∀ other, (id, other) ∈ recorded ↔ (id, other) ∈ recorded') : place = place' :=
  some.inj ((h.congr hs).unique h')

/-! ## What is kept of a claim's positions -/

/-- A stored position is the least one recorded, and while none is stored the records at hand are
all there is. -/
structure TrackedAt (positions : Table Text Nat) (records : Table Text RecordRow)
    (recorded : List (Text × Nat)) (id : Text) : Prop where
  covered : ∀ ref record, records.get? ref = some record → record.claimId = some id →
    (id, record.position) ∈ recorded
  stored : ∀ place, positions.get? id = some place → LeastRecorded recorded id place
  unstored : positions.get? id = none → ∀ place, (id, place) ∈ recorded →
    ∃ ref record, records.get? ref = some record ∧ record.claimId = some id ∧
    record.position = place

def Tracked (h : History) : Prop := ∀ id, TrackedAt h.db.positions h.db.records h.recorded id

section
variable {positions positions' : Table Text Nat} {records records' : Table Text RecordRow}
  {recorded r' : List (Text × Nat)} {id : Text}

section
variable (h : TrackedAt positions records recorded id)
include h

theorem TrackedAt.congr (hs : positions'.get? id = positions.get? id)
    (hc : ∀ ref record, record.claimId = some id →
      (records'.get? ref = some record ↔ records.get? ref = some record))
    (hr : ∀ place, (id, place) ∈ r' ↔ (id, place) ∈ recorded) :
    TrackedAt positions' records' r' id where
  covered ref record hg hi := (hr _).mpr (h.covered ref record ((hc ref record hi).mp hg) hi)
  stored place hp := by
    obtain ⟨hm, hl⟩ := h.stored place (hs ▸ hp)
    exact ⟨(hr place).mpr hm, fun other ho => hl other ((hr other).mp ho)⟩
  unstored hn place hp := by
    obtain ⟨ref, record, hg, hi, ht⟩ := h.unstored (hs ▸ hn) place ((hr place).mp hp)
    exact ⟨ref, record, (hc ref record hi).mpr hg, hi, ht⟩

theorem TrackedAt.least_leastRecord (hn : positions.get? id = none)
    {place : Nat} (hl : leastRecord records id = some place) : LeastRecorded recorded id place := by
  obtain ⟨⟨ref, record, hg, hi, rfl⟩, hle⟩ := leastRecord_eq_some.mp hl
  refine ⟨h.covered ref record hg hi, fun other ho => ?_⟩
  obtain ⟨ref', record', hg', hi', rfl⟩ := h.unstored hn other ho
  exact hle ref' record' hg' hi'

theorem TrackedAt.none_recorded (hn : positions.get? id = none)
    (hl : leastRecord records id = none) (place : Nat) : (id, place) ∉ recorded := by
  intro hm
  obtain ⟨ref, record, hg, hi, -⟩ := h.unstored hn place hm
  exact leastRecord_eq_none.mp hl ref record hg hi

end

theorem TrackedAt.store {place : Nat}
    (hr : ∀ ref record, records.get? ref = some record → record.claimId = some id →
      (id, record.position) ∈ recorded) (hp : positions.get? id = some place)
    (hl : LeastRecorded recorded id place) :
    TrackedAt positions records recorded id where
  covered := hr
  stored place' hp' := by
    rw [hp] at hp'
    cases hp'
    exact hl
  unstored hn := absurd (hp.symm.trans hn) (by simp)

end

theorem get?_joinPosition (positions : Table Text Nat) (id : Text) (place : Nat) (other : Text) :
    (joinPosition positions id place).get? other =
      if other = id then some (((positions.get? id).map (min · place)).getD place)
      else positions.get? other := by
  unfold joinPosition
  cases h : positions.get? id with
  | none =>
    simp only [get?_insert, h]
    rfl
  | some s =>
    simp only [get?_update, h]
    rfl

variable {h : History} {id ref : Text} {place : Nat} {db : Db}

theorem History.known_least (hh : Tracked h) {id : Text} {place : Nat}
    (hk : known h.db id = some place) : LeastRecorded h.recorded id place := by
  unfold known at hk
  cases hs : h.db.positions.get? id with
  | some s =>
    rw [hs] at hk
    exact (hh id).stored place (hs.trans hk)
  | none =>
    rw [hs, none_or] at hk
    exact (hh id).least_leastRecord hs hk

def Proper (h : History) : Prop :=
  ∀ id claim, h.db.claims.get? id = some claim → (∃ place, (id, place) ∈ h.recorded) →
    LeastRecorded h.recorded id (position h.db id claim)

theorem Tracked.proper (hh : Tracked h) : Proper h := by
  intro id claim _ hr
  obtain ⟨place, hp⟩ := hr
  unfold position
  cases hk : known h.db id with
  | some l => exact History.known_least hh hk
  | none =>
    unfold known at hk
    obtain ⟨hn, hl⟩ := or_eq_none_iff.mp hk
    exact absurd hp ((hh id).none_recorded hn hl place)

/-! ## Steps -/

/-- A position joined to what is stored, when every recorded one is at or above one of the two. -/
theorem Tracked.join {positions : Table Text Nat} {records : Table Text RecordRow}
    {recorded recorded' : List (Text × Nat)}
    (hr : ∀ ref record, records.get? ref = some record → record.claimId = some id →
      (id, record.position) ∈ recorded')
    (ht : ∀ s, positions.get? id = some s → LeastRecorded recorded id s)
    (hm : (id, place) ∈ recorded') (hs : ∀ other, (id, other) ∈ recorded → (id, other) ∈ recorded')
    (hl : ∀ other, (id, other) ∈ recorded' →
      place ≤ other ∨ (positions.get? id ≠ none ∧ (id, other) ∈ recorded)) :
    TrackedAt (joinPosition positions id place) records recorded' id := by
  have hg := get?_joinPosition positions id place id
  rw [if_pos rfl] at hg
  refine TrackedAt.store hr hg ?_
  cases h : positions.get? id with
  | none =>
    refine ⟨hm, fun other ho => ?_⟩
    rcases hl other ho with hl | ⟨hn, -⟩
    · exact hl
    · exact absurd h hn
  | some s =>
    obtain ⟨hm', hl'⟩ := ht s h
    simp only [map_some, getD_some]
    constructor
    · rcases min_choice s place with heq | heq <;> rw [heq]
      · exact hs s hm'
      · exact hm
    · intro other ho
      rcases hl other ho with hl | ⟨-, hm⟩
      · exact Nat.le_trans (Nat.min_le_right _ _) hl
      · exact Nat.le_trans (Nat.min_le_left _ _) (hl' other hm)

theorem keepRecords_records (db : Db) (claimId : Option Text) :
    (keepRecords db claimId).records = db.records := by
  unfold keepRecords
  split
  · rfl
  · split <;> rfl

theorem keepRecords_claims (db : Db) (claimId : Option Text) :
    (keepRecords db claimId).claims = db.claims := by
  unfold keepRecords
  split
  · rfl
  · split <;> rfl

/-- Nothing stored is changed, and a claim with a record has a position now. -/
theorem get?_keepRecords (db : Db) (claimId : Option Text) (id : Text) :
    (keepRecords db claimId).positions.get? id =
      if claimId = some id then known db id else db.positions.get? id := by
  unfold keepRecords known
  cases claimId with
  | none => rfl
  | some kept =>
    by_cases hi : kept = id
    · subst hi
      cases hl : leastRecord db.records kept with
      | none => simp [hl]
      | some place =>
        cases hs : db.positions.get? kept <;> simp [hl, get?_insert, hs]
    · have hi' : ¬ id = kept := fun e => hi e.symm
      cases hl : leastRecord db.records kept <;> simp [hl, get?_insert, hi, hi']

theorem Tracked.keepRecords (hh : Tracked h) (claimId : Option Text) :
    Tracked ⟨keepRecords h.db claimId, h.recorded⟩ := by
  intro id
  rw [keepRecords_records]
  by_cases hi : claimId = some id
  · cases hk : known h.db id with
    | none =>
      refine (hh id).congr ?_ (fun _ _ _ => Iff.rfl) fun _ => Iff.rfl
      rw [get?_keepRecords, if_pos hi, hk, (or_eq_none_iff.mp hk).1]
    | some place =>
      refine TrackedAt.store (hh id).covered ?_ (History.known_least hh hk)
      rw [get?_keepRecords, if_pos hi, hk]
  · refine (hh id).congr ?_ (fun _ _ _ => Iff.rfl) fun _ => Iff.rfl
    rw [get?_keepRecords, if_neg hi]

variable {old : RecordRow} {claimId : Option Text} {e : Envelope} {h' : History} {label : Label}

theorem Tracked.forget (hh : Tracked h) {ref : Text} {records : Table Text RecordRow}
    (hold : h.db.records.get? ref = some old)
    (hs : ∀ id, old.claimId = some id → h.db.positions.get? id ≠ none)
    (hrecords : ∀ ref' record, records.get? ref' = some record →
      h.db.records.get? ref' = some record ∨ record.claimId = none)
    (hk : ∀ ref' record, ref' ≠ ref → h.db.records.get? ref' = some record →
      records.get? ref' = some record) :
    Tracked ⟨{ h.db with records }, h.recorded⟩ := by
  intro id
  refine ⟨?_, (hh id).stored, ?_⟩
  · intro ref' record hg hi
    rcases hrecords ref' record hg with hg | hn
    · exact (hh id).covered ref' record hg hi
    · rw [hn] at hi
      cases hi
  · intro hn place hl
    obtain ⟨ref', record, hg, hi, hp⟩ := (hh id).unstored hn place hl
    have hne : ref' ≠ ref := by
      rintro rfl
      rw [hold] at hg
      cases hg
      exact hs id hi hn
    exact ⟨ref', record, hk ref' record hne hg, hi, hp⟩

variable {record : RecordRow} {claim : NewClaim}

theorem keepRecords_stored (hr : db.records.get? ref = some record)
    (id : Text) (hi : record.claimId = some id) :
    (keepRecords db record.claimId).positions.get? id ≠ none := by
  rw [get?_keepRecords, if_pos hi, known]
  intro hn
  exact leastRecord_eq_none.mp (or_eq_none_iff.mp hn).2 ref record hr hi

theorem Tracked.deleteRecord (hh : Tracked h) (ref : Text) :
    Tracked ⟨deleteRecord h.db ref, h.recorded⟩ := by
  unfold Canonical.deleteRecord
  cases hr : h.db.records.get? ref with
  | none => exact hh
  | some record =>
    have hg : (Canonical.keepRecords h.db record.claimId).records.get? ref = some record := by
      rw [keepRecords_records, hr]
    refine (hh.keepRecords record.claimId).forget hg (keepRecords_stored hr) ?_ ?_
    · intro ref' record' hg'
      exact .inl (of_get?_delete hg')
    · intro ref' record' hn hg'
      rw [get?_delete, if_neg hn]
      exact hg'

theorem Tracked.removeEnvelope (hh : Tracked h) (e : Envelope) :
    Tracked ⟨removeEnvelope h.db e, h.recorded⟩ := by
  unfold Canonical.removeEnvelope
  refine List.foldlRecOn (motive := fun db => Tracked ⟨db, h.recorded⟩) _ _ hh
    fun db hd ref _ => hd.deleteRecord ref

theorem Tracked.joinRecords {recorded : List (Text × Nat)} {records : Table Text RecordRow}
    (ref : Text) (record : RecordRow) (hh : Tracked ⟨db, recorded⟩)
    (hw : records.get? ref = some record)
    (ht : ∀ ref' other, ref' ≠ ref →
      (records.get? ref' = some other ↔ db.records.get? ref' = some other))
    (hr : ∀ old id, db.records.get? ref = some old → old.claimId = some id →
      db.positions.get? id ≠ none) :
    Tracked ⟨joinRecords { db with records } record.claimId,
      recorded ++ record.claimId.toList.map fun id => (id, record.position)⟩ := by
  -- Before the join, every other claim is as it was but for a replaced record.
  have ho : ∀ id, record.claimId ≠ some id →
      TrackedAt db.positions records
        (recorded ++ record.claimId.toList.map fun id => (id, record.position)) id := by
    intro id hi
    have hm : ∀ place, (id, place) ∈ recorded ++
        (record.claimId.toList.map fun id => (id, record.position)) ↔ (id, place) ∈ recorded := by
      intro place
      cases hc : record.claimId with
      | none => simp
      | some claim =>
        have : id ≠ claim := fun e => hi (e ▸ hc)
        simp [this]
    refine ⟨?_, ?_, ?_⟩
    · intro ref' other hg ho
      by_cases hn : ref' = ref
      · rw [hn, hw] at hg
        cases hg
        exact absurd ho hi
      · exact (hm _).mpr ((hh id).covered ref' other ((ht ref' other hn).mp hg) ho)
    · intro place hp
      obtain ⟨hp, hle⟩ := (hh id).stored place hp
      exact ⟨(hm place).mpr hp, fun other ho => hle other ((hm other).mp ho)⟩
    · intro hpositions place hp
      obtain ⟨ref', other, hg, ho, hs⟩ := (hh id).unstored hpositions place ((hm place).mp hp)
      have hn : ref' ≠ ref := by
        rintro rfl
        exact hr other id hg ho hpositions
      exact ⟨ref', other, (ht ref' other hn).mpr hg, ho, hs⟩
  cases hc : record.claimId with
  | none =>
    intro id
    have := ho id (by simp [hc])
    rwa [hc] at this
  | some claim =>
    -- The least record is one of those at hand, and no other is below it.
    have hl : ∃ place, leastRecord records claim = some place := by
      cases hl : leastRecord records claim with
      | none => exact absurd hc (leastRecord_eq_none.mp hl ref record hw)
      | some place => exact ⟨place, rfl⟩
    obtain ⟨place, hl⟩ := hl
    have hj : Canonical.joinRecords { db with records } (some claim) =
        { db with records, positions := joinPosition db.positions claim place } := by
      simp only [Canonical.joinRecords, hl]
    rw [hj]
    obtain ⟨⟨ref', other, hg, hi, hp⟩, hle⟩ := leastRecord_eq_some.mp hl
    have hv : ∀ ref' other, records.get? ref' = some other → other.claimId = some claim →
        (claim, other.position) ∈ recorded ++ [(claim, record.position)] := by
      intro ref' other hg ho
      by_cases hn : ref' = ref
      · rw [hn, hw] at hg
        cases hg
        simp
      · exact mem_append_left _ ((hh claim).covered ref' other ((ht ref' other hn).mp hg) ho)
    intro id
    by_cases hi : id = claim
    · subst hi
      refine Tracked.join hv (hh id).stored (hp ▸ hv ref' other hg hi)
        (fun _ h => mem_append_left _ h) ?_
      intro place' hp'
      rcases mem_append.mp hp' with hold | hw'
      · by_cases hpositions : db.positions.get? id = none
        · left
          obtain ⟨ref'', old, hg'', hold'', rfl⟩ := (hh id).unstored hpositions place' hold
          have hn : ref'' ≠ ref := by
            rintro rfl
            exact hr old id hg'' hold'' hpositions
          exact hle ref'' old ((ht ref'' old hn).mpr hg'') hold''
        · exact .inr ⟨hpositions, hold⟩
      · left
        obtain ⟨-, rfl⟩ : id = id ∧ place' = record.position := by simpa using hw'
        exact hle ref record hw hc
    · have := ho id (fun h => hi (some.inj (h.symm.trans hc)))
      rw [hc] at this
      refine this.congr ?_ (fun _ _ _ => Iff.rfl) fun _ => Iff.rfl
      rw [get?_joinPosition, if_neg hi]

theorem Tracked.insertRecord (hh : Tracked h) {ref : Text} {db : Db}
    (hi : insertRecord h.db ref record = some db) :
    Tracked ⟨db, h.recorded ++ record.claimId.toList.map fun id => (id, record.position)⟩ := by
  unfold Canonical.insertRecord at hi
  cases hg : h.db.records.get? ref with
  | some old => simp [hg] at hi
  | none =>
    simp only [hg, isSome_none, Bool.false_eq_true, if_false, some.injEq] at hi
    subst hi
    refine Tracked.joinRecords ref record hh ?_ ?_ ?_
    · simp [get?_insert, hg]
    · intro ref' other hn
      rw [get?_insert, if_neg hn]
    · intro old id hold
      rw [hg] at hold
      cases hold

theorem Tracked.updateRecord (hh : Tracked h) {ref : Text} {place : Nat} {db : Db}
    (hu : updateRecord h.db ref claimId place = some db) :
    Tracked ⟨db, h.recorded ++ claimId.toList.map fun id => (id, place)⟩ := by
  unfold Canonical.updateRecord at hu
  obtain ⟨old, hold, rfl⟩ := map_eq_some_iff.mp hu
  split
  · -- The row already says so, and what it says is recorded.
    rename_i hs
    intro id
    refine (hh id).congr rfl (fun _ _ _ => Iff.rfl) fun place' => ?_
    cases hc : claimId with
    | none => simp
    | some claim =>
      simp only [toList_some, map_cons, map_nil, mem_append, mem_singleton, Prod.mk.injEq]
      refine ⟨?_, .inl⟩
      rintro (hm | ⟨rfl, rfl⟩)
      · exact hm
      · have := (hh id).covered ref old hold (hs.1.trans hc)
        rwa [hs.2] at this
  · have hk := keepRecords_records h.db old.claimId
    refine Tracked.joinRecords ref { old with position := place, claimId }
      (hh.keepRecords old.claimId) ?_ ?_ ?_
    · rw [get?_update, if_pos rfl, hk, hold]
      rfl
    · intro ref' other hn
      rw [get?_update, if_neg hn]
    · intro old' id hold' hi
      rw [hk, hold] at hold'
      cases hold'
      exact keepRecords_stored hold id hi

theorem insertClaim_fields {db' : Db} (h : insertClaim db id claim = some db') :
    db'.positions = db.positions ∧ db'.records = db.records ∧
    ∃ row, db'.claims.get? id = some row := by
  unfold insertClaim at h
  cases hg : db.claims.get? id with
  | some row =>
    simp only [hg, isSome_some, if_true, some.injEq] at h
    subst h
    exact ⟨rfl, rfl, row, hg⟩
  | none =>
    simp only [hg, isSome_none, Bool.false_eq_true, if_false] at h
    split at h
    · cases h
    · cases h
      exact ⟨rfl, rfl, _, by rw [get?_insert, if_pos rfl, hg]⟩

/-- Whether a position may be stored: one is already, or no record of the claim is below. -/
def storable (db : Db) (id : Text) (place : Nat) : Bool :=
  (db.positions.get? id).isSome ||
  db.records.rows.all fun r => r.2.claimId ≠ some id || place ≤ r.2.position

theorem storable_iff : storable db id place = true ↔
    (db.positions.get? id = none → ∀ ref record, db.records.get? ref = some record →
      record.claimId = some id → place ≤ record.position) := by
  simp only [storable, Bool.or_eq_true, List.all_eq_true, decide_eq_true_eq, Prod.forall, mem_rows,
    isSome_iff_ne_none]
  constructor
  · rintro (hs | ha) hn
    · exact absurd hn hs
    · intro ref record hg hi
      exact (ha ref record hg).resolve_left (fun hne => hne hi)
  · intro h
    by_cases hn : db.positions.get? id = none
    · right
      intro ref record hg
      by_cases hi : record.claimId = some id
      · exact .inr (h hn ref record hg hi)
      · exact .inl hi
    · exact .inl hn

theorem Tracked.recordPosition (hh : Tracked h) {id : Text} {place : Nat}
    (hp : storable h.db id place = true) :
    Tracked ⟨recordPosition h.db id place, h.recorded ++ [(id, place)]⟩ := by
  intro other
  by_cases hi : other = id
  · subst hi
    refine Tracked.join (fun ref record hg hc =>
      mem_append_left _ ((hh other).covered ref record hg hc))
      (hh other).stored (by simp) (fun _ h => mem_append_left _ h) ?_
    intro place' hp'
    rcases mem_append.mp hp' with hold | hw
    · by_cases hn : h.db.positions.get? other = none
      · obtain ⟨ref, record, hg, hc, rfl⟩ := (hh other).unstored hn place' hold
        exact .inl (storable_iff.mp hp hn ref record hg hc)
      · exact .inr ⟨hn, hold⟩
    · left
      obtain rfl : place' = place := by simpa using hw
      exact Nat.le_refl place'
  · refine (hh other).congr ?_ (fun _ _ _ => Iff.rfl) fun place' => by simp [hi]
    rw [Canonical.recordPosition, get?_joinPosition, if_neg hi]

theorem Tracked.upsertRecord (hh : Tracked h) {ref : Text} {db : Db}
    (hu : upsertRecord h.db ref record = some db) :
    Tracked ⟨db, h.recorded ++ record.claimId.toList.map fun id =>
      (id, ((h.db.records.get? ref).map (·.position)).getD record.position)⟩ := by
  unfold Canonical.upsertRecord at hu
  cases hold : h.db.records.get? ref with
  | none =>
    rw [hold] at hu
    exact hh.insertRecord hu
  | some old =>
    rw [hold] at hu
    exact hh.updateRecord hu

def joins (db : Db) (ref id : Text) : Bool :=
  match db.records.get? ref with
  | none => true
  | some old => old.claimId ≠ some id

theorem get?_joinPosition_comm (positions : Table Text Nat) (id : Text) (place place' : Nat)
    (other : Text) :
    (joinPosition (joinPosition positions id place) id place').get? other =
      (joinPosition (joinPosition positions id place') id place).get? other := by
  simp only [get?_joinPosition]
  split
  · cases positions.get? id with
    | none => simp [Nat.min_comm]
    | some s => simp [Nat.min_assoc, Nat.min_comm place place']
  · rfl

theorem joinRecords_some (h : leastRecord db.records id = some place) :
    joinRecords db (some id) = { db with positions := joinPosition db.positions id place } := by
  simp only [joinRecords, h]

theorem get?_joinPosition_congr {positions positions' : Table Text Nat}
    (h : ∀ other, positions.get? other = positions'.get? other) (id : Text) (place : Nat)
    (other : Text) :
    (joinPosition positions id place).get? other =
      (joinPosition positions' id place).get? other := by
  rw [get?_joinPosition, get?_joinPosition, h, h]

theorem updateRecord_of_ne (hold : db.records.get? ref = some old) (hn : old.claimId ≠ claimId)
    (place : Nat) :
    updateRecord db ref claimId place = some (joinRecords { keepRecords db old.claimId with
        records :=
          db.records.update ref fun row => { row with position := place, claimId } } claimId) := by
  rw [updateRecord, hold, map_some, if_neg (fun h => hn h.1)]
  simp only [keepRecords_records]

theorem exists_leastRecord {records : Table Text RecordRow}
    (hg : records.get? ref = some record) (hi : record.claimId = some id) :
    ∃ least, leastRecord records id = some least := by
  cases hl : leastRecord records id with
  | none => exact absurd hi (leastRecord_eq_none.mp hl ref record hg)
  | some least => exact ⟨least, rfl⟩

/-- A joining trigger finds the same least record whether the position was stored before it or is
stored after it. -/
theorem upsertRecord_recordPosition {db₁ d₁ : Db}
    (hj : joins db ref id = true) (hp : db₁.positions = joinPosition db.positions id place)
    (hr : db₁.records = db.records) (hu : upsertRecord db₁ ref ⟨e, place, some id⟩ = some d₁) :
    ∃ d, upsertRecord db ref ⟨e, place, some id⟩ = some d ∧ d.positions.get? id ≠ none ∧
      d₁.records = d.records ∧
      ∀ other, d₁.positions.get? other = (joinPosition d.positions id place).get? other := by
  unfold upsertRecord at hu ⊢
  unfold joins at hj
  rw [hr] at hu
  cases hold : db.records.get? ref with
  | none =>
    simp only [hold, insertRecord, hr, isSome_none, Bool.false_eq_true, if_false,
      some.injEq] at hu ⊢
    obtain ⟨l, hl⟩ := exists_leastRecord
      (show (db.records.insert ref ⟨e, place, some id⟩).get? ref = some ⟨e, place, some id⟩ by
        simp [get?_insert, hold]) rfl
    refine ⟨_, rfl, ?_⟩
    rw [← hu, joinRecords_some (by exact hl), joinRecords_some (by exact hl)]
    refine ⟨by simp [get?_joinPosition], rfl, fun other => ?_⟩
    rw [hp]
    exact get?_joinPosition_comm _ _ _ _ _
  | some old =>
    have hn : old.claimId ≠ some id := by simpa [hold] using hj
    simp only [hold, updateRecord_of_ne hold hn, updateRecord_of_ne (hr ▸ hold) hn, hr,
      some.injEq] at hu ⊢
    obtain ⟨l, hl⟩ := exists_leastRecord
      (show (db.records.update ref
        fun row => { row with position := old.position, claimId := some id }).get? ref =
        some { old with claimId := some id } by simp [get?_update, hold]) rfl
    refine ⟨_, rfl, ?_⟩
    rw [← hu, joinRecords_some (by exact hl), joinRecords_some (by exact hl)]
    refine ⟨by simp [get?_joinPosition], rfl, fun other => ?_⟩
    rw [get?_joinPosition_comm]
    refine get?_joinPosition_congr (fun other => ?_) id l other
    -- The trigger before the update keeps another claim's position.
    rw [get?_keepRecords, get?_joinPosition, get?_keepRecords, get?_keepRecords, if_neg hn]
    by_cases ho : other = id
    · rw [ho, if_neg hn, if_pos rfl, hp, get?_joinPosition, if_pos rfl]
    · rw [if_neg ho, known, known, hp, hr, get?_joinPosition, if_neg ho]

/-- A position stored over a lower record hides it. -/
theorem not_proper_of_not_storable (hh : Tracked h) {id : Text} {place : Nat} {db : Db}
    {recorded : List (Text × Nat)} (hl : storable h.db id place = false)
    (hi : insertClaim (recordPosition h.db id place) id claim = some db) :
    ¬ Proper ⟨db, h.recorded ++ ((id, place) :: recorded)⟩ := by
  have hn : ¬ (h.db.positions.get? id = none → ∀ ref record, h.db.records.get? ref = some record →
      record.claimId = some id → place ≤ record.position) := by
    rw [← storable_iff, hl]
    simp
  push Not at hn
  obtain ⟨hpositions, ref, record, hg, hc, ht⟩ := hn
  obtain ⟨hpositions', -, row, hr⟩ := insertClaim_fields hi
  have hp : position db id row = place := by
    have hs : db.positions.get? id = some place := by
      rw [hpositions', Canonical.recordPosition, get?_joinPosition, if_pos rfl, hpositions]
      rfl
    rw [position, known, hs]
    rfl
  intro hproper
  obtain ⟨-, hle⟩ := hproper id row hr ⟨place, by simp⟩
  have := hle record.position (mem_append_left _ ((hh id).covered ref record hg hc))
  rw [hp] at this
  omega

theorem Tracked.admitClaim (hh : Tracked h) {id : Text} {place : Nat} {ref : Text}
    {db : Db} (hm : (storable h.db id place || joins h.db ref id) = true)
    (ha : apply h.db (.admitClaim id claim place ref e) = some db) :
    Tracked ⟨db, h.recorded ++ adds h.db (.admitClaim id claim place ref e)⟩ := by
  obtain ⟨db₁, hi, hu⟩ := bind_eq_some_iff.mp ha
  obtain ⟨hp, hr, -⟩ := insertClaim_fields hi
  rcases Bool.or_eq_true_iff.mp hm with hs | hj
  · have hh₁ : Tracked ⟨db₁, h.recorded ++ [(id, place)]⟩ := by
      intro other
      rw [hp, hr]
      exact hh.recordPosition hs other
    have hl := hh₁.upsertRecord hu
    rw [hr, append_assoc] at hl
    exact hl
  · obtain ⟨d, hd, ht, hr', hp'⟩ := upsertRecord_recordPosition hj hp hr hu
    have hs : storable d id place = true := storable_iff.mpr fun hn => absurd hn ht
    have hl := (hh.upsertRecord hd).recordPosition hs
    intro other
    refine (hl other).congr (hp' other) (fun ref record _ => by rw [hr']; rfl) fun place' => ?_
    simp only [adds, toList_some, map_cons, map_nil, mem_append]
    tauto

theorem mem_siblings {claim : ClaimRow} : (id, place) ∈ siblings db claim ↔
    ∃ row, db.claims.get? id = some row ∧ row.batchId = claim.batchId ∧
      claim.storeIndex < row.storeIndex ∧
      place = (leastRecord db.records id).getD (earlier db.claims row.batchId row.storeIndex) := by
  simp only [siblings, List.mem_map, mem_filter, Prod.exists, Prod.mk.injEq, mem_rows,
    Bool.and_eq_true, decide_eq_true_eq]
  constructor
  · rintro ⟨id', row, ⟨hg, hb, hl⟩, rfl, rfl⟩
    exact ⟨row, hg, hb, hl, rfl⟩
  · rintro ⟨row, hg, hb, hl, rfl⟩
    exact ⟨id, row, ⟨hg, hb, hl⟩, rfl, rfl⟩

/-- After the trigger, a later sibling has the position the legacy expression gave it, and nothing
else is changed. -/
theorem get?_keepSiblings (db : Db) (claim : ClaimRow) (id : Text) :
    (keepSiblings db claim).positions.get? id =
      (db.positions.get? id).or (((siblings db claim).find? (·.1 = id)).map (·.2)) := by
  unfold keepSiblings
  split
  · exact get?_insertAll _ id db.positions
  · rename_i hn
    cases hs : db.positions.get? id with
    | some place => simp
    | none =>
      have : (siblings db claim).find? (·.1 = id) = none := by
        rw [find?_eq_none]
        intro r hr heq
        refine hn (List.any_eq_true.mpr ⟨r, hr, ?_⟩)
        simp only [decide_eq_true_eq] at heq
        rw [heq, hs]
        rfl
      simp [this]

theorem keepSiblings_fields (db : Db) (claim : ClaimRow) :
    (keepSiblings db claim).records = db.records ∧ (keepSiblings db claim).claims = db.claims := by
  unfold keepSiblings
  split <;> exact ⟨rfl, rfl⟩

theorem Tracked.keepSiblings (hh : Tracked h) (claim : ClaimRow) : Tracked ⟨keepSiblings h.db claim,
      h.recorded ++ (siblings h.db claim).filter fun r => (h.db.positions.get? r.1).isNone⟩ := by
  intro id
  rw [(keepSiblings_fields h.db claim).1]
  have hg := get?_keepSiblings h.db claim id
  cases hs : h.db.positions.get? id with
  | some place =>
    refine (hh id).congr (by rw [hg, hs]; rfl) (fun _ _ _ => Iff.rfl) fun place' => ?_
    simp [hs]
  | none =>
    cases hf : (siblings h.db claim).find? (·.1 = id) with
    | none =>
      refine (hh id).congr (by rw [hg, hs, hf]; rfl) (fun _ _ _ => Iff.rfl) fun place' => ?_
      have : (id, place') ∉ siblings h.db claim := fun hm => by simpa using find?_eq_none.mp hf _ hm
      simp [this]
    | some f =>
      obtain ⟨f, place⟩ := f
      obtain rfl : f = id := by simpa using find?_some hf
      have hm := mem_of_find?_eq_some hf
      have hc : (f, place) ∈ h.recorded ++
          (siblings h.db claim).filter fun r => (h.db.positions.get? r.1).isNone :=
        mem_append_right _ (mem_filter.mpr ⟨hm, by simp [hs]⟩)
      refine TrackedAt.store (fun ref record hg hi =>
        mem_append_left _ ((hh f).covered ref record hg hi))
        (by rw [hg, hs, hf]; rfl) ⟨hc, fun other ho => ?_⟩
      obtain ⟨row, hr, -, -, hp⟩ := mem_siblings.mp hm
      rcases mem_append.mp ho with hold | hn
      · -- What was recorded is recorded still, so the least record is stored.
        cases hl : leastRecord h.db.records f with
        | none => exact absurd hold ((hh f).none_recorded hs hl other)
        | some l =>
          rw [hl] at hp
          rw [hp]
          exact ((hh f).least_leastRecord hs hl).2 other hold
      · obtain ⟨row', hr', -, -, ho⟩ := mem_siblings.mp (mem_filter.mp hn).1
        rw [hr] at hr'
        cases hr'
        rw [hp, ho]

def meets (h : History) : Label → Bool
  | .admitClaim id _ place ref _ => storable h.db id place || joins h.db ref id
  | .restoreClaim id _ place => storable h.db id place
  | .appendClaim id claim => storable h.db id (localPosition h.db claim.batchId)
  | _ => true

theorem step_tracked (hm : meets h label = true) (hh : Tracked h)
    (hp : machine.step h label = some h') : Tracked h' := by
  have hs : ∀ id claim place db, storable h.db id place = true →
      insertClaim (recordPosition h.db id place) id claim = some db →
      Tracked ⟨db, h.recorded ++ [(id, place)]⟩ := by
    intro id claim place db ht hi
    obtain ⟨hpositions, hr, -⟩ := insertClaim_fields hi
    intro other
    rw [hpositions, hr]
    exact hh.recordPosition ht other
  obtain ⟨db, hd, rfl⟩ := map_eq_some_iff.mp hp
  cases label with
  | insertBatch id batch =>
    cases hd
    intro other
    simpa [adds] using hh other
  | admitClaim id claim place ref e => exact hh.admitClaim hm hd
  | restoreClaim id claim place => exact hs id claim place db hm hd
  | appendClaim id claim =>
    simp only [apply] at hd
    split at hd
    · cases hd
    · exact hs id claim _ db hm hd
  | insertRecord ref record => exact hh.insertRecord hd
  | updateRecord ref claimId place => exact hh.updateRecord hd
  | deleteRecord ref =>
    cases hd
    simpa [adds] using hh.deleteRecord ref
  | removeEnvelope e =>
    cases hd
    simpa [adds] using hh.removeEnvelope e
  | deleteClaim id =>
    cases hd
    simp only [adds, deleteClaim]
    cases hc : h.db.claims.get? id with
    | none => simpa using hh
    | some claim => exact hh.keepSiblings claim

theorem not_proper_of_not_meets (hm : meets h label = false) (hh : Tracked h)
    (hs : machine.step h label = some h') : ¬ Proper h' := by
  obtain ⟨db, hd, rfl⟩ := map_eq_some_iff.mp hs
  cases label with
  | admitClaim id claim place ref e =>
    obtain ⟨ht, hj⟩ := Bool.or_eq_false_iff.mp hm
    obtain ⟨db₁, hi, hu⟩ := bind_eq_some_iff.mp hd
    -- The record is there with this claim, so its upsert changes nothing.
    have heq : db₁ = db := by
      unfold joins at hj
      rw [upsertRecord, (insertClaim_fields hi).2.1] at hu
      simp only [recordPosition] at hu
      cases hold : h.db.records.get? ref with
      | none => simp [hold] at hj
      | some old =>
        have hc : old.claimId = some id := by simpa [hold] using hj
        rw [hold] at hu
        simp only [updateRecord, (insertClaim_fields hi).2.1, recordPosition, hold, map_some, hc,
          and_self, if_true, some.injEq] at hu
        exact hu
    exact heq ▸ not_proper_of_not_storable hh ht hi
  | restoreClaim id claim place => exact not_proper_of_not_storable hh hm hd
  | appendClaim id claim =>
    simp only [apply] at hd
    split at hd
    · cases hd
    · exact not_proper_of_not_storable hh hm hd
  | _ => cases hm

theorem restrict_keeps_tracked : (machine.restrict meets).Keeps (fun _ => True) Tracked := by
  intro h label h' _ hh hs
  obtain ⟨hm, hs⟩ := Machine.step_of_restrict hs
  exact step_tracked hm hh hs

end Smalltalk.Canonical
