import Smalltalk.Sequences.Fresh

/-!
# The accepted time of local batches

`write_time` gives a local batch the clock, but not before the cut of any checkpoint row and
not before the newest batch of the writer that is left. A trim may delete that batch: it is dated
before the cut the trim recorded first. A row keeps the cut it was written with, so a later cut
recorded under the same name does not raise what the rows promise.
-/

namespace Smalltalk.Sequences

open List Option Table

def DAY_MS : Nat := 24 * 60 * 60 * 1000

structure Written where
  sequence : Nat
  acceptedAt : Nat
  recorded : List Nat

structure Dated where
  db : Db := {}
  checkpoints : Table String (Nat × CheckpointState) := ∅
  written : List Written := []
  recorded : List Nat := []

section
variable (node : Node) (dated : EnvelopeId → Nat)

def cutFloor (s : Dated) : Nat := maxSequence (s.checkpoints.rows.map (·.2.1))

/-- `write_time` at a reading of the clock, which a simulation may shift below zero. -/
def writeTime (s : Dated) (clock : Int) : Nat :=
  max (max clock.toNat (cutFloor s)) (((newestBatch s.db node.origin).map (·.acceptedAt)).getD 0)

/-- The other writes of the store. The hash of an envelope covers its header, so it fixes the date.
Batches that are admitted are other writers'. -/
def otherWrite (db : Db) : Label → Bool
  | .append _ _ => false
  | .recordTombstone _ => false
  | .sealBatch batch hash =>
    (db.batches.get? batch).all
      fun row => dated ⟨row.origin, row.replicaSequence, hash⟩ = row.acceptedAt
  | .admitEnvelope _ batch row _ =>
    row.origin ≠ node.origin && (db.batches.get? batch).all fun row => row.origin ≠ node.origin
  | _ => true

inductive DatedLabel where
  | write (claim : String) (clock : Int)
  | other (label : Label)
  /-- `record_checkpoint_state` and the marks of a trim: an upsert that keeps the cut of a row. -/
  | record (checkpoint : String) (cut : Nat) (state : CheckpointState)
  | setState (checkpoint : String) (state : CheckpointState)
  | tombstone (cut : Nat) (id : EnvelopeId)
  | restart

def datedMachine : Machine Dated DatedLabel where
  step s
    | .write claim clock =>
      let now := writeTime node s clock
      (apply node s.db (.append claim now)).map fun db =>
        { s with
          db := db, written := s.written ++ [⟨nextReplicaSequence node s.db, now, s.recorded⟩] }
    | .other label =>
      if otherWrite node dated s.db label then
        (apply node s.db label).map fun db => { s with db := db } else none
    | .record checkpoint cut state =>
      some { s with
        checkpoints :=
          (s.checkpoints.update checkpoint fun row => (row.1, state)).insert checkpoint (cut, state)
        recorded := cut :: s.recorded }
    | .setState checkpoint state =>
      if (s.checkpoints.get? checkpoint).isSome then
        some { s with checkpoints := s.checkpoints.update checkpoint fun row => (row.1, state) }
      else none
    | .tombstone cut id =>
      if cut ∈ s.recorded ∧ dated id < cut then
        (apply node s.db (.recordTombstone id)).map fun db => { s with db := db }
      else none
    | .restart => some s

/-- What is recorded under a name that has a row has a cut some row has reached. -/
def cutHeld (s : Dated) : DatedLabel → Bool
  | .record checkpoint cut _ => (s.checkpoints.get? checkpoint).isNone || cut ≤ cutFloor s
  | _ => true

end

/-! ## The newest batch -/

def newer : Option BatchRow → String × BatchRow → Option BatchRow
  | none, r => some r.2
  | some row, r => if row.replicaSequence ≤ r.2.replicaSequence then some r.2 else some row

theorem newestBatch_eq (db : Db) (writer : String) :
    newestBatch db writer = (db.batches.rows.filter fun r => r.2.origin = writer).foldl
      newer none := by
  unfold newestBatch
  congr 1
  funext newest r
  cases newest <;> rfl

theorem newestBatch_spec (db : Db) (writer : String) :
    (∀ row, newestBatch db writer = some row →
      ∃ id, db.batches.get? id = some row ∧ row.origin = writer) ∧
    ∀ id row, db.batches.get? id = some row → row.origin = writer →
      ∃ newest, newestBatch db writer = some newest ∧
      row.replicaSequence ≤ newest.replicaSequence := by
  have hf' : ∀ (rows : List (String × BatchRow)) (newest : Option BatchRow),
      let last := rows.foldl newer newest
      (∀ row, last = some row → newest = some row ∨ ∃ r ∈ rows, r.2 = row) ∧
      (∀ row, newest = some row → ∃ row', last = some row' ∧
        row.replicaSequence ≤ row'.replicaSequence) ∧
      ∀ r ∈ rows, ∃ row', last = some row' ∧ r.2.replicaSequence ≤ row'.replicaSequence := by
    intro rows
    induction rows with
    | nil =>
      intro newest
      exact ⟨fun _ h => .inl h, fun row h => ⟨row, h, Nat.le_refl _⟩, by simp⟩
    | cons r rows ih =>
      intro newest
      cases newest with
      | none =>
        obtain ⟨hf, hs, ha⟩ := ih (some r.2)
        refine ⟨fun row hw => ?_, by simp, fun r' hr' => ?_⟩
        · rcases hf row hw with heq | ⟨r', hr', heq⟩
          · exact .inr ⟨r, mem_cons_self, Option.some.inj heq⟩
          · exact .inr ⟨r', mem_cons_of_mem _ hr', heq⟩
        · rcases mem_cons.mp hr' with rfl | hr'
          · exact hs _ rfl
          · exact ha r' hr'
      | some old =>
        by_cases hl : old.replicaSequence ≤ r.2.replicaSequence
        · obtain ⟨hf, hs, ha⟩ := ih (some r.2)
          simp only [foldl_cons, newer, if_pos hl]
          refine ⟨fun row hw => ?_, fun row hw => ?_, fun r' hr' => ?_⟩
          · rcases hf row hw with heq | ⟨r', hr', heq⟩
            · exact .inr ⟨r, mem_cons_self, Option.some.inj heq⟩
            · exact .inr ⟨r', mem_cons_of_mem _ hr', heq⟩
          · cases hw
            obtain ⟨row', hw', hl'⟩ := hs _ rfl
            exact ⟨row', hw', hl.trans hl'⟩
          · rcases mem_cons.mp hr' with rfl | hr'
            · exact hs _ rfl
            · exact ha r' hr'
        · obtain ⟨hf, hs, ha⟩ := ih (some old)
          simp only [foldl_cons, newer, if_neg hl]
          refine ⟨fun row hw => ?_, hs, fun r' hr' => ?_⟩
          · rcases hf row hw with heq | ⟨r', hr', heq⟩
            · exact .inl heq
            · exact .inr ⟨r', mem_cons_of_mem _ hr', heq⟩
          · rcases mem_cons.mp hr' with rfl | hr'
            · obtain ⟨row', hw', hl'⟩ := hs _ rfl
              exact ⟨row', hw', (Nat.le_of_not_le hl).trans hl'⟩
            · exact ha r' hr'
  obtain ⟨hf, -, ha⟩ := hf' (db.batches.rows.filter fun r => r.2.origin = writer) none
  rw [newestBatch_eq]
  refine ⟨fun row hw => ?_, fun id row hg ho => ?_⟩
  · rcases hf row hw with h | ⟨r, hr, rfl⟩
    · cases h
    · obtain ⟨hm, ho⟩ := mem_filter.mp hr
      exact ⟨r.1, mem_rows.mp hm, by simpa using ho⟩
  · exact ha (id, row) (mem_filter.mpr ⟨mem_rows.mpr hg, by simpa using ho⟩)

/-! ## What the other writes do to the writer's batches -/

section
variable {node : Node} {dated : EnvelopeId → Nat} {db db' : Db} {label : Label}

def Linked (db : Db) : Prop :=
  ∀ id batch, db.envelopes.get? id = some (some batch) → db.batches.get? batch ≠ none

structure OwnKept (node : Node) (dated : EnvelopeId → Nat) (db db' : Db) : Prop where
  old : ∀ id row, db'.batches.get? id = some row → row.origin = node.origin →
    db.batches.get? id = some row
  kept : ∀ id row, db.batches.get? id = some row → row.origin = node.origin →
    db'.batches.get? id = some row ∨ ∃ envelope, db.envelopes.get? envelope = some (some id) ∧
    db.checkpointEnvelopes.get? envelope ≠ none
  headed : ∀ envelope id row, db'.envelopes.get? envelope = some (some id) →
    db'.batches.get? id = some row → row.origin = node.origin →
    db.envelopes.get? envelope = some (some id) ∨ dated envelope = row.acceptedAt
  linked : Linked db → Linked db'
  tombstones : ∀ envelope, db'.checkpointEnvelopes.get? envelope ≠ none →
    db.checkpointEnvelopes.get? envelope ≠ none

theorem OwnKept.refl (db : Db) : OwnKept node dated db db where
  old _ _ h _ := h
  kept _ _ h _ := .inl h
  headed _ _ _ h _ _ := .inl h
  linked h := h
  tombstones _ h := h

theorem ownKept_sealBatch {batch hash : String} {row : BatchRow}
    (hrow : db.batches.get? batch = some row)
    (hd : dated ⟨row.origin, row.replicaSequence, hash⟩ = row.acceptedAt) : OwnKept node dated db
      { db with envelopes := db.envelopes.insert ⟨row.origin, row.replicaSequence,
                  hash⟩ (some batch) } where
  old _ _ h _ := h
  kept _ _ h _ := .inl h
  headed envelope id row' hget hrow' _ := by
    rcases of_get?_insert hget with hget | ⟨rfl, heq⟩
    · exact .inl hget
    · cases heq
      cases hrow.symm.trans hrow'
      exact .inr hd
  linked h envelope id hget := by
    rcases of_get?_insert hget with hget | ⟨rfl, heq⟩
    · exact h envelope id hget
    · cases heq
      exact hrow ▸ some_ne_none _
  tombstones _ h := h

theorem ownKept_receive (r : EnvelopeId) :
    OwnKept node dated db { db with envelopes := db.envelopes.insert r none } where
  old _ _ h _ := h
  kept _ _ h _ := .inl h
  headed envelope id row hget _ _ := by
    rcases of_get?_insert hget with hget | ⟨_, heq⟩
    · exact .inl hget
    · cases heq
  linked h envelope id hget := by
    rcases of_get?_insert hget with hget | ⟨_, heq⟩
    · exact h envelope id hget
    · cases heq
  tombstones _ h := h

theorem get?_insertBatch_self (id : String) (row : BatchRow) :
    (insertBatch db id row).batches.get? id ≠ none := by
  unfold insertBatch
  split
  · rename_i heq
    simp [heq]
  · exact get?_insert_ne_none.mpr (.inr rfl)

theorem get?_insertBatch_of_some {id id' : String} {row row' : BatchRow}
    (h : db.batches.get? id' = some row') :
    (insertBatch db id row).batches.get? id' = some row' := by
  unfold insertBatch
  split
  · exact h
  · rename_i hn
    have hne : id' ≠ id := by
      rintro rfl
      rw [hn] at h
      cases h
    rw [get?_insert, if_neg hne, h]

theorem ownKept_admitEnvelope {id : EnvelopeId} {batch : String} {row : BatchRow}
    (claims : Table String String) (hrow : row.origin ≠ node.origin)
    (hb : ∀ row, db.batches.get? batch = some row → row.origin ≠ node.origin) :
    OwnKept node dated db { insertBatch db batch row with
        claims := claims, envelopes :=
          (insertBatch db batch row).envelopes.update id fun _ => some batch } where
  old id' row' hget horigin := by
    rcases of_get?_insertBatch hget with hget | ⟨_, rfl⟩
    · exact hget
    · exact absurd horigin hrow
  kept id' row' hget _ := .inl (get?_insertBatch_of_some hget)
  headed envelope id' row' hget hrow' horigin := by
    rw [insertBatch_envelopes, get?_update] at hget
    split at hget
    · obtain ⟨old, -, heq⟩ := map_eq_some_iff.mp hget
      cases heq
      rcases of_get?_insertBatch hrow' with hold | ⟨_, rfl⟩
      · exact absurd horigin (hb _ hold)
      · exact absurd horigin hrow
    · exact .inl hget
  linked h envelope id' hget := by
    rw [insertBatch_envelopes, get?_update] at hget
    split at hget
    · obtain ⟨old, -, heq⟩ := map_eq_some_iff.mp hget
      cases heq
      exact get?_insertBatch_self batch row
    · obtain ⟨row', hrow'⟩ := ne_none_iff_exists'.mp (h envelope id' hget)
      exact (get?_insertBatch_of_some hrow') ▸ some_ne_none _
  tombstones envelope h := by simpa using h

theorem mem_carried {batch : String} :
    carried db batch = true ↔ ∃ id, db.envelopes.get? id = some (some batch) := by
  simp [carried, mem_rows]

theorem get?_deleteEmptyBatch {batch : Option String} {id : String} {row : BatchRow}
    (h : db.batches.get? id = some row) :
    (deleteEmptyBatch db batch).batches.get? id = some row ∨
    batch = some id ∧ carried db id = false := by
  cases batch with
  | none => exact .inl h
  | some batch =>
    simp only [deleteEmptyBatch]
    split
    · exact .inl h
    · rename_i he
      by_cases heq : id = batch
      · subst heq
        simp only [Bool.or_eq_true, not_or, Bool.not_eq_true] at he
        exact .inr ⟨rfl, he.2⟩
      · left
        unfold deleteBatch
        split
        · exact h
        · rw [get?_delete, if_neg heq, h]

theorem ownKept_dropEnvelope {e : EnvelopeId} (ht : db.checkpointEnvelopes.get? e ≠ none) :
    OwnKept node dated db (deleteEmptyBatch { db with envelopes := db.envelopes.delete e }
      ((db.envelopes.get? e).getD none)) where
  old id row hget _ := by
    have hbefore := of_get?_deleteEmptyBatch hget
    exact hbefore
  kept id row hget _ := by
    have hbefore : { db with envelopes := db.envelopes.delete e }.batches.get? id = some row := hget
    refine (get?_deleteEmptyBatch hbefore).imp_right fun ⟨hb, _⟩ => ⟨e, ?_, ht⟩
    cases hold : db.envelopes.get? e with
    | none => rw [hold] at hb; cases hb
    | some old => rw [hold, getD_some] at hb; rw [hb]
  headed other id row hget _ _ := by
    rw [deleteEmptyBatch_envelopes] at hget
    exact .inl (of_get?_delete hget)
  linked h other id hget := by
    rw [deleteEmptyBatch_envelopes] at hget
    obtain ⟨row, hrow⟩ := ne_none_iff_exists'.mp (h other id (of_get?_delete hget))
    have hbefore : { db with envelopes := db.envelopes.delete e }.batches.get? id = some row := hrow
    rcases get?_deleteEmptyBatch hbefore with hk | ⟨_, hempty⟩
    · exact hk ▸ some_ne_none _
    · rw [mem_carried.mpr ⟨other, hget⟩] at hempty
      cases hempty
  tombstones other h := by simpa using h

theorem apply_ownKept (ho : otherWrite node dated db label = true)
    (h : apply node db label = some db') :
    OwnKept node dated db db' := by
  cases label with
  | append | recordTombstone => cases ho
  | force claim batch =>
    simp only [apply] at h
    split at h
    · cases h
      exact { OwnKept.refl db with }
    · cases h
  | sealBatch batch hash =>
    simp only [apply] at h
    split at h
    · cases h
    · rename_i row hr
      split at h
      · cases h
      · cases h
        refine ownKept_sealBatch hr ?_
        simpa [otherWrite, hr] using ho
  | receive r =>
    simp only [apply] at h
    split at h
    · cases h
      exact .refl _
    · cases h
      exact ownKept_receive r
  | admitEnvelope id batch row claims =>
    simp only [apply] at h
    split at h
    · cases h
      simp only [otherWrite, Bool.and_eq_true, decide_eq_true_eq] at ho
      exact ownKept_admitEnvelope _ ho.1 fun row' hr' => by simpa [hr'] using ho.2
    · cases h
  | dropClaim | importRetired | setWriterFloor =>
    cases h
    exact { OwnKept.refl db with }
  | dropEnvelope id =>
    simp only [apply] at h
    split at h
    · rename_i ht
      cases h
      exact ownKept_dropEnvelope (isSome_iff_ne_none.mp ht)
    · cases h
  | withdraw keep =>
    cases h
    refine { OwnKept.refl db with tombstones := fun e hg hn => hg ?_ }
    rw [get?_deleteWhere, hn]
    rfl

/-! ## The invariant -/

structure Respects (node : Node) (dated : EnvelopeId → Nat) (s : Dated) : Prop where
  sorted : s.written.Pairwise fun w w' => w.sequence < w'.sequence ∧ w.acceptedAt ≤ w'.acceptedAt
  below : ∀ w ∈ s.written, w.sequence ≤ highest node s.db
  kept : ∀ w ∈ s.written, w.acceptedAt ≤ cutFloor s ∨ ∃ id row, s.db.batches.get? id = some row ∧
    row.origin = node.origin ∧ row.replicaSequence = w.sequence ∧ row.acceptedAt = w.acceptedAt
  own : ∀ id row, s.db.batches.get? id = some row → row.origin = node.origin →
    ∃ w ∈ s.written, w.sequence = row.replicaSequence ∧ w.acceptedAt = row.acceptedAt
  linked : Linked s.db
  headed : ∀ envelope id row, s.db.envelopes.get? envelope = some (some id) →
    s.db.batches.get? id = some row → row.origin = node.origin → dated envelope = row.acceptedAt
  tombstones : ∀ envelope, s.db.checkpointEnvelopes.get? envelope ≠ none →
    dated envelope < cutFloor s
  recorded : ∀ cut ∈ s.recorded, cut ≤ cutFloor s
  dates : ∀ w ∈ s.written, ∀ cut ∈ w.recorded, cut ≤ w.acceptedAt

variable {s : Dated}

theorem respects_initial : Respects node dated {} := by
  constructor <;> simp [Linked, Table.get?]

theorem acceptedAt_le_of_sorted {written : List Written}
    (h : written.Pairwise fun w w' => w.sequence < w'.sequence ∧ w.acceptedAt ≤ w'.acceptedAt)
    {w w' : Written} (hw : w ∈ written) (hw' : w' ∈ written) (hl : w.sequence ≤ w'.sequence) :
    w.acceptedAt ≤ w'.acceptedAt := by
  induction written with
  | nil => cases hw
  | cons first rest ih =>
    obtain ⟨hf, hr⟩ := pairwise_cons.mp h
    rcases mem_cons.mp hw with rfl | hm <;> rcases mem_cons.mp hw' with rfl | hm'
    · exact Nat.le_refl _
    · exact (hf w' hm').2
    · exact absurd (hf w hm).1 (Nat.not_lt.mpr hl)
    · exact ih hr hm hm'

theorem cut_le_cutFloor {id : String} {row : Nat × CheckpointState}
    (h : s.checkpoints.get? id = some row) :
    row.1 ≤ cutFloor s :=
  le_maxSequence (List.mem_map.mpr ⟨(id, row), mem_rows.mpr h, rfl⟩)

section
variable (h : Respects node dated s)
include h

/-- No local batch was dated after what the next one gets. -/
theorem Respects.le_writeTime {w : Written} (hw : w ∈ s.written) (clock : Int) :
    w.acceptedAt ≤ writeTime node s clock := by
  unfold writeTime
  rcases h.kept w hw with hle | ⟨id, row, hg, ho, hs, -⟩
  · omega
  · obtain ⟨hf, hm⟩ := newestBatch_spec s.db node.origin
    obtain ⟨newest, hn, hl⟩ := hm id row hg ho
    obtain ⟨id', hg', ho'⟩ := hf newest hn
    obtain ⟨w', hw', hs', hd'⟩ := h.own id' newest hg' ho'
    have := acceptedAt_le_of_sorted h.sorted hw hw' (by omega)
    rw [hn, map_some, getD_some]
    omega

theorem Respects.write {claim : String} {clock : Int}
    (ha : apply node s.db (.append claim (writeTime node s clock)) = some db') :
    Respects node dated { s with
      db := db', written :=
        s.written ++ [⟨nextReplicaSequence node s.db, writeTime node s clock, s.recorded⟩] } := by
  have hcovers := (apply_covers ha).1.highest_le
  simp only [apply] at ha
  split at ha
  · cases ha
  · rename_i hc
    simp only [Bool.or_eq_true, not_or, not_isSome_iff_eq_none] at hc
    cases ha
    have hnew : (insertBatch s.db (newBatch node s.db (writeTime node s clock)).1
        (newBatch node s.db (writeTime node s clock)).2).batches.get?
          (newBatch node s.db (writeTime node s clock)).1 =
          some (newBatch node s.db (writeTime node s clock)).2 := by
      simp [insertBatch, hc.1, get?_insert]
    constructor
    case sorted =>
      refine pairwise_append.mpr ⟨h.sorted, pairwise_singleton _ _, fun w hw w' hw' => ?_⟩
      rw [mem_singleton.mp hw']
      exact ⟨Nat.lt_succ_of_le (h.below w hw), h.le_writeTime hw clock⟩
    case below =>
      intro w hw
      rcases mem_append.mp hw with hw | hw
      · exact (h.below w hw).trans hcovers
      · rw [mem_singleton.mp hw]
        exact batch_le_highest hnew rfl
    case kept =>
      intro w hw
      rcases mem_append.mp hw with hw | hw
      · refine (h.kept w hw).imp_right ?_
        rintro ⟨id, row, hget, hrow⟩
        exact ⟨id, row, get?_insertBatch_of_some hget, hrow⟩
      · rw [mem_singleton.mp hw]
        exact .inr ⟨_, _, hnew, rfl, rfl, rfl⟩
    case own =>
      intro id row hget ho
      rcases of_get?_insertBatch hget with hget | ⟨_, rfl⟩
      · obtain ⟨w, hw, hdate⟩ := h.own id row hget ho
        exact ⟨w, mem_append_left _ hw, hdate⟩
      · exact ⟨_, mem_append_right _ mem_cons_self, rfl, rfl⟩
    case linked =>
      intro e id hget
      rw [insertBatch_envelopes] at hget
      obtain ⟨row, hrow⟩ := ne_none_iff_exists'.mp (h.linked e id hget)
      exact (get?_insertBatch_of_some hrow) ▸ some_ne_none _
    case headed =>
      intro e id row hget hrow ho
      rw [insertBatch_envelopes] at hget
      rcases of_get?_insertBatch hrow with hrow | ⟨rfl, _⟩
      · exact h.headed e id row hget hrow ho
      · exact absurd hc.1 (h.linked e _ hget)
    case tombstones =>
      intro e hget
      rw [insertBatch_checkpointEnvelopes] at hget
      exact h.tombstones e hget
    case recorded => exact h.recorded
    case dates =>
      intro w hw cut hcut
      rcases mem_append.mp hw with hw | hw
      · exact h.dates w hw cut hcut
      · rw [mem_singleton.mp hw] at hcut ⊢
        have hfloor := h.recorded cut hcut
        have : cutFloor s ≤ writeTime node s clock := by unfold writeTime; omega
        exact hfloor.trans this

theorem Respects.other (hwrite : otherWrite node dated s.db label = true)
    (ha : apply node s.db label = some db') : Respects node dated { s with db := db' } := by
  have hcovers := (apply_covers ha).1.highest_le
  have howned := apply_ownKept hwrite ha
  refine { h with
    below := fun w hw => (h.below w hw).trans hcovers
    kept := ?_
    own := fun id row hget ho => h.own id row (howned.old id row hget ho) ho
    linked := howned.linked h.linked
    headed := ?_
    tombstones := fun e hget => h.tombstones e (howned.tombstones e hget) }
  · intro w hw
    rcases h.kept w hw with hf | ⟨id, row, hget, ho, hsequence, hd⟩
    · exact .inl hf
    · rcases howned.kept id row hget ho with hget' | ⟨e, hcarries, htombstone⟩
      · exact .inr ⟨id, row, hget', ho, hsequence, hd⟩
      · -- the batch is gone, and its date is below a recorded cut
        have hlt := h.tombstones e htombstone
        have heq := h.headed e id row hcarries hget ho
        exact .inl (show w.acceptedAt ≤ cutFloor s by omega)
  · intro e id row hget hrow ho
    rcases howned.headed e id row hget hrow ho with hget | hd
    · exact h.headed e id row hget (howned.old id row hrow ho) ho
    · exact hd

theorem Respects.checkpoints {checkpoints : Table String (Nat × CheckpointState)}
    {recorded : List Nat} (hf : cutFloor s ≤ cutFloor { s with checkpoints := checkpoints })
    (hr : ∀ cut ∈ recorded, cut ∈ s.recorded ∨
      cut ≤ cutFloor { s with checkpoints := checkpoints }) :
    Respects node dated { s with checkpoints := checkpoints, recorded := recorded } :=
  { h with
    kept := fun w hw => (h.kept w hw).imp_left fun hl => hl.trans hf
    tombstones := fun e hg => Nat.lt_of_lt_of_le (h.tombstones e hg) hf
    recorded :=
      fun cut hc => (hr cut hc).elim (fun hold => (h.recorded cut hold).trans hf) fun hl => hl }

end

theorem cutFloor_le {n : Nat} :
    cutFloor s ≤ n ↔ ∀ id row, s.checkpoints.get? id = some row → row.1 ≤ n := by
  rw [cutFloor, maxSequence_le]
  constructor
  · intro h id row hg
    exact h _ (List.mem_map.mpr ⟨(id, row), mem_rows.mpr hg, rfl⟩)
  · intro h q hq
    obtain ⟨r, hr, rfl⟩ := List.mem_map.mp hq
    exact h r.1 r.2 (mem_rows.mp hr)

theorem cutFloor_update (c : String) (state : CheckpointState) :
    cutFloor s ≤ cutFloor { s with
      checkpoints := s.checkpoints.update c fun row => (row.1, state) } := by
  rw [cutFloor_le]
  intro id row hg
  have hu : ∃ row', (s.checkpoints.update c fun row => (row.1, state)).get? id = some row' ∧
      row'.1 = row.1 := by
    rw [get?_update]
    split
    · rename_i hi
      exact ⟨(row.1, state), by rw [← hi, hg, map_some], rfl⟩
    · exact ⟨row, hg, rfl⟩
  obtain ⟨row', hg', heq⟩ := hu
  exact heq ▸ cut_le_cutFloor (s := { s with checkpoints := _ }) hg'

theorem cutFloor_insert (c : String) (row : Nat × CheckpointState) :
    cutFloor s ≤ cutFloor { s with checkpoints := s.checkpoints.insert c row } := by
  rw [cutFloor_le]
  intro id old hg
  have hi : (s.checkpoints.insert c row).get? id = some old := by
    rw [get?_insert]
    split
    · rename_i heq
      rw [← heq, hg, getD_some]
    · exact hg
  exact cut_le_cutFloor (s := { s with checkpoints := _ }) hi

section
variable (h : Respects node dated s)
include h

theorem Respects.setState (c : String) (state : CheckpointState) : Respects node dated
      { s with checkpoints := s.checkpoints.update c fun row => (row.1, state) } :=
  h.checkpoints (cutFloor_update c state) fun _ hc => .inl hc

theorem Respects.record {checkpoint : String} {cut : Nat} {state : CheckpointState}
    (hc : cutHeld s (.record checkpoint cut state) = true) : Respects node dated { s with
      checkpoints :=
        (s.checkpoints.update checkpoint fun row => (row.1, state)).insert checkpoint (cut, state)
      recorded := cut :: s.recorded } := by
  have hf := (cutFloor_update (s := s) checkpoint state).trans (cutFloor_insert (s := { s with
    checkpoints :=
      s.checkpoints.update checkpoint fun row => (row.1, state) }) checkpoint (cut, state))
  refine h.checkpoints hf fun c hm => ?_
  rcases mem_cons.mp hm with rfl | hm
  · right
    simp only [cutHeld, Bool.or_eq_true, isNone_iff_eq_none, decide_eq_true_eq] at hc
    rcases hc with hn | hl
    · have hi :
          ((s.checkpoints.update checkpoint fun row => (row.1, state)).insert checkpoint
            (c, state)).get?
          checkpoint = some (c, state) := by simp [get?_insert, get?_update, hn]
      exact cut_le_cutFloor (s := { s with checkpoints := _ }) hi
    · exact hl.trans hf
  · exact .inl hm

theorem Respects.tombstone {cut : Nat} {id : EnvelopeId} (hr : cut ∈ s.recorded)
    (hd : dated id < cut) (ha : apply node s.db (.recordTombstone id) = some db') :
    Respects node dated { s with db := db' } := by
  have hv := (apply_covers ha).1.highest_le
  cases ha
  refine { h with below := fun w hw => (h.below w hw).trans hv, tombstones := ?_ }
  intro e hg
  rcases get?_insert_ne_none.mp hg with hg | rfl
  · exact h.tombstones e hg
  · exact Nat.lt_of_lt_of_le hd (h.recorded cut hr)

end

theorem datedMachine_keeps :
    ((datedMachine node dated).restrict cutHeld).Keeps (fun _ => True) (Respects node dated) := by
  intro s label s' _ h hs
  obtain ⟨hc, hs⟩ := Machine.step_of_restrict hs
  cases label with
  | write claim clock =>
    obtain ⟨db, ha, rfl⟩ := map_eq_some_iff.mp hs
    exact h.write ha
  | other label =>
    obtain ⟨ho, hs⟩ := ite_none_right_eq_some.mp hs
    obtain ⟨db, ha, rfl⟩ := map_eq_some_iff.mp hs
    exact h.other ho ha
  | record checkpoint cut state =>
    cases hs
    exact h.record hc
  | setState c state =>
    obtain ⟨_, hs⟩ := ite_none_right_eq_some.mp hs
    cases hs
    exact h.setState c state
  | tombstone cut id =>
    obtain ⟨⟨hr, hd⟩, hs⟩ := ite_none_right_eq_some.mp hs
    obtain ⟨db, ha, rfl⟩ := map_eq_some_iff.mp hs
    exact h.tombstone hr hd ha
  | restart =>
    cases hs
    exact h

/-- Where no row is recorded again with a cut above those of the rows, the dates of local batches
do not decrease in sequence order, later batches have higher sequences, and a batch is dated at or
after every cut recorded before it. -/
theorem write_times_respect_cuts {labels : List DatedLabel}
    (hrun : ((datedMachine node dated).restrict cutHeld).run {} labels = some s) :
    (∀ w ∈ s.written, ∀ w' ∈ s.written, w.sequence ≤ w'.sequence → w.acceptedAt ≤ w'.acceptedAt) ∧
    (s.written.map (·.sequence)).Pairwise (· < ·) ∧
    ∀ w ∈ s.written, ∀ cut ∈ w.recorded, cut ≤ w.acceptedAt := by
  have h := datedMachine_keeps.run (fun _ _ => trivial) respects_initial hrun
  refine ⟨fun w hw w' hw' hl => acceptedAt_le_of_sorted h.sorted hw hw' hl, ?_, h.dates⟩
  exact pairwise_map.mpr (h.sorted.imp fun hp => hp.1)

end

/-- A batch of the second day, deleted by the trim of a cut on that day. The clock then steps
back. -/
def sampleDated (sealedCut trimmedCut : Nat) : List DatedLabel :=
  [.write "first" (DAY_MS + 500), .other (.sealBatch "batch/oak/1/header" "one"),
    .record "checkpoint/1970-01-02" sealedCut .sealed,
    .record "checkpoint/1970-01-02" trimmedCut .trimming,
    .tombstone trimmedCut ⟨"oak", 1, "one"⟩, .other (.dropClaim "first"),
    .other (.dropEnvelope ⟨"oak", 1, "one"⟩), .setState "checkpoint/1970-01-02" .trimmed, .restart,
    .write "later" (-3)]

theorem sampleDated_respects :
    ∃ s, ((datedMachine sampleNode fun _ => DAY_MS + 500).restrict cutHeld).run {}
        (sampleDated (DAY_MS + 1000) (DAY_MS + 1000)) = some s ∧
      s.written.map (fun w => (w.sequence, w.acceptedAt)) =
        [(1, DAY_MS + 500), (2, DAY_MS + 1000)] ∧
      ∀ w ∈ s.written, ∀ cut ∈ w.recorded, cut ≤ w.acceptedAt := by
  have hr : (((datedMachine sampleNode fun _ => DAY_MS + 500).restrict cutHeld).run {}
      (sampleDated (DAY_MS + 1000) (DAY_MS + 1000))).map
        (fun s => s.written.map fun w => (w.sequence, w.acceptedAt)) =
      some [(1, DAY_MS + 500), (2, DAY_MS + 1000)] := by
    decide +kernel
  obtain ⟨s, hs, hw⟩ := map_eq_some_iff.mp hr
  exact ⟨s, hs, hw, (write_times_respect_cuts hs).2.2⟩

theorem later_cut_forgotten :
    ((datedMachine sampleNode fun _ => DAY_MS + 500).run {}
      (sampleDated DAY_MS (DAY_MS + 1000))).map
        (fun s => s.written.map fun w => (w.sequence, w.acceptedAt, w.recorded)) =
      some [(1, DAY_MS + 500, []), (2, DAY_MS, [DAY_MS + 1000, DAY_MS])] := by
  decide +kernel

end Smalltalk.Sequences
