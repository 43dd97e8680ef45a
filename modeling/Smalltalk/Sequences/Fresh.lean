import Smalltalk.Sequences.Tables

/-!
# Fresh sequences

What the store ever held of its own writer stays below the next sequence, but for envelopes
in `replica_envelopes`, which the allocation does not read.
-/

namespace Smalltalk.Sequences

open List Table
open Option hiding or_assoc

variable {node : Node} {db db' : Db}

/-! ## The highest sequence -/

theorem maxSequence_le {sequences : List Nat} {n : Nat} :
    maxSequence sequences ≤ n ↔ ∀ q ∈ sequences, q ≤ n := by
  induction sequences with
  | nil => simp [maxSequence]
  | cons q rest ih =>
    have hc : maxSequence (q :: rest) = max q (maxSequence rest) := rfl
    rw [hc, max_le_iff, ih]
    simp

variable {q : Nat} {writer : String}

theorem le_maxSequence {sequences : List Nat} (h : q ∈ sequences) : q ≤ maxSequence sequences :=
  maxSequence_le.mp (Nat.le_refl _) q h

theorem mem_batchSequences : q ∈ batchSequences db writer ↔
    ∃ id row, db.batches.get? id = some row ∧ row.origin = writer ∧ row.replicaSequence = q := by
  simp only [batchSequences, List.mem_map, mem_filter, decide_eq_true_eq]
  constructor
  · rintro ⟨r, ⟨hr, ho⟩, hq⟩
    exact ⟨r.1, r.2, mem_rows.mp hr, ho, hq⟩
  · rintro ⟨id, row, hg, ho, hq⟩
    exact ⟨(id, row), ⟨mem_rows.mpr hg, ho⟩, hq⟩

theorem mem_sequencesOf {ρ : Type} {envelopes : Table EnvelopeId ρ} :
    q ∈ sequencesOf envelopes writer ↔ ∃ id, envelopes.get? id ≠ none ∧ id.writer = writer ∧
    id.sequence = q := by
  simp only [sequencesOf, List.mem_map, mem_filter, decide_eq_true_eq]
  constructor
  · rintro ⟨r, ⟨hr, hw⟩, hq⟩
    exact ⟨r.1, by simp [mem_rows.mp hr], hw, hq⟩
  · rintro ⟨id, hg, hw, hq⟩
    obtain ⟨row, hg⟩ := Option.ne_none_iff_exists'.mp hg
    exact ⟨(id, row), ⟨mem_rows.mpr hg, hw⟩, hq⟩

def headSequence (heads : Table String (Nat × String)) (writer : String) : Nat :=
  ((heads.get? writer).map (·.1)).getD 0

theorem highest_le {n : Nat} : highest node db ≤ n ↔
    (∀ q ∈ batchSequences db node.origin, q ≤ n) ∧ headSequence db.writerHeads node.origin ≤ n ∧
      (∀ q ∈ sequencesOf db.checkpointEnvelopes node.origin, q ≤ n) ∧
      (∀ q ∈ sequencesOf db.retiredEnvelopes node.origin, q ≤ n) ∧ db.writerFloor.getD 0 ≤ n := by
  simp only [highest, maxSequence_le, mem_cons, not_mem_nil, or_false, forall_eq_or_imp, forall_eq,
    headSequence]

theorem batch_le_highest {id : String} {row : BatchRow} (hg : db.batches.get? id = some row)
    (ho : row.origin = node.origin) : row.replicaSequence ≤ highest node db :=
  (highest_le.mp (Nat.le_refl _)).1 _ (mem_batchSequences.mpr ⟨id, row, hg, ho, rfl⟩)

theorem head_le_highest : headSequence db.writerHeads node.origin ≤ highest node db :=
  (highest_le.mp (Nat.le_refl _)).2.1

theorem tombstone_le_highest {id : EnvelopeId} (hg : db.checkpointEnvelopes.get? id ≠ none)
    (hw : id.writer = node.origin) : id.sequence ≤ highest node db :=
  (highest_le.mp (Nat.le_refl _)).2.2.1 _ (mem_sequencesOf.mpr ⟨id, hg, hw, rfl⟩)

theorem retired_le_highest {id : EnvelopeId} (hg : db.retiredEnvelopes.get? id ≠ none)
    (hw : id.writer = node.origin) : id.sequence ≤ highest node db :=
  (highest_le.mp (Nat.le_refl _)).2.2.2.1 _ (mem_sequencesOf.mpr ⟨id, hg, hw, rfl⟩)

theorem floor_le_highest : db.writerFloor.getD 0 ≤ highest node db :=
  (highest_le.mp (Nat.le_refl _)).2.2.2.2

section
variable (heads : Table String (Nat × String))
include heads

theorem headSequence_raiseHead (row : BatchRow) (writer : String) :
    headSequence (raiseHead heads row) writer =
      if writer = row.origin then max (headSequence heads writer) row.replicaSequence
      else headSequence heads writer := by
  unfold raiseHead
  split
  · rename_i hn
    unfold headSequence
    rw [get?_insert]
    by_cases hw : writer = row.origin
    · subst hw
      simp [hn]
    · simp [hw]
  · rename_i head hh
    split
    · rename_i hl
      unfold headSequence
      rw [get?_update]
      by_cases hw : writer = row.origin
      · subst hw
        simp only [hh, map_some, getD_some, if_true]
        omega
      · simp [hw]
    · rename_i hle
      by_cases hw : writer = row.origin
      · subst hw
        simp only [headSequence, hh, map_some, getD_some, if_true]
        omega
      · simp [hw]

theorem le_headSequence_raiseHead (row : BatchRow) (writer : String) :
    headSequence heads writer ≤ headSequence (raiseHead heads row) writer := by
  rw [headSequence_raiseHead]
  split <;> omega

theorem row_le_headSequence (row : BatchRow) :
    row.replicaSequence ≤ headSequence (raiseHead heads row) row.origin := by
  rw [headSequence_raiseHead, if_pos rfl]
  omega

end

/-! ## What a step keeps -/

structure Covers (node : Node) (db db' : Db) : Prop where
  batches : ∀ id row, db.batches.get? id = some row → row.origin = node.origin →
    db'.batches.get? id = some row ∨ row.replicaSequence ≤ headSequence db'.writerHeads node.origin
  heads : headSequence db.writerHeads node.origin ≤ headSequence db'.writerHeads node.origin
  tombstones : ∀ id, db.checkpointEnvelopes.get? id ≠ none →
    db'.checkpointEnvelopes.get? id ≠ none ∨ db'.retiredEnvelopes.get? id ≠ none
  retired : ∀ id, db.retiredEnvelopes.get? id ≠ none → db'.retiredEnvelopes.get? id ≠ none
  floor : db.writerFloor.getD 0 ≤ db'.writerFloor.getD 0

theorem Covers.highest_le (h : Covers node db db') : highest node db ≤ highest node db' := by
  rw [Sequences.highest_le]
  refine ⟨fun q hq => ?_, h.heads.trans head_le_highest, fun q hq => ?_, fun q hq => ?_,
    h.floor.trans floor_le_highest⟩
  · obtain ⟨id, row, hg, ho, rfl⟩ := mem_batchSequences.mp hq
    rcases h.batches id row hg ho with hg' | hh
    · exact batch_le_highest hg' ho
    · exact hh.trans head_le_highest
  · obtain ⟨id, hg, hw, rfl⟩ := mem_sequencesOf.mp hq
    rcases h.tombstones id hg with hg' | hg'
    · exact tombstone_le_highest hg' hw
    · exact retired_le_highest hg' hw
  · obtain ⟨id, hg, hw, rfl⟩ := mem_sequencesOf.mp hq
    exact retired_le_highest (h.retired id hg) hw

theorem Covers.refl (node : Node) (db : Db) : Covers node db db where
  batches _ _ hg _ := .inl hg
  heads := Nat.le_refl _
  tombstones _ hg := .inl hg
  retired _ hg := hg
  floor := Nat.le_refl _

theorem covers_insertBatch (id : String) (row : BatchRow) :
    Covers node db (insertBatch db id row) := by
  unfold insertBatch
  split
  · exact .refl node db
  · rename_i hn
    refine { Covers.refl node db with
      batches := fun id' row' hg _ => .inl ?_
      heads := le_headSequence_raiseHead _ _ _ }
    have hne : id' ≠ id := by
      rintro rfl
      rw [hn] at hg
      cases hg
    rw [get?_insert, if_neg hne, hg]

theorem covers_deleteBatch (id : String) : Covers node db (deleteBatch db id) := by
  unfold deleteBatch
  split
  · exact .refl node db
  · rename_i row hr
    refine { Covers.refl node db with
      batches := fun id' row' hg ho => ?_
      heads := le_headSequence_raiseHead _ _ _ }
    by_cases heq : id' = id
    · subst heq
      cases hr.symm.trans hg
      exact .inr (ho ▸ row_le_headSequence _ _)
    · left
      rw [get?_delete, if_neg heq, hg]

theorem covers_deleteEmptyBatch (db : Db) (batch : Option String) :
    Covers node db (deleteEmptyBatch db batch) := by
  unfold deleteEmptyBatch
  split
  · exact .refl node db
  · split
    · exact .refl node db
    · exact covers_deleteBatch _

@[simp]
theorem insertBatch_envelopes (id : String) (row : BatchRow) :
    (insertBatch db id row).envelopes = db.envelopes := by
  unfold insertBatch
  split <;> rfl

@[simp]
theorem deleteEmptyBatch_envelopes (batch : Option String) :
    (deleteEmptyBatch db batch).envelopes = db.envelopes := by
  unfold deleteEmptyBatch deleteBatch
  repeat' split
  all_goals rfl

@[simp]
theorem insertBatch_checkpointEnvelopes (id : String) (row : BatchRow) :
    (insertBatch db id row).checkpointEnvelopes = db.checkpointEnvelopes := by
  unfold insertBatch
  split <;> rfl

@[simp]
theorem deleteEmptyBatch_checkpointEnvelopes (batch : Option String) :
    (deleteEmptyBatch db batch).checkpointEnvelopes = db.checkpointEnvelopes := by
  unfold deleteEmptyBatch deleteBatch
  repeat' split
  all_goals rfl

section
variable {κ ρ : Type} [DecidableEq κ] {t : Table κ ρ} {rows : List (κ × ρ)}

theorem get?_insertAll_ne_none {k : κ} (h : t.get? k ≠ none) :
    (t.insertAll rows).get? k ≠ none := by
  rw [get?_insertAll, ne_eq, or_eq_none_iff]
  exact fun hn => h hn.1

theorem get?_insertAll_mem {r : κ × ρ} (h : r ∈ rows) : (t.insertAll rows).get? r.1 ≠ none := by
  rw [get?_insertAll, ne_eq, or_eq_none_iff, map_eq_none_iff, find?_eq_none]
  intro hn
  have := hn.2 r h
  simp at this

end

variable {label : Label} {id : EnvelopeId} {row : BatchRow}

/-- A step loses sight of nothing, and drops an envelope only under its tombstone. -/
theorem apply_covers (h : apply node db label = some db') : Covers node db db' ∧
    ∀ id, db.envelopes.get? id ≠ none → db'.envelopes.get? id ≠ none ∨
    db'.checkpointEnvelopes.get? id ≠ none := by
  cases label with
  | append claim now =>
    simp only [apply] at h
    split at h
    · cases h
    · cases h
      exact ⟨{ covers_insertBatch (newBatch node db now).1 (newBatch node db now).2 with },
        fun id hg => .inl (by simpa using hg)⟩
  | force claim batch =>
    simp only [apply] at h
    split at h
    · cases h
      exact ⟨{ Covers.refl node db with }, fun id hg => .inl hg⟩
    · cases h
  | sealBatch batch hash =>
    simp only [apply] at h
    split at h
    · cases h
    · split at h
      · cases h
      · cases h
        exact ⟨{ Covers.refl node db with }, fun id hg => .inl (get?_insert_ne_none.mpr (.inl hg))⟩
  | receive id =>
    simp only [apply] at h
    split at h
    · cases h
      exact ⟨.refl node _, fun id hg => .inl hg⟩
    · cases h
      exact ⟨{ Covers.refl node db with }, fun id hg => .inl (get?_insert_ne_none.mpr (.inl hg))⟩
  | admitEnvelope id batch row claims =>
    simp only [apply] at h
    split at h
    · cases h
      exact ⟨{ covers_insertBatch batch row with },
        fun id hg => .inl (get?_update_ne_none.mpr (by simpa using hg))⟩
    · cases h
  | recordTombstone id =>
    cases h
    refine ⟨{ Covers.refl node db with
        tombstones := fun id' hg => .inl ?_
        retired := fun id' hg => ?_ }, fun id hg => .inl hg⟩
    · exact get?_insert_ne_none.mpr (.inl hg)
    · exact get?_insert_ne_none.mpr (.inl hg)
  | dropClaim claim =>
    cases h
    exact ⟨{ Covers.refl node db with }, fun id hg => .inl hg⟩
  | dropEnvelope id =>
    simp only [apply] at h
    split at h
    · rename_i ht
      cases h
      refine ⟨{ covers_deleteEmptyBatch { db with envelopes := db.envelopes.delete id }
        ((db.envelopes.get? id).getD none) with }, fun id' hg => ?_⟩
      rw [deleteEmptyBatch_envelopes, deleteEmptyBatch_checkpointEnvelopes, get?_delete]
      by_cases heq : id' = id
      · subst heq
        exact .inr (isSome_iff_ne_none.mp ht)
      · rw [if_neg heq]
        exact .inl hg
    · cases h
  | withdraw keep =>
    cases h
    refine ⟨{ Covers.refl node db with
        tombstones := fun id hg => ?_
        retired := fun id hg => get?_insertAll_ne_none hg },
      fun id hg => .inl hg⟩
    by_cases hk : id ∈ keep
    · left
      rw [get?_deleteWhere]
      obtain ⟨row, hr⟩ := ne_none_iff_exists'.mp hg
      simp [hr, hk]
    · right
      obtain ⟨row, hr⟩ := ne_none_iff_exists'.mp hg
      exact get?_insertAll_mem (mem_filter.mpr ⟨mem_rows.mpr hr, by simpa using hk⟩)
  | importRetired ids =>
    cases h
    refine ⟨{ Covers.refl node db with
        tombstones := fun id hg => .inl hg
        retired := fun id hg => ?_ },
      fun id hg => .inl hg⟩
    exact get?_insertAll_ne_none hg
  | setWriterFloor floor =>
    cases h
    exact ⟨{ Covers.refl node db with floor := by simp }, fun id hg => .inl hg⟩

/-! ## What was held stays below the next sequence or in an envelope -/

theorem mem_ownSequences {q : Nat} : q ∈ ownSequences node db ↔
    (∃ id row, db.batches.get? id = some row ∧ row.origin = node.origin ∧ row.replicaSequence = q) ∨
    (∃ id, db.envelopes.get? id ≠ none ∧ id.writer = node.origin ∧ id.sequence = q) ∨
    ∃ id, db.checkpointEnvelopes.get? id ≠ none ∧ id.writer = node.origin ∧ id.sequence = q := by
  simp only [ownSequences, mem_append, mem_batchSequences, mem_sequencesOf, or_assoc]

def Bounded (node : Node) (h : History) : Prop :=
  ∀ q ∈ h.held, q ≤ highest node h.db ∨ ∃ id, h.db.envelopes.get? id ≠ none ∧
  id.writer = node.origin ∧ id.sequence = q

theorem bounded_ownSequences {q : Nat} (hq : q ∈ ownSequences node db) :
    q ≤ highest node db ∨ ∃ id, db.envelopes.get? id ≠ none ∧ id.writer = node.origin ∧
    id.sequence = q := by
  rcases mem_ownSequences.mp hq with ⟨id, row, hg, ho, rfl⟩ | he | ⟨id, hg, hw, rfl⟩
  · exact .inl (batch_le_highest hg ho)
  · exact .inr he
  · exact .inl (tombstone_le_highest hg hw)

theorem bounded_begin (db : Db) : Bounded node (begin node db) :=
  fun _ hq => bounded_ownSequences hq

theorem machine_keeps_bounded : (machine node).Keeps (fun _ => True) (Bounded node) := by
  intro h label h' _ hh hs
  obtain ⟨db, ha, rfl⟩ := map_eq_some_iff.mp hs
  obtain ⟨hc, hk⟩ := apply_covers ha
  intro q hq
  rcases mem_append.mp hq with hq | hq
  · rcases hh q hq with hl | ⟨id, hg, hw, rfl⟩
    · exact .inl (hl.trans hc.highest_le)
    · rcases hk id hg with hg' | hg'
      · exact .inr ⟨id, hg', hw, rfl⟩
      · exact .inl (tombstone_le_highest hg' hw)
  · exact bounded_ownSequences hq

theorem mem_ownEnvelopes : id ∈ ownEnvelopes node db ↔
    (db.envelopes.get? id ≠ none ∨ db.checkpointEnvelopes.get? id ≠ none) ∧
    id.writer = node.origin := by
  have hk : ∀ {ρ : Type} (t : Table EnvelopeId ρ), id ∈ t.rows.map (·.1) ↔ t.get? id ≠ none := by
    intro ρ t
    rw [ne_none_iff_exists', List.mem_map]
    constructor
    · rintro ⟨r, hr, rfl⟩
      exact ⟨r.2, mem_rows.mp hr⟩
    · rintro ⟨row, hw⟩
      exact ⟨(id, row), mem_rows.mpr hw, rfl⟩
  simp only [ownEnvelopes, mem_filter, mem_append, hk, decide_eq_true_eq]

theorem mem_sealedBatches {batch : String} :
    batch ∈ sealedBatches db ↔ ∃ id, db.envelopes.get? id = some (some batch) := by
  simp only [sealedBatches, mem_filterMap]
  constructor
  · rintro ⟨r, hr, hb⟩
    exact ⟨r.1, by rw [mem_rows.mp hr, hb]⟩
  · rintro ⟨id, hg⟩
    exact ⟨(id, some batch), mem_rows.mpr hg, rfl⟩

structure Current (node : Node) (h : History) : Prop where
  held : ∀ q ∈ ownSequences node h.db, q ∈ h.held
  made : ∀ id ∈ ownEnvelopes node h.db, id ∈ h.made
  carried : ∀ batch ∈ sealedBatches h.db, batch ∈ h.carriedEver
  sequences : ∀ id ∈ h.made, id.writer = node.origin ∧ id.sequence ∈ h.held

theorem ownEnvelopes_sequence (h : id ∈ ownEnvelopes node db) :
    id.writer = node.origin ∧ id.sequence ∈ ownSequences node db := by
  obtain ⟨hg, hw⟩ := mem_ownEnvelopes.mp h
  refine ⟨hw, mem_ownSequences.mpr (.inr ?_)⟩
  rcases hg with hg | hg
  · exact .inl ⟨id, hg, hw, rfl⟩
  · exact .inr ⟨id, hg, hw, rfl⟩

theorem current_next (h : History) (db : Db)
    (hs : ∀ id ∈ h.made, id.writer = node.origin ∧ id.sequence ∈ h.held) :
    Current node (h.next node db) where
  held _ hq := mem_append_right _ hq
  made _ hi := mem_append_right _ hi
  carried _ hb := mem_append_right _ hb
  sequences id hi := by
    rcases mem_append.mp hi with hi | hi
    · exact ⟨(hs id hi).1, mem_append_left _ (hs id hi).2⟩
    · exact ⟨(ownEnvelopes_sequence hi).1, mem_append_right _ (ownEnvelopes_sequence hi).2⟩

theorem machine_keeps_current : (machine node).Keeps (fun _ => True) (Current node) := by
  intro h label h' _ hh hs
  obtain ⟨db, -, rfl⟩ := map_eq_some_iff.mp hs
  exact current_next h db hh.sequences

/-! ## What a step brings -/

/-- The envelopes of a step: those from before, one received, one that a tombstone names, or one
made of a batch. -/
theorem apply_envelopes (h : apply node db label = some db')
    (hi : db'.envelopes.get? id ≠ none ∨ db'.checkpointEnvelopes.get? id ≠ none) :
    (db.envelopes.get? id ≠ none ∨ db.checkpointEnvelopes.get? id ≠ none) ∨ label = .receive id ∨
      label = .recordTombstone id ∨ ∃ batch hash row, label = .sealBatch batch hash ∧
        db.batches.get? batch = some row ∧ id = ⟨row.origin, row.replicaSequence, hash⟩ := by
  cases label with
  | append claim now =>
    simp only [apply] at h
    split at h
    · cases h
    · cases h
      exact .inl (by simpa using hi)
  | force claim batch =>
    simp only [apply] at h
    split at h
    · cases h
      exact .inl hi
    · cases h
  | sealBatch batch hash =>
    simp only [apply] at h
    split at h
    · cases h
    · rename_i row hr
      split at h
      · cases h
      · cases h
        rcases hi with hi | hi
        · rcases get?_insert_ne_none.mp hi with hi | rfl
          · exact .inl (.inl hi)
          · exact .inr (.inr (.inr ⟨batch, hash, row, rfl, hr, rfl⟩))
        · exact .inl (.inr hi)
  | receive r =>
    simp only [apply] at h
    split at h
    · cases h
      exact .inl hi
    · cases h
      rcases hi with hi | hi
      · rcases get?_insert_ne_none.mp hi with hi | rfl
        · exact .inl (.inl hi)
        · exact .inr (.inl rfl)
      · exact .inl (.inr hi)
  | admitEnvelope other batch row claims =>
    simp only [apply] at h
    split at h
    · cases h
      refine .inl (hi.imp (fun hi => ?_) fun hi => ?_)
      · simpa using get?_update_ne_none.mp hi
      · simpa using hi
    · cases h
  | recordTombstone other =>
    cases h
    rcases hi with hi | hi
    · exact .inl (.inl hi)
    · rcases get?_insert_ne_none.mp hi with hi | rfl
      · exact .inl (.inr hi)
      · exact .inr (.inr (.inl rfl))
  | dropClaim | importRetired | setWriterFloor =>
    cases h
    exact .inl hi
  | dropEnvelope other =>
    simp only [apply] at h
    split at h
    · cases h
      refine .inl (hi.imp (fun hi => ?_) fun hi => ?_)
      · rw [deleteEmptyBatch_envelopes] at hi
        obtain ⟨row, hr⟩ := ne_none_iff_exists'.mp hi
        simp [of_get?_delete hr]
      · simpa using hi
    · cases h
  | withdraw keep =>
    cases h
    refine .inl (hi.imp (fun hi => hi) fun hi hn => hi ?_)
    rw [get?_deleteWhere, hn]
    rfl

theorem of_get?_insertBatch {id id' : String} {row' : BatchRow}
    (h : (insertBatch db id row).batches.get? id' = some row') :
    db.batches.get? id' = some row' ∨ id' = id ∧ row' = row := by
  unfold insertBatch at h
  split at h
  · exact .inl h
  · rcases of_get?_insert h with h | ⟨rfl, rfl⟩
    · exact .inl h
    · exact .inr ⟨rfl, rfl⟩

theorem of_get?_deleteEmptyBatch {batch : Option String} {id : String}
    (h : (deleteEmptyBatch db batch).batches.get? id = some row) :
    db.batches.get? id = some row := by
  unfold deleteEmptyBatch deleteBatch at h
  repeat' split at h
  all_goals first | exact h | exact of_get?_delete h

/-- The batches of a step: those from before, the local one, or one that an admitted envelope
carries. -/
theorem apply_batches (h : apply node db label = some db') {id : String}
    (hg : db'.batches.get? id = some row) :
    db.batches.get? id = some row ∨
      (∃ claim now, label = .append claim now ∧ newBatch node db now = (id, row)) ∨
      id ∈ sealedBatches db' := by
  cases label with
  | append claim now =>
    simp only [apply] at h
    split at h
    · cases h
    · cases h
      rcases of_get?_insertBatch hg with hg | ⟨rfl, rfl⟩
      · exact .inl hg
      · exact .inr (.inl ⟨claim, now, rfl, rfl⟩)
  | admitEnvelope e batch row claims =>
    simp only [apply] at h
    split at h
    · rename_i hc
      cases h
      rcases of_get?_insertBatch hg with hg | ⟨rfl, rfl⟩
      · exact .inl hg
      · refine .inr (.inr (mem_sealedBatches.mpr ⟨e, ?_⟩))
        simp only [Bool.and_eq_true] at hc
        obtain ⟨carried, hr⟩ := isSome_iff_exists.mp hc.1.1
        simp [get?_update, hr]
    · cases h
  | dropEnvelope other =>
    simp only [apply] at h
    split at h
    · cases h
      have hb := of_get?_deleteEmptyBatch hg
      exact .inl hb
    · cases h
  | _ =>
    -- no other step touches a batch
    simp only [apply] at h
    repeat' split at h
    all_goals cases h
    all_goals exact .inl hg

variable {claim hash : String}

theorem sealBatch_carries {batch : String} (h : apply node db (.sealBatch batch hash) = some db')
    (hr : db.batches.get? batch = some row)
    (hn : db.envelopes.get? ⟨row.origin, row.replicaSequence, hash⟩ = none) :
    batch ∈ sealedBatches db' := by
  simp only [apply, hr] at h
  split at h
  · cases h
  · cases h
    exact mem_sealedBatches.mpr ⟨⟨row.origin, row.replicaSequence, hash⟩, by simp [get?_insert, hn]⟩

/-! ## One envelope for a sequence -/

structure Unique (node : Node) (h : History) : Prop where
  made : ∀ id ∈ h.made, ∀ id' ∈ h.made, id.sequence = id'.sequence → id = id'
  unmade : ∀ batch row, h.db.batches.get? batch = some row → row.origin = node.origin →
    batch ∉ h.carriedEver → ∀ id ∈ h.made, id.sequence ≠ row.replicaSequence
  batches : ∀ batch row batch' row', h.db.batches.get? batch = some row →
    h.db.batches.get? batch' = some row' → row.origin = node.origin → row'.origin = node.origin →
    batch ∉ h.carriedEver → batch' ∉ h.carriedEver →
    row.replicaSequence = row'.replicaSequence → batch = batch'

def arrives (node : Node) (h : History) (id : EnvelopeId) : Bool :=
  id.writer ≠ node.origin || id ∈ h.made || id.sequence ∉ h.held

def clear (node : Node) (db : Db) : Bool :=
  db.envelopes.rows.all fun r =>
    r.1.writer ≠ node.origin || r.1.sequence < nextReplicaSequence node db

def orderly (node : Node) (h : History) : Label → Bool
  | .append _ _ => clear node h.db
  | .receive id | .recordTombstone id => arrives node h id
  | .sealBatch batch _ => batch ∉ h.carriedEver
  | _ => true

theorem clear_iff :
    clear node db = true ↔ ∀ id, db.envelopes.get? id ≠ none → id.writer = node.origin →
    id.sequence < nextReplicaSequence node db := by
  simp only [clear, List.all_eq_true, Bool.or_eq_true, decide_eq_true_eq]
  constructor
  · intro h id hg hw
    obtain ⟨row, hrow⟩ := Option.ne_none_iff_exists'.mp hg
    exact (h (id, row) (mem_rows.mpr hrow)).resolve_left (not_not.mpr hw)
  · intro h r hr
    by_cases hw : r.1.writer = node.origin
    · exact .inr (h r.1 (by simp [mem_rows.mp hr]) hw)
    · exact .inl hw

/-- The next sequence is above all that was held exactly when no envelope is at or above it. -/
theorem fresh_iff {h : History} (hb : Bounded node h) (hc : Current node h) :
    (∀ q ∈ h.held, q < nextReplicaSequence node h.db) ↔ clear node h.db = true := by
  rw [clear_iff]
  constructor
  · intro hf id hg hw
    exact hf _ (hc.held _ (mem_ownSequences.mpr (.inr (.inl ⟨id, hg, hw, rfl⟩))))
  · intro hlt q hq
    rcases hb q hq with hl | ⟨id, hg, hw, rfl⟩
    · exact Nat.lt_succ_of_le hl
    · exact hlt id hg hw

variable {h : History}

theorem Current.batch (hc : Current node h) {batch : String}
    (hg : h.db.batches.get? batch = some row) (ho : row.origin = node.origin) :
    row.replicaSequence ∈ h.held :=
  hc.held _ (mem_ownSequences.mpr (.inl ⟨batch, row, hg, ho, rfl⟩))

structure NewEnvelope (node : Node) (h : History) (db' : Db) (id : EnvelopeId) : Prop where
  made : ∀ id' ∈ h.made, id'.sequence ≠ id.sequence
  others : ∀ id' ∈ ownEnvelopes node db', id'.sequence = id.sequence → id' = id
  batches : ∀ batch row, h.db.batches.get? batch = some row → row.origin = node.origin →
    batch ∉ h.carriedEver → batch ∉ sealedBatches db' → row.replicaSequence ≠ id.sequence

theorem newEnvelope_of_unheld (hc : Current node h) (ha : apply node h.db label = some db')
    (hl : label = .receive id ∨ label = .recordTombstone id) (hh : id.sequence ∉ h.held) :
    NewEnvelope node h db' id where
  made id' hi' heq := hh (heq ▸ (hc.sequences id' hi').2)
  others id' hi' heq := by
    obtain ⟨hg, hw⟩ := mem_ownEnvelopes.mp hi'
    rcases apply_envelopes ha hg with hb | rfl | rfl | ⟨_, _, _, rfl, -⟩
    · have hm := hc.made id' (mem_ownEnvelopes.mpr ⟨hb, hw⟩)
      exact absurd (heq ▸ (hc.sequences id' hm).2) hh
    · rcases hl with hl | hl
      · exact Label.receive.inj hl
      · cases hl
    · rcases hl with hl | hl
      · cases hl
      · exact Label.recordTombstone.inj hl
    · rcases hl with hl | hl <;> cases hl
  batches batch row hg ho _ _ heq := hh (heq ▸ hc.batch hg ho)

theorem newEnvelope_of_seal (hu : Unique node h) (hcurrent : Current node h) {batch : String}
    (ha : apply node h.db (.sealBatch batch hash) = some db')
    (hr : h.db.batches.get? batch = some row) (ho : row.origin = node.origin)
    (hc : batch ∉ h.carriedEver) :
    NewEnvelope node h db' ⟨row.origin, row.replicaSequence, hash⟩ where
  made := hu.unmade batch row hr ho hc
  others id' hi' heq := by
    obtain ⟨hg, hw⟩ := mem_ownEnvelopes.mp hi'
    rcases apply_envelopes ha hg with hb | hl | hl | ⟨batch', hash', row', hl, hr', rfl⟩
    · have hm := hcurrent.made id' (mem_ownEnvelopes.mpr ⟨hb, hw⟩)
      exact absurd heq (hu.unmade batch row hr ho hc id' hm)
    · cases hl
    · cases hl
    · cases hl
      cases hr.symm.trans hr'
      rfl
  batches batch' row' hr' ho' hc' hs heq := by
    cases hu.batches batch' row' batch row hr' hr ho' ho hc' hc heq
    cases hr.symm.trans hr'
    refine hs (sealBatch_carries ha hr ?_)
    by_contra hg
    have hm :=
      hcurrent.made ⟨row.origin, row.replicaSequence, hash⟩ (mem_ownEnvelopes.mpr ⟨.inl hg, ho⟩)
    exact hu.unmade batch row hr ho hc _ hm rfl

theorem made_or_new (hu : Unique node h) (hc : Current node h)
    (ho : orderly node h label = true) (ha : apply node h.db label = some db')
    (hi : id ∈ h.made ++ ownEnvelopes node db') : id ∈ h.made ∨ NewEnvelope node h db' id := by
  rcases mem_append.mp hi with hi | hi
  · exact .inl hi
  by_cases hm : id ∈ h.made
  · exact .inl hm
  right
  obtain ⟨hg, hw⟩ := mem_ownEnvelopes.mp hi
  have hr : arrives node h id = true → id.sequence ∉ h.held := by
    intro h'
    simp only [arrives, Bool.or_eq_true, decide_eq_true_eq] at h'
    exact h'.resolve_left fun hor => hor.elim (fun hn => hn hw) hm
  rcases apply_envelopes ha hg with hb | rfl | rfl | ⟨batch, hash, row, rfl, hrow, rfl⟩
  · exact absurd (hc.made id (mem_ownEnvelopes.mpr ⟨hb, hw⟩)) hm
  · exact newEnvelope_of_unheld hc ha (.inl rfl) (hr ho)
  · exact newEnvelope_of_unheld hc ha (.inr rfl) (hr ho)
  · exact newEnvelope_of_seal hu hc ha hrow hw (by simpa [orderly] using ho)

/-- A batch that waits after a step waited before it, or is new with a sequence above all that was
held. -/
theorem waited_or_new (hb : Bounded node h) (hcurrent : Current node h)
    (ho : orderly node h label = true) (ha : apply node h.db label = some db') {batch : String}
    (hg : db'.batches.get? batch = some row) (hc : batch ∉ h.carriedEver ++ sealedBatches db') :
    h.db.batches.get? batch = some row ∨
      (∀ q ∈ h.held, q < row.replicaSequence) ∧ ∃ claim now, label = .append claim now ∧
      newBatch node h.db now = (batch, row) := by
  rcases apply_batches ha hg with hg | ⟨claim, now, rfl, hn⟩ | hl
  · exact .inl hg
  · have hs : row.replicaSequence = nextReplicaSequence node h.db := by
      have hr : (newBatch node h.db now).2 = row := congrArg Prod.snd hn
      rw [← hr]
      rfl
    rw [hs]
    exact .inr ⟨(fresh_iff hb hcurrent).mpr ho, claim, now, rfl, hn⟩
  · exact absurd (mem_append_right _ hl) hc

theorem append_envelopes {now : Nat} (ha : apply node db (.append claim now) = some db') :
    ownEnvelopes node db' = ownEnvelopes node db := by
  simp only [apply] at ha
  split at ha
  · cases ha
  · cases ha
    simp [ownEnvelopes]

theorem machine_keeps_unique : ((machine node).restrict (orderly node)).Keeps (fun _ => True)
    (fun h => Bounded node h ∧ Current node h ∧ Unique node h) := by
  rintro h label h' - ⟨hb, hc, hu⟩ hs
  obtain ⟨hr, hs⟩ := Machine.step_of_restrict hs
  refine ⟨machine_keeps_bounded trivial hb hs, machine_keeps_current trivial hc hs, ?_⟩
  obtain ⟨db', ha, rfl⟩ := map_eq_some_iff.mp hs
  refine ⟨?_, ?_, ?_⟩
  · intro id hi id' hi' heq
    rcases made_or_new hu hc hr ha hi with hm | hn
    · rcases made_or_new hu hc hr ha hi' with hm' | hn'
      · exact hu.made id hm id' hm' heq
      · exact absurd heq (hn'.made id hm)
    · rcases mem_append.mp hi' with hm' | hw
      · exact absurd heq.symm (hn.made id' hm')
      · exact (hn.others id' hw heq.symm).symm
  · intro batch row hg ho hnoEver id hi heq
    have ht : batch ∉ h.carriedEver ∧ batch ∉ sealedBatches db' := by
      simpa only [History.next, mem_append, not_or] using hnoEver
    rcases waited_or_new hb hc hr ha hg hnoEver with hg | ⟨hab, claim, now, rfl, -⟩
    · rcases made_or_new hu hc hr ha hi with hm | hn
      · exact hu.unmade batch row hg ho ht.1 id hm heq
      · exact hn.batches batch row hg ho ht.1 ht.2 heq.symm
    · have hm : id ∈ h.made := by
        rcases mem_append.mp hi with hm | hw
        · exact hm
        · exact hc.made id (append_envelopes ha ▸ hw)
      exact absurd heq (Nat.ne_of_lt (hab _ (hc.sequences id hm).2))
  · intro batch row batch' row' hg hg' ho ho' hnoEver hnoEver' heq
    have ht : batch ∉ h.carriedEver := fun hmem => hnoEver (mem_append_left _ hmem)
    have ht' : batch' ∉ h.carriedEver := fun hmem => hnoEver' (mem_append_left _ hmem)
    rcases waited_or_new hb hc hr ha hg hnoEver with hg | ⟨hab, claim, now, hl, hn⟩
    · rcases waited_or_new hb hc hr ha hg' hnoEver' with hg' | ⟨hab, -⟩
      · exact hu.batches batch row batch' row' hg hg' ho ho' ht ht' heq
      · exact absurd heq (Nat.ne_of_lt (hab _ (hc.batch hg ho)))
    · rcases waited_or_new hb hc hr ha hg' hnoEver' with hg' | ⟨-, claim', now', hl', hn'⟩
      · exact absurd heq.symm (Nat.ne_of_lt (hab _ (hc.batch hg' ho')))
      · cases hl.symm.trans hl'
        exact congrArg Prod.fst (hn.symm.trans hn')

theorem append_takes_next {now : Nat} (ha : apply node db (.append claim now) = some db') :
    ∃ batch row, db.batches.get? batch = none ∧ db'.batches.get? batch = some row ∧
      row.origin = node.origin ∧ row.replicaSequence = nextReplicaSequence node db := by
  simp only [apply] at ha
  split at ha
  · cases ha
  · rename_i hc
    cases ha
    simp only [Bool.or_eq_true, not_or, not_isSome_iff_eq_none] at hc
    refine ⟨(newBatch node db now).1, (newBatch node db now).2, hc.1, ?_, rfl, rfl⟩
    simp [insertBatch, hc.1, get?_insert]

/-- A local batch is above every sequence of this writer the store ever held exactly when no
envelope of this writer in `replica_envelopes` is at or above it. When that holds at every
append, a batch is sealed once and envelopes that come in do not take another's sequence, no
two envelopes of this writer share one. -/
theorem local_sequences_fresh_iff (db : Db) (labels : List Label) (h : History) :
    ((machine node).run (begin node db) labels = some h →
      ((∀ q ∈ h.held, q < nextReplicaSequence node h.db) ↔ ∀ id, h.db.envelopes.get? id ≠ none →
        id.writer = node.origin → id.sequence < nextReplicaSequence node h.db) ∧
      ∀ claim now h', (machine node).step h (.append claim now) = some h' → ∃ batch row,
        h.db.batches.get? batch = none ∧ h'.db.batches.get? batch = some row ∧
          row.origin = node.origin ∧ row.replicaSequence = nextReplicaSequence node h.db) ∧
    (Unique node (begin node db) →
      ((machine node).restrict (orderly node)).run (begin node db) labels = some h →
      ∀ id ∈ h.made, ∀ id' ∈ h.made, id.sequence = id'.sequence → id = id') := by
  have hb : Current node (begin node db) := current_next _ db fun _ hi => nomatch hi
  refine ⟨fun hr => ⟨?_, fun claim now h' hs => ?_⟩, fun hu hr => ?_⟩
  · have hn := machine_keeps_bounded.run (fun _ _ => trivial) (bounded_begin db) hr
    have hc := machine_keeps_current.run (fun _ _ => trivial) hb hr
    rw [fresh_iff hn hc, clear_iff]
  · obtain ⟨db', ha, rfl⟩ := map_eq_some_iff.mp hs
    exact append_takes_next ha
  · exact (machine_keeps_unique.run (fun _ _ => trivial) ⟨bounded_begin db, hb, hu⟩ hr).2.2.made

def sampleNode : Node where
  origin := "oak"
  batchHeaderHash _ _ _ _ := "header"

/-- A peer sends back an envelope of this node from before a restore, and the next local batch
takes its sequence. -/
def sampleReturn : List Label :=
  [.receive ⟨"oak", 1, "before"⟩, .append "claim" 0, .sealBatch "batch/oak/1/header" "after"]

theorem pending_sequence_taken :
    ((machine sampleNode).run (begin sampleNode {}) sampleReturn).map (fun h =>
    (decide ((⟨"oak", 1, "before"⟩ : EnvelopeId) ∈ h.made),
      decide ((⟨"oak", 1, "after"⟩ : EnvelopeId) ∈ h.made))) = some (true, true) := by
  decide +kernel

def sampleLabels : List Label :=
  [.append "first" 0, .sealBatch "batch/oak/1/header" "one", .recordTombstone ⟨"oak", 1, "one"⟩,
    .dropClaim "first", .dropEnvelope ⟨"oak", 1, "one"⟩, .withdraw [], .receive ⟨"oak", 4, "four"⟩,
    .setWriterFloor 7, .append "second" 1, .sealBatch "batch/oak/8/header" "eight"]

theorem sampleLabels_fresh :
    ∃ h, ((machine sampleNode).restrict (orderly sampleNode)).run
      (begin sampleNode {}) sampleLabels =
      some h ∧ ⟨"oak", 8, "eight"⟩ ∈ h.made ∧
      (∀ q ∈ h.held, q < nextReplicaSequence sampleNode h.db) ∧
    ∀ id ∈ h.made, ∀ id' ∈ h.made, id.sequence = id'.sequence → id = id' := by
  have hr :
      (((machine sampleNode).restrict (orderly sampleNode)).run
        (begin sampleNode {}) sampleLabels).map (fun h =>
      (decide ((⟨"oak", 8, "eight"⟩ : EnvelopeId) ∈ h.made), clear sampleNode h.db)) =
          some (true, true) := by
    decide +kernel
  obtain ⟨h, hr, hs⟩ := map_eq_some_iff.mp hr
  simp only [Prod.mk.injEq, decide_eq_true_eq] at hs
  have hu : Unique sampleNode (begin sampleNode {}) :=
    ⟨fun _ hi => (nomatch hi), fun _ _ hg => (nomatch hg), fun _ _ _ _ hg => (nomatch hg)⟩
  have hf := (local_sequences_fresh_iff {} sampleLabels h).1 (Machine.run_of_restrict hr)
  refine ⟨h, hr, hs.1, hf.1.mpr (clear_iff.mp hs.2), ?_⟩
  exact (local_sequences_fresh_iff {} sampleLabels h).2 hu hr

end Smalltalk.Sequences
