import Smalltalk.Lib.Table
import Smalltalk.Lib.Lexicographic

/-!
# The tables behind the canonical order

Texts are their UTF-8 bytes, as SQLite's BINARY collation and Rust's `str` compare them.
Integers that the program writes as `u64` are natural numbers.
-/

namespace Smalltalk.Canonical

open List Table

structure Batch where
  origin : Text
  replicaSequence : Nat
  deriving DecidableEq

structure ClaimRow where
  storeIndex : Nat
  batchId : Text
  acceptedAtUnixMs : Text
  deriving DecidableEq

structure Envelope where
  writer : Text
  sequence : Nat
  hash : Text
  deriving DecidableEq

structure RecordRow where
  envelope : Envelope
  position : Nat
  claimId : Option Text
  deriving DecidableEq

structure Db where
  batches : Table Text Batch
  claims : Table Text ClaimRow
  /-- The highest `store_index` ever given out. -/
  lastIndex : Nat
  positions : Table Text Nat
  records : Table Text RecordRow

def Db.empty : Db := ⟨∅, ∅, 0, ∅, ∅⟩

/-- `SELECT MIN(position) FROM replica_records WHERE claim_id=?`. -/
def leastRecord (records : Table Text RecordRow) (id : Text) : Option Nat :=
  ((records.rows.filter (·.2.claimId = some id)).map (·.2.position)).min?

def earlier (claims : Table Text ClaimRow) (batchId : Text) (index : Nat) : Nat :=
  claims.rows.countP fun r => r.2.batchId = batchId && r.2.storeIndex < index

def known (db : Db) (id : Text) : Option Nat :=
  (db.positions.get? id).or (leastRecord db.records id)

def position (db : Db) (id : Text) (claim : ClaimRow) : Nat :=
  (known db id).getD (earlier db.claims claim.batchId claim.storeIndex)

/-! ## What the schema and the writers keep -/

/-- The tables' constraints, and the ranges of what is written to them. -/
structure Db.Sound (db : Db) : Prop where
  /-- `batch_id TEXT NOT NULL REFERENCES batches(id)`. -/
  batch : ∀ id claim, db.claims.get? id = some claim →
    ∃ batch, db.batches.get? claim.batchId = some batch
  /-- `accepted_at_unix_ms` is a `u128` as `to_string` writes it. -/
  accepted : ∀ id claim, db.claims.get? id = some claim →
    ∃ time < 2 ^ 128, claim.acceptedAtUnixMs = decimal time
  indexed : ∀ id claim, db.claims.get? id = some claim → claim.storeIndex ≤ db.lastIndex
  distinct : (db.claims.rows.map (·.2.storeIndex)).Nodup
  lastIndex : db.lastIndex < 2 ^ 63
  sequences : ∀ id batch, db.batches.get? id = some batch → batch.replicaSequence < 2 ^ 63
  stored : ∀ id place, db.positions.get? id = some place → place < 2 ^ 63
  recorded : ∀ ref record, db.records.get? ref = some record → record.position < 2 ^ 63

section
variable {records : Table Text RecordRow} {id : Text}

theorem leastRecord_eq_some {p : Nat} : leastRecord records id = some p ↔
      (∃ ref record, records.get? ref = some record ∧ record.claimId = some id ∧
        record.position = p) ∧ ∀ ref record, records.get? ref = some record →
        record.claimId = some id → p ≤ record.position := by
  unfold leastRecord
  rw [min?_eq_some_iff]
  simp only [mem_map, mem_filter, decide_eq_true_eq, Prod.exists, mem_rows]
  constructor
  · rintro ⟨⟨ref, record, ⟨hg, hi⟩, hp⟩, hl⟩
    exact ⟨⟨ref, record, hg, hi, hp⟩, fun ref record hg hi => hl _ ⟨ref, record, ⟨hg, hi⟩, rfl⟩⟩
  · rintro ⟨⟨ref, record, hg, hi, hp⟩, hl⟩
    refine ⟨⟨ref, record, ⟨hg, hi⟩, hp⟩, ?_⟩
    rintro _ ⟨ref, record, ⟨hg, hi⟩, rfl⟩
    exact hl ref record hg hi

theorem leastRecord_eq_none :
    leastRecord records id = none ↔ ∀ ref record, records.get? ref = some record →
    record.claimId ≠ some id := by
  unfold leastRecord
  rw [min?_eq_none_iff, map_eq_nil_iff, filter_eq_nil_iff]
  simp only [Prod.forall, mem_rows, decide_eq_true_eq]

end

/-- Store indexes are distinct, so fewer claims than the last one come before any. -/
theorem Db.Sound.earlier_lt {db : Db} (hd : db.Sound) (batchId : Text) {id : Text}
    {claim : ClaimRow} (hc : db.claims.get? id = some claim) :
    earlier db.claims batchId claim.storeIndex < 2 ^ 63 := by
  have hl : earlier db.claims batchId claim.storeIndex ≤ claim.storeIndex := by
    have hs :
        ((db.claims.rows.filter fun r =>
          r.2.batchId = batchId && r.2.storeIndex < claim.storeIndex).map
        (·.2.storeIndex)) ⊆ List.range claim.storeIndex := by
      intro i hi
      obtain ⟨r, hr, rfl⟩ := mem_map.mp hi
      have := (mem_filter.mp hr).2
      simp only [Bool.and_eq_true, decide_eq_true_eq] at this
      exact mem_range.mpr this.2
    have hn := hd.distinct.sublist ((filter_sublist (l := db.claims.rows)
      (p := fun r => r.2.batchId = batchId && r.2.storeIndex < claim.storeIndex)).map
        (·.2.storeIndex))
    have := (subperm_of_subset hn hs).length_le
    rw [length_map, ← countP_eq_length_filter, length_range] at this
    exact this
  have := hd.indexed id claim hc
  have := hd.lastIndex
  omega

theorem Db.Sound.position_lt {db : Db} (hd : db.Sound) {id : Text} {claim : ClaimRow}
    (hc : db.claims.get? id = some claim) : position db id claim < 2 ^ 63 := by
  unfold position known
  cases hs : db.positions.get? id with
  | some p => exact hd.stored id p hs
  | none =>
    cases hl : leastRecord db.records id with
    | none => exact hd.earlier_lt _ hc
    | some p =>
      obtain ⟨⟨ref, record, hg, -, rfl⟩, -⟩ := leastRecord_eq_some.mp hl
      exact hd.recorded ref record hg

end Smalltalk.Canonical
