import Smalltalk.Exchange.Inventory

/-!
# What an answer sends and lists

For inventories that hold every payload and no sequence at the top of `u64`, an answer
sends only what the peer lacks, and the first range it lists is listed whole.
-/

namespace Smalltalk

open List

/-! ## Ranges and keys -/

theorem replicationBucketStart_mod (s : Nat) :
    replicationBucketStart s % replicationBucketWidth = 0 := by
  unfold replicationBucketStart replicationBucketWidth
  omega

theorem replicationBucketStart_eq_iff {s start : Nat} (h : start % replicationBucketWidth = 0) :
    replicationBucketStart s = start ↔ start ≤ s ∧ s < start + replicationBucketWidth := by
  unfold replicationBucketStart replicationBucketWidth at *
  omega

theorem EnvelopeId.rangeKey_eq_iff {id : EnvelopeId} {key : RangeKey} :
    id.rangeKey = key ↔ id.writer = key.writer ∧
    replicationBucketStart id.sequence = key.start := by
  cases key
  simp [EnvelopeId.rangeKey]

namespace CompactReplicationInventory

structure Full (inventory : CompactReplicationInventory) : Prop where
  payloads : inventory.payloadless = []
  bounded : ∀ id ∈ inventory.envelopes, id.sequence < u64Max

variable {i : CompactReplicationInventory} {key : RangeKey}

theorem mem_chunk {id : EnvelopeId} : id ∈ i.chunk key ↔ id ∈ i.envelopes ∧ id.rangeKey = key := by
  rw [chunk, mem_filter, OrdSet.mem_def, decide_eq_true_eq]

theorem mem_keys : key ∈ i.keys ↔ ∃ id ∈ i.envelopes, id.rangeKey = key := by
  rw [keys, ← OrdSet.mem_def, OrdSet.mem_ofList, mem_map]
  rfl

theorem keys_sorted (i : CompactReplicationInventory) : i.keys.Pairwise (· < ·) :=
  (OrdSet.ofList _).sorted

theorem start_mod_of_mem_keys (h : key ∈ i.keys) : key.start % replicationBucketWidth = 0 := by
  obtain ⟨id, _, rfl⟩ := mem_keys.mp h
  exact replicationBucketStart_mod id.sequence

theorem chunk_sorted (i : CompactReplicationInventory) (key : RangeKey) :
    (i.chunk key).Pairwise (· < ·) :=
  i.envelopes.sorted.filter _

theorem chunk_ne_nil_iff : i.chunk key ≠ [] ↔ key ∈ i.keys := by
  rw [mem_keys]
  constructor
  · intro h
    obtain ⟨id, hi⟩ := exists_mem_of_ne_nil _ h
    exact ⟨id, mem_chunk.mp hi⟩
  · rintro ⟨id, hi⟩
    exact ne_nil_of_mem (mem_chunk.mpr hi)

theorem range_eq_chunk (h : ∀ id ∈ i.envelopes, id.sequence < u64Max) {key : RangeKey}
    (hk : key.start % replicationBucketWidth = 0) : i.range key = i.chunk key := by
  apply filter_congr
  intro id hi
  have hb := h id hi
  have hs : id.sequence < saturatingAdd key.start replicationBucketWidth ↔
      id.sequence < key.start + replicationBucketWidth := by
    unfold saturatingAdd
    omega
  rw [decide_eq_decide, hs, EnvelopeId.rangeKey_eq_iff, replicationBucketStart_eq_iff hk]

theorem mem_range (hk : key.start % replicationBucketWidth = 0) {id : EnvelopeId}
    (h : id ∈ i.range key) :
    id ∈ i.envelopes ∧ id.rangeKey = key := by
  obtain ⟨hi, h⟩ := mem_filter.mp h
  obtain ⟨hw, hl, hu⟩ := of_decide_eq_true h
  rw [EnvelopeId.rangeKey_eq_iff, replicationBucketStart_eq_iff hk]
  exact ⟨hi, hw, hl, hu.trans_le (Nat.min_le_left _ _)⟩

theorem hasPayload_of_full (h : i.Full) (id : EnvelopeId) : i.hasPayload id = true := by
  simp [hasPayload, h.payloads]

end CompactReplicationInventory

open CompactReplicationInventory

/-! ## What is sent -/

section
variable {Digest : Type} {digest : List EnvelopeId → Digest}

def Shows (digest : List EnvelopeId → Digest) (remote : ReplicationInventory Digest)
    (inventory : CompactReplicationInventory) : Prop :=
  remote.buckets = inventory.buckets digest

theorem remoteBucket_of_shows {remote : ReplicationInventory Digest}
    {inventory : CompactReplicationInventory} (h : Shows digest remote inventory) (key : RangeKey) :
    remoteBucket remote key = if key ∈ inventory.keys then some (inventory.bucket digest key)
      else none := by
  unfold remoteBucket
  rw [h, buckets, ← map_reverse, find?_map]
  split
  · rename_i hy
    have hn : inventory.keys.reverse.find? (fun k => decide (k = key)) = some key := by
      cases hf : inventory.keys.reverse.find? (fun k => decide (k = key)) with
      | none =>
        have := find?_eq_none.mp hf key (mem_reverse.mpr hy)
        simp at this
      | some k =>
        have := find?_some hf
        simp only [decide_eq_true_eq] at this
        rw [this]
    exact congrArg (Option.map (inventory.bucket digest)) hn
  · rename_i hy
    rw [Option.map_eq_none_iff, find?_eq_none]
    intro k hk heq
    simp only [Function.comp_apply, decide_eq_true_eq] at heq
    have : k = key := heq
    rw [mem_reverse, this] at hk
    exact hy hk

theorem one_le_replicationPageLimit (remote : ReplicationInventory Digest) :
    1 ≤ replicationPageLimit remote := by
  unfold replicationPageLimit replicationExchangeEnvelopeLimit
  split <;> omega

variable [DecidableEq Digest] {inventory inventory' : CompactReplicationInventory} {r : Replica}
  {remote : ReplicationInventory Digest} {key : RangeKey} {turn : Nat}

section
variable (hf : inventory.Full) (hd : Function.Injective digest)
    (hs : Shows digest remote inventory')

include hd hs in
theorem mem_rangeMissing (hk : key ∈ inventory.keys) {id : EnvelopeId}
    (hi : id ∈ rangeMissing digest inventory remote (inventory.bucket digest key)) :
    id ∈ inventory.range key ∧ inventory.hasPayload id = true ∧ id ∉ inventory'.envelopes ∧
      (key ∈ inventory'.keys → remoteListed remote key = inventory'.chunk key) := by
  have hb : remoteBucket remote (inventory.bucket digest key).key = _ :=
    remoteBucket_of_shows hs key
  rw [rangeMissing, hb] at hi
  by_cases hk' : key ∈ inventory'.keys
  · simp only [hk', if_true] at hi
    split at hi
    · cases hi
    split at hi
    · cases hi
    split at hi
    · cases hi
    rename_i hl
    have hl : remoteListed remote key = inventory'.chunk key := hd (not_ne_iff.mp (not_or.mp hl).2)
    obtain ⟨hr, hn⟩ := mem_filter.mp hi
    obtain ⟨hp, hn⟩ := of_decide_eq_true hn
    exact ⟨hr, hp, fun hm =>
      hn (hl ▸ mem_chunk.mpr ⟨hm, (mem_range (start_mod_of_mem_keys hk) hr).2⟩), fun _ => hl⟩
  · simp only [hk', if_false] at hi
    obtain ⟨hr, hp⟩ := mem_filter.mp hi
    refine ⟨hr, hp, fun hm => hk' ?_, fun h => absurd h hk'⟩
    exact mem_keys.mpr ⟨id, hm, (mem_range (start_mod_of_mem_keys hk) hr).2⟩

include hf hd hs in
/-- A range the peer lacks goes whole; of one it has otherwise, what it lacks goes if it listed that
range. -/
theorem rangeMissing_eq (hk : key ∈ inventory.keys) :
    rangeMissing digest inventory remote (inventory.bucket digest key) =
      if key ∉ inventory'.keys then inventory.chunk key
      else if inventory'.chunk key = inventory.chunk key then []
      else if remoteListed remote key = inventory'.chunk key then
        (inventory.chunk key).filter (· ∉ inventory'.chunk key)
      else [] := by
  have hr : inventory.range (inventory.bucket digest key).key = inventory.chunk key :=
    range_eq_chunk hf.bounded (start_mod_of_mem_keys hk)
  have hp := hasPayload_of_full hf
  have hb : remoteBucket remote (inventory.bucket digest key).key = _ :=
    remoteBucket_of_shows hs key
  rw [rangeMissing, hb, hr]
  by_cases hk' : key ∈ inventory'.keys
  · have hc : inventory'.chunk key ≠ [] := chunk_ne_nil_iff.mpr hk'
    simp only [hk', if_true, not_true_eq_false, if_false, hp, true_and, bucket, hd.eq_iff]
    by_cases hl : remoteListed remote key = inventory'.chunk key
    · simp [hl, hc]
    · simp [hl, hd.eq_iff]
  · simp only [hk', if_false, not_false_eq_true, if_true]
    exact filter_eq_self.mpr fun id _ => hp id

end

/-- A page takes from the front of all the ranges' differences. -/
theorem missingEnvelopes_eq (l : Nat) (inventory : CompactReplicationInventory)
    (remote : ReplicationInventory Digest) :
    ∀ (buckets : List (ReplicationInventoryBucket Digest)) (m : List EnvelopeId),
      m.length ≤ l → missingEnvelopes digest l inventory remote buckets m =
        (m ++ buckets.flatMap (rangeMissing digest inventory remote)).take l
  | [], m, h => by
    rw [missingEnvelopes, flatMap_nil, append_nil, take_of_length_le h]
  | bucket :: buckets, m, h => by
    rw [missingEnvelopes, missingEnvelopes_eq l inventory remote buckets, flatMap_cons,
      ← append_assoc]
    · simp only [take_append, take_take, length_append, length_take]
      congr 2
      · congr 1
        rw [Nat.min_self]
      · omega
    · rw [length_append, length_take]
      omega

theorem answer_sent (r : Replica) (remote : ReplicationInventory Digest) (turn : Nat) :
    (r.answer digest remote turn).1 = ((r.inventory.buckets digest).flatMap
      (rangeMissing digest r.inventory remote)).take (replicationPageLimit remote) := by
  change missingEnvelopes digest _ r.inventory remote _ [] = _
  rw [missingEnvelopes_eq _ _ _ _ _ (Nat.zero_le _), nil_append]

section
variable (hf : r.inventory.Full) (hd : Function.Injective digest)
  (hshows : Shows digest remote inventory')

include hd hshows in
theorem mem_answer :
    ∀ id ∈ (r.answer digest remote turn).1, id ∈ r.inventory.envelopes ∧
    id ∉ inventory'.envelopes := by
  intro id hi
  rw [answer_sent] at hi
  obtain ⟨bucket, hb, hi⟩ := mem_flatMap.mp (mem_of_mem_take hi)
  obtain ⟨key, hk, rfl⟩ := mem_map.mp hb
  obtain ⟨hr, -, hn, -⟩ := mem_rangeMissing hd hshows hk hi
  exact ⟨(mem_range (start_mod_of_mem_keys hk) hr).1, hn⟩

variable (h : (r.answer digest remote turn).1 = [])

include h in
theorem rangeMissing_of_answer_nil (hk : key ∈ r.inventory.keys) :
    rangeMissing digest r.inventory remote (r.inventory.bucket digest key) = [] := by
  rw [answer_sent, take_eq_nil_iff] at h
  have hp := one_le_replicationPageLimit remote
  exact flatMap_eq_nil_iff.mp (h.resolve_left (by omega)) _ (mem_map_of_mem hk)

include hf hd hshows h

theorem keys_subset_of_answer_nil : r.inventory.keys ⊆ inventory'.keys := by
  intro key hk
  by_contra ht
  have hn := rangeMissing_of_answer_nil h hk
  rw [rangeMissing_eq hf hd hshows hk, if_pos ht] at hn
  exact chunk_ne_nil_iff.mpr hk hn

theorem chunk_subset_of_answer_nil (hk : key ∈ r.inventory.keys)
    (hl : remoteListed remote key = inventory'.chunk key) :
    r.inventory.chunk key ⊆ inventory'.chunk key := by
  have hk' := keys_subset_of_answer_nil hf hd hshows h hk
  have hn := rangeMissing_of_answer_nil h hk
  rw [rangeMissing_eq hf hd hshows hk, if_neg (not_not.mpr hk'), if_pos hl] at hn
  by_cases hs : inventory'.chunk key = r.inventory.chunk key
  · rw [hs]
    exact List.Subset.refl _
  · rw [if_neg hs, filter_eq_nil_iff] at hn
    intro id hi
    simpa using hn id hi

end

/-! ## What is listed -/

def differingKeys (inventory inventory' : CompactReplicationInventory) : List RangeKey :=
  inventory.keys.filter fun key => key ∈ inventory'.keys ∧
    inventory'.chunk key ≠ inventory.chunk key

theorem mem_differingKeys : key ∈ differingKeys inventory inventory' ↔
      key ∈ inventory.keys ∧ key ∈ inventory'.keys ∧
      inventory'.chunk key ≠ inventory.chunk key := by
  rw [differingKeys, mem_filter, decide_eq_true_eq]

section
variable (h : Function.Injective digest) (hs : Shows digest remote inventory')
include h hs

theorem differs_bucket (key : RangeKey) : differs remote (inventory.bucket digest key) =
      decide (key ∈ inventory'.keys ∧ inventory'.chunk key ≠ inventory.chunk key) := by
  have hb : remoteBucket remote (inventory.bucket digest key).key = _ :=
    remoteBucket_of_shows hs key
  rw [differs, hb]
  by_cases hk : key ∈ inventory'.keys
  · simp [hk, bucket, h.eq_iff]
  · simp [hk]

theorem listingOrder_eq (hfull : inventory.Full) (turn : Nat) :
    listingOrder digest inventory remote turn =
      ((differingKeys inventory inventory').rotate
        (listingTurnStart turn (differingKeys inventory inventory').length)).map
          (inventory.bucket digest) := by
  have hd : (inventory.buckets digest).filter (differs remote) =
      (differingKeys inventory inventory').map (inventory.bucket digest) := by
    rw [buckets, filter_map, differingKeys]
    congr 1
    exact filter_congr fun key _ => differs_bucket h hs key
  have hl : ∀ bucket ∈ (differingKeys inventory inventory').map (inventory.bucket digest),
      (inventory.range bucket.key).any inventory.hasPayload = true := by
    intro bucket hb
    obtain ⟨key, hk, rfl⟩ := mem_map.mp hb
    have hk := (mem_differingKeys.mp hk).1
    have hr : inventory.range (inventory.bucket digest key).key = inventory.chunk key :=
      range_eq_chunk hfull.bounded (start_mod_of_mem_keys hk)
    obtain ⟨id, hi⟩ := exists_mem_of_ne_nil _ (chunk_ne_nil_iff.mpr hk)
    rw [hr, List.any_eq_true]
    exact ⟨id, hi, hasPayload_of_full hfull id⟩
  have hn : ((differingKeys inventory inventory').map (inventory.bucket digest)).filter
      (fun bucket => !(inventory.range bucket.key).any inventory.hasPayload) = [] := by
    rw [filter_eq_nil_iff]
    intro bucket hb
    simp [hl bucket hb]
  unfold listingOrder
  simp only [hd, filter_eq_self.mpr hl, hn, length_map, map_rotate]
  simp

end

omit [DecidableEq Digest] in
theorem subset_listRanges (inventory : CompactReplicationInventory) (limit : Nat) :
    ∀ (buckets : List (ReplicationInventoryBucket Digest)) (l : List EnvelopeId),
      l ⊆ listRanges inventory limit buckets l
  | [], l => List.Subset.refl l
  | bucket :: buckets, l => by
    rw [listRanges]
    split
    · exact List.Subset.refl l
    · exact List.Subset.trans (subset_append_left _ _) (subset_listRanges inventory limit buckets _)

omit [DecidableEq Digest] in
theorem mem_listRanges (inventory : CompactReplicationInventory) (limit : Nat) {id : EnvelopeId} :
    ∀ (buckets : List (ReplicationInventoryBucket Digest)) (l : List EnvelopeId),
      id ∈ listRanges inventory limit buckets l → id ∈ l ∨ id ∈ inventory.envelopes
  | [], l, h => .inl h
  | bucket :: buckets, l, h => by
    rw [listRanges] at h
    split at h
    · exact .inl h
    rcases mem_listRanges inventory limit buckets _ h with h | h
    · rcases mem_append.mp h with h | h
      · exact .inl h
      · exact .inr (mem_of_mem_filter h)
    · exact .inr h

theorem remoteListed_first (hfull : r.inventory.Full) (hinjective : Function.Injective digest)
    (hshows : Shows digest remote inventory') (hk : (differingKeys r.inventory inventory')[
      listingTurnStart turn (differingKeys r.inventory inventory').length]? = some key) :
    remoteListed (r.answer digest remote turn).2 key = r.inventory.chunk key := by
  obtain ⟨hl, hg⟩ := List.getElem?_eq_some_iff.mp hk
  have hm := (mem_differingKeys.mp (hg ▸ getElem_mem hl)).1
  obtain ⟨rest, ho⟩ : ∃ rest,
      listingOrder digest r.inventory remote turn = r.inventory.bucket digest key :: rest := by
    have hh := head?_rotate hl
    rw [hk, head?_eq_some_iff] at hh
    obtain ⟨rest, hr⟩ := hh
    rw [listingOrder_eq hinjective hshows hfull turn, hr]
    exact ⟨_, rfl⟩
  have hn : r.inventory.range (r.inventory.bucket digest key).key = r.inventory.chunk key :=
    range_eq_chunk hfull.bounded (start_mod_of_mem_keys hm)
  have hs : (r.answer digest remote turn).2.envelopes =
      listRanges r.inventory r.limits.listing rest (r.inventory.chunk key) := by
    change listRanges r.inventory _ (listingOrder digest r.inventory remote turn) [] = _
    rw [ho, listRanges, hn]
    simp
  rw [remoteListed, hs]
  apply OrdSet.toList_ofList_eq (chunk_sorted _ key)
  intro id
  rw [mem_filter, decide_eq_true_eq, mem_chunk]
  constructor
  · rintro ⟨hi, hkey⟩
    rcases mem_listRanges _ _ rest _ hi with hi | hi
    · exact mem_chunk.mp hi
    · exact ⟨hi, hkey⟩
  · intro hi
    exact ⟨subset_listRanges _ _ rest _ (mem_chunk.mpr hi), hi.2⟩

theorem listingTurnStart_lt {len : Nat} (turn : Nat) (h : 0 < len) :
    listingTurnStart turn len < len := by
  unfold listingTurnStart
  rw [Nat.div_lt_iff_lt_mul (by decide), Nat.mul_comm len]
  exact Nat.mul_lt_mul_of_pos_right (Nat.mod_lt _ (by decide)) h

end

end Smalltalk
