import Smalltalk.Exchange.Convergence

/-!
# What a peer's inventory tells

An honest peer shows the digests of its own ranges and lists identities it holds. What is
selected for it is what it lacks, and the counts of what either side lacks are exact where it
lists every range that differs. The counts of a range come from the peer as they are.
-/

namespace Smalltalk

open List CompactReplicationInventory

section
variable {Digest : Type} (digest : List EnvelopeId → Digest)

structure Honest (remote : ReplicationInventory Digest) (peer : CompactReplicationInventory) :
    Prop where
  shows : Shows digest remote peer
  lists : ∀ id ∈ remote.envelopes, id ∈ peer.envelopes

variable [DecidableEq Digest]

/-- What is selected is held with its payload and absent at the peer, it fits the page, and
a range that is not listed whole adds nothing. -/
theorem selection_sound (hd : Function.Injective digest)
    (inventory peer : CompactReplicationInventory) (remote : ReplicationInventory Digest)
    (hh : Honest digest remote peer) (listingLimit turn : Nat) :
    let selected := (compactReplicationDifferenceTurn digest inventory remote listingLimit turn).1
    (∀ id ∈ selected, id ∈ inventory.envelopes ∧ inventory.hasPayload id = true ∧
      id ∉ peer.envelopes) ∧ selected.length ≤ replicationPageLimit remote ∧
      ∀ key, remoteListed remote key ≠ peer.chunk key → ∀ id ∈ selected, id.rangeKey ≠ key := by
  intro selected
  have hs : selected = _ := @answer_sent Digest digest _ ⟨inventory, none, listingLimit⟩ remote turn
  have hm : ∀ id ∈ selected, id ∈ inventory.envelopes ∧ inventory.hasPayload id = true ∧
      id ∉ peer.envelopes ∧ remoteListed remote id.rangeKey = peer.chunk id.rangeKey := by
    intro id hi
    rw [hs] at hi
    obtain ⟨bucket, hb, hi⟩ := mem_flatMap.mp (mem_of_mem_take hi)
    obtain ⟨key, hk, rfl⟩ := mem_map.mp hb
    obtain ⟨hr, hp, hn, hl⟩ := mem_rangeMissing hd hh.shows hk hi
    obtain ⟨hm, rfl⟩ := mem_range (start_mod_of_mem_keys hk) hr
    refine ⟨hm, hp, hn, ?_⟩
    by_cases hk' : id.rangeKey ∈ peer.keys
    · exact hl hk'
    -- A peer that holds nothing of the range lists nothing of it.
    · rw [not_not.mp (mt chunk_ne_nil_iff.mp hk')]
      refine eq_nil_iff_forall_not_mem.mpr fun other ho => hk' ?_
      obtain ⟨ho, hr⟩ := mem_filter.mp (OrdSet.mem_ofList.mp ho)
      exact mem_keys.mpr ⟨other, hh.lists other ho, of_decide_eq_true hr⟩
  refine ⟨fun id hi => ?_, ?_, fun key hn id hi hk => hn ?_⟩
  · obtain ⟨hi, hp, hn, -⟩ := hm id hi
    exact ⟨hi, hp, hn⟩
  · rw [hs]
    exact length_take_le _ _
  · rw [← hk]
    exact (hm id hi).2.2.2

def firstSent : CompactReplicationInventory := ⟨OrdSet.ofList [⟨"a", 1, "x"⟩], []⟩

def bothHeld : CompactReplicationInventory := ⟨OrdSet.ofList [⟨"a", 1, "x"⟩, ⟨"a", 2, "y"⟩], []⟩

def firstShown : ReplicationInventory (List EnvelopeId) :=
  ⟨[⟨"a", 1, "x"⟩], firstSent.buckets id, none⟩

theorem second_selected :
    ⟨"a", 2, "y"⟩ ∈ (compactReplicationDifferenceTurn id bothHeld firstShown 8 0).1 ∧
    ⟨"a", 2, "y"⟩ ∉ firstSent.envelopes :=
  have hm := by decide +kernel
  ⟨hm, ((selection_sound id Function.injective_id bothHeld firstSent firstShown
    ⟨rfl, by decide +kernel⟩ 8 0).1 _ hm).2.2⟩

/-! ## The counts -/

structure SentInventory (Digest : Type) extends ReplicationInventory Digest where
  digest : Option Digest

/-- What one range adds to the counts of what only the peer and only this node holds. -/
def rangeCounts (inventory : CompactReplicationInventory) (remote : ReplicationInventory Digest)
    (theirs : ReplicationInventoryBucket Digest) : Nat × Nat :=
  if ∀ ours ∈ inventory.buckets digest, ours.key ≠ theirs.key then (theirs.count, 0)
  else
    let ours := inventory.bucket digest theirs.key
    if ours.digest = theirs.digest then (0, 0)
    else
      let known := remoteListed remote theirs.key
      if known ≠ [] ∧ known.length = theirs.count ∧ digest known = theirs.digest then
        let held := inventory.range theirs.key
        ((known.filter (· ∉ held)).length, (held.filter (· ∉ known)).length)
      else (theirs.count - ours.count, ours.count - theirs.count)

def additions (inventory : CompactReplicationInventory) (remote : ReplicationInventory Digest) :
    List (Nat × Nat) :=
  remote.buckets.map (rangeCounts digest inventory remote) ++
    [(0,
      (((inventory.buckets digest).filter fun ours =>
        ∀ theirs ∈ remote.buckets, theirs.key ≠ ours.key).map
      (·.count)).sum)]

def Fits (counts : Nat × Nat) : Prop := counts.1 < 2 ^ 64 ∧ counts.2 < 2 ^ 64

instance (counts : Nat × Nat) : Decidable (Fits counts) := inferInstanceAs (Decidable (_ ∧ _))

def addCounts (counts more : Nat × Nat) : Option (Nat × Nat) :=
  if Fits (counts + more) then some (counts + more) else none

inductive Counted where
  | overflow
  | unknown
  | counts (only : Nat × Nat)
  deriving DecidableEq

def replicationInventoryDifference (inventoryDigest : List EnvelopeId → Digest)
    (inventory : CompactReplicationInventory) (remote : SentInventory Digest) : Counted :=
  if remote.digest = some (inventoryDigest inventory.envelopes.toList) then .counts 0
  else if remote.buckets ≠ [] then
    match (additions digest inventory remote.toReplicationInventory).foldlM addCounts 0 with
    | none => .overflow
    | some counts => .counts counts
  else if remote.digest = some (inventoryDigest remote.envelopes) then
    let shared := (remote.envelopes.filter fun id => id ∈ inventory.range id.rangeKey).length
    .counts (remote.envelopes.length - shared, inventory.envelopes.toList.length - shared)
  else .unknown

theorem foldlM_addCounts (l : List (Nat × Nat)) : ∀ acc, Fits acc →
    l.foldlM addCounts acc = if Fits (acc + l.sum) then some (acc + l.sum) else none := by
  induction l with
  | nil => intro acc h; simp [h]
  | cons c l ih =>
    intro acc h
    rw [foldlM_cons, addCounts, sum_cons, ← add_assoc]
    by_cases hc : Fits (acc + c)
    · rw [if_pos hc]
      exact ih _ hc
    · rw [if_neg hc, if_neg]
      · rfl
      · rintro ⟨hl, hr⟩
        exact hc ⟨(Nat.le_add_right _ _).trans_lt hl, (Nat.le_add_right _ _).trans_lt hr⟩

theorem fst_sum (l : List (Nat × Nat)) : l.sum.1 = (l.map (·.1)).sum :=
  map_list_sum (AddMonoidHom.fst Nat Nat) l

theorem snd_sum (l : List (Nat × Nat)) : l.sum.2 = (l.map (·.2)).sum :=
  map_list_sum (AddMonoidHom.snd Nat Nat) l

/-! ## Exact counts -/

def lacking (inventory other : CompactReplicationInventory) : List EnvelopeId :=
  other.envelopes.toList.filter (· ∉ inventory.envelopes)

def differenceAt (inventory peer : CompactReplicationInventory) (key : RangeKey) : Nat × Nat :=
  (((peer.chunk key).filter (· ∉ inventory.chunk key)).length,
    ((inventory.chunk key).filter (· ∉ peer.chunk key)).length)

def difference (inventory peer : CompactReplicationInventory) : Nat × Nat :=
  ((lacking inventory peer).length, (lacking peer inventory).length)

theorem length_lacking {own other : CompactReplicationInventory} {keys : List RangeKey}
    (hn : keys.Nodup) (hk : other.keys ⊆ keys) : (lacking own other).length =
      (keys.map fun key => ((other.chunk key).filter (· ∉ own.chunk key)).length).sum := by
  have hl : ∀ id ∈ lacking own other, id.rangeKey ∈ keys.toFinset := fun id hi =>
    mem_toFinset.mpr (hk (mem_keys.mpr ⟨id, (mem_filter.mp hi).1, rfl⟩))
  have hc :=
    Multiset.sum_count_eq_card (s := keys.toFinset)
      (m := (lacking own other).map EnvelopeId.rangeKey)
    (by simpa using hl)
  rw [Multiset.coe_card, length_map] at hc
  rw [← hc, ← sum_toFinset _ hn]
  refine Finset.sum_congr rfl fun key _ => ?_
  rw [Multiset.coe_count, count, countP_map, countP_eq_length_filter, lacking, filter_filter,
    show other.chunk key = other.envelopes.toList.filter (·.rangeKey = key) from rfl, filter_filter]
  refine congrArg length (filter_congr fun id _ => ?_)
  by_cases hr : id.rangeKey = key
  · simp [hr, mem_chunk]
  · simp [hr]

theorem difference_eq_sum (own peer : CompactReplicationInventory) : difference own peer =
    (peer.keys.map (differenceAt own peer)).sum +
      (0, ((own.keys.filter (· ∉ peer.keys)).map fun key => (own.chunk key).length).sum) := by
  have hd : ∀ i : CompactReplicationInventory, i.keys.Nodup := fun i => i.keys_sorted.nodup
  have hn : (peer.keys ++ own.keys.filter (· ∉ peer.keys)).Nodup :=
    (hd peer).append ((hd own).filter _) fun key hk hf => of_decide_eq_true (mem_filter.mp hf).2 hk
  have hk : own.keys ⊆ peer.keys ++ own.keys.filter (· ∉ peer.keys) := by
    intro key hi
    by_cases hp : key ∈ peer.keys <;> simp [hi, hp]
  have hu : ∀ key ∈ own.keys.filter (· ∉ peer.keys),
      ((own.chunk key).filter (· ∉ peer.chunk key)).length = (own.chunk key).length := by
    intro key hy
    simp [not_not.mp (mt chunk_ne_nil_iff.mp (of_decide_eq_true (mem_filter.mp hy).2))]
  rw [difference, length_lacking (hd peer) (List.Subset.refl _), length_lacking hn hk,
    map_append, sum_append, map_congr_left hu]
  refine Prod.ext ?_ ?_
  · simp [fst_sum, Function.comp_def, differenceAt]
  · simp [snd_sum, Function.comp_def, differenceAt]

theorem filter_notMem_self {α : Type} [DecidableEq α] (l : List α) :
    l.filter (· ∉ l) = [] := by simp

theorem length_le_add_filter {α : Type} [DecidableEq α] {l m : List α} (h : l.Nodup) :
    l.length ≤ m.length + (l.filter (· ∉ m)).length := by
  have hs : (l.filter (· ∈ m)).length ≤ m.length :=
    ((h.filter _).subperm fun a ha => of_decide_eq_true (mem_filter.mp ha).2).length_le
  have ha := l.length_eq_length_filter_add (fun a => decide (a ∈ m))
  simp only [← decide_not] at ha
  omega

variable {digest} {own peer : CompactReplicationInventory} {remote : ReplicationInventory Digest}

omit [DecidableEq Digest] in
theorem forall_buckets_ne {key : RangeKey} :
    (∀ b ∈ own.buckets digest, b.key ≠ key) ↔ key ∉ own.keys := by
  simp [buckets, bucket, forall_mem_ne']

section
variable (hb : ∀ id ∈ own.envelopes, id.sequence < u64Max) (hd : Function.Injective digest)
include hb hd

/-- What a range of an honest peer adds is at most what the two sides lack of it, and is that if the
range is listed or does not differ. -/
theorem rangeCounts_le {key : RangeKey} (hk : key ∈ peer.keys) :
    let counts := rangeCounts digest own remote (peer.bucket digest key)
    counts ≤ differenceAt own peer key ∧
        ((key ∈ differingKeys own peer → remoteListed remote key = peer.chunk key) →
        counts = differenceAt own peer key) := by
  have hn := chunk_ne_nil_iff.mpr hk
  unfold rangeCounts differenceAt
  simp only [forall_buckets_ne, bucket, hd.eq_iff, range_eq_chunk hb (start_mod_of_mem_keys hk)]
  by_cases hm : key ∈ own.keys
  · by_cases he : own.chunk key = peer.chunk key
    · rw [if_neg (not_not.mpr hm), if_pos he, he, filter_notMem_self]
      exact ⟨le_rfl, fun _ => rfl⟩
    · by_cases hl : remoteListed remote key = peer.chunk key
      · simp [hm, he, hl, hn]
      · have hp := length_le_add_filter (m := own.chunk key) (peer.chunk_sorted key).nodup
        have hi := length_le_add_filter (m := peer.chunk key) (own.chunk_sorted key).nodup
        rw [if_neg (not_not.mpr hm), if_neg he, if_neg fun h => hl h.2.2]
        refine ⟨⟨by simp only; omega, by simp only; omega⟩, fun h => absurd (h ?_) hl⟩
        exact mem_differingKeys.mpr ⟨hm, hk, Ne.symm he⟩
  · simp [hm, not_not.mp (mt chunk_ne_nil_iff.mp hm)]

theorem sum_additions_le (hs : Shows digest remote peer) :
    (additions digest own remote).sum ≤ difference own peer ∧
      ((∀ key ∈ differingKeys own peer, remoteListed remote key = peer.chunk key) →
        (additions digest own remote).sum = difference own peer) := by
  have hc := fun key hk => @rangeCounts_le Digest digest _ own peer remote hb hd key hk
  rw [difference_eq_sum, additions, hs]
  simp only [forall_buckets_ne]
  rw [buckets, buckets, map_map, filter_map, map_map, sum_append, sum_singleton]
  refine ⟨add_le_add_left (sum_le_sum fun key hk => (hc key hk).1) _, fun hl => congrArg₂ _ ?_ rfl⟩
  exact congrArg sum (map_congr_left fun key hk => (hc key hk).2 (hl key))

end

theorem length_filter_mem (hb : ∀ id ∈ own.envelopes, id.sequence < u64Max)
    (peer : CompactReplicationInventory) :
    let shared := (peer.envelopes.toList.filter fun id => id ∈ own.range id.rangeKey).length
    (peer.envelopes.toList.length - shared, own.envelopes.toList.length - shared) =
        difference own peer := by
  have hr : ∀ id, id ∈ own.range id.rangeKey ↔ id ∈ own.envelopes := by
    intro id
    rw [range_eq_chunk hb (replicationBucketStart_mod _), mem_chunk, and_iff_left rfl]
  have hs : peer.envelopes.toList.filter (· ∈ own.envelopes) =
      own.envelopes.toList.filter (· ∈ peer.envelopes) := by
    refine OrdSet.toList_ext (peer.envelopes.sorted.filter _) (own.envelopes.sorted.filter _)
      fun id => ?_
    simp only [mem_filter, OrdSet.mem_def, decide_eq_true_eq, and_comm]
  have hp :=
    peer.envelopes.toList.length_eq_length_filter_add (fun id => decide (id ∈ own.envelopes))
  have hi :=
    own.envelopes.toList.length_eq_length_filter_add (fun id => decide (id ∈ peer.envelopes))
  simp only [hr, difference, lacking, ← decide_not, Prod.mk.injEq] at hp hi ⊢
  rw [hs] at hp ⊢
  omega

variable {inventoryDigest : List EnvelopeId → Digest} {inventory : CompactReplicationInventory}

structure SentBy (inventoryDigest digest : List EnvelopeId → Digest)
    (peer : CompactReplicationInventory) (remote : SentInventory Digest) : Prop where
  whole : remote.digest = some (inventoryDigest peer.envelopes.toList)
  ranges : Shows digest remote.toReplicationInventory peer ∨ remote.buckets = []

/-- Every range that differs is listed. Without ranges the whole inventory is. -/
def ListsDiffering (inventory peer : CompactReplicationInventory)
    (remote : ReplicationInventory Digest) : Prop :=
  if remote.buckets = [] then remote.envelopes = peer.envelopes.toList
  else ∀ key ∈ differingKeys inventory peer, remoteListed remote key = peer.chunk key

/-- No addition overflows, and the counts of an honest peer are exact or at least not too high. -/
def CountsRight (inventoryDigest digest : List EnvelopeId → Digest)
    (inventory : CompactReplicationInventory) (remote : SentInventory Digest) : Prop :=
  let counted := replicationInventoryDifference digest inventoryDigest inventory remote
  counted ≠ .overflow ∧ ∀ peer, SentBy inventoryDigest digest peer remote →
    (∀ only, counted = .counts only → only ≤ difference inventory peer) ∧
    (ListsDiffering inventory peer remote.toReplicationInventory →
      counted = .counts (difference inventory peer))

theorem countsRight_of_counts {only : Nat × Nat} {remote : SentInventory Digest}
    (hc : replicationInventoryDifference digest inventoryDigest inventory remote = .counts only)
    (h : ∀ peer, SentBy inventoryDigest digest peer remote → only ≤ difference inventory peer ∧
      (ListsDiffering inventory peer remote.toReplicationInventory →
        only = difference inventory peer)) :
    CountsRight inventoryDigest digest inventory remote := by
  unfold CountsRight
  rw [hc]
  refine ⟨nofun, fun peer hp => ⟨?_, fun hl => congrArg _ ((h peer hp).2 hl)⟩⟩
  rintro _ ⟨⟩
  exact (h peer hp).1

/-- The counts are right exactly when the sums of what the peer says fit in 64 bits. -/
theorem inventory_counts_right_iff (hd : Function.Injective digest)
    (hi : Function.Injective inventoryDigest) (inventory : CompactReplicationInventory)
    (hb : ∀ id ∈ inventory.envelopes, id.sequence < u64Max) (remote : SentInventory Digest) :
    CountsRight inventoryDigest digest inventory remote ↔
      remote.digest = some (inventoryDigest inventory.envelopes.toList) ∨ remote.buckets = [] ∨
        Fits (additions digest inventory remote.toReplicationInventory).sum := by
  have hf :=
    foldlM_addCounts (additions digest inventory remote.toReplicationInventory) 0 (by decide)
  rw [zero_add] at hf
  constructor
  · intro h
    by_contra hn
    obtain ⟨hw, hr, hn⟩ : _ ∧ _ ∧ _ := by simpa only [not_or] using hn
    refine h.1 ?_
    rw [replicationInventoryDifference, if_neg hw, if_pos hr, hf, if_neg hn]
  · intro h
    by_cases hw : remote.digest = some (inventoryDigest inventory.envelopes.toList)
    · refine countsRight_of_counts (if_pos hw) fun peer hp => ?_
      have he := hi (Option.some.inj (hw.symm.trans hp.whole))
      simp only [difference, lacking, OrdSet.mem_def, he, filter_notMem_self]
      exact ⟨le_rfl, fun _ => rfl⟩
    by_cases hr : remote.buckets = []
    · by_cases hl : remote.digest = some (inventoryDigest remote.envelopes)
      · refine countsRight_of_counts
          ((if_neg hw).trans ((if_neg (not_not.mpr hr)).trans (if_pos hl))) fun peer hp => ?_
        rw [hi (Option.some.inj (hl.symm.trans hp.whole)), length_filter_mem hb peer]
        exact ⟨le_rfl, fun _ => rfl⟩
      · unfold CountsRight
        rw [replicationInventoryDifference, if_neg hw, if_neg (not_not.mpr hr), if_neg hl]
        refine ⟨nofun, fun peer hp => ⟨nofun, fun ht => absurd ?_ hl⟩⟩
        rw [ListsDiffering, if_pos hr] at ht
        rw [ht, hp.whole]
    · rw [if_pos ((h.resolve_left hw).resolve_left hr)] at hf
      refine countsRight_of_counts ((if_neg hw).trans ((if_pos hr).trans (by rw [hf])))
        fun peer hp => ?_
      obtain ⟨hle, heq⟩ := sum_additions_le hb hd (hp.ranges.resolve_right hr)
      rw [ListsDiffering, if_neg hr]
      exact ⟨hle, heq⟩

end

theorem bothHeld_counted :
    CountsRight id id bothHeld ⟨firstShown, some firstSent.envelopes.toList⟩ :=
  (inventory_counts_right_iff Function.injective_id Function.injective_id bothHeld
    (by decide +kernel) _).mpr
    (.inr (.inr (by decide +kernel)))

theorem counts_overflow : replicationInventoryDifference id id bothHeld
    ⟨⟨[], [⟨⟨"b", 0⟩, 2 ^ 63, []⟩, ⟨⟨"c", 0⟩, 2 ^ 63, []⟩], none⟩, none⟩ = .overflow := by
  decide +kernel

end Smalltalk
