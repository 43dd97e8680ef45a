import Smalltalk.Lib.Merge
import Smalltalk.Exchange.Difference

/-!
# Exchanges converge

An exchange loses nothing. It moves something unless both replicas have the same ranges and
the two listings start from ranges where the sender has nothing new.
-/

namespace Smalltalk

open List CompactReplicationInventory Nat OrdSet Finset

/-! ## The turns reach every range -/

/-- A scaled interval of `width / len` numbers holds `step` in a row. -/
theorem exists_mul_div_eq {width step len i : Nat} (hf : step * len ≤ width) (hi : i < len) :
    ∃ low, low + step ≤ width ∧ ∀ x, low ≤ x → x < low + step → x * len / width = i := by
  have hn : 0 < len := by omega
  obtain ⟨low, hb, ha⟩ : ∃ low, i * width ≤ low * len ∧ low * len < i * width + len := by
    refine ⟨(i * width + (len - 1)) / len, ?_, ?_⟩
    · have hd := div_add_mod' (i * width + (len - 1)) len
      have hm := mod_lt (i * width + (len - 1)) hn
      omega
    · have := div_mul_le_self (i * width + (len - 1)) len
      omega
  have hs : (i + 1) * width ≤ len * width := Nat.mul_le_mul_right _ hi
  rw [Nat.add_mul, Nat.one_mul] at hs
  refine ⟨low, ?_, fun x hl hx => ?_⟩
  · by_contra ht
    have ho : (width + 1) * len ≤ (low + step) * len := Nat.mul_le_mul_right _ (by omega)
    rw [Nat.add_mul, Nat.one_mul, Nat.add_mul, Nat.mul_comm width] at ho
    omega
  · have hg : low * len ≤ x * len := Nat.mul_le_mul_right _ hl
    have hle : (x + 1) * len ≤ (low + step) * len := Nat.mul_le_mul_right _ hx
    rw [Nat.add_mul, Nat.one_mul, Nat.add_mul] at hle
    rw [Nat.div_eq_iff (by omega)]
    constructor
    · omega
    · omega

theorem exists_mul_modEq_gcd (n : Nat) {k : Nat} (hk : 0 < k) : ∃ m, n * m ≡ n.gcd k [MOD k] := by
  rcases (gcd_le_right n hk).lt_or_eq with hl | heq
  · obtain ⟨m, _, hm⟩ := exists_mul_mod_eq_gcd hl
    exact ⟨m, by rw [Nat.ModEq, hm, mod_eq_of_lt hl]⟩
  · exact ⟨0, by rw [heq, Nat.ModEq, mul_zero, zero_mod, mod_self]⟩

/-- A step that is added over and over lands in every interval of its length. -/
theorem exists_add_mul_mod_mem {width step low : Nat} (start : Nat) (hs : 0 < step)
    (hl : low + step ≤ width) :
    ∃ q, low ≤ (start + step * q) % width ∧ (start + step * q) % width < low + step := by
  have ht := mod_lt start (show 0 < width by omega)
  have hd := div_add_mod (low + width - start % width + (step - 1)) step
  have hm := mod_lt (low + width - start % width + (step - 1)) hs
  refine ⟨(low + width - start % width + (step - 1)) / step, ?_⟩
  set reach := step * ((low + width - start % width + (step - 1)) / step)
  have hv : (start + reach) % width = start % width + reach - width := by
    rw [← mod_add_mod, mod_eq_sub_mod (by omega), mod_eq_of_lt (by omega)]
  rw [hv]
  omega

/-- Turns taken at a stride reach every range, again and again, while the ranges fit the stride. -/
theorem exists_listingTurnStart_eq {stride len i : Nat} (start l : Nat) (hs : 0 < stride)
    (hf : stride * len ≤ 2 ^ 64) (hi : i < len) :
    ∃ n ≥ l, listingTurnStart (start + stride * n) len = i := by
  -- The golden constant is odd, so a stride only loses its own powers of two.
  have ho : Nat.Coprime (2 ^ 64) 0x9E3779B97F4A7C15 := by decide
  obtain ⟨m, hm⟩ := exists_mul_modEq_gcd (stride * 0x9E3779B97F4A7C15) (show 0 < 2 ^ 64 by decide)
  set common := (stride * 0x9E3779B97F4A7C15).gcd (2 ^ 64)
  have hle : common ≤ stride :=
    le_of_dvd hs ((ho.coprime_dvd_left (Nat.gcd_dvd_right _ _)).dvd_of_dvd_mul_right
      (Nat.gcd_dvd_left _ _))
  obtain ⟨low, hl, hh⟩ := exists_mul_div_eq ((mul_le_mul_right len hle).trans hf) hi
  obtain ⟨q, hq⟩ := exists_add_mul_mod_mem (start * 0x9E3779B97F4A7C15)
    (gcd_pos_of_pos_right _ (by decide) : 0 < common) hl
  refine ⟨m * q + 2 ^ 64 * l, by omega, ?_⟩
  have ht : (start + stride * (m * q + 2 ^ 64 * l)) * 0x9E3779B97F4A7C15 ≡
      start * 0x9E3779B97F4A7C15 + common * q [MOD 2 ^ 64] := by
    calc (start + stride * (m * q + 2 ^ 64 * l)) * 0x9E3779B97F4A7C15
        = start * 0x9E3779B97F4A7C15 + stride * 0x9E3779B97F4A7C15 * m * q +
            stride * l * 0x9E3779B97F4A7C15 * 2 ^ 64 := by ring
      _ ≡ start * 0x9E3779B97F4A7C15 + stride * 0x9E3779B97F4A7C15 * m * q [MOD 2 ^ 64] :=
          add_mul_modulus_modEq_iff.mpr rfl
      _ ≡ start * 0x9E3779B97F4A7C15 + common * q [MOD 2 ^ 64] := (hm.mul_right q).add_left _
  rw [listingTurnStart, ht]
  exact hh _ hq.1 hq.2

/-! ## One exchange -/

namespace Replica

def set (replica : Replica) : Finset EnvelopeId := replica.inventory.envelopes.toFinset

variable {r : Replica} {ids : List EnvelopeId}

theorem mem_set_extend {id : EnvelopeId} : id ∈ (r.extend ids).set ↔ id ∈ r.set ∨ id ∈ ids :=
  mem_extend

theorem full_extend {other : Replica} (h : r.inventory.Full) (ho : other.inventory.Full)
    (hd : ∀ id ∈ ids, id ∈ other.set) : (r.extend ids).inventory.Full where
  payloads := h.payloads
  bounded := by
    intro id hi
    rcases mem_extend.mp hi with hi | hi
    · exact h.bounded id hi
    · exact ho.bounded id (hd id hi)

end Replica

theorem merges_extend_left (own peer : Replica) {ids : List EnvelopeId}
    (hd : ∀ id ∈ ids, id ∈ peer.set) :
    Merges (own.set, peer.set) ((own.extend ids).set, peer.set) where
  left := fun _ hi => Replica.mem_set_extend.mpr (.inl hi)
  right := Finset.Subset.refl _
  left_le := by
    intro id hi
    rcases Replica.mem_set_extend.mp hi with hi | hi
    · exact mem_union_left _ hi
    · exact Finset.mem_union_right _ (hd id hi)
  right_le := subset_union_right

theorem merges_extend_right (own peer : Replica) {ids : List EnvelopeId}
    (hd : ∀ id ∈ ids, id ∈ own.set) :
    Merges (own.set, peer.set) (own.set, (peer.extend ids).set) where
  left := Finset.Subset.refl _
  right := fun _ hi => Replica.mem_set_extend.mpr (.inl hi)
  left_le := subset_union_left
  right_le := by
    intro id hi
    rcases Replica.mem_set_extend.mp hi with hi | hi
    · exact Finset.mem_union_right _ hi
    · exact mem_union_left _ (hd id hi)

section
variable {Digest : Type} [DecidableEq Digest] {digest : List EnvelopeId → Digest}

omit [DecidableEq Digest] in
theorem shows_summary (r : Replica) : Shows digest (r.summary digest) r.inventory := rfl

theorem shows_answer (r : Replica) (remote : ReplicationInventory Digest) (turn : Nat) :
    Shows digest (r.answer digest remote turn).2 r.inventory := rfl

section
variable (hd : Function.Injective digest) {own p : Replica} (ho : own.inventory.Full)
  (hfull : p.inventory.Full) (turns : Turns)

include hd

theorem mem_firstAnswer : ∀ id ∈ (firstAnswer digest turns own p).1, id ∈ p.set ∧ id ∉ own.set :=
  mem_answer hd (shows_summary own)

theorem mem_pushAnswer : ∀ id ∈ (pushAnswer digest turns own p).1,
    id ∈ (own.extend (firstAnswer digest turns own p).1).set ∧ id ∉ p.set :=
  mem_answer hd (shows_answer p _ _)

theorem mem_secondAnswer : ∀ id ∈ (secondAnswer digest turns own p).1,
    id ∈ (p.extend (pushAnswer digest turns own p).1).set ∧
    id ∉ (own.extend (firstAnswer digest turns own p).1).set :=
  mem_answer hd (shows_answer _ _ _)

/-- An exchange loses nothing and invents nothing. -/
theorem merges_exchange : Merges (own.set, p.set)
    ((exchange digest turns own p).1.set, (exchange digest turns own p).2.set) := by
  have hl : Merges (own.set, p.set) ((own.extend (firstAnswer digest turns own p).1).set, p.set) :=
    merges_extend_left own p fun id hi => (mem_firstAnswer hd turns id hi).1
  have hp :=
    merges_extend_right (own.extend (firstAnswer digest turns own p).1) p
      fun id hi => (mem_pushAnswer hd turns id hi).1
  have ha := merges_extend_left (own.extend (firstAnswer digest turns own p).1)
    (p.extend (pushAnswer digest turns own p).1) fun id hi => (mem_secondAnswer hd turns id hi).1
  exact (hl.trans hp).trans ha

/-- An exchange that changes neither side sends nothing at all. -/
theorem answers_nil_of_idle
    (h : ((exchange digest turns own p).1.set, (exchange digest turns own p).2.set) =
      (own.set, p.set)) :
    (firstAnswer digest turns own p).1 = [] ∧ (pushAnswer digest turns own p).1 = [] ∧
      (secondAnswer digest turns own p).1 = [] := by
  obtain ⟨hl, hr⟩ := Prod.mk.inj h
  refine ⟨eq_nil_iff_forall_not_mem.mpr fun id hi => ?_,
    eq_nil_iff_forall_not_mem.mpr fun id hi => ?_, eq_nil_iff_forall_not_mem.mpr fun id hi => ?_⟩
  · apply (mem_firstAnswer hd turns id hi).2
    rw [← hl]
    exact Replica.mem_set_extend.mpr (.inl (Replica.mem_set_extend.mpr (.inr hi)))
  · apply (mem_pushAnswer hd turns id hi).2
    rw [← hr]
    exact Replica.mem_set_extend.mpr (.inr hi)
  · apply (mem_secondAnswer hd turns id hi).2
    refine Replica.mem_set_extend.mpr (.inl ?_)
    rw [← hl]
    exact Replica.mem_set_extend.mpr (.inr hi)

include ho hfull

theorem full_pulled : (own.extend (firstAnswer digest turns own p).1).inventory.Full :=
  Replica.full_extend ho hfull fun id hi => (mem_firstAnswer hd turns id hi).1

theorem full_pushed : (p.extend (pushAnswer digest turns own p).1).inventory.Full :=
  Replica.full_extend hfull (full_pulled hd ho hfull turns) fun id hi =>
    (mem_pushAnswer hd turns id hi).1

theorem full_exchange :
    (exchange digest turns own p).1.inventory.Full ∧
    (exchange digest turns own p).2.inventory.Full :=
  ⟨Replica.full_extend (full_pulled hd ho hfull turns) (full_pushed hd ho hfull turns)
    fun id hi => (mem_secondAnswer hd turns id hi).1, full_pushed hd ho hfull turns⟩

end

structure Stuck (turns : Turns) (own peer : Replica) : Prop where
  keys : own.inventory.keys = peer.inventory.keys
  pulled : ∀ key, (differingKeys own.inventory peer.inventory)[
      listingTurnStart turns.first
        (differingKeys own.inventory peer.inventory).length]? = some key →
    own.inventory.chunk key ⊆ peer.inventory.chunk key
  pushed : ∀ key, (differingKeys own.inventory peer.inventory)[
      listingTurnStart turns.push (differingKeys own.inventory peer.inventory).length]? = some key →
    peer.inventory.chunk key ⊆ own.inventory.chunk key

theorem differingKeys_comm {inventory i' : CompactReplicationInventory}
    (h : inventory.keys = i'.keys) : differingKeys inventory i' = differingKeys i' inventory := by
  unfold differingKeys
  rw [h]
  apply List.filter_congr
  intro key _
  rw [decide_eq_decide, ne_comm]

variable {turns : Turns} {peer : Replica}

theorem stuck_of_idle (hinjective : Function.Injective digest) {own peer : Replica}
    (hown : own.inventory.Full) (hfull' : peer.inventory.Full)
    (h : ((exchange digest turns own peer).1.set, (exchange digest turns own peer).2.set) =
      (own.set, peer.set)) :
    Stuck turns own peer := by
  obtain ⟨hf, hp, hs⟩ := answers_nil_of_idle hinjective turns h
  -- Nothing was received before the push, and nothing before the second answer.
  rw [secondAnswer, hp] at hs
  rw [pushAnswer, hf] at hp hs
  have hsubset := keys_subset_of_answer_nil hfull' hinjective (shows_summary own) hf
  have ho := keys_subset_of_answer_nil hown hinjective (shows_answer peer _ _) hp
  have hy : own.inventory.keys = peer.inventory.keys :=
    toList_ext (keys_sorted _) (keys_sorted _) fun key => ⟨fun h => ho h, fun h => hsubset h⟩
  refine ⟨hy, fun key hk => ?_, fun key hk => ?_⟩
  · obtain ⟨hm, _⟩ := mem_differingKeys.mp (mem_of_getElem? hk)
    rw [differingKeys_comm hy] at hk
    exact chunk_subset_of_answer_nil hown hinjective (shows_answer peer _ _) hp hm
      (remoteListed_first hfull' hinjective (shows_summary own) hk)
  · obtain ⟨_, hm, _⟩ := mem_differingKeys.mp (mem_of_getElem? hk)
    exact chunk_subset_of_answer_nil hfull' hinjective (shows_answer own _ _) hs hm
      (remoteListed_first hown hinjective (shows_answer peer _ _) hk)

theorem differingKeys_ne_nil {own : Replica} (hy : own.inventory.keys = peer.inventory.keys)
    (hne : own.set ≠ peer.set) : differingKeys own.inventory peer.inventory ≠ [] := by
  intro hn
  have hc : ∀ key, peer.inventory.chunk key = own.inventory.chunk key := by
    intro key
    by_cases hk : key ∈ own.inventory.keys
    · by_contra hd
      have : key ∈ differingKeys own.inventory peer.inventory :=
        mem_differingKeys.mpr ⟨hk, hy ▸ hk, hd⟩
      rw [hn] at this
      cases this
    · have hown : own.inventory.chunk key = [] := not_not.mp (mt chunk_ne_nil_iff.mp hk)
      have h : peer.inventory.chunk key = [] := not_not.mp (mt chunk_ne_nil_iff.mp (hy ▸ hk))
      rw [hown, h]
  apply hne
  apply Finset.ext
  intro id
  have hi : id ∈ own.inventory.chunk id.rangeKey ↔ id ∈ peer.inventory.chunk id.rangeKey := by
    rw [hc]
  rw [mem_chunk, mem_chunk, and_iff_left rfl, and_iff_left rfl] at hi
  exact hi

theorem chunk_eq_of_subset {own : Replica} {key : RangeKey}
    (hown : own.inventory.chunk key ⊆ peer.inventory.chunk key)
    (hsubset : peer.inventory.chunk key ⊆ own.inventory.chunk key) :
    peer.inventory.chunk key = own.inventory.chunk key :=
  toList_ext (chunk_sorted _ _) (chunk_sorted _ _) fun _ => ⟨fun h => hsubset h, fun h => hown h⟩

def SameStart (turns : Turns) (own peer : Replica) : Prop :=
  listingTurnStart turns.first (differingKeys own.inventory peer.inventory).length =
    listingTurnStart turns.push (differingKeys own.inventory peer.inventory).length

theorem exists_listed_first {own : Replica} (hk : own.inventory.keys = peer.inventory.keys)
    (hn : own.set ≠ peer.set) (turn : Nat) : ∃ key, (differingKeys own.inventory peer.inventory)[
      listingTurnStart turn (differingKeys own.inventory peer.inventory).length]? = some key ∧
        peer.inventory.chunk key ≠ own.inventory.chunk key := by
  have hp := length_pos_iff.mpr (differingKeys_ne_nil hk hn)
  have hl := listingTurnStart_lt turn hp
  exact ⟨_, getElem?_eq_getElem hl, (mem_differingKeys.mp (getElem_mem hl)).2.2⟩

theorem Stuck.set_eq_of_sameStart {own : Replica} (h : Stuck turns own peer)
    (hs : SameStart turns own peer) : own.set = peer.set := by
  by_contra hn
  obtain ⟨key, hk, hd⟩ := exists_listed_first h.keys hn turns.first
  have hp := h.pulled key hk
  rw [hs] at hk
  exact hd (chunk_eq_of_subset hp (h.pushed key hk))

/-! ## Exchange after exchange -/

def exchanges (digest : List EnvelopeId → Digest) (turns : Nat → Turns) (own peer : Replica) :
    Nat → Replica × Replica
  | 0 => (own, peer)
  | n + 1 =>
    let sides := exchanges digest turns own peer n
    exchange digest (turns n) sides.1 sides.2

def sets (sides : Replica × Replica) : Finset EnvelopeId × Finset EnvelopeId :=
  (sides.1.set, sides.2.set)

section
variable (hd : Function.Injective digest) {own p : Replica} (ho : own.inventory.Full)
  (hp : p.inventory.Full) (turns : Nat → Turns)

include hd

theorem merges_exchanges (n : Nat) : Merges (sets (exchanges digest turns own p n))
    (sets (exchanges digest turns own p (n + 1))) :=
  merges_exchange hd (turns n)

include ho hp

theorem full_exchanges (n : Nat) : (exchanges digest turns own p n).1.inventory.Full ∧
    (exchanges digest turns own p n).2.inventory.Full := by
  induction n with
  | zero => exact ⟨ho, hp⟩
  | succ n ih => exact full_exchange hd ih.1 ih.2 (turns n)

theorem stuck_exchanges {n : Nat} (h : sets (exchanges digest turns own p (n + 1)) =
    sets (exchanges digest turns own p n)) :
    Stuck (turns n) (exchanges digest turns own p n).1 (exchanges digest turns own p n).2 := by
  obtain ⟨ho, hp⟩ := full_exchanges hd ho hp turns n
  exact stuck_of_idle hd ho hp h

end

def Sweeps (turn : Nat → Nat) (most : Nat) : Prop :=
  ∀ len ≤ most, ∀ i < len, ∀ late, ∃ n ≥ late, listingTurnStart (turn n) len = i

theorem sweeps_of_stride {stride most : Nat} (start : Nat) (hs : 0 < stride)
    (hf : stride * most ≤ 2 ^ 64) : Sweeps (fun n => start + stride * n) most := by
  intro len hl i hi l
  exact exists_listingTurnStart_eq start l hs ((mul_le_mul_left stride hl).trans hf) hi

theorem length_differingKeys_le (r : Replica) (i' : CompactReplicationInventory) :
    (differingKeys r.inventory i').length ≤ r.set.card := by
  have hy : r.inventory.keys.length ≤ r.inventory.envelopes.toList.length := by
    rw [← length_map EnvelopeId.rangeKey]
    apply List.Subperm.length_le
    apply subperm_of_subset (nodup _)
    intro key hk
    exact mem_ofList.mp hk
  exact (length_filter_le _ _).trans hy

theorem inventory_eq_of_set_eq {a b : Replica} (ha : a.inventory.Full) (hb : b.inventory.Full)
    (h : a.set = b.set) : a.inventory = b.inventory := by
  obtain ⟨⟨envelopes, payloadless⟩, _⟩ := a
  obtain ⟨⟨envelopes', payloadless'⟩, _⟩ := b
  obtain rfl : envelopes = envelopes' := toFinset_inj.mp h
  obtain rfl : payloadless = [] := ha.payloads
  obtain rfl : payloadless' = [] := hb.payloads
  rfl

/-- Exchanges come to rest only at equal replicas, if the turns of one of the two listings sweep
through the ranges. -/
theorem set_eq_of_rest (h : Function.Injective digest) {own peer : Replica}
    (hown : own.inventory.Full) (hfull' : peer.inventory.Full) {turns : Nat → Turns}
    (hs : Sweeps (fun n => (turns n).first) (own.set ∪ peer.set).card ∨
      Sweeps (fun n => (turns n).push) (own.set ∪ peer.set).card) {m : Nat}
    (hsets : ∀ n ≥ m, sets (exchanges digest turns own peer n) =
      sets (exchanges digest turns own peer m)) :
    (sets (exchanges digest turns own peer m)).1 =
      (sets (exchanges digest turns own peer m)).2 := by
  by_contra hne
  let sides := exchanges digest turns own peer
  have hf := full_exchanges h hown hfull' turns
  have ht : ∀ n ≥ m, Stuck (turns n) (sides n).1 (sides n).2 := fun n hn =>
    stuck_exchanges h hown hfull' turns ((hsets (n + 1) (by omega)).trans (hsets n hn).symm)
  have hm : ∀ n ≥ m, (sides n).1.inventory = (sides m).1.inventory ∧
      (sides n).2.inventory = (sides m).2.inventory := by
    intro n hn
    obtain ⟨hset, hg⟩ := Prod.mk.inj (hsets n hn)
    exact ⟨inventory_eq_of_set_eq (hf n).1 (hf m).1 hset,
      inventory_eq_of_set_eq (hf n).2 (hf m).2 hg⟩
  let differing := differingKeys (sides m).1.inventory (sides m).2.inventory
  have hlen : differing.length ≤ (own.set ∪ peer.set).card :=
    (length_differingKeys_le _ _).trans
      (card_le_card (Merges.of_le (merges_exchanges h turns) (zero_le m)).left_le)
  have hy := (ht m le_rfl).keys
  rcases hs with hs | hs
  · obtain ⟨key, hk, hd⟩ := exists_listed_first hy hne (turns m).push
    obtain ⟨hl, _⟩ := List.getElem?_eq_some_iff.mp hk
    obtain ⟨n, hn, hr⟩ := hs _ hlen _ hl m
    have hsubset := (ht n hn).pulled key
    rw [(hm n hn).1, (hm n hn).2, hr] at hsubset
    exact hd (chunk_eq_of_subset (hsubset hk) ((ht m le_rfl).pushed key hk))
  · obtain ⟨key, hk, hd⟩ := exists_listed_first hy hne (turns m).first
    obtain ⟨hl, _⟩ := List.getElem?_eq_some_iff.mp hk
    obtain ⟨n, hn, hr⟩ := hs _ hlen _ hl m
    have hp := (ht n hn).pushed key
    rw [(hm n hn).1, (hm n hn).2, hr] at hp
    exact hd (chunk_eq_of_subset ((ht m le_rfl).pulled key hk) (hp hk))

/-- An exchange loses nothing. It shrinks the difference when its listings start together, and
exchanges that do, or whose turns step on at a stride, end at the union. -/
theorem exchange_converges (hdigest : Function.Injective digest) (own peer : Replica)
    (hown : own.inventory.Full) (hpeer : peer.inventory.Full) :
    (∀ turns, own.set ⊆ (exchange digest turns own peer).1.set ∧
      peer.set ⊆ (exchange digest turns own peer).2.set ∧
      (exchange digest turns own peer).1.set ∪ (exchange digest turns own peer).2.set =
        own.set ∪ peer.set) ∧
    (∀ turns, SameStart turns own peer → own.set ≠ peer.set →
      (symmDiff (exchange digest turns own peer).1.set
        (exchange digest turns own peer).2.set).card < (symmDiff own.set peer.set).card) ∧
    (∀ turns : Nat → Turns, (∀ n, SameStart (turns n) (exchanges digest turns own peer n).1
        (exchanges digest turns own peer n).2) → ∀ n ≥ (symmDiff own.set peer.set).card,
      sets (exchanges digest turns own peer n) = (own.set ∪ peer.set, own.set ∪ peer.set)) ∧
    (∀ (turns : Nat → Turns) (start stride : Nat), 0 < stride →
      stride * (own.set ∪ peer.set).card ≤ 2 ^ 64 →
      (∀ n, (turns n).first = start + stride * n) ∨ (∀ n, (turns n).push = start + stride * n) →
      ∃ m, ∀ n ≥ m, sets (exchanges digest turns own peer n) =
        (own.set ∪ peer.set, own.set ∪ peer.set)) := by
  refine ⟨fun turns => ?_, fun turns hs hne => ?_, fun turns hs n hn => ?_,
    fun turns start stride hr hf ht => ?_⟩
  · have hm := @merges_exchange _ _ _ hdigest own peer turns
    exact ⟨hm.left, hm.right, hm.union_eq⟩
  · refine (merges_exchange hdigest turns).card_lt fun hi => ?_
    exact hne ((stuck_of_idle hdigest hown hpeer hi).set_eq_of_sameStart hs)
  · refine Merges.eq_union_of_moves (merges_exchanges hdigest turns) (fun n hne hi => hne ?_) hn
    exact (stuck_exchanges hdigest hown hpeer turns hi).set_eq_of_sameStart (hs n)
  · have hw := sweeps_of_stride start hr hf
    refine Merges.exists_eq_union (merges_exchanges hdigest turns) fun m hsets => ?_
    refine set_eq_of_rest hdigest hown hpeer ?_ hsets
    rcases ht with ht | ht
    · exact .inl (by rwa [funext ht])
    · exact .inr (by rwa [funext ht])

end

def smallReplica (ids : List EnvelopeId) : Replica where
  inventory := { envelopes := ofList ids }
  limits := { accepts := some 1, listing := 1 }

def aheadInQ : Replica := smallReplica [⟨"p", 1, "p1"⟩, ⟨"q", 1, "q1"⟩, ⟨"q", 2, "q2"⟩]

def aheadInP : Replica := smallReplica [⟨"p", 1, "p1"⟩, ⟨"p", 2, "p2"⟩, ⟨"q", 1, "q1"⟩]

theorem full_smallReplica {ids : List EnvelopeId} (h : ∀ id ∈ ids, id.sequence < u64Max) :
    (smallReplica ids).inventory.Full where
  payloads := rfl
  bounded := fun id hi => h id (mem_ofList.mp hi)

theorem ahead_replicas_meet : (exchange (fun ids => ids) ⟨0, 1, 1⟩ aheadInQ aheadInP).1.set ≠
      (exchange (fun ids => ids) ⟨0, 1, 1⟩ aheadInQ aheadInP).2.set ∧
    ∃ m, ∀ n ≥ m,
      sets (exchanges (fun ids => ids) (fun n => ⟨2 * n, 1 + n, 2 * n + 1⟩) aheadInQ aheadInP n) =
      (aheadInQ.set ∪ aheadInP.set, aheadInQ.set ∪ aheadInP.set) :=
  ⟨by decide +kernel,
    (exchange_converges Function.injective_id aheadInQ aheadInP
      (full_smallReplica (by decide +kernel))
      (full_smallReplica (by decide +kernel))).2.2.2 _ 1 1 (by decide) (by decide +kernel)
      (.inr fun n => by rw [one_mul])⟩

/-- Listings that start from different ranges can both miss, and the last
sequence of a writer is never sent. -/
theorem exchange_moves_nothing :
    (aheadInQ.inventory.Full ∧ aheadInP.inventory.Full ∧ aheadInQ.set ≠ aheadInP.set ∧
      sets (exchange (fun ids => ids) ⟨0, 1, 1⟩ aheadInQ aheadInP) = (aheadInQ.set, aheadInP.set)) ∧
    sets (exchange (fun ids => ids) ⟨0, 0, 0⟩ (smallReplica [])
      (smallReplica [⟨"w", u64Max, "h"⟩])) =
      ((smallReplica []).set, (smallReplica [⟨"w", u64Max, "h"⟩]).set) := by
  refine ⟨⟨full_smallReplica ?_, full_smallReplica ?_, ?_, ?_⟩, ?_⟩ <;> decide +kernel

end Smalltalk
