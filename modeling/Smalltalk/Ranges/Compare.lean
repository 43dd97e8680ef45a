import Smalltalk.Ranges.Exact

/-!
# Comparing claim ranges with a peer

A peer answers with its whole digest, its tops, the leaves of some tops and the ids of some
leaves. Each answer that differs leads one level down.
-/

namespace Smalltalk.Ranges

open List Option

open Projection (Accumulator accumulatorBytes)

def claimRangeVersion : Nat := 1

def claimRangeQueryTops : Nat := 4

def claimRangeQueryLeaves : Nat := 8

def claimRangeAnswerIds : Nat := 4096

def hexThree (n : Nat) : Text := (bigEndian 16 3 n).map hexByte

def idsInLeaf (s : State) (range : Nat) : List Text :=
  let ids :=
    if leafRanges ≤ range then s.ids
    else
      let stop := if range + 1 = leafRanges then [103] else hexThree (range + 1)
      s.ids.filter fun id => compareBytes id (hexThree range) ≠ .lt && compareBytes id stop = .lt
  (ids.insertionSort fun a b => compareBytes a b ≠ .gt).filter (leaf · = range)

/-! ## Answering -/

structure ClaimRangeQuery where
  tops : Bool
  leavesOf : List Nat
  idsOf : List Nat

structure ClaimRangeSummary where
  version : Nat
  retained : Option Digest
  tops : Option (List ClaimRange)
  leaves : List (Nat × List ClaimRange)
  ids : List (Nat × List Text)

/-- Leaves are listed whole until enough ids are. -/
def answerIds (s : State) : Nat → List Nat → List (Nat × List Text)
  | _, [] => []
  | listed, range :: ranges =>
    if claimRangeAnswerIds ≤ listed then []
    else if range < leafRanges then
      (range, idsInLeaf s range) :: answerIds s (listed + (idsInLeaf s range).length) ranges
    else answerIds s listed ranges

def summaryAnswering (s : State) (query : ClaimRangeQuery) : ClaimRangeSummary :=
  if s.complete then
    { version := claimRangeVersion
      retained := some (whole s)
      tops := if query.tops then some (tops s) else none
      leaves :=
        ((query.leavesOf.take claimRangeQueryTops).filter (· ≤ topRanges)).map
          fun top => (top, leaves s top)
      ids := answerIds s 0 (query.idsOf.take claimRangeQueryLeaves) }
  else { version := claimRangeVersion, retained := none, tops := none, leaves := [], ids := [] }

/-! ## Comparing -/

structure ClaimRangeComparison where
  same : Bool
  pair : Accumulator × Accumulator
  tops : List Nat
  leaves : List Nat
  missing : List Text

/-- The ranges the peer holds claims in whose population or digest differs. -/
def differing (own remote : List ClaimRange) : List Nat :=
  (remote.filter fun r => own.find? (·.range = r.range) ≠ some r).map (·.range)

section
variable (retired : Text → Bool)

/-- The ids of answered leaves that are neither retained here nor retired. -/
def examine (s : State) : Nat → List (Nat × List Text) → List Text
  | _, [] => []
  | examined, (range, ids) :: groups =>
    if leafRanges ≤ range ∨ claimRangeAnswerIds ≤ examined then examine s examined groups
    else
      (ids.filter fun id => leaf id = range && !(idsInLeaf s range).contains id && !retired id) ++
        examine s (examined + ids.length) groups

def compareClaimRanges (s : State) (remote : ClaimRangeSummary) : Option ClaimRangeComparison :=
  match remote.retained.filter fun _ => remote.version = claimRangeVersion with
  | none => none
  | some theirs =>
    if !s.complete then none
    else
      let pair := ((whole s).accumulator, theirs.accumulator)
      if whole s = theirs then some { same := true, pair, tops := [], leaves := [], missing := [] }
      else
        some
          { same := false
            pair
            tops := (remote.tops.map (differing (tops s))).getD []
            leaves := (remote.leaves.take claimRangeQueryTops).flatMap fun group =>
              if group.1 ≤ topRanges then differing (leaves s group.1) group.2 else []
            missing := examine retired s 0 (remote.ids.take claimRangeQueryLeaves) }

end

/-! ## The ids of a leaf are its retained claims -/

variable {id : Text} {s : State}

theorem eq_hexThree_append (h : regular id = true) : id = hexThree (leaf id) ++ id.drop 3 := by
  have hr := h
  simp only [regular, Bool.and_eq_true, decide_eq_true_eq, List.all_eq_true] at h
  obtain ⟨hl, ha⟩ := h
  obtain ⟨a, rest, rfl⟩ := exists_cons_of_length_pos (show 0 < id.length by omega)
  obtain ⟨b, rest, rfl⟩ := exists_cons_of_length_pos (show 0 < rest.length by simp at hl; omega)
  obtain ⟨c, rest, rfl⟩ := exists_cons_of_length_pos (show 0 < rest.length by simp at hl; omega)
  obtain ⟨x, hx⟩ := isSome_iff_exists.mp (ha a (by simp))
  obtain ⟨y, hy⟩ := isSome_iff_exists.mp (ha b (by simp))
  obtain ⟨z, hz⟩ := isSome_iff_exists.mp (ha c (by simp))
  have hx16 := hexDigit_lt hx
  have hy16 := hexDigit_lt hy
  have hz16 := hexDigit_lt hz
  have hf : leaf (a :: b :: c :: rest) = x * 256 + y * 16 + z := by
    rw [leaf, if_pos hr]
    simp [spell, hx, hy, hz]
    ring
  rw [hf, hexThree, bigEndian, bigEndian, bigEndian, bigEndian]
  have h2 : (x * 256 + y * 16 + z) / 16 ^ 2 % 16 = x := by omega
  have h1 : (x * 256 + y * 16 + z) / 16 ^ 1 % 16 = y := by omega
  have h0 : (x * 256 + y * 16 + z) / 16 ^ 0 % 16 = z := by omega
  rw [h2, h1, h0]
  simp [hexByte_of_hexDigit hx, hexByte_of_hexDigit hy, hexByte_of_hexDigit hz]

theorem compare_hexThree {n m : Nat} (hn : n < leafRanges) (hm : m < leafRanges) (r r' : Text) :
    compareBytes (hexThree n ++ r) (hexThree m ++ r') = (compare n m).then (compareBytes r r') := by
  have hb : ∀ d ∈ bigEndian 16 3 n, ∀ digit' ∈ bigEndian 16 3 m,
      compareByte (hexByte d) (hexByte digit') = compare d digit' := by
    intro d hd digit' hd'
    have h := bigEndian_lt (show 0 < 16 by omega) 3 n d hd
    have h' := bigEndian_lt (show 0 < 16 by omega) 3 m digit' hd'
    have : ∀ d < 16, ∀ digit' < 16,
      compareByte (hexByte d) (hexByte digit') = compare d digit' := by decide
    exact this d h digit' h'
  have hl : (hexThree n).length = (hexThree m).length := by simp [hexThree, length_bigEndian]
  rw [compareBytes, compareLex_append hl, hexThree, hexThree, compareLex_map hb,
    compare_bigEndian (by omega), Nat.mod_eq_of_lt (by exact hn), Nat.mod_eq_of_lt (by exact hm)]

variable {range : Nat} {r : ClaimRangeSummary}

theorem mem_idsInLeaf : id ∈ idsInLeaf s range ↔ id ∈ s.ids ∧ leaf id = range := by
  unfold idsInLeaf
  simp only [mem_filter, mem_insertionSort, decide_eq_true_eq]
  refine and_congr_left fun hf => ?_
  split
  · rfl
  · rename_i hgt
    rw [mem_filter]
    refine and_iff_left_of_imp fun _ => ?_
    -- The id starts with the leaf's digits, so it is in the range of texts.
    have hr : regular id = true := by
      by_contra hn
      rw [leaf, if_neg hn] at hf
      omega
    have hi := eq_hexThree_append hr
    have hl : range < leafRanges := by omega
    rw [hf] at hi
    simp only [Bool.and_eq_true, decide_eq_true_eq]
    constructor
    · have hc := compare_hexThree hl hl (id.drop 3) []
      rw [← hi, append_nil, Nat.compare_eq_eq.mpr rfl] at hc
      rw [hc]
      cases id.drop 3 <;> simp [Ordering.then]
    · split
      · rename_i hs
        have hb : hexThree range = [102, 102, 102] := by
          have : range = 4095 := Nat.succ_injective hs
          rw [this]
          decide
        have hbyte : compareByte 102 103 = .lt := rfl
        rw [hi, hb]
        simp [hbyte]
      · have hc := compare_hexThree hl (show range + 1 < leafRanges by omega) (id.drop 3) []
        rw [← hi, append_nil, Nat.compare_eq_lt.mpr (Nat.lt_succ_self range)] at hc
        exact hc

/-! ## Nothing held or retired is named -/

theorem mem_examine {retired : Text → Bool} {groups : List (Nat × List Text)} :
    ∀ {e : Nat}, id ∈ examine retired s e groups → id ∉ s.ids ∧ retired id = false := by
  induction groups with
  | nil => intro e h; cases h
  | cons g groups ih =>
    intro e h
    obtain ⟨range, ids⟩ := g
    unfold examine at h
    split at h
    · exact ih h
    · rcases mem_append.mp h with h | h
      · have hc := (mem_filter.mp h).2
        simp only [Bool.and_eq_true, decide_eq_true_eq, Bool.not_eq_true', contains_eq_mem,
          decide_eq_false_iff_not] at hc
        exact ⟨fun hi => hc.1.2 (mem_idsInLeaf.mpr ⟨hi, hc.1.1⟩), hc.2⟩
      · exact ih h

theorem compareClaimRanges_missing {retired : Text → Bool}
    {comparison : ClaimRangeComparison} (h : compareClaimRanges retired s r = some comparison)
    (hi : id ∈ comparison.missing) : id ∉ s.ids ∧ retired id = false := by
  unfold compareClaimRanges at h
  split at h
  · cases h
  · split at h
    · cases h
    · simp only at h
      split at h
      · cases h
        cases hi
      · cases h
        exact mem_examine hi

/-! ## Everything missing is found -/

variable {hash : Text → Accumulator}

structure NoCollision (hash : Text → Accumulator) (ids ids' : List Text) : Prop where
  whole : digestOf hash ids = digestOf hash ids' → ∀ id, id ∈ ids ↔ id ∈ ids'
  range : ∀ key, digestOf hash (ids.filter (key ∈ ranges ·)) =
    digestOf hash (ids'.filter (key ∈ ranges ·)) → ∀ id, key ∈ ranges id → (id ∈ ids ↔ id ∈ ids')

theorem find?_readRanges (digests : Digests) (l range : Nat) (keys : List Nat) :
    (keys.filterMap fun range => (digests.get? (l, range)).map fun d =>
      (⟨range, d.count, d.accumulator⟩ : ClaimRange)).find? (·.range = range) =
      if range ∈ keys then (digests.get? (l, range)).map fun d => ⟨range, d.count, d.accumulator⟩
      else none := by
  induction keys with
  | nil => rfl
  | cons key keys ih =>
    by_cases hk : key = range
    · subst hk
      cases hg : digests.get? (l, key) with
      | none =>
        simp only [filterMap_cons, hg, map_none, ih, mem_cons, true_or, if_true]
        split <;> rfl
      | some d => simp [hg]
    · have hn : ¬ range = key := fun e => hk e.symm
      cases hg : digests.get? (l, key) with
      | none => simp [hg, ih, hn]
      | some d => simp [hg, ih, hk, hn]

/-- A range of the peer that holds an id unknown here differs. -/
theorem mem_differing {p : State} (hs : Inv hash s) (hc : s.complete = true) (he : Inv hash p)
    (hcomplete : p.complete = true) (hl : NoCollision hash s.ids p.ids)
    (hm : id ∈ p.ids) (hn : id ∉ s.ids) {l start stop : Nat} (hr : (l, range) ∈ ranges id)
    (hle : start ≤ range) (hlt : range < stop) :
    range ∈ differing (readRanges s.digests l start stop) (readRanges p.digests l start stop) := by
  have hk : range ∈ List.range' start (stop - start) := by
    rw [mem_range'_1]
    omega
  have hids : p.ids.filter ((l, range) ∈ ranges ·) ≠ [] :=
    ne_nil_of_mem (mem_filter.mpr ⟨hm, by simpa using hr⟩)
  have hp : p.digests.get? (l, range) =
      some (digestOf hash (p.ids.filter ((l, range) ∈ ranges ·))) := by
    rw [he.get?_complete hcomplete, recount]
    simp only [List.isEmpty_iff, hids, if_false]
  generalize ht : digestOf hash (p.ids.filter ((l, range) ∈ ranges ·)) = theirs at hp
  have hw : (⟨range, theirs.count, theirs.accumulator⟩ : ClaimRange) ∈
      readRanges p.digests l start stop :=
    mem_filterMap.mpr ⟨range, hk, by rw [hp]; rfl⟩
  refine List.mem_map.mpr ⟨_, mem_filter.mpr ⟨hw, ?_⟩, rfl⟩
  -- Equal rows would mean equal members.
  simp only [readRanges, find?_readRanges, hk, if_true, ne_eq, decide_eq_true_eq]
  rw [hs.get?_complete hc, recount]
  simp only [List.isEmpty_iff]
  intro heq
  split at heq
  · cases heq
  · simp only [map_some, Option.some.injEq, ClaimRange.mk.injEq, true_and] at heq
    have hd : digestOf hash (s.ids.filter ((l, range) ∈ ranges ·)) = theirs :=
      congrArg₂ Digest.mk heq.1 heq.2
    rw [← ht] at hd
    exact hn ((hl.range (l, range) hd id hr).mpr hm)

/-- Every answered group is examined, since both sides count the same ids. -/
theorem examine_answerIds {retired : Text → Bool} {p : State} (hm : id ∈ p.ids)
    (hn : id ∉ s.ids) (ht : retired id = false) {a : List Nat} : ∀ {l : Nat},
    (∃ g ∈ answerIds p l a, g.1 = leaf id) → id ∈ examine retired s l (answerIds p l a) := by
  induction a with
  | nil =>
    rintro l ⟨g, hg, -⟩
    cases hg
  | cons range a ih =>
    rintro l ⟨g, hg, hl⟩
    unfold answerIds at hg ⊢
    split at hg
    · cases hg
    · rename_i hs
      split at hg
      · rename_i hr
        rw [if_neg hs, if_pos hr, examine, if_neg (by omega)]
        rcases mem_cons.mp hg with rfl | hg
        · refine mem_append_left _ (mem_filter.mpr ⟨mem_idsInLeaf.mpr ⟨hm, hl.symm⟩, ?_⟩)
          have ho : id ∉ idsInLeaf s range := fun h => hn (mem_idsInLeaf.mp h).1
          simp [ho, ht, ← hl]
        · exact mem_append_right _ (ih ⟨g, hg, hl⟩)
      · rename_i hr
        rw [if_neg hs, if_neg hr]
        exact ih ⟨g, hg, hl⟩

theorem length_answerIds (s : State) (a : List Nat) : ∀ l, (answerIds s l a).length ≤ a.length := by
  induction a with
  | nil => intro l; rfl
  | cons range a ih =>
    intro l
    unfold answerIds
    split
    · exact Nat.zero_le _
    · split
      · exact Nat.succ_le_succ (ih _)
      · exact Nat.le_succ_of_le (ih _)

theorem compareClaimRanges_eq {retired : Text → Bool} {theirs : Digest}
    (hc : s.complete = true) (hv : r.version = claimRangeVersion)
    (hr : r.retained = some theirs) (hw : whole s ≠ theirs) :
    compareClaimRanges retired s r = some
      { same := false
        pair := ((whole s).accumulator, theirs.accumulator)
        tops := (r.tops.map (differing (tops s))).getD []
        leaves := (r.leaves.take claimRangeQueryTops).flatMap fun g =>
          if g.1 ≤ topRanges then differing (leaves s g.1) g.2 else []
        missing := examine retired s 0 (r.ids.take claimRangeQueryLeaves) } := by
  have hf : (some theirs).filter (fun _ => decide (r.version = claimRangeVersion)) =
      some theirs := by
    simp [Option.filter, hv]
  simp only [compareClaimRanges, hr, hf, hc, Bool.not_true, Bool.false_eq_true, if_false, hw]

/-- A claim that a complete peer retains and this node neither retains nor has retired is found
level by level, as far as the peer was asked. Nothing this node retains or has retired is
named. -/
theorem range_comparison_finds_missing {labels peerLabels : List Label} {s peer : State}
    (hrun : (machine hash).run State.empty labels = some s) (hcomplete : s.complete = true)
    (hrun' : (machine hash).run State.empty peerLabels = some peer)
    (hcomplete' : peer.complete = true) (hcollision : NoCollision hash s.ids peer.ids)
    (retired : Text → Bool) :
    (∀ query id, id ∈ peer.ids → id ∉ s.ids → retired id = false →
      ∃ comparison, compareClaimRanges retired s (summaryAnswering peer query) = some comparison ∧
        comparison.same = false ∧
        (query.tops = true → leaf id / leavesPerTop ∈ comparison.tops) ∧
        ((∃ group ∈ (summaryAnswering peer query).leaves, group.1 = leaf id / leavesPerTop) →
          leaf id ∈ comparison.leaves) ∧
        ((∃ group ∈ (summaryAnswering peer query).ids, group.1 = leaf id) →
          id ∈ comparison.missing)) ∧
    ∀ remote comparison id, compareClaimRanges retired s remote = some comparison →
      id ∈ s.ids ∨ retired id = true → id ∉ comparison.missing := by
  have hs : Inv hash s := machine_keeps_inv.run (fun _ _ => trivial) (Inv.empty hash) hrun
  have hp : Inv hash peer := machine_keeps_inv.run (fun _ _ => trivial) (Inv.empty hash) hrun'
  refine ⟨fun query id hm hn hr => ?_, fun remote comparison id hc hh hmissing => ?_⟩
  · have hw : whole s ≠ whole peer := by
      rw [hs.whole_complete hcomplete, hp.whole_complete hcomplete']
      exact fun heq => hn ((hcollision.whole heq id).mpr hm)
    rw [summaryAnswering, if_pos hcomplete']
    refine ⟨_, compareClaimRanges_eq hcomplete rfl rfl hw, rfl, ?_, ?_, ?_⟩
    · intro htops
      rw [if_pos htops, map_some, getD_some]
      exact mem_differing hs hcomplete hp hcomplete' hcollision hm hn (by simp [ranges])
        (Nat.zero_le _) (top_lt id)
    · rintro ⟨group, hg, ht⟩
      have hl : (((query.leavesOf.take claimRangeQueryTops).filter (· ≤ topRanges)).map
          fun top => (top, leaves peer top)).length ≤ claimRangeQueryTops := by
        rw [length_map]
        exact (length_filter_le _ _).trans (length_take_le _ _)
      simp only
      rw [take_of_length_le hl]
      refine mem_flatMap.mpr ⟨group, hg, ?_⟩
      obtain ⟨top, -, rfl⟩ := mem_map.mp hg
      have ht : top = leaf id / leavesPerTop := ht
      rw [if_pos (by rw [ht]; exact Nat.lt_succ_iff.mp (top_lt id))]
      refine mem_differing hs hcomplete hp hcomplete' hcollision hm hn (by simp [ranges]) ?_ ?_
      · rw [ht]
        exact Nat.div_mul_le_self _ _
      · rw [ht]
        exact Nat.lt_mul_of_div_lt (Nat.lt_succ_self _) (by decide)
    · intro hg
      simp only
      rw [take_of_length_le ((length_answerIds peer _ 0).trans (length_take_le _ _))]
      exact examine_answerIds hm hn hr hg
  · obtain ⟨ho, hretired⟩ := compareClaimRanges_missing hc hmissing
    rcases hh with hh | hh
    · exact ho hh
    · rw [hretired] at hh
      cases hh

theorem sample_comparison :
    ∃ s peer, (machine fun _ => Accumulator.zero).run State.empty [.install] = some s ∧
      (machine fun _ => Accumulator.zero).run State.empty
        [.install, .insert (replicate 64 97), .fold 0] = some peer ∧
      ∃ comparison, compareClaimRanges (fun _ => false) s
        (summaryAnswering peer ⟨true, [42], [2730]⟩) = some comparison ∧
        42 ∈ comparison.tops ∧ 2730 ∈ comparison.leaves ∧ replicate 64 97 ∈ comparison.missing := by
  have hs : ((machine fun _ => Accumulator.zero).run State.empty [.install]).map
      (fun s => decide (s.complete = true ∧ s.ids = [])) = some true := by decide +kernel
  have hp :
      ((machine fun _ => Accumulator.zero).run State.empty
        [.install, .insert (replicate 64 97), .fold 0]).map
      (fun s => decide (s.complete = true ∧ s.ids = [replicate 64 97] ∧
        (summaryAnswering s ⟨true, [42], [2730]⟩).leaves.any (·.1 = 42) = true ∧
        (summaryAnswering s ⟨true, [42], [2730]⟩).ids.any (·.1 = 2730) = true)) = some true := by
          decide +kernel
  obtain ⟨s, hr, hs⟩ := map_eq_some_iff.mp hs
  obtain ⟨peer, hrun, hp⟩ := map_eq_some_iff.mp hp
  obtain ⟨hcomplete, hi⟩ := of_decide_eq_true hs
  obtain ⟨hcomplete', hd, hv, ha⟩ := of_decide_eq_true hp
  have hcollision : NoCollision (fun _ => Accumulator.zero) s.ids peer.ids := by
    rw [hi, hd]
    constructor
    · intro heq
      cases congrArg Digest.count heq
    · intro key heq id hid
      by_cases hk : key ∈ ranges (replicate 64 97)
      · rw [filter_cons_of_pos (by simpa using hk)] at heq
        cases congrArg Digest.count heq
      · have hn : id ≠ replicate 64 97 := fun h => hk (h ▸ hid)
        exact iff_of_false not_mem_nil fun h => hn (mem_singleton.mp h)
  obtain ⟨comparison, hc, -, ht, hl, hm⟩ := (range_comparison_finds_missing hr hcomplete hrun
    hcomplete' hcollision fun _ => false).1 ⟨true, [42], [2730]⟩ (replicate 64 97) (by simp [hd])
    (by simp [hi]) rfl
  have hleaf42 : leaf (replicate 64 97) / leavesPerTop = 42 := by decide
  have hleaf2730 : leaf (replicate 64 97) = 2730 := by decide
  rw [hleaf42] at ht hl
  rw [hleaf2730] at hl hm
  exact ⟨s, peer, hr, hrun, comparison, hc, ht rfl, hl (by simpa using hv),
    hm (by simpa using ha)⟩

end Smalltalk.Ranges
