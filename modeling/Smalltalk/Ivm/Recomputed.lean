import Smalltalk.Ivm.Registers
import Smalltalk.Lib.Results

/-!
# Ready register views equal recomputation

While a view is ready, the contributions it stores are those of claims it was given, and the
head of each register is the greatest of them.
-/

namespace Smalltalk.Ivm

open List Table
open Option (bind_eq_some_iff map_eq_some_iff none_or)

/-- The greatest element depends on the members alone, where no two of them compare equal. -/
theorem argmax_congr {α β : Type} [LinearOrder β] {f : α → β} {l l' : List α}
    (hm : ∀ a, a ∈ l ↔ a ∈ l') (hi : ∀ a ∈ l, ∀ b ∈ l, f a = f b → a = b) :
    l.argmax f = l'.argmax f := by
  cases h : l.argmax f with
  | none =>
    have hn := argmax_eq_none.mp h
    subst hn
    have : l' = [] := eq_nil_iff_forall_not_mem.mpr fun a ha => by simpa using (hm a).mpr ha
    rw [this]
    rfl
  | some a =>
    cases h' : l'.argmax f with
    | none =>
      have hn := argmax_eq_none.mp h'
      subst hn
      have ha := (hm a).mp (argmax_mem h)
      cases ha
    | some b =>
      have ha := argmax_mem h
      have hb := (hm b).mpr (argmax_mem h')
      have hl : f b ≤ f a := le_of_mem_argmax hb h
      have hg : f a ≤ f b := le_of_mem_argmax ((hm a).mp ha) h'
      rw [hi a ha b hb (le_antisymm hg hl)]

section
variable {ρ : Type}

/-! ## Stored contributions -/

theorem get?_removeOld (contributions : Table (Slot × String) (String × ρ)) (old : Option Claim)
    (slot : Slot) (id : String) : (removeOld contributions old).get? (slot, id) =
      if old.any (·.id = id) then none else contributions.get? (slot, id) := by
  unfold removeOld
  rw [get?_deleteWhere]
  by_cases h : old.any (·.id = id) = true
  · rw [if_pos h, Option.filter_eq_none_iff]
    intro _ _
    simp [h]
  · rw [if_neg h]
    cases contributions.get? (slot, id) <;> simp [h]

theorem get?_writes (contributions : Table (Slot × String) (String × ρ))
    (writes : Table Slot (String × ρ)) (claimId : String) (slot : Slot) (id : String) :
    (contributions.putAll (writes.rows.map fun w => ((w.1, claimId), w.2))).get? (slot, id) =
      if id = claimId then (writes.get? slot).or (contributions.get? (slot, id))
      else contributions.get? (slot, id) := by
  have hn : Function.Injective fun slot : Slot => (slot, claimId) := fun _ _ h => (Prod.mk.inj h).1
  have hd : ((writes.rows.map fun w => ((w.1, claimId), w.2)).map (·.1)).Nodup := by
    have := writes.nodup.map hn
    rwa [map_map] at this ⊢
  by_cases hi : id = claimId
  · subst hi
    rw [if_pos rfl]
    cases hg : writes.get? slot with
    | some write =>
      refine get?_putAll_mem hd contributions ?_
      exact mem_map.mpr ⟨(slot, write), mem_rows.mpr hg, rfl⟩
    | none =>
      refine get?_putAll_not_mem contributions ?_
      intro hm
      rw [map_map] at hm
      obtain ⟨w, hw, heq⟩ := mem_map.mp hm
      cases heq
      exact get?_eq_none.mp hg (mem_map.mpr ⟨w, hw, rfl⟩)
  · rw [if_neg hi]
    refine get?_putAll_not_mem contributions ?_
    intro hm
    rw [map_map] at hm
    obtain ⟨w, _, heq⟩ := mem_map.mp hm
    cases heq
    exact hi rfl

variable {contributions : Table (Slot × String) (String × ρ)} {slot : Slot} {id : String}
    {view : RegisterView ρ}
  {claims : Table Nat Claim} {row : Nat × Claim} {s t : Shared} {v : RegisterView ρ × ViewRow ρ}
  {index : Nat} {claim : Claim} {inputs : List Input} {given : Nat × Claim → Prop}

theorem mem_slotsOf : slot ∈ slotsOf contributions id ↔ contributions.get? (slot, id) ≠ none := by
  unfold slotsOf
  constructor
  · intro h
    obtain ⟨row, hf, rfl⟩ := mem_map.mp h
    obtain ⟨hr, hi⟩ := mem_filter.mp hf
    have hi : row.1.2 = id := by simpa using hi
    rw [← hi, mem_rows.mp (show (row.1, row.2) ∈ contributions.rows from hr)]
    simp
  · intro h
    obtain ⟨value, hv⟩ := Option.ne_none_iff_exists'.mp h
    exact mem_map.mpr ⟨_, mem_filter.mpr ⟨mem_rows.mpr hv, by simp⟩, rfl⟩

def writesOf (view : RegisterView ρ) (new : Option (Claim × ClaimKey)) :
    Option (String × Table Slot (String × ρ)) :=
  (new.filter fun new => view.reads new.1.kind).bind fun new =>
    (view.contributions new.1 new.2).map fun contributions => (new.1.id, lastWrites contributions)

theorem writes_of_other {new : Option (Claim × ClaimKey)}
    (h : ∀ claim key, new = some (claim, key) → claim.id ≠ id) (slot : Slot) :
    ((writesOf view new).bind fun writes => if id = writes.1 then writes.2.get? slot else none) =
      none := by
  cases hw : writesOf view new with
  | none => rfl
  | some writes =>
    unfold writesOf at hw
    obtain ⟨⟨claim, key⟩, hn, hw⟩ := bind_eq_some_iff.mp hw
    obtain ⟨contributions, _, rfl⟩ := map_eq_some_iff.mp hw
    have hne := h claim key (Option.filter_eq_some_iff.mp hn).1
    exact if_neg fun heq => hne heq.symm

variable {head : Head ρ}

theorem Head.claimId_of_order {head' : Head ρ} (h : head.order = head'.order) :
    head.rank = head'.rank ∧ head.claimId = head'.claimId := by
  have := toLex.injective h
  exact Prod.mk.inj this

theorem mem_headsAt : head ∈ (contributions.rows.filter fun row => row.1.1 = slot).map headOf ↔
      contributions.get? (slot, head.claimId) = some (head.value, head.rank) := by
  rw [← mem_rows]
  constructor
  · intro h
    obtain ⟨row, hf, rfl⟩ := mem_map.mp h
    obtain ⟨hr, hl⟩ := mem_filter.mp hf
    have hl : row.1.1 = slot := by simpa using hl
    rw [← hl]
    exact hr
  · intro h
    exact mem_map.mpr ⟨_, mem_filter.mpr ⟨h, by simp⟩, rfl⟩

/-! ## What a ready view stores -/

variable {ledger : Ledger}

def Exact (ledger : Ledger) (s : Shared) (v : RegisterView ρ × ViewRow ρ) (row : Nat × Claim) :
    Prop :=
  ∀ slot, v.2.registers.contributions.get? (slot, row.2.id) =
    (contributionAt ledger s.claims v.1 row slot).map fun head => (head.value, head.rank)

def Absent (v : RegisterView ρ × ViewRow ρ) (id : String) : Prop :=
  ∀ slot, v.2.registers.contributions.get? (slot, id) = none

theorem contributionAt_of_not_reads
    (h : view.reads row.2.kind = false) (slot : Slot) :
    contributionAt ledger claims view row slot = none := by
  simp [contributionAt, h]

theorem exact_and_absent_of_not_reads
    (h : Exact ledger s v row ∨ Absent v row.2.id) (hr : v.1.reads row.2.kind = false) :
    Exact ledger s v row ∧ Absent v row.2.id := by
  have hn : ∀ slot, (contributionAt ledger s.claims v.1 row slot).map
      (fun head => (head.value, head.rank)) = none := by
    intro slot
    rw [contributionAt_of_not_reads hr]
    rfl
  rcases h with h | h
  · exact ⟨h, fun slot => (h slot).trans (hn slot)⟩
  · exact ⟨fun slot => (h slot).trans (hn slot).symm, h⟩

theorem Exact.congr {v' : RegisterView ρ × ViewRow ρ} (hv : v'.1 = v.1)
    (hm : ∀ slot, v'.2.registers.contributions.get? (slot, row.2.id) =
      v.2.registers.contributions.get? (slot, row.2.id)) (h : Exact ledger s v row) :
    Exact ledger s v' row := by
  intro slot
  rw [hm, h slot, hv]

theorem contributionAt_claimId
    (h : contributionAt ledger claims view row slot = some head) : head.claimId = row.2.id := by
  unfold contributionAt at h
  split at h
  · obtain ⟨key, _, h⟩ := bind_eq_some_iff.mp h
    obtain ⟨contributions, _, h⟩ := bind_eq_some_iff.mp h
    obtain ⟨write, _, rfl⟩ := map_eq_some_iff.mp h
    rfl
  · cases h

theorem contributionAt_insert (view : RegisterView ρ)
    {row : Nat × Claim} (hn : claims.get? index = none) (hl : row.1 ≤ index) (slot : Slot) :
    contributionAt ledger (claims.insert index claim) view row slot =
      contributionAt ledger claims view row slot := by
  unfold contributionAt
  rw [claimKey_insert row.2 hn hl]

theorem hasId_iff : hasId claims id = true ↔ ∃ row ∈ claims.rows, row.2.id = id := by
  simp [hasId]

/-! ## The shared state -/

structure SharedOk (s : Shared) : Prop where
  ids : (s.claims.rows.map (·.2.id)).Nodup
  bounded : ∀ row ∈ s.claims.rows, row.1 ≤ s.allocated
  projected_le : s.projected ≤ s.admitted
  admitted_le : s.admitted ≤ s.allocated
  retracted : ∀ id ∈ s.retracted, hasId s.claims id = true
  repaired : ∀ id ∈ s.repaired, hasId s.claims id = true

theorem record_spec (h : record s id = some row) : row ∈ s.claims.rows ∧ row.2.id = id :=
  ⟨mem_of_find?_eq_some h, by simpa using find?_some h⟩

theorem withdrawn_iff : withdrawn s view id = true ↔
    id ∈ s.retracted ∨ view.repairPolicy = .replaceOriginal ∧ id ∈ s.repaired := by
  simp [withdrawn]

theorem foldl_max_of_le (rows : List (Nat × Claim)) : ∀ bound, (∀ row ∈ rows, row.1 ≤ bound) →
    rows.foldl (fun index row => max index row.1) bound = bound := by
  induction rows with
  | nil => intro bound _; rfl
  | cons row rows ih =>
    intro bound h
    rw [foldl_cons, Nat.max_eq_left (h row mem_cons_self)]
    exact ih bound fun row hr => h row (mem_cons_of_mem _ hr)

theorem SharedOk.currentIndex_eq (h : SharedOk s) : currentIndex s = s.allocated :=
  foldl_max_of_le _ _ h.bounded

section
variable (hs : SharedOk s)
include hs

theorem insertClaim_spec (h : s.insertClaim ledger index claim = some t) :
    s.allocated < index ∧ hasId s.claims claim.id = false ∧ s.claims.get? index = none ∧
      t = { s with claims := s.claims.insert index claim, allocated := index } := by
  unfold Shared.insertClaim at h
  split at h
  · cases h
  · rename_i hf
    cases h
    simp only [Bool.or_eq_true, decide_eq_true_eq, not_or, Bool.not_eq_true, hs.currentIndex_eq,
      Nat.not_le] at hf
    refine ⟨hf.1.1, hf.1.2, ?_, rfl⟩
    cases hg : s.claims.get? index with
    | none => rfl
    | some held =>
      have := hs.bounded _ (mem_rows.mpr hg)
      omega

theorem SharedOk.insertClaim (h : s.insertClaim ledger index claim = some t) : SharedOk t := by
  obtain ⟨hl, hi, hclaims, rfl⟩ := insertClaim_spec hs h
  have hw : (s.claims.insert index claim).rows = s.claims.rows ++ [(index, claim)] :=
    insert_of_none hclaims claim
  have ht : ∀ id, hasId s.claims id = true → hasId (s.claims.insert index claim) id = true := by
    intro id h
    rw [hasId, hw, any_append]
    rw [hasId] at h
    rw [h, Bool.true_or]
  refine ⟨?_, ?_, hs.projected_le, hs.admitted_le.trans hl.le,
    fun id h => ht id (hs.retracted id h), fun id h => ht id (hs.repaired id h)⟩
  · change ((s.claims.insert index claim).rows.map _).Nodup
    rw [hw, map_append, nodup_append]
    refine ⟨hs.ids, by simp, ?_⟩
    intro a ha b hb heq
    obtain ⟨row, hr, rfl⟩ := mem_map.mp ha
    simp only [map_cons, map_nil, mem_singleton] at hb
    have hn := any_eq_false.mp hi row hr
    simp [heq, hb] at hn
  · intro row hr
    change row ∈ (s.claims.insert index claim).rows at hr
    rw [hw, mem_append, mem_singleton] at hr
    change row.1 ≤ index
    rcases hr with hr | rfl
    · exact (hs.bounded row hr).trans hl.le
    · exact Nat.le_refl _

theorem SharedOk.row_eq {row row' : Nat × Claim} (hr : row ∈ s.claims.rows)
    (hr' : row' ∈ s.claims.rows) (hi : row.2.id = row'.2.id) : row = row' :=
  inj_on_of_nodup_map hs.ids hr hr' hi

theorem publishCut_shared {projected : Nat} (h : s.publishCut (currentIndex s) projected = some t) :
    SharedOk t ∧ s.projected ≤ projected ∧
    t = { s with admitted := s.allocated, projected := projected } := by
  unfold Shared.publishCut at h
  rw [hs.currentIndex_eq] at h
  split at h
  · rename_i hc
    cases h
    exact ⟨{ hs with projected_le := hc.1, admitted_le := Nat.le_refl _ }, hc.2.2, rfl⟩
  · cases h

theorem SharedOk.act {e : Event} (h : act ledger s e = some (t, inputs)) : SharedOk t := by
  cases e with
  | append index claim =>
    obtain ⟨u, hu, h⟩ := bind_eq_some_iff.mp h
    obtain ⟨key, _, h⟩ := bind_eq_some_iff.mp h
    obtain ⟨cut, hc, h⟩ := map_eq_some_iff.mp h
    cases h
    exact (publishCut_shared (hs.insertClaim hu) hc).1
  | receive index claim =>
    obtain ⟨u, hu, h⟩ := map_eq_some_iff.mp h
    cases h
    exact hs.insertClaim hu
  | project through =>
    change projectIncremental ledger s through = _ at h
    unfold projectIncremental at h
    split at h
    · cases h
      exact hs
    split at h
    · cases h
    obtain ⟨inputs', _, h⟩ := bind_eq_some_iff.mp h
    obtain ⟨cut, hc, h⟩ := map_eq_some_iff.mp h
    cases h
    exact (publishCut_shared hs hc).1
  | retract id =>
    obtain ⟨old, hold, h⟩ := map_eq_some_iff.mp h
    cases h
    obtain ⟨hm, hi⟩ := record_spec hold
    refine { hs with retracted := ?_ }
    intro other ho
    rcases mem_cons.mp ho with rfl | ho
    · exact hasId_iff.mpr ⟨old, hm, hi⟩
    · exact hs.retracted other ho
  | repair repaired r =>
    obtain ⟨old, hold, h⟩ := bind_eq_some_iff.mp h
    obtain ⟨new, _, h⟩ := bind_eq_some_iff.mp h
    obtain ⟨key, _, h⟩ := map_eq_some_iff.mp h
    cases h
    obtain ⟨hm, hi⟩ := record_spec hold
    refine { hs with retracted := ?_, repaired := ?_ }
    · intro id hi
      exact hs.retracted id (mem_filter.mp hi).1
    · intro other ho
      rcases mem_cons.mp (mem_filter.mp ho).1 with rfl | ho
      · exact hasId_iff.mpr ⟨old, hm, hi⟩
      · exact hs.repaired other ho
  | fence view =>
    cases h
    exact hs

end

/-! ## Heads of contributions -/

variable [LinearOrder ρ]

theorem next_eq_argmax {l : List (Head ρ)}
    (h : ∀ head, contributions.get? (slot, head.claimId) =
      some (head.value, head.rank) ↔ head ∈ l) :
    next contributions slot = l.argmax Head.order := by
  refine argmax_congr (fun head => mem_headsAt.trans (h head)) ?_
  intro head hh head' hh' heq
  obtain ⟨hr, hi⟩ := Head.claimId_of_order heq
  have hg := mem_headsAt.mp hh
  rw [hi, mem_headsAt.mp hh'] at hg
  cases head
  cases head'
  simp_all

theorem next_congr {contributions' : Table (Slot × String) (String × ρ)}
    (h : ∀ id, contributions.get? (slot, id) = contributions'.get? (slot, id)) :
    next contributions slot = next contributions' slot :=
  next_eq_argmax fun head => by rw [h head.claimId, mem_headsAt]

theorem get?_reheadSlot (contributions : Table (Slot × String) (String × ρ))
    (heads : Table Slot (Head ρ)) (f slot : Slot) : (reheadSlot contributions heads f).get? slot =
      if slot = f then next contributions f else heads.get? slot := by
  unfold reheadSlot
  split
  · rename_i heq
    split
    · rename_i hl
      rw [hl, heq]
    · rfl
  · cases next contributions f with
    | some head => exact get?_put heads f head slot
    | none => exact get?_delete heads f slot

theorem get?_rehead (contributions : Table (Slot × String) (String × ρ)) (slots : List Slot) :
    ∀ (heads : Table Slot (Head ρ)) (slot : Slot), (rehead contributions heads slots).get? slot =
      if slot ∈ slots then next contributions slot else heads.get? slot := by
  induction slots with
  | nil => intro heads slot; simp [rehead]
  | cons f slots ih =>
    intro heads slot
    change (rehead contributions (reheadSlot contributions heads f) slots).get? slot = _
    rw [ih, get?_reheadSlot]
    by_cases hf : slot = f
    · subst hf
      simp
    · simp [hf]

/-! ## One change of one view -/

variable {registers registers' : Registers ρ} {old : Option Claim} {key : ClaimKey}
    {v' : RegisterView ρ × ViewRow ρ}

/-- Heads that followed the contributions follow them again, where no contribution outside `slots`
changed. -/
theorem settleHeads_spec {slots : List Slot}
    (h : settleHeads view registers contributions slots = some registers')
    (hm : ∀ slot ∉ slots, ∀ id,
      contributions.get? (slot, id) = registers.contributions.get? (slot, id))
    (hh : ∀ slot, registers.heads.get? slot = next registers.contributions slot) :
    registers'.contributions = contributions ∧
    ∀ slot, registers'.heads.get? slot = next registers'.contributions slot := by
  unfold settleHeads at h
  split at h
  · cases h
  · cases h
    refine ⟨rfl, ?_⟩
    intro slot
    change (rehead contributions registers.heads slots).get? slot = next contributions slot
    rw [get?_rehead]
    split
    · rfl
    · rename_i hl
      rw [hh]
      exact (next_congr (hm slot hl)).symm

theorem changeRegisters_spec {new : Option (Claim × ClaimKey)}
    (h : changeRegisters view registers old new = some registers')
    (hh : ∀ slot, registers.heads.get? slot = next registers.contributions slot) :
    (∀ slot id, registers'.contributions.get? (slot, id) =
      ((writesOf view new).bind fun writes => if id = writes.1 then writes.2.get? slot else none).or
        (if old.any (·.id = id) then none else registers.contributions.get? (slot, id))) ∧
      (∀ slot, registers'.heads.get? slot = next registers'.contributions slot) ∧
      ∀ claim key, new = some (claim, key) → view.reads claim.kind = true →
        (view.contributions claim key).isSome = true := by
  have hr : ∀ slot, slot ∉
      (old.map fun old => slotsOf registers.contributions old.id).getD [] → ∀ id,
      (removeOld registers.contributions old).get? (slot, id) =
        registers.contributions.get? (slot, id) := by
    intro slot hl id
    rw [get?_removeOld]
    split
    · rename_i hi
      cases old with
      | none => cases hi
      | some old =>
        obtain rfl : old.id = id := by simpa using hi
        have ht : ¬ registers.contributions.get? (slot, old.id) ≠ none :=
          fun hne => hl (mem_slotsOf.mpr hne)
        exact (not_ne_iff.mp ht).symm
    · rfl
  unfold changeRegisters at h
  dsimp only at h
  split at h
  · cases h
  split at h
  · rename_i hnew
    obtain ⟨hc, hn⟩ := settleHeads_spec h hr hh
    refine ⟨?_, hn, ?_⟩
    · intro slot id
      rw [hc, writesOf, hnew, get?_removeOld]
      rfl
    · rintro claim key rfl hd
      simp [hd] at hnew
  · rename_i claim key hw
    obtain ⟨contributions, ha, h⟩ := bind_eq_some_iff.mp h
    split at h
    · cases h
    have heq' : writesOf view new = some (claim.id, lastWrites contributions) := by
      simp [writesOf, hw, ha]
    have hm : ∀ slot, slot ∉ (old.map fun old => slotsOf registers.contributions old.id).getD [] ++
        (lastWrites contributions).rows.map (·.1) → ∀ id,
        ((removeOld registers.contributions old).putAll
          ((lastWrites contributions).rows.map fun w => ((w.1, claim.id), w.2))).get? (slot, id) =
          registers.contributions.get? (slot, id) := by
      intro slot hl id
      rw [mem_append, not_or] at hl
      rw [get?_writes, get?_eq_none.mpr hl.2, none_or, ite_self]
      exact hr slot hl.1 id
    obtain ⟨hc, hn⟩ := settleHeads_spec h hm hh
    refine ⟨?_, hn, ?_⟩
    · intro slot id
      rw [hc, heq', get?_writes, get?_removeOld]
      by_cases hi : id = claim.id
      · simp [hi]
      · simp [hi]
    · rintro claim' key' rfl _
      obtain ⟨heq, _⟩ := Option.filter_eq_some_iff.mp hw
      cases heq
      rw [ha]
      rfl

/-- Each claim's contributions are stored in full or not at all: in full for the
claims in `given`, not at all for those withdrawn. -/
structure Faithful (ledger : Ledger) (s : Shared) (given : Nat × Claim → Prop)
    (v : RegisterView ρ × ViewRow ρ) :
    Prop where
  held : ∀ slot id, v.2.registers.contributions.get? (slot, id) ≠ none → hasId s.claims id = true
  applied : ∀ row ∈ s.claims.rows, Exact ledger s v row ∨ Absent v row.2.id
  exact : ∀ row ∈ s.claims.rows, given row → withdrawn s v.1 row.2.id = false → Exact ledger s v row
  absent : ∀ row ∈ s.claims.rows, withdrawn s v.1 row.2.id = true → Absent v row.2.id
  heads : ∀ slot, v.2.registers.heads.get? slot = next v.2.registers.contributions slot

/-! ## Claims inserted -/

theorem Faithful.insertClaim (hs : SharedOk s) (h : s.insertClaim ledger index claim = some t)
    (hv : Faithful ledger s given v) (hnoGiven : ¬ given (index, claim)) :
    Faithful ledger t given v := by
  obtain ⟨hl, hi, hclaims, rfl⟩ := insertClaim_spec hs h
  have hw : (s.claims.insert index claim).rows = s.claims.rows ++ [(index, claim)] :=
    insert_of_none hclaims claim
  have hn : Absent v claim.id := by
    intro slot
    by_contra hne
    rw [hv.held slot claim.id hne] at hi
    cases hi
  have hexact : ∀ row ∈ s.claims.rows, Exact ledger s v row →
      Exact ledger { s with claims := s.claims.insert index claim, allocated := index } v row := by
    intro row hr hexact slot
    rw [hexact slot]
    congr 1
    exact (contributionAt_insert v.1 hclaims ((hs.bounded row hr).trans hl.le) slot).symm
  have hc : ∀ row ∈ (s.claims.insert index claim).rows, row ∈ s.claims.rows ∨
      row = (index, claim) := by
    intro row hr
    rwa [hw, mem_append, mem_singleton] at hr
  refine ⟨?_, ?_, ?_, ?_, hv.heads⟩
  · intro slot id hne
    obtain ⟨row, hr, hd⟩ := hasId_iff.mp (hv.held slot id hne)
    refine hasId_iff.mpr ⟨row, ?_, hd⟩
    change row ∈ (s.claims.insert index claim).rows
    rw [hw]
    exact mem_append_left _ hr
  · intro row hr
    rcases hc row hr with hr | rfl
    · exact (hv.applied row hr).imp (hexact row hr) id
    · exact .inr hn
  · intro row hr hg hk
    rcases hc row hr with hr | rfl
    · exact hexact row hr (hv.exact row hr hg hk)
    · exact absurd hg hnoGiven
  · intro row hr ht
    rcases hc row hr with hr | rfl
    · exact hv.absent row hr ht
    · exact hn

/-! ## Claims changed -/

theorem exact_of_change {registers : Registers ρ} {ready : Bool}
    (hv : Faithful ledger s given v) (hrow : row ∈ s.claims.rows)
    (hk : claimKey ledger s.claims row.1 row.2 = some key)
    (ha' : v.1.reads row.2.kind = true → (v.1.contributions row.2 key).isSome = true)
    (hg : ∀ slot id, registers.contributions.get? (slot, id) =
      ((writesOf v.1 (some (row.2, key))).bind
        fun writes => if id = writes.1 then writes.2.get? slot else none).or
        (if old.any (·.id = id) then none else v.2.registers.contributions.get? (slot, id))) :
    Exact ledger s (v.1, { ready := ready, registers := registers }) row := by
  intro slot
  change registers.contributions.get? (slot, row.2.id) = _
  rw [hg]
  by_cases hr : v.1.reads row.2.kind = true
  · obtain ⟨contributions, hc⟩ := Option.isSome_iff_exists.mp (ha' hr)
    have heq : writesOf v.1 (some (row.2, key)) = some (row.2.id, lastWrites contributions) := by
      simp [writesOf, Option.filter, hr, hc]
    have ha : contributionAt ledger s.claims v.1 row slot =
        ((lastWrites contributions).get? slot).map
        fun write => { value := write.1, claimId := row.2.id, rank := write.2 } := by
      simp [contributionAt, hr, hk, hc]
    rw [heq, ha]
    cases hw : (lastWrites contributions).get? slot with
    | some write => simp [hw]
    | none =>
      -- The claim writes nothing there, and nothing of it was stored there.
      have hn : v.2.registers.contributions.get? (slot, row.2.id) = none := by
        rcases hv.applied row hrow with hexact | hb
        · rw [hexact slot, ha, hw]
          rfl
        · exact hb slot
      simp [hw, hn]
  · have hr : v.1.reads row.2.kind = false := by simpa using hr
    have heq : writesOf v.1 (some (row.2, key)) = none := by simp [writesOf, Option.filter, hr]
    have hn := (exact_and_absent_of_not_reads (hv.applied row hrow) hr).2 slot
    rw [heq, contributionAt_of_not_reads hr, hn]
    simp

/-- What a change does to a view that stays ready: the new claim is stored, the old one is not, and
the others are as they were. -/
theorem changeRow_spec {old : Option (Nat × Claim)} {new : Option (Nat × Claim × ClaimKey)}
    (hs : SharedOk s) (hv : v.2.ready = true → Faithful ledger s given v)
    (hold : ∀ row, old = some row → row ∈ s.claims.rows)
    (hw : ∀ index claim key, new = some (index, claim, key) →
      (index, claim) ∈ s.claims.rows ∧ claimKey ledger s.claims index claim = some key)
    (h : changeRow (old.map (·.2)) (new.map (·.2)) v = v') (hy : v'.2.ready = true) :
    v'.1 = v.1 ∧ v.2.ready = true ∧
    (∀ slot id, v'.2.registers.contributions.get? (slot, id) ≠ none → hasId s.claims id = true) ∧
    (∀ row ∈ s.claims.rows, if new.map (fun n => (n.1, n.2.1)) = some row then Exact ledger s v' row
      else if old = some row then Absent v' row.2.id
      else ∀ slot, v'.2.registers.contributions.get? (slot, row.2.id) =
        v.2.registers.contributions.get? (slot, row.2.id)) ∧
    ∀ slot, v'.2.registers.heads.get? slot = next v'.2.registers.contributions slot := by
  unfold changeRow at h
  split at h
  · rename_i hd
    simp only [Bool.and_eq_true] at hd
    have hv := hv hd.2
    split at h
    · rename_i registers hregisters
      obtain ⟨hg, hh, hc⟩ := changeRegisters_spec hregisters hv.heads
      subst h
      refine ⟨rfl, hd.2, ?_, ?_, hh⟩
      · intro slot id hne
        change registers.contributions.get? (slot, id) ≠ none at hne
        by_cases hi : ∃ index claim key, new = some (index, claim, key) ∧ claim.id = id
        · obtain ⟨index, claim, key, hn, rfl⟩ := hi
          exact hasId_iff.mpr ⟨_, (hw index claim key hn).1, rfl⟩
        · rw [hg, writes_of_other, none_or] at hne
          · split at hne
            · exact absurd rfl hne
            · exact hv.held slot id hne
          · rintro claim key hn rfl
            obtain ⟨⟨index, _, _⟩, hn, heq⟩ := map_eq_some_iff.mp hn
            cases heq
            exact hi ⟨index, claim, key, hn, rfl⟩
      · intro row hr
        split
        · rename_i hm
          obtain ⟨⟨index, claim, key⟩, hn, rfl⟩ := map_eq_some_iff.mp hm
          rw [hn] at hg hc
          exact exact_of_change hv hr (hw index claim key hn).2 (hc claim key rfl) hg
        · rename_i hn
          have ht : ∀ claim key, new.map (·.2) = some (claim, key) → claim.id ≠ row.2.id := by
            intro claim key heq hi
            obtain ⟨⟨index, _, _⟩, hnew, heq⟩ := map_eq_some_iff.mp heq
            cases heq
            refine hn ?_
            rw [hnew]
            exact congrArg some (hs.row_eq (hw index claim key hnew).1 hr hi)
          split
          · rename_i ho
            intro slot
            change registers.contributions.get? (slot, row.2.id) = none
            rw [hg, writes_of_other ht, none_or, ho]
            simp
          · rename_i ho
            intro slot
            change registers.contributions.get? (slot, row.2.id) = _
            rw [hg, writes_of_other ht, none_or, if_neg]
            intro ha
            cases old with
            | none => cases ha
            | some o =>
              have hi : o.2.id = row.2.id := by simpa using ha
              exact ho (congrArg some (hs.row_eq (hold o rfl) hr hi))
    · subst h
      cases hy
  · rename_i hd
    subst h
    have hv := hv hy
    simp only [hy, Bool.and_true, Bool.or_eq_true, not_or, Bool.not_eq_true] at hd
    refine ⟨rfl, hy, hv.held, ?_, hv.heads⟩
    intro row hr
    split
    · rename_i hn
      obtain ⟨⟨index, claim, key⟩, rfl, rfl⟩ := map_eq_some_iff.mp hn
      exact (exact_and_absent_of_not_reads (hv.applied _ hr) (by simpa using hd.2)).1
    · split
      · rename_i ho
        rw [ho] at hd
        exact (exact_and_absent_of_not_reads (hv.applied _ hr) (by simpa using hd.1)).2
      · exact fun slot => rfl

theorem Faithful.mono {given' : Nat × Claim → Prop}
    (h : Faithful ledger s given v) (hv : ∀ row ∈ s.claims.rows, given' row → given row) :
    Faithful ledger s given' v :=
  { h with exact := fun row hr hg => h.exact row hr (hv row hr hg) }

/-- A change keeps a view faithful, where what it takes out is withdrawn and what it puts in is
not. -/
theorem Faithful.change
    (old : Option (Nat × Claim)) (new : Option (Nat × Claim × ClaimKey))
    (retracted repaired : List String) (hs : SharedOk s)
    (hv : v.2.ready = true → Faithful ledger s given v)
    (hold : ∀ row, old = some row → row ∈ s.claims.rows)
    (hnew : ∀ index claim key, new = some (index, claim, key) →
      (index, claim) ∈ s.claims.rows ∧ claimKey ledger s.claims index claim = some key)
    (hout : ∀ row ∈ s.claims.rows,
      withdrawn { s with retracted := retracted, repaired := repaired } v.1 row.2.id = true →
      new.map (fun n => (n.1, n.2.1)) ≠ some row ∧
      (old = some row ∨ withdrawn s v.1 row.2.id = true))
    (hi : ∀ row ∈ s.claims.rows,
      withdrawn { s with retracted := retracted, repaired := repaired } v.1 row.2.id = false →
        new.map (fun n => (n.1, n.2.1)) = some row ∨
        old ≠ some row ∧ withdrawn s v.1 row.2.id = false)
    (h : changeRow (old.map (·.2)) (new.map (·.2)) v = v') (hd : v'.2.ready = true) :
    v.2.ready = true ∧ Faithful ledger { s with retracted := retracted, repaired := repaired }
      (fun row => given row ∨ new.map (fun n => (n.1, n.2.1)) = some row) v' := by
  obtain ⟨hw, hb, hh, hr', hheads⟩ := changeRow_spec hs hv hold hnew h hd
  have hv := hv hb
  refine ⟨hb, hh, ?_, ?_, ?_, hheads⟩
  · intro row hr
    have hc := hr' row hr
    split at hc
    · exact .inl hc
    · split at hc
      · exact .inr hc
      · exact (hv.applied row hr).imp (Exact.congr hw hc) fun ha slot => (hc slot).trans (ha slot)
  · intro row hr hg hk
    have hc := hr' row hr
    rw [hw] at hk
    split at hc
    · exact hc
    · rename_i ho
      obtain ⟨hn, hwithdrawn⟩ := (hi row hr hk).resolve_left ho
      rw [if_neg hn] at hc
      exact (hv.exact row hr (hg.resolve_right ho) hwithdrawn).congr hw hc
  · intro row hr ht
    rw [hw] at ht
    obtain ⟨ho, hold'⟩ := hout row hr ht
    have hc := hr' row hr
    rw [if_neg ho] at hc
    split at hc
    · exact hc
    · rename_i hn
      intro slot
      rw [hc slot]
      exact hv.absent row hr (hold'.resolve_left hn) slot

/-! ## The transactions -/

structure Tracks (ledger : Ledger) (s : Shared) (v : RegisterView ρ × ViewRow ρ) : Prop where
  settled : ∀ row ∈ s.claims.rows, withdrawn s v.1 row.2.id = true → row.1 ≤ s.projected
  faithful : v.2.ready = true → Faithful ledger s (fun row => row.1 ≤ s.projected) v

theorem Tracks.insertClaim
    (hs : SharedOk s) (hv : Tracks ledger s v) (h : s.insertClaim ledger index claim = some t) :
    Tracks ledger t v ∧ withdrawn t v.1 claim.id = false := by
  obtain ⟨hl, hi, hclaims, ht⟩ := insertClaim_spec hs h
  have hn : withdrawn t v.1 claim.id = false := by
    rw [Bool.eq_false_iff, ne_eq, withdrawn_iff, ht]
    rintro (hm | ⟨_, hm⟩)
    · rw [hs.retracted _ hm] at hi
      cases hi
    · rw [hs.repaired _ hm] at hi
      cases hi
  have hb : s.projected < index := (hs.projected_le.trans hs.admitted_le).trans_lt hl
  refine ⟨⟨?_, ?_⟩, hn⟩
  · intro row hr hw
    rw [ht] at hr
    change row ∈ (s.claims.insert index claim).rows at hr
    rw [insert_of_none hclaims, mem_append, mem_singleton] at hr
    rcases hr with hr | rfl
    · rw [ht] at hw ⊢
      exact hv.settled row hr hw
    · rw [hn] at hw
      cases hw
  · intro hd
    have hf := (hv.faithful hd).insertClaim hs h (by simpa using hb)
    rw [ht] at hf ⊢
    exact hf

theorem Faithful.admitted (hs : SharedOk s) (hv : v.2.ready = true → Faithful ledger s given v)
    (hrow : row ∈ s.claims.rows) (hy : claimKey ledger s.claims row.1 row.2 = some key)
    (hk : withdrawn s v.1 row.2.id = false)
    (hd : (respond v (.admitted row.2 key)).2.ready = true) :
    v.2.ready = true ∧ Faithful ledger s (fun r => given r ∨ r = row)
      (respond v (.admitted row.2 key)) := by
  have ht : ∀ r ∈ s.claims.rows, withdrawn s v.1 r.2.id = true → some (row.1, row.2) ≠ some r := by
    rintro r _ hw ⟨⟩
    rw [hk] at hw
    cases hw
  have hc := Faithful.change none (some (row.1, row.2, key)) s.retracted s.repaired hs hv
    (fun _ h => nomatch h) (by rintro _ _ _ ⟨⟩; exact ⟨hrow, hy⟩)
    (fun r hr hw => ⟨ht r hr hw, .inr hw⟩)
    (fun r _ hk => .inr ⟨fun h => (nomatch h), hk⟩) rfl hd
  refine ⟨hc.1, hc.2.mono ?_⟩
  rintro r _ (hg | rfl)
  · exact .inl hg
  · exact .inr rfl

theorem changeRow_view (old : Option Claim) (new : Option (Claim × ClaimKey))
    (v : RegisterView ρ × ViewRow ρ) :
    (changeRow old new v).1 = v.1 := by
  unfold changeRow
  split
  · split <;> rfl
  · rfl

theorem respond_view (v : RegisterView ρ × ViewRow ρ) (i : Input) : (respond v i).1 = v.1 := by
  cases i with
  | admitted | retracted => exact changeRow_view _ _ v
  | repaired old new key =>
    simp only [respond]
    split <;> exact changeRow_view _ _ v
  | fenced view =>
    simp only [respond]
    split <;> rfl

theorem foldl_respond_view (inputs : List Input) (v : RegisterView ρ × ViewRow ρ) :
    (inputs.foldl respond v).1 = v.1 :=
  List.foldlRecOn (motive := fun w => w.1 = v.1) inputs respond rfl
    fun w hw i _ => (respond_view w i).trans hw

section
variable (hs : SharedOk s)
include hs

theorem Faithful.admitted_all (rows : List (Nat × Claim)) :
    ∀ {given : Nat × Claim → Prop} {v : RegisterView ρ × ViewRow ρ} {inputs : List Input},
    (v.2.ready = true → Faithful ledger s given v) → (∀ row ∈ rows, row ∈ s.claims.rows) →
    (∀ row ∈ rows, withdrawn s v.1 row.2.id = false) →
    rows.mapM (fun row => (claimKey ledger s.claims row.1 row.2).map (Input.admitted row.2)) =
      some inputs →
    (inputs.foldl respond v).2.ready = true →
    Faithful ledger s (fun r => given r ∨ r ∈ rows) (inputs.foldl respond v) := by
  induction rows with
  | nil =>
    intro given v inputs hv _ _ hi hd
    cases hi
    exact (hv hd).mono fun row _ h => h.resolve_right not_mem_nil
  | cons row rows ih =>
    intro given v inputs hv hw hk hi hd
    rw [mapM_cons] at hi
    obtain ⟨i, hn, hi⟩ := bind_eq_some_iff.mp hi
    obtain ⟨rest, hrest, hi⟩ := bind_eq_some_iff.mp hi
    obtain ⟨key, hy, rfl⟩ := map_eq_some_iff.mp hn
    cases hi
    have hrespond : (respond v (.admitted row.2 key)).1 = v.1 := respond_view v _
    have hf : (respond v (.admitted row.2 key)).2.ready = true →
        Faithful ledger s (fun r => given r ∨ r = row) (respond v (.admitted row.2 key)) :=
      fun hd => (Faithful.admitted hs hv (hw row mem_cons_self) hy (hk row mem_cons_self) hd).2
    have hl := ih hf (fun r hr => hw r (mem_cons_of_mem _ hr))
      (fun r hr => by rw [hrespond]; exact hk r (mem_cons_of_mem _ hr)) hrest hd
    refine hl.mono ?_
    rintro r _ (hg | hm)
    · exact .inl (.inl hg)
    · rcases mem_cons.mp hm with rfl | hm
      · exact .inl (.inr rfl)
      · exact .inr hm

theorem Tracks.appendClaimTx (hv : Tracks ledger s v)
    (h : appendClaimTx ledger s index claim = some (t, inputs)) :
    Tracks ledger t (inputs.foldl respond v) := by
  obtain ⟨u, hu, h⟩ := bind_eq_some_iff.mp h
  obtain ⟨key, hk, h⟩ := bind_eq_some_iff.mp h
  obtain ⟨cut, hc, h⟩ := map_eq_some_iff.mp h
  cases h
  have hu' := hs.insertClaim hu
  obtain ⟨htracks, hp⟩ := hv.insertClaim hs hu
  obtain ⟨_, hl, ht⟩ := publishCut_shared hu' hc
  have hr : (index, claim) ∈ u.claims.rows := by
    obtain ⟨_, _, hn, rfl⟩ := insertClaim_spec hs hu
    exact mem_rows.mpr (by rw [get?_insert, if_pos rfl, hn]; rfl)
  refine ⟨?_, ?_⟩
  · intro row hm hw
    rw [foldl_cons, foldl_nil, respond_view] at hw
    rw [ht] at hm hw ⊢
    exact (htracks.settled row hm hw).trans hl
  · intro hd
    have hf := (Faithful.admitted hu' htracks.faithful hr hk hp hd).2
    rw [ht]
    -- The cut reaches the new claim only when it follows the projected ones.
    refine Faithful.mono (s := { u with admitted := u.allocated, projected := _ })
      ⟨hf.held, hf.applied, hf.exact, hf.absent, hf.heads⟩ ?_
    intro row hm hg
    change row.1 ≤ (if u.projected + 1 = index then index else u.projected) at hg
    split at hg
    · rename_i hx
      by_cases heq : row.1 = index
      · exact .inr (inj_on_of_nodup_map u.claims.nodup hm hr heq)
      · exact .inl (by omega)
    · exact .inl hg

theorem Tracks.projectIncremental {through : Nat} (hv : Tracks ledger s v)
    (h : projectIncremental ledger s through = some (t, inputs)) :
    Tracks ledger t (inputs.foldl respond v) := by
  unfold Ivm.projectIncremental at h
  split at h
  · cases h
    exact hv
  split at h
  · cases h
  obtain ⟨inputs', hi, h⟩ := bind_eq_some_iff.mp h
  obtain ⟨cut, hcut, h⟩ := map_eq_some_iff.mp h
  cases h
  obtain ⟨_, hle, ht⟩ := publishCut_shared hs hcut
  have hc : ∀ row, row ∈ chunk s through ↔
      row ∈ s.claims.rows ∧ s.projected < row.1 ∧ row.1 ≤ through := by
    intro row
    simp [chunk, mem_sortByKey]
  refine ⟨?_, ?_⟩
  · intro row hm hw
    rw [foldl_respond_view] at hw
    rw [ht] at hm hw ⊢
    exact (hv.settled row hm hw).trans hle
  · intro hd
    have hk : ∀ row ∈ chunk s through, withdrawn s v.1 row.2.id = false := by
      intro row hr
      rw [Bool.eq_false_iff]
      intro hw
      obtain ⟨hm, hl, _⟩ := (hc row).mp hr
      exact absurd (hv.settled row hm hw) (Nat.not_le.mpr hl)
    have hf := Faithful.admitted_all hs _ hv.faithful (fun row hr => ((hc row).mp hr).1) hk hi hd
    rw [ht]
    refine Faithful.mono (s := { s with admitted := s.allocated, projected := through }) ⟨hf.held,
      hf.applied, hf.exact, hf.absent, hf.heads⟩ ?_
    intro row hm hg
    by_cases hb : row.1 ≤ s.projected
    · exact .inl hb
    · exact .inr ((hc row).mpr ⟨hm, Nat.not_le.mp hb, hg⟩)

theorem Tracks.retract (hv : Tracks ledger s v) (ht : (record s id).all (·.1 ≤ s.projected) = true)
    (h : retract s id = some (t, inputs)) : Tracks ledger t (inputs.foldl respond v) := by
  obtain ⟨old, hold, h⟩ := map_eq_some_iff.mp h
  cases h
  obtain ⟨hmem, hi⟩ := record_spec hold
  have hl : old.1 ≤ s.projected := by simpa [hold] using ht
  have hm : ∀ row, withdrawn { s with retracted := id :: s.retracted } v.1 row = true ↔
      row = id ∨ withdrawn s v.1 row = true := by
    intro row
    rw [withdrawn_iff, withdrawn_iff, mem_cons, or_assoc]
  have hr : ∀ row ∈ s.claims.rows, row.2.id = id → row = old := fun row hr heq =>
    hs.row_eq hr hmem (heq.trans hi.symm)
  refine ⟨?_, ?_⟩
  · intro row hclaims hw
    rw [foldl_respond_view] at hw
    rcases (hm row.2.id).mp hw with heq | hw
    · rw [hr row hclaims heq]
      exact hl
    · exact hv.settled row hclaims hw
  · intro hd
    have hc := Faithful.change (some old) none (id :: s.retracted) s.repaired hs hv.faithful
      (by rintro _ ⟨⟩; exact hmem) (fun _ _ _ h => nomatch h)
      (fun row hclaims hw => ⟨fun h => (nomatch h), ((hm row.2.id).mp hw).imp
        (fun heq => congrArg some (hr row hclaims heq).symm) (fun h => h)⟩)
      (fun row hclaims hk => .inr ⟨?_, ?_⟩) rfl hd
    · exact hc.2.mono fun row _ h => .inl h
    · rintro ⟨⟩
      rw [(hm old.2.id).mpr (.inl hi)] at hk
      cases hk
    · rw [Bool.eq_false_iff] at hk ⊢
      exact fun h => hk ((hm row.2.id).mpr (.inr h))

/-- A repair: the replacement counts, and the original counts no longer in a view that replaces
originals. -/
theorem Tracks.applyRepairTx {repaired r : String} (hv : Tracks ledger s v)
    (hpolicy : v.1.repairPolicy = .retainOriginal ∨
      (record s repaired).all (·.1 ≤ s.projected) = true)
    (h : applyRepairTx ledger s repaired r = some (t, inputs)) :
    Tracks ledger t (inputs.foldl respond v) := by
  obtain ⟨old, hold, h⟩ := bind_eq_some_iff.mp h
  obtain ⟨new, hnew, h⟩ := bind_eq_some_iff.mp h
  obtain ⟨key, hy, h⟩ := map_eq_some_iff.mp h
  cases h
  obtain ⟨ho, hold'⟩ := record_spec hold
  obtain ⟨hm, hd⟩ := record_spec hnew
  have ha : ∀ id, withdrawn { s with
        retracted := s.retracted.filter (· ≠ r)
        repaired := (repaired :: s.repaired).filter (· ≠ r) } v.1 id = true ↔
      id ≠ r ∧ ((v.1.repairPolicy = .replaceOriginal ∧ id = repaired) ∨
        withdrawn s v.1 id = true) := by
    intro id
    rw [withdrawn_iff, withdrawn_iff, mem_filter, mem_filter, mem_cons, decide_eq_true_eq]
    tauto
  have hl : ∀ row ∈ s.claims.rows, row.2.id = repaired → row = old := fun row hr heq =>
    hs.row_eq hr ho (heq.trans hold'.symm)
  have hrow : ∀ row ∈ s.claims.rows, row.2.id = r → row = new := fun row hr heq =>
    hs.row_eq hr hm (heq.trans hd.symm)
  have hclaims : ∀ index claim key', some (new.1, new.2, key) = some (index, claim, key') →
      (index, claim) ∈ s.claims.rows ∧ claimKey ledger s.claims index claim = some key' := by
    rintro _ _ _ ⟨⟩
    exact ⟨hm, hy⟩
  refine ⟨?_, ?_⟩
  · intro row hr hw
    rw [foldl_respond_view] at hw
    obtain ⟨_, ⟨hp, heq⟩ | hw⟩ := (ha row.2.id).mp hw
    · have hle := hpolicy.resolve_left (by rw [hp]; exact fun h => nomatch h)
      rw [hl row hr heq]
      simpa [hold] using hle
    · exact hv.settled row hr hw
  · intro hready
    have ht : ∀ row ∈ s.claims.rows, row.2.id ≠ r → some (new.1, new.2) ≠ some row := by
      rintro row _ hn ⟨⟩
      exact hn hd
    -- Under either policy the view changes one claim for the other; only a replaced one is removed.
    have hrespond : respond v (.repaired old.2 new.2 key) =
        changeRow ((if v.1.repairPolicy = .replaceOriginal then some old else none).map (·.2))
          (some (new.2, key)) v := by
      cases hp : v.1.repairPolicy <;> simp [respond, hp]
    have hc := Faithful.change (if v.1.repairPolicy = .replaceOriginal then some old else none)
      (some (new.1, new.2, key)) (s.retracted.filter (· ≠ r))
        ((repaired :: s.repaired).filter (· ≠ r)) hs hv.faithful
      (fun row h => ?_) hclaims (fun row hr hw => ?_) (fun row hr hk => ?_) hrespond.symm hready
    · exact hc.2.mono fun row _ h => .inl h
    · obtain ⟨_, ⟨⟩⟩ := Option.ite_none_right_eq_some.mp h
      exact ho
    · obtain ⟨hn, hw⟩ := (ha row.2.id).mp hw
      refine ⟨ht row hr hn, hw.imp (fun h => ?_) fun h => h⟩
      rw [if_pos h.1, hl row hr h.2]
    · by_cases heq : row.2.id = r
      · exact .inl (congrArg some (hrow row hr heq).symm)
      · rw [Bool.eq_false_iff] at hk
        refine .inr ⟨fun h => ?_, ?_⟩
        · obtain ⟨hp, ⟨⟩⟩ := Option.ite_none_right_eq_some.mp h
          exact hk ((ha old.2.id).mpr ⟨heq, .inl ⟨hp, hold'⟩⟩)
        · rw [Bool.eq_false_iff]
          exact fun h => hk ((ha row.2.id).mpr ⟨heq, .inr h⟩)

end

/-! ## Runs -/

theorem Tracks.fence (hv : Tracks ledger s v) (view : String) :
    Tracks ledger s (respond v (.fenced view)) := by
  simp only [respond]
  split
  · exact ⟨hv.settled, fun hr => nomatch hr⟩
  · exact hv

theorem Tracks.act {e : Event}
    {views : List (RegisterView ρ × ViewRow ρ)} (hs : SharedOk s) (hv : Tracks ledger s v)
    (hm : v ∈ views) (ht : Ivm.settled ⟨s, views⟩ e = true)
    (h : act ledger s e = some (t, inputs)) :
    Tracks ledger t (inputs.foldl respond v) := by
  cases e with
  | append index claim => exact hv.appendClaimTx hs h
  | receive index claim =>
    obtain ⟨u, hu, h⟩ := map_eq_some_iff.mp h
    cases h
    exact (hv.insertClaim hs hu).1
  | project through => exact hv.projectIncremental hs h
  | retract id => exact hv.retract hs ht h
  | repair repaired r =>
    refine hv.applyRepairTx hs ?_ h
    unfold Ivm.settled at ht
    rcases (Bool.or_eq_true _ _).mp ht with hr | hl
    · exact .inl (by simpa using all_eq_true.mp hr v hm)
    · exact .inr hl
  | fence view =>
    cases h
    exact hv.fence view

theorem runtime_keeps :
    ((runtime ledger : Machine (Runtime ρ) Event).restrict settled).Keeps (fun _ => True)
    fun s => SharedOk s.shared ∧ ∀ v ∈ s.views, Tracks ledger s.shared v := by
  rintro s e t _ ⟨hs, hw⟩ h
  obtain ⟨ht, h⟩ := Machine.step_of_restrict h
  unfold runtime at h
  dsimp only at h
  split at h
  · cases h
    exact ⟨hs, hw⟩
  · rename_i shared inputs ha
    cases h
    refine ⟨hs.act ha, ?_⟩
    intro v hv
    obtain ⟨v₀, hv₀, rfl⟩ := mem_map.mp hv
    exact (hw v₀ hv₀).act hs hv₀ ht ha

theorem tracks_fresh (views : List (RegisterView ρ)) :
    SharedOk (freshViews views).shared ∧
    ∀ v ∈ (freshViews views).views, Tracks ledger (freshViews views).shared v := by
  refine ⟨⟨nodup_nil, fun _ h => (nomatch h), Nat.le_refl _, Nat.le_refl _, fun _ h => (nomatch h),
    fun _ h => nomatch h⟩, ?_⟩
  intro v hv
  obtain ⟨view, _, rfl⟩ := mem_map.mp hv
  exact ⟨fun _ h => (nomatch h),
    fun _ => ⟨fun _ _ h => absurd rfl h, fun _ h => (nomatch h), fun _ h => (nomatch h),
    fun _ h => (nomatch h), fun _ => rfl⟩⟩

/-- When every held claim is given, the heads are the recomputed ones. -/
theorem Faithful.recomputed (h : Faithful ledger s given v) (hv : ∀ row ∈ s.claims.rows, given row)
    (slot : Slot) :
    v.2.registers.heads.get? slot = recomputed ledger s v.1 slot := by
  rw [h.heads, Ivm.recomputed]
  refine next_eq_argmax fun head => ?_
  rw [mem_filterMap]
  constructor
  · intro hg
    obtain ⟨row, hr, hi⟩ := hasId_iff.mp (h.held slot head.claimId (by rw [hg]; simp))
    rw [← hi] at hg
    refine ⟨row, hr, ?_⟩
    cases hw : withdrawn s v.1 row.2.id with
    | true =>
      rw [h.absent row hr hw slot] at hg
      cases hg
    | false =>
      rw [h.exact row hr (hv row hr) hw slot] at hg
      obtain ⟨head', hh', heq⟩ := map_eq_some_iff.mp hg
      have hc := contributionAt_claimId hh'
      obtain ⟨hl, hn⟩ := Prod.mk.inj heq
      have : head' = head := by
        cases head
        cases head'
        simp_all
      rw [hh', this]
      rfl
  · rintro ⟨row, hr, hh⟩
    cases hw : withdrawn s v.1 row.2.id with
    | true => simp [hw] at hh
    | false =>
      have hh : contributionAt ledger s.claims v.1 row slot = some head := by simpa [hw] using hh
      rw [contributionAt_claimId hh, h.exact row hr (hv row hr) hw slot, hh]
      rfl

/-- A view's row is what it would be if no other view were registered. -/
theorem run_alone {events : List Event} :
    ∀ {s t : Runtime ρ}, (runtime ledger).run s events = some t →
    ∀ v ∈ t.views, ∃ v₀ ∈ s.views, v₀.1 = v.1 ∧
    (runtime ledger).run ⟨s.shared, [v₀]⟩ events = some ⟨t.shared, [v]⟩ := by
  induction events with
  | nil =>
    intro s t h v hv
    cases h
    exact ⟨v, hv, rfl, rfl⟩
  | cons e events ih =>
    intro s t h v hv
    obtain ⟨u, hu, h⟩ := Machine.run_cons_eq_some.mp h
    obtain ⟨w, hw, heq, hr⟩ := ih h v hv
    unfold runtime at hu
    dsimp only at hu
    split at hu
    · rename_i ha
      cases hu
      refine ⟨w, hw, heq, Machine.run_cons_eq_some.mpr ⟨_, ?_, hr⟩⟩
      simp [runtime, ha]
    · rename_i shared inputs ha
      cases hu
      obtain ⟨v₀, hv₀, rfl⟩ := mem_map.mp hw
      refine ⟨v₀, hv₀, (foldl_respond_view inputs v₀).symm.trans heq,
        Machine.run_cons_eq_some.mpr ⟨_, ?_, hr⟩⟩
      simp [runtime, ha]

/-- On runs in which claims are retracted, and repaired where a view replaces originals, only when
they have been projected: while a view is ready, each head is the greatest contribution of the
held claims that were not withdrawn. The view's row is what it is without the other views. -/
theorem ready_views_recomputed {views : List (RegisterView ρ)} {events : List Event} {t : Runtime ρ}
    (hrun : ((runtime ledger).restrict settled).run (freshViews views) events = some t)
    {v : RegisterView ρ × ViewRow ρ} (hv : v ∈ t.views) :
    (isReady t v = true → ∀ slot,
      v.2.registers.heads.get? slot = recomputed ledger t.shared v.1 slot) ∧
      (runtime ledger).run (freshViews [v.1]) events = some ⟨t.shared, [v]⟩ := by
  constructor
  · intro hr slot
    obtain ⟨hs, htracks⟩ := runtime_keeps.run (fun _ _ => trivial) (tracks_fresh views) hrun
    simp only [isReady, Bool.and_eq_true, decide_eq_true_eq, hs.currentIndex_eq] at hr
    refine ((htracks v hv).faithful hr.1.1).recomputed (fun row hw => ?_) slot
    have := hs.bounded row hw
    omega
  · obtain ⟨v₀, hv₀, heq, ha⟩ := run_alone (Machine.run_of_restrict hrun) v hv
    obtain ⟨view, _, rfl⟩ := mem_map.mp hv₀
    cases heq
    exact ha

end

def noteView (name : String) (policy : RepairPolicy) (strict : Bool) : RegisterView Nat where
  name := name
  kinds := ["note"]
  repairPolicy := policy
  maxContributions := 2
  contributions := fun claim key =>
    if strict && claim.subject = "bad" then none
    else some [{ key := "notes", register := "subject", value := claim.subject, rank := key.time }]

def note (id subject : String) (time : Nat) : Claim where
  id := id
  batchId := "batch"
  subject := subject
  kind := "note"
  origin := "writer"
  actor := none
  body := ""
  predecessors := ""
  acceptedAtUnixMs := time

def noteEvents : List Event :=
  [.receive 1 (note "a" "ash" 9), .append 2 (note "b" "birch" 5), .project 2, .repair "a" "b",
    .append 3 (note "c" "bad" 7), .append 4 (note "d" "elm" 8), .retract "d"]

theorem noteEvents_recomputed : ∃ t, ((runtime sampleLedger).restrict settled).run
        (freshViews [noteView "keeps" .retainOriginal false,
          noteView "replaces" .replaceOriginal false,
          noteView "strict" .retainOriginal true]) noteEvents = some t ∧
      t.views.map (fun v =>
        (v.1.name, isReady t v, v.2.registers.heads.get? ("notes", "subject"))) =
        [("keeps", true, some { value := "ash", claimId := "a", rank := 9 }),
          ("replaces", true, some { value := "bad", claimId := "c", rank := 7 }),
          ("strict", false, some { value := "ash", claimId := "a", rank := 9 })] ∧
      ∀ v ∈ t.views, isReady t v = true → ∀ slot,
        v.2.registers.heads.get? slot = recomputed sampleLedger t.shared v.1 slot := by
  have hr : (((runtime sampleLedger).restrict settled).run
      (freshViews [noteView "keeps" .retainOriginal false,
        noteView "replaces" .replaceOriginal false,
          noteView "strict" .retainOriginal true]) noteEvents).map (fun t => decide (
          t.views.map (fun v =>
            (v.1.name, isReady t v, v.2.registers.heads.get? ("notes", "subject"))) =
            [("keeps", true, some { value := "ash", claimId := "a", rank := 9 }),
              ("replaces", true, some { value := "bad", claimId := "c", rank := 7 }),
              ("strict", false, some { value := "ash", claimId := "a", rank := 9 })])) =
                some true := by
    decide +kernel
  obtain ⟨t, ht, hh⟩ := map_eq_some_iff.mp hr
  exact ⟨t, ht, of_decide_eq_true hh, fun v hv => (ready_views_recomputed ht hv).1⟩

/-- A page gives a claim to the views again that was retracted, or replaced by a
repair, before it was projected. -/
theorem unprojected_claims_return :
    (∃ t, (runtime sampleLedger).run (freshViews [noteView "keeps" .retainOriginal false])
        [.receive 1 (note "a" "ash" 9), .retract "a", .project 1] = some t ∧
        ∃ v ∈ t.views, isReady t v = true ∧
        v.2.registers.heads.get? ("notes", "subject") =
          some { value := "ash", claimId := "a", rank := 9 } ∧
        recomputed sampleLedger t.shared v.1 ("notes", "subject") = none) ∧
    ∃ t, (runtime sampleLedger).run (freshViews [noteView "replaces" .replaceOriginal false])
        [.receive 1 (note "a" "ash" 9), .receive 2 (note "b" "birch" 5), .repair "a" "b",
          .project 2] = some t ∧
      ∃ v ∈ t.views, isReady t v = true ∧
        v.2.registers.heads.get? ("notes", "subject") =
          some { value := "ash", claimId := "a", rank := 9 } ∧
        recomputed sampleLedger t.shared v.1 ("notes", "subject") =
          some { value := "birch", claimId := "b", rank := 5 } := by
  constructor
  · have hr : ((runtime sampleLedger).run (freshViews [noteView "keeps" .retainOriginal false])
        [.receive 1 (note "a" "ash" 9), .retract "a", .project 1]).map (fun t => decide (
          ∃ v ∈ t.views, isReady t v = true ∧
            v.2.registers.heads.get? ("notes", "subject") =
              some { value := "ash", claimId := "a", rank := 9 } ∧
            recomputed sampleLedger t.shared v.1 ("notes", "subject") = none)) = some true := by
      decide +kernel
    obtain ⟨t, ht, hf⟩ := map_eq_some_iff.mp hr
    exact ⟨t, ht, of_decide_eq_true hf⟩
  · have hr : ((runtime sampleLedger).run (freshViews [noteView "replaces" .replaceOriginal false])
        [.receive 1 (note "a" "ash" 9), .receive 2 (note "b" "birch" 5), .repair "a" "b",
          .project 2]).map
          (fun t => decide (∃ v ∈ t.views, isReady t v = true ∧
            v.2.registers.heads.get? ("notes", "subject") =
              some { value := "ash", claimId := "a", rank := 9 } ∧
            recomputed sampleLedger t.shared v.1 ("notes", "subject") =
              some { value := "birch", claimId := "b", rank := 5 })) = some true := by
      decide +kernel
    obtain ⟨t, ht, hf⟩ := map_eq_some_iff.mp hr
    exact ⟨t, ht, of_decide_eq_true hf⟩

end Smalltalk.Ivm
