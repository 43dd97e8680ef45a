import Smalltalk.Fleet.Support

/-!
# What a removal bounds

The fold keeps the largest end of a window. So while a removal by another member counts, the
removed member's key signs nothing above those removals, unless the member itself wrote a
leave or a removal of its own key with a larger high water.
-/

namespace Smalltalk

open Smalltalk.Membership

variable {claim : FleetClaim} {m : Membership}

theorem mem_countedIn {claims : List FleetClaim} {valid : Finset String} :
    claim ∈ countedIn claims valid ↔ claim ∈ claims ∧ claim.id ∈ valid := by
  simp [countedIn]

theorem mem_of_window_keyed {writer : String} {sequence : Nat} {keys : Finset String}
    (h : m.window writer sequence = .keyed keys) : keys = m.keysFor writer sequence := by
  unfold window at h
  grind

theorem kind_of_endsAt {name key : String} {hw : Nat} (h : claim.endsAt name key = some hw) :
    (claim.kind = memberRemoved ∨ claim.kind = memberLeft) ∧ claim.name = some name := by
  unfold FleetClaim.endsAt at h
  grind

/-- A leave that counts was written by the member that leaves. -/
theorem writer_of_counted_leave {a : String} (hk : claim.kind = memberLeft)
    (h : claimCounts a claim m = true) :
    claim.name = some claim.writer := by
  have ha : ¬ claim.isAnchorAdmission := by
    intro h
    exact absurd (hk.symm.trans h.1) (by decide)
  obtain ⟨-, ho, -⟩ := (claimCounts_member ha).mp h
  obtain ⟨-, -, hn, -⟩ := ho (.inr hk)
  exact hn

/-- While a removal of `key` under `name` counts, a sequence above every removal that other
members wrote is in the window only if a counted leave or removal by `name` itself ends it no
earlier. -/
theorem window_above_removals (anchor : String) (claims : List FleetClaim) (name key : String)
    (removal : FleetClaim) (highWater sequence : Nat) (keys : Finset String)
    (hremoval : removal ∈ claims) (hkind : removal.kind = memberRemoved)
    (hcounts : (fold (some anchor) claims).counts removal.id)
    (hends : removal.endsAt name key = some highWater)
    (habove : ∀ other ∈ claims, (fold (some anchor) claims).counts other.id →
      other.kind = memberRemoved → other.writer ≠ name → ∀ h ∈ other.endsAt name key, h < sequence)
    (hwindow : (fold (some anchor) claims).window name sequence = .keyed keys) (hkey : key ∈ keys) :
    ∃ own ∈ claims, (fold (some anchor) claims).counts own.id ∧
      (own.writer = name ∨ ∃ twin ∈ claims, twin ≠ own ∧ twin.id = own.id) ∧
      ∃ h, own.endsAt name key = some h ∧ sequence ≤ h := by
  simp only [counts_fold_iff] at hcounts habove ⊢
  rw [mem_of_window_keyed hwindow, fold_eq_build, mem_keysFor_build] at hkey
  have hmem : removal ∈ countedIn (fleetClaims claims) (keptClaims anchor (fleetClaims claims)) :=
    mem_countedIn.mpr ⟨mem_fleetClaims.mpr ⟨hremoval, by rw [hkind]; decide +kernel⟩, hcounts⟩
  rcases hkey.2 with hnone | ⟨own, ho, h, hh, hle⟩
  · exact absurd (hnone removal hmem) (by simp [hends])
  obtain ⟨hf, hk⟩ := mem_countedIn.mp ho
  have hm := (mem_fleetClaims.mp hf).1
  refine ⟨own, hm, hk, ?_, h, hh, hle⟩
  obtain ⟨hkind', hname⟩ := kind_of_endsAt hh
  rcases hkind' with hr | hl
  · left
    by_contra hw
    have := habove own hm hk hr hw h hh
    omega
  · have hn := (Finset.mem_inter.mp hk).1
    rw [rounds_succ, mem_nextRound] at hn
    obtain ⟨twin, ht, hc, hi⟩ := hn
    by_cases heq : twin = own
    · left
      have := writer_of_counted_leave hl (heq ▸ hc)
      exact Option.some.inj (this.symm.trans hname)
    · exact .inr ⟨twin, (mem_fleetClaims.mp ht).1, heq, hi⟩

/-- `r` removes `b` before its own end, at a high water below `b`'s removal. -/
def counterRemoval : FleetClaim := .removal "3r" "b" "kb" 2 "r" 3 "kr"

/-- `r` leaves before its own end, at a larger high water. -/
def lateLeave : FleetClaim :=
  { FleetClaim.removal "3r" "r" "kr" 100 "r" 3 "kr" with kind := memberLeft }

/-- One claim of its own opens the removed member's window again: the removal no longer counts, or
its high water is passed. -/
theorem removed_member_reopens_window : (fold (some "ka") removedMember).counts "2b" = true ∧
      (fold (some "ka") removedMember).window "r" 6 = .fenced ∧
      (counterRemoval.writer = "r" ∧ counterRemoval.signers = {"kr"} ∧
        (fold (some "ka") (removedMember ++ [counterRemoval])).window "r" 6 = .keyed {"kr"}) ∧
      lateLeave.writer = "r" ∧ lateLeave.signers = {"kr"} ∧
        (fold (some "ka") (removedMember ++ [lateLeave])).counts "2b" = true ∧
        (fold (some "ka") (removedMember ++ [lateLeave])).window "r" 6 = .keyed {"kr"} := by
  decide +kernel

theorem late_leave_reopens_window : ∃ own ∈ removedMember ++ [lateLeave],
      (fold (some "ka") (removedMember ++ [lateLeave])).counts own.id ∧
      (own.writer = "r" ∨ ∃ twin ∈ removedMember ++ [lateLeave], twin ≠ own ∧ twin.id = own.id) ∧
      ∃ h, own.endsAt "r" "kr" = some h ∧ 6 ≤ h :=
  window_above_removals "ka" (removedMember ++ [lateLeave]) "r" "kr"
    (.removal "2b" "r" "kr" 5 "b" 9 "kb")
    5 6 {"kr"} (by simp [removedMember]) rfl (by decide +kernel) (by decide +kernel)
    (by decide +kernel) (by decide +kernel) (by decide)

end Smalltalk
