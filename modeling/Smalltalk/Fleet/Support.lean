import Smalltalk.Fleet.Noninterference
import Smalltalk.Fleet.Windows

/-!
# Counted claims and the windows that let them count

At a fixed point every counted claim has a window in the membership that counts it. When
the rounds alternate, each kept claim was let in by a window of the other round, which need
not survive.
-/

namespace Smalltalk

open List Option Smalltalk.Membership

def FleetClaim.isAnchorAdmission (claim : FleetClaim) : Prop :=
  claim.kind = memberAdmitted ∧ claim.text "via" = some "anchor"

instance (claim : FleetClaim) : Decidable claim.isAnchorAdmission :=
  inferInstanceAs (Decidable (_ ∧ _))

section
variable {a : String} {claims : List FleetClaim} {v : Finset String} {claim : FleetClaim}

/-- What lets a claim other than the anchor's admission count. -/
theorem claimCounts_member {membership : Membership} (h : ¬ claim.isAnchorAdmission) :
    claimCounts a claim membership = true ↔
      (∃ key ∈ claim.signers, key ∈ membership.keysFor claim.writer claim.sequence) ∧
      (claim.kind = memberEndpoints ∨ claim.kind = memberLeft →
        ∃ key, claim.text "member_key" = some key ∧ claim.name = some claim.writer ∧
          key ∈ membership.keysFor claim.writer claim.sequence ∧ key ∈ claim.signers) ∧
      (claim.kind = memberAdmitted → ∃ name, claim.name = some name ∧ name ≠ claim.writer) := by
  unfold claimCounts
  rw [if_neg (show ¬ (_ ∧ _) from h)]
  have hs : (∃ key ∈ claim.signers, key ∈ membership.keysFor claim.writer claim.sequence) ↔
      claim.signers ∩ membership.keysFor claim.writer claim.sequence ≠ ∅ := by
    simp only [ne_eq, ← Finset.nonempty_iff_ne_empty, Finset.Nonempty, Finset.mem_inter]
  rw [hs]
  by_cases hk : claim.signers ∩ membership.keysFor claim.writer claim.sequence = ∅
  · simp [hk]
  by_cases ho : claim.kind = memberEndpoints ∨ claim.kind = memberLeft
  · have ht : claim.kind ≠ memberAdmitted := by rcases ho with h | h <;> rw [h] <;> decide
    simp only [hk, ho, ht, if_true, if_false, ne_eq, not_false_eq_true, true_and,
      forall_const, IsEmpty.forall_iff, and_true]
    cases claim.text "member_key" <;> simp
  · simp only [hk, ho, if_false, ne_eq, not_false_eq_true, true_and, IsEmpty.forall_iff]
    split
    · rename_i hn
      simp only [hn, forall_const]
      cases claim.name <;> simp
    · rename_i hn
      simp [hn]

/-! ## Rounds and the claims they count -/

theorem mem_nextRound {id : String} : id ∈ nextRound a claims v ↔
      ∃ claim ∈ claims, claimCounts a claim (.build a claims v) = true ∧ claim.id = id := by
  simp [nextRound, validClaims, and_assoc]

theorem nodup_fleetClaims (hi : (claims.map (·.id)).Nodup) :
    ((fleetClaims claims).map (·.id)).Nodup :=
  ((fleetClaims_perm claims).map _).nodup_iff.mpr (hi.sublist (filter_sublist.map _))

theorem mem_fleetClaims_of_mem_common {i : Nat} (hi : (claims.map (·.id)).Nodup)
    (hc : claim ∈ claims) (h : claim.id ∈ common a (fleetClaims claims) i) :
    claim ∈ fleetClaims claims := by
  have hn := (Finset.mem_inter.mp h).1
  rw [rounds_succ, mem_nextRound] at hn
  obtain ⟨other, ho, -, hd⟩ := hn
  exact inj_on_of_nodup_map hi (mem_fleetClaims.mp ho).1 hc hd ▸ ho

/-- Once the rounds have reached a fixed point, what two of them have in common is one. -/
theorem nextRound_common_of_fixed {i j : Nat} (hf : rounds a claims (i + 1) = rounds a claims i)
    (hi : i ≤ j) : nextRound a claims (common a claims j) = common a claims j := by
  have hc : (nextRound a claims)^[i + 2] ∅ = (nextRound a claims)^[i] ∅ := by
    change rounds a claims (i + 2) = rounds a claims i
    rw [rounds_succ, hf, ← rounds_succ, hf]
  have hm : common a claims j = rounds a claims i := by
    refine (meet_iterate_of_settled hc hi).trans ?_
    change rounds a claims (i + 1) ∩ rounds a claims i = _
    rw [hf, Finset.inter_self]
  rw [hm, ← rounds_succ, hf]

end

/-! ## When the fold supports itself -/

/-- Every counted claim counts against the membership that counts it, and, unless it is the
anchor's admission, a signer's window there holds its sequence. -/
structure SelfSupporting (anchor : String) (claims : List FleetClaim) (m : Membership) : Prop where
  counts : ∀ claim ∈ claims, m.counts claim.id → claimCounts anchor claim m = true
  signed : ∀ claim ∈ claims, m.counts claim.id → ¬ claim.isAnchorAdmission →
    ∃ key ∈ claim.signers, key ∈ m.keysFor claim.writer claim.sequence

theorem SelfSupporting.of_counts {anchor : String} {claims : List FleetClaim} {m : Membership}
    (h : ∀ claim ∈ claims, m.counts claim.id → claimCounts anchor claim m = true) :
    SelfSupporting anchor claims m :=
  ⟨h, fun claim hc hn ha => ((claimCounts_member ha).mp (h claim hc hn)).1⟩

def keptClaims (anchor : String) (claims : List FleetClaim) : Finset String :=
  common anchor claims (lastRound claims.length)

theorem fold_eq_build (anchor : String) (claims : List FleetClaim) : fold (some anchor) claims =
      .build anchor (fleetClaims claims) (keptClaims anchor (fleetClaims claims)) :=
  fold_eq anchor claims

theorem counts_fold_iff (anchor : String) (claims : List FleetClaim) (id : String) :
    (fold (some anchor) claims).counts id = true ↔ id ∈ keptClaims anchor (fleetClaims claims) := by
  rw [fold_eq_build, counts, valid_build, decide_eq_true_eq]

def ReachesFixedPoint (anchor : String) (claims : List FleetClaim) : Prop :=
  ∃ i < roundLimit claims.length, rounds anchor claims (i + 1) = rounds anchor claims i

/-- The fold supports every claim it counts when its rounds reach a fixed point within the limit. -/
theorem fold_selfSupporting (anchor : String) (claims : List FleetClaim)
    (hids : (claims.map (·.id)).Nodup) (hfixed : ReachesFixedPoint anchor (fleetClaims claims)) :
    SelfSupporting anchor claims (.fold (some anchor) claims) := by
  refine .of_counts fun claim hm hc => ?_
  have hk := (counts_fold_iff anchor claims _).mp hc
  have hl := mem_fleetClaims_of_mem_common hids hm hk
  obtain ⟨i, hi, hx⟩ := hfixed
  rw [← lastRound_succ] at hi
  have hn : claim.id ∈ nextRound anchor (fleetClaims claims)
      (keptClaims anchor (fleetClaims claims)) := by
    rw [keptClaims, nextRound_common_of_fixed hx (by omega)]
    exact hk
  obtain ⟨other, ho, hs, hd⟩ := mem_nextRound.mp hn
  rw [fold_eq_build]
  exact inj_on_of_nodup_map (nodup_fleetClaims hids) ho hl hd ▸ hs

/-- `x` and `y` remove each other, so the rounds alternate. In one round `m`
is a member because `x` admitted it, in the other because `e` did. -/
def relayedAdmission : List FleetClaim :=
  [ .admission "0a" "a" "ka" "anchor" "a" 1 "ka", .admission "1x" "x" "kx" "invite" "a" 2 "ka",
    .admission "1y" "y" "ky" "invite" "a" 3 "ka", .removal "2x" "y" "ky" 4 "x" 5 "kx",
    .removal "2y" "x" "kx" 4 "y" 5 "ky", .admission "3e" "e" "ke" "invite" "x" 6 "kx",
    .admission "3p" "m" "km" "invite" "x" 7 "kx", .admission "3q" "m" "km" "invite" "e" 1 "ke",
    .removal "4m" "q" "kq" 1 "m" 1 "km" ]

theorem relayed_admission_unsupported : (relayedAdmission.map (·.id)).Nodup ∧
      ¬ SelfSupporting "ka" relayedAdmission (.fold (some "ka") relayedAdmission) := by
  refine ⟨by decide, fun h => ?_⟩
  have hm := h.counts (.removal "4m" "q" "kq" 1 "m" 1 "km") (by simp [relayedAdmission])
  revert hm
  decide +kernel

theorem admissions_supported :
    SelfSupporting "ka" (relayedAdmission.take 3) (.fold (some "ka") (relayedAdmission.take 3)) :=
  fold_selfSupporting "ka" _ (by decide) ⟨3, by decide +kernel, by decide +kernel⟩

/-- Permuted claims with distinct ids are the same claims in id order. -/
theorem fleetClaims_eq_of_perm {claims claims' : List FleetClaim} (hp : claims.Perm claims')
    (hi : (claims.map (·.id)).Nodup) : fleetClaims claims = fleetClaims claims' := by
  have hf : (fleetClaims claims).Perm (fleetClaims claims') :=
    (fleetClaims_perm claims).trans ((hp.filter _).trans (fleetClaims_perm claims').symm)
  refine List.Perm.eq_of_pairwise (fun a b ha hb hab hle => ?_) (pairwise_insertionSort _ _)
    (pairwise_insertionSort _ _) hf
  have hb := hf.mem_iff.mpr hb
  exact inj_on_of_nodup_map (nodup_fleetClaims hi) ha hb (le_antisymm hab hle)

/-- The membership a node folds does not depend on the order it received the claims in. -/
theorem fold_eq_of_perm (anchor : Option String) {claims claims' : List FleetClaim}
    (hperm : claims.Perm claims') (hids : (claims.map (·.id)).Nodup) :
    fold anchor claims = fold anchor claims' := by
  unfold fold
  rw [fleetClaims_eq_of_perm hperm hids]

theorem fold_relayedAdmission_reverse :
    fold (some "ka") relayedAdmission = fold (some "ka") relayedAdmission.reverse :=
  fold_eq_of_perm (some "ka") (reverse_perm _).symm (by decide)

end Smalltalk
