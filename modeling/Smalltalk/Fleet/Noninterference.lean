import Smalltalk.Fleet.Membership

/-!
# Claims nobody signed

A `fleet.*` claim without signers counts in no round. What can differ with it is how many
rounds are run: the limit grows with the number of claims.
-/

namespace Smalltalk

open List Smalltalk.Membership

def rounds (anchor : String) (claims : List FleetClaim) (i : Nat) : Finset String :=
  (nextRound anchor claims)^[i] ∅

def common (anchor : String) (claims : List FleetClaim) (i : Nat) : Finset String :=
  rounds anchor claims (i + 1) ∩ rounds anchor claims i

theorem rounds_succ (a : String) (claims : List FleetClaim) (i : Nat) :
    rounds a claims (i + 1) = nextRound a claims (rounds a claims i) :=
  Function.iterate_succ_apply' ..

def lastRound (n : Nat) : Nat := roundLimit n - 1

theorem lastRound_succ (n : Nat) : lastRound n + 1 = roundLimit n := by
  have : 0 < roundLimit n := by unfold roundLimit saturatingAdd u64Max; omega
  unfold lastRound; omega

theorem lastRound_mono {n m : Nat} (h : n ≤ m) : lastRound n ≤ lastRound m := by
  unfold lastRound roundLimit saturatingAdd saturatingMul; omega

/-- The fold keeps what the last two rounds have in common. -/
theorem fold_eq (a : String) (claims : List FleetClaim) :
    fold (some a) claims = .build a (fleetClaims claims)
      (common a (fleetClaims claims) (lastRound (fleetClaims claims).length)) := by
  simp only [fold, ← lastRound_succ, meet_settle, common, rounds, Finset.inf_eq_inter]

theorem valid_amend (m : Membership) (claim : FleetClaim) : (m.amend claim).valid = m.valid := by
  simp only [amend, updateIncarnation]
  grind

theorem valid_addIncarnation (m : Membership) (claim : FleetClaim) :
    (m.addIncarnation claim).valid = m.valid := by
  unfold addIncarnation
  split <;> rfl

theorem valid_foldl {step : Membership → FleetClaim → Membership}
    (h : ∀ m claim, (step m claim).valid = m.valid) (claims : List FleetClaim) (m : Membership) :
    (claims.foldl step m).valid = m.valid := by
  induction claims generalizing m with
  | nil => rfl
  | cons claim claims ih => rw [foldl_cons, ih, h]

@[simp] theorem valid_build (a : String) (claims : List FleetClaim) (valid : Finset String) :
    (build a claims valid).valid = valid := by
  simp only [build, valid_foldl valid_amend, valid_foldl valid_addIncarnation]

/-! ## A claim without signers -/

theorem claimCounts_of_no_signers {claim : FleetClaim} (h : claim.signers = ∅) (a : String)
    (membership : Membership) : claimCounts a claim membership = false := by
  simp [claimCounts, anchorCounts, h]

theorem fleetClaims_perm (claims : List FleetClaim) :
    (fleetClaims claims).Perm (claims.filter (·.kind.startsWith "fleet.")) :=
  perm_insertionSort _ _

theorem mem_fleetClaims {claim : FleetClaim} {claims : List FleetClaim} :
    claim ∈ fleetClaims claims ↔ claim ∈ claims ∧ claim.kind.startsWith "fleet." := by
  rw [(fleetClaims_perm claims).mem_iff, mem_filter]

theorem fleetClaims_sorted (claims : List FleetClaim) :
    (fleetClaims claims).Pairwise (·.id ≤ ·.id) :=
  have : Std.Total fun a b : FleetClaim => a.id ≤ b.id := ⟨fun a b => le_total a.id b.id⟩
  have : IsTrans FleetClaim (·.id ≤ ·.id) := ⟨fun _ _ _ => le_trans⟩
  pairwise_insertionSort _ _

section
variable {anchor : String} {before after : List FleetClaim} {e : FleetClaim}
  (hid : ((before ++ after).map (·.id)).Nodup) (hf : e.id ∉ (before ++ after).map (·.id))
  (hk : e.kind.startsWith "fleet.") (hs : e.signers = ∅)

include hid in
theorem filter_fleetClaims_insert {p : FleetClaim → Bool} (hp : p e = false) :
    (fleetClaims (before ++ e :: after)).filter p = (fleetClaims (before ++ after)).filter p := by
  have hr : ((fleetClaims (before ++ e :: after)).filter p).Perm
      ((fleetClaims (before ++ after)).filter p) := by
    refine ((fleetClaims_perm _).filter p).trans (.trans ?_ ((fleetClaims_perm _).filter p).symm)
    rw [filter_filter, filter_filter, filter_append, filter_append,
      filter_cons_of_neg (by simp [hp])]
  refine List.Perm.eq_of_pairwise ?_ ((fleetClaims_sorted _).filter _)
    ((fleetClaims_sorted _).filter _) hr
  intro a b ha hb hab hle
  have ha' := (mem_fleetClaims.mp (mem_filter.mp (hr.mem_iff.mp ha)).1).1
  have hb' := (mem_fleetClaims.mp (mem_filter.mp hb).1).1
  exact inj_on_of_nodup_map hid ha' hb' (le_antisymm hab hle)

include hid in
theorem build_insert {valid : Finset String} (h : e.id ∉ valid) :
    build anchor (fleetClaims (before ++ e :: after)) valid =
      .build anchor (fleetClaims (before ++ after)) valid := by
  simp only [build]
  rw [filter_fleetClaims_insert hid (decide_eq_false h)]

include hid hs in
theorem nextRound_insert {valid : Finset String} (h : e.id ∉ valid) :
    nextRound anchor (fleetClaims (before ++ e :: after)) valid =
      nextRound anchor (fleetClaims (before ++ after)) valid := by
  simp only [nextRound, validClaims, build_insert hid h]
  rw [filter_fleetClaims_insert hid (claimCounts_of_no_signers hs anchor _)]

include hf in
theorem fresh_not_mem_rounds (i : Nat) :
    e.id ∉ rounds anchor (fleetClaims (before ++ after)) i := by
  cases i with
  | zero => simp [rounds]
  | succ i =>
    rw [rounds_succ]
    intro hm
    obtain ⟨c, hc, hi⟩ := mem_map.mp (List.mem_toFinset.mp hm)
    exact hf (mem_map.mpr ⟨c, (mem_fleetClaims.mp (mem_filter.mp hc).1).1, hi⟩)

include hid hf hs in
theorem rounds_insert (i : Nat) : rounds anchor (fleetClaims (before ++ e :: after)) i =
      rounds anchor (fleetClaims (before ++ after)) i := by
  induction i with
  | zero => simp only [rounds, Function.iterate_zero, id_eq]
  | succ i ih =>
    rw [rounds_succ, rounds_succ, ih, nextRound_insert hid hs (fresh_not_mem_rounds hf i)]

include hk in
theorem length_fleetClaims_insert :
    (fleetClaims (before ++ e :: after)).length = (fleetClaims (before ++ after)).length + 1 := by
  rw [(fleetClaims_perm _).length_eq, (fleetClaims_perm _).length_eq]
  simp [hk]
  omega

include hid hf hk hs in
/-- The added claim gives the rounds one more claim's worth of limit, and changes nothing else. -/
theorem fold_insert :
    fold (some anchor) (before ++ e :: after) = .build anchor (fleetClaims (before ++ after))
        (common anchor (fleetClaims (before ++ after))
          (lastRound ((fleetClaims (before ++ after)).length + 1))) := by
  rw [fold_eq, length_fleetClaims_insert hk]
  simp only [common, rounds_insert hid hf hs]
  refine build_insert hid fun h => ?_
  exact fresh_not_mem_rounds hf _ (Finset.mem_inter.mp h).2

end

/-! ## When the fold ignores it -/

/-- Two memberships count the same claims, list the same incarnations and answer every question
about a writer or a name alike. -/
structure SameAnswers (m m' : Membership) : Prop where
  counts : ∀ id, m.counts id = m'.counts id
  incarnations : m.incarnationList = m'.incarnationList
  window : ∀ writer sequence, m.window writer sequence = m'.window writer sequence
  state : ∀ name, m.state name = m'.state name

/-- Outside this the rounds are cut off at the limit, which grows with the number of claims. -/
def Settles (anchor : String) (claims : List FleetClaim) : Prop :=
  SettlesWithin (nextRound anchor claims) (roundLimit claims.length) ∅

theorem common_of_settles {a : String} {claims : List FleetClaim} (h : Settles a claims) :
    common a claims (lastRound (claims.length + 1)) =
      common a claims (lastRound claims.length) := by
  obtain ⟨i, hi, hc⟩ := h
  rw [← lastRound_succ] at hi
  have hl := lastRound_mono (Nat.le_add_right claims.length 1)
  have agree := fun j hj => meet_iterate_of_settled hc (j := j) hj
  exact (agree _ (by omega)).trans (agree _ (by omega)).symm

/-- A `fleet.*` claim that nobody signed leaves every answer of the fold unchanged when the rounds
end in a cycle of length one or two before the limit. -/
theorem fold_ignores_unsigned (anchor : String) (before after : List FleetClaim)
    (extra : FleetClaim) (hids : ((before ++ after).map (·.id)).Nodup)
    (hfresh : extra.id ∉ (before ++ after).map (·.id)) (hkind : extra.kind.startsWith "fleet.")
    (hsigners : extra.signers = ∅) (hsettles : Settles anchor (fleetClaims (before ++ after))) :
    SameAnswers (.fold (some anchor) (before ++ extra :: after))
      (.fold (some anchor) (before ++ after)) := by
  rw [fold_insert hids hfresh hkind hsigners, fold_eq, common_of_settles hsettles]
  exact ⟨fun _ => rfl, rfl, fun _ _ => rfl, fun _ => rfl⟩

def removalRing : List FleetClaim :=
  [ .admission "0a" "a" "ka" "anchor" "a" 1 "ka", .admission "1x" "x" "kx" "invite" "a" 2 "ka",
    .admission "1y" "y" "ky" "invite" "x" 1 "kx", .admission "1z" "z" "kz" "invite" "a" 3 "ka",
    .removal "2x" "y" "ky" 4 "x" 5 "kx", .removal "2y" "z" "kz" 4 "y" 5 "ky",
    .removal "2z" "x" "kx" 4 "z" 5 "kz" ]

def unsignedNote : FleetClaim :=
  { id := "9n", kind := "fleet.note", subject := "host/q", fields := ∅, writer := "q",
    sequence := 1, signers := ∅ }

theorem unsigned_note_changes_fold :
    (removalRing.map (·.id)).Nodup ∧ unsignedNote.id ∉ removalRing.map (·.id) ∧
      unsignedNote.kind.startsWith "fleet." = true ∧ unsignedNote.signers = ∅ ∧
      ¬ SameAnswers (.fold (some "ka") (removalRing ++ [unsignedNote]))
        (.fold (some "ka") removalRing) := by
  refine ⟨by decide, by decide, by decide +kernel, rfl, fun h => ?_⟩
  have hy := h.counts "2y"
  revert hy
  decide +kernel

theorem unsigned_note_ignored : SameAnswers
    (.fold (some "ka") (removalRing.take 4 ++ unsignedNote :: []))
    (.fold (some "ka") (removalRing.take 4 ++ [])) :=
  fold_ignores_unsigned "ka" (removalRing.take 4) [] unsignedNote (by decide) (by decide)
    (by decide +kernel) rfl ⟨3, by decide +kernel, by decide +kernel⟩

end Smalltalk
