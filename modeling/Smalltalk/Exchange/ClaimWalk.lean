import Mathlib.Data.String.Basic
import Smalltalk.Lib.OrdSet

/-!
# Walking a peer's differing claim ranges

For one pair of whole-set digests a node asks a peer for the tops of the claim ranges, the
leaves of differing tops, the claim ids of differing leaves, and the claims it lacks. A
query that the peer cannot answer yet is put back; one whose round trip fails is not.
-/

namespace Smalltalk

open List

/-! ## The walk -/

structure ClaimRangeQuery where
  tops : Bool := false
  leavesOf : List Nat := []
  idsOf : List Nat := []
  claims : List String := []
  deriving DecidableEq

structure ClaimRangeComparison where
  same : Bool := false
  pair : String
  tops : List Nat := []
  leaves : List Nat := []
  missing : List String := []
  deriving DecidableEq

def claimRangeQueryTops : Nat := 4
def claimRangeQueryLeaves : Nat := 8
def claimRangeQueryClaims : Nat := 512
def claimWalkRoundTrips : Nat := 4

structure ClaimWalk where
  pair : String
  askedTops : Bool := false
  tops : List Nat := []
  leaves : List Nat := []
  missing : OrdSet String := ∅
  deriving DecidableEq

namespace ClaimWalk

def new (pair : String) : ClaimWalk := { pair }

/-- The next question for the peer, and the walk without it. -/
def nextQuery (walk : ClaimWalk) : Option (ClaimRangeQuery × ClaimWalk) :=
  if walk.missing.toList ≠ [] then
    some ({ claims := walk.missing.toList.take claimRangeQueryClaims },
      { walk with missing := walk.missing.drop claimRangeQueryClaims })
  else if walk.leaves ≠ [] then
    some ({ idsOf := walk.leaves.take claimRangeQueryLeaves },
      { walk with leaves := walk.leaves.drop claimRangeQueryLeaves })
  else if walk.tops ≠ [] then
    some ({ leavesOf := walk.tops.take claimRangeQueryTops },
      { walk with tops := walk.tops.drop claimRangeQueryTops })
  else if ¬ walk.askedTops then some ({ tops := true }, { walk with askedTops := true })
  else none

def finished (pair : String) : ClaimWalk := { pair, askedTops := true }

def retry (walk : ClaimWalk) (query : ClaimRangeQuery) : ClaimWalk :=
  { walk with
    askedTops := walk.askedTops && !query.tops
    tops := query.leavesOf ++ walk.tops
    leaves := query.idsOf ++ walk.leaves
    missing := walk.missing.extend query.claims }

def absorb (walk : ClaimWalk) (comparison : ClaimRangeComparison) : ClaimWalk :=
  { walk with
    tops := walk.tops ++ comparison.tops
    leaves := walk.leaves ++ comparison.leaves
    missing := walk.missing.extend comparison.missing }

end ClaimWalk

inductive RoundTrip where
  | unsent (error : String)
  | unreceived (error : String)
  | received (count : Nat) (claimRanges : Option ClaimRangeComparison)
  deriving DecidableEq

structure WalkOutcome where
  walk : ClaimWalk
  asked : List (ClaimRangeQuery × RoundTrip) := []
  result : Except String Bool

/-- The loop of `walk_claim_ranges`, over what becomes of each round trip. -/
def walkRoundTrips (trips : Nat → RoundTrip) : Nat → Nat → ClaimWalk → Bool → WalkOutcome
  | 0, _, walk, fetched => { walk, result := .ok fetched }
  | fuel + 1, i, walk, fetched =>
    match walk.nextQuery with
    | none => { walk, result := .ok fetched }
    | some (query, walk) =>
      match trips i with
      | .unsent error | .unreceived error =>
        { walk, asked := [(query, trips i)], result := .error error }
      | .received count none =>
        { walk := walk.retry query, asked := [(query, trips i)],
          result := .ok (fetched || count ≠ 0) }
      | .received count (some comparison) =>
        if comparison.same then
          { walk := .finished walk.pair, asked := [(query, trips i)],
            result := .ok (fetched || count ≠ 0) }
        else
          let rest :=
            walkRoundTrips trips fuel (i + 1) (walk.absorb comparison) (fetched || count ≠ 0)
          { rest with asked := (query, trips i) :: rest.asked }

/-- `walk_claim_ranges`: go on with the stored walk of this pair, or begin one. -/
def walkClaimRanges (stored : Option ClaimWalk) (pair : String) (trips : Nat → RoundTrip) :
    WalkOutcome :=
  walkRoundTrips trips claimWalkRoundTrips 0
    ((stored.filter (·.pair = pair)).getD (.new pair)) false

def walkExchanges (pair : String) :
    List (Nat → RoundTrip) → Option ClaimWalk × List (ClaimRangeQuery × RoundTrip)
  | [] => (none, [])
  | trips :: earlier =>
    let before := walkExchanges pair earlier
    let outcome := walkClaimRanges before.1 pair trips
    (some outcome.walk, before.2 ++ outcome.asked)

/-! ## What a walk learns and asks -/

inductive WalkItem where
  | tops
  | top (range : Nat)
  | leaf (range : Nat)
  | claim (id : String)
  deriving DecidableEq

def ClaimRangeQuery.items (query : ClaimRangeQuery) : List WalkItem :=
  (if query.tops then [.tops] else []) ++ query.leavesOf.map .top ++ query.idsOf.map .leaf ++
    query.claims.map .claim

def ClaimRangeComparison.items (comparison : ClaimRangeComparison) : List WalkItem :=
  comparison.tops.map .top ++ comparison.leaves.map .leaf ++ comparison.missing.map .claim

def ClaimWalk.pending (walk : ClaimWalk) : List WalkItem :=
  (if walk.askedTops then [] else [.tops]) ++ walk.tops.map .top ++ walk.leaves.map .leaf ++
    walk.missing.toList.map .claim

def RoundTrip.comparison : RoundTrip → Option ClaimRangeComparison
  | .received _ claimRanges => claimRanges
  | _ => none

def RoundTrip.failed : RoundTrip → Bool
  | .received _ _ => false
  | _ => true

def learned (asked : List (ClaimRangeQuery × RoundTrip)) : List WalkItem :=
  .tops :: asked.flatMap fun r => (r.2.comparison.map ClaimRangeComparison.items).getD []

def answered (asked : List (ClaimRangeQuery × RoundTrip)) : List WalkItem :=
  (asked.filter (·.2.comparison.isSome)).flatMap (·.1.items)

def lost (asked : List (ClaimRangeQuery × RoundTrip)) : List WalkItem :=
  (asked.filter (·.2.failed)).flatMap (·.1.items)

def Unchanged (pair : String) (trip : RoundTrip) : Prop :=
  ∀ comparison, trip.comparison = some comparison → comparison.pair = pair ∧ comparison.same = false

instance (pair : String) (trip : RoundTrip) : Decidable (Unchanged pair trip) :=
  decidable_of_iff (trip.comparison.all fun comparison => comparison.pair = pair ∧
    comparison.same = false) (by
    unfold Unchanged
    cases trip.comparison <;> simp)

namespace ClaimWalk

variable {next walk : ClaimWalk} {query : ClaimRangeQuery} {item : WalkItem}

theorem pending_of_nextQuery_none (h : walk.nextQuery = none) : walk.pending = [] := by
  unfold nextQuery at h
  by_cases hm : walk.missing.toList = []
  · by_cases hl : walk.leaves = []
    · by_cases ht : walk.tops = []
      · cases ha : walk.askedTops <;> simp_all [pending]
      · simp [hm, hl, ht] at h
    · simp [hm, hl] at h
  · simp [hm] at h

theorem mem_take_drop {α : Type} {l : List α} {n : Nat} {a : α} :
    a ∈ l ↔ a ∈ l.take n ∨ a ∈ l.drop n := by
  rw [← mem_append, take_append_drop]

theorem mem_pending_iff_of_nextQuery (h : walk.nextQuery = some (query, next)) (item : WalkItem) :
    item ∈ walk.pending ↔ item ∈ query.items ∨ item ∈ next.pending := by
  unfold nextQuery at h
  split at h
  · obtain ⟨rfl, rfl⟩ := Prod.mk.inj (Option.some.inj h)
    cases item with
    | claim id =>
      simpa [pending, ClaimRangeQuery.items, OrdSet.drop, -map_take, -map_drop] using mem_take_drop
    | _ => simp [pending, ClaimRangeQuery.items, -map_take, -map_drop]
  · split at h
    · obtain ⟨rfl, rfl⟩ := Prod.mk.inj (Option.some.inj h)
      cases item with
      | leaf range =>
        simpa [pending, ClaimRangeQuery.items, -map_take, -map_drop] using mem_take_drop
      | _ => simp [pending, ClaimRangeQuery.items, -map_take, -map_drop]
    · split at h
      · obtain ⟨rfl, rfl⟩ := Prod.mk.inj (Option.some.inj h)
        cases item with
        | top range =>
          simpa [pending, ClaimRangeQuery.items, -map_take, -map_drop] using mem_take_drop
        | _ => simp [pending, ClaimRangeQuery.items, -map_take, -map_drop]
      · split at h
        · rename_i ha
          obtain ⟨rfl, rfl⟩ := Prod.mk.inj (Option.some.inj h)
          cases item <;> simp_all [pending, ClaimRangeQuery.items]
        · cases h

theorem mem_pending_retry :
    item ∈ (walk.retry query).pending ↔ item ∈ query.items ∨ item ∈ walk.pending := by
  cases item with
  | tops =>
    cases ha : walk.askedTops <;> cases ht : query.tops <;>
    simp [pending, retry, ClaimRangeQuery.items, ha, ht]
  | claim id =>
    simp [pending, retry, ClaimRangeQuery.items, ← OrdSet.mem_def, OrdSet.mem_extend, or_comm]
  | _ => simp [pending, retry, ClaimRangeQuery.items]

theorem mem_pending_absorb {comparison : ClaimRangeComparison} :
    item ∈ (walk.absorb comparison).pending ↔ item ∈ walk.pending ∨ item ∈ comparison.items := by
  cases ha : walk.askedTops <;> cases item <;>
    simp [pending, absorb, ClaimRangeComparison.items, ← OrdSet.mem_def, OrdSet.mem_extend, ha]

theorem pair_of_nextQuery (h : walk.nextQuery = some (query, next)) : next.pair = walk.pair := by
  unfold nextQuery at h
  repeat' split at h
  all_goals cases h
  all_goals rfl

end ClaimWalk

/-! ## Nothing but failed round trips loses an item -/

section
variable {a : List (ClaimRangeQuery × RoundTrip)} {q : ClaimRangeQuery} {i : WalkItem}

theorem mem_learned_append (t : RoundTrip) : i ∈ learned (a ++ [(q, t)]) ↔
    i ∈ learned a ∨ ∃ comparison, t.comparison = some comparison ∧ i ∈ comparison.items := by
  cases hc : t.comparison <;> simp [learned, hc, or_assoc]

theorem mem_answered_append (t : RoundTrip) : i ∈ answered (a ++ [(q, t)]) ↔
    i ∈ answered a ∨ t.comparison.isSome = true ∧ i ∈ q.items := by
  cases hc : t.comparison.isSome <;> simp [answered, hc]

theorem mem_lost_append (t : RoundTrip) :
    i ∈ lost (a ++ [(q, t)]) ↔ i ∈ lost a ∨ t.failed = true ∧ i ∈ q.items := by
  cases hf : t.failed <;> simp [lost, hf]

end

structure Accounted (walk : ClaimWalk) (asked : List (ClaimRangeQuery × RoundTrip)) : Prop where
  covered : ∀ item ∈ learned asked, item ∈ walk.pending ∨ item ∈ answered asked ∨ item ∈ lost asked
  pending_known : ∀ item ∈ walk.pending, item ∈ learned asked
  lost_known : ∀ item ∈ lost asked, item ∈ learned asked

theorem Accounted.new (p : String) : Accounted (.new p) [] := by
  have hp : (ClaimWalk.new p).pending = [.tops] := rfl
  exact ⟨by simp [learned, hp], by simp [learned, hp], by simp [lost]⟩

def ClaimWalk.after (walk : ClaimWalk) (query : ClaimRangeQuery) : RoundTrip → ClaimWalk
  | .received _ (some comparison) => walk.absorb comparison
  | .received _ none => walk.retry query
  | _ => walk

variable {walk : ClaimWalk} {query : ClaimRangeQuery} {pair : String}

theorem ClaimWalk.mem_pending_after {t : RoundTrip} {item : WalkItem} :
    item ∈ (walk.after query t).pending ↔ item ∈ walk.pending ∨
    (t.failed = false ∧ t.comparison = none ∧ item ∈ query.items) ∨
        ∃ comparison, t.comparison = some comparison ∧ item ∈ comparison.items := by
  match t with
  | .received _ (some comparison) =>
    simp [after, RoundTrip.comparison, RoundTrip.failed, mem_pending_absorb]
  | .received _ none =>
    simp [after, RoundTrip.comparison, RoundTrip.failed, mem_pending_retry, or_comm]
  | .unsent _ => simp [after, RoundTrip.comparison, RoundTrip.failed]
  | .unreceived _ => simp [after, RoundTrip.comparison, RoundTrip.failed]

theorem Accounted.step {next : ClaimWalk} {asked : List (ClaimRangeQuery × RoundTrip)}
    (h : Accounted walk asked) (hq : walk.nextQuery = some (query, next)) (t : RoundTrip) :
    Accounted (next.after query t) (asked ++ [(query, t)]) := by
  have hp := ClaimWalk.mem_pending_iff_of_nextQuery hq
  have hm : ∀ ite ∈ query.items, ite ∈ learned asked :=
    fun ite hi => h.pending_known ite ((hp ite).mpr (.inl hi))
  refine ⟨?_, ?_, ?_⟩
  · intro ite hi
    rw [ClaimWalk.mem_pending_after, mem_answered_append, mem_lost_append]
    rcases (mem_learned_append t).mp hi with hr | hc
    · rcases h.covered ite hr with hw | hanswered | hl
      · rcases (hp ite).mp hw with ha | hn
        · -- the query named it: the outcome says where it went
          cases hf : t.failed <;> cases hs : t.comparison <;> simp [ha]
        · exact .inl (.inl hn)
      · exact .inr (.inl (.inl hanswered))
      · exact .inr (.inr (.inl hl))
    · exact .inl (.inr (.inr hc))
  · intro ite hi
    rw [mem_learned_append]
    rcases ClaimWalk.mem_pending_after.mp hi with hn | ⟨_, _, ha⟩ | hc
    · exact .inl (h.pending_known ite ((hp ite).mpr (.inr hn)))
    · exact .inl (hm ite ha)
    · exact .inr hc
  · intro ite hi
    rw [mem_learned_append]
    rcases (mem_lost_append t).mp hi with hl | ⟨_, ha⟩
    · exact .inl (h.lost_known ite hl)
    · exact .inl (hm ite ha)

theorem pair_after (walk : ClaimWalk) (query : ClaimRangeQuery) (t : RoundTrip) :
    (walk.after query t).pair = walk.pair := by
  match t with
  | .received _ (some _) => rfl
  | .received _ none => rfl
  | .unsent _ => rfl
  | .unreceived _ => rfl

theorem Accounted.walkRoundTrips {trips : Nat → RoundTrip} (fuel : Nat) :
    ∀ (i : Nat) {walk : ClaimWalk} (f : Bool) {asked : List (ClaimRangeQuery × RoundTrip)},
      Accounted walk asked → walk.pair = pair →
        (∀ r ∈ (walkRoundTrips trips fuel i walk f).asked, Unchanged pair r.2) →
        Accounted (walkRoundTrips trips fuel i walk f).walk
          (asked ++ (walkRoundTrips trips fuel i walk f).asked) ∧
        (walkRoundTrips trips fuel i walk f).walk.pair = pair := by
  induction fuel with
  | zero => intro i walk f asked h hp _; exact ⟨by simpa [Smalltalk.walkRoundTrips] using h, hp⟩
  | succ fuel ih =>
    intro i walk f asked h hp
    cases hq : walk.nextQuery with
    | none =>
      intro _
      simp only [Smalltalk.walkRoundTrips, hq, append_nil]
      exact ⟨h, hp⟩
    | some r =>
      obtain ⟨query, next⟩ := r
      have hs := h.step hq (trips i)
      have hn : (next.after query (trips i)).pair = pair := by
        rw [pair_after, ClaimWalk.pair_of_nextQuery hq, hp]
      simp only [Smalltalk.walkRoundTrips, hq]
      cases ht : trips i with
      | unsent | unreceived =>
        rw [ht] at hs hn
        exact fun _ => ⟨hs, hn⟩
      | received count claims =>
        rw [ht] at hs hn
        cases claims with
        | none => exact fun _ => ⟨hs, hn⟩
        | some comparison =>
          cases hm : comparison.same with
          | true =>
            intro hu
            simp only [hm, if_true, mem_singleton, forall_eq] at hu
            have := (hu comparison rfl).2
            rw [hm] at this
            cases this
          | false =>
            intro hu
            simp only [hm, Bool.false_eq_true, if_false] at hu ⊢
            have haccounted :=
              ih (i + 1) (f || decide (count ≠ 0)) hs hn fun r hr => hu r (mem_cons_of_mem _ hr)
            rw [append_assoc] at haccounted
            exact haccounted

theorem Accounted.walkExchanges (exchanges : List (Nat → RoundTrip)) :
    (∀ r ∈ (walkExchanges pair exchanges).2, Unchanged pair r.2) →
      Accounted ((walkExchanges pair exchanges).1.getD (.new pair))
        (walkExchanges pair exchanges).2 ∧
        ∀ walk ∈ (walkExchanges pair exchanges).1, walk.pair = pair := by
  induction exchanges with
  | nil => exact fun _ => ⟨.new pair, by simp [Smalltalk.walkExchanges]⟩
  | cons turn earlier ih =>
    intro hu
    simp only [Smalltalk.walkExchanges] at hu ⊢
    obtain ⟨hc, hp⟩ := ih fun r hr => hu r (mem_append_left _ hr)
    have ht : ((Smalltalk.walkExchanges pair earlier).1.filter (·.pair = pair)).getD (.new pair) =
        (Smalltalk.walkExchanges pair earlier).1.getD (.new pair) := by
      cases hw : (Smalltalk.walkExchanges pair earlier).1 with
      | none => rfl
      | some walk => simp [Option.filter_some, hp walk hw]
    have hs : ((Smalltalk.walkExchanges pair earlier).1.getD (.new pair)).pair = pair := by
      cases hw : (Smalltalk.walkExchanges pair earlier).1 with
      | none => rfl
      | some walk => exact hp walk hw
    simp only [walkClaimRanges, ht] at hu ⊢
    obtain ⟨hf, ha⟩ :=
      hc.walkRoundTrips claimWalkRoundTrips 0 false hs fun r hr => hu r (mem_append_right _ hr)
    exact ⟨hf, by simpa using ha⟩

/-- A walk with nothing left to ask has had an answer to everything it learned of exactly when
the same is true of what its failed round trips named. -/
theorem finished_walk_answered_iff {pair : String} {exchanges : List (Nat → RoundTrip)}
    {walk : ClaimWalk} (hunchanged : ∀ r ∈ (walkExchanges pair exchanges).2, Unchanged pair r.2)
    (hwalk : (walkExchanges pair exchanges).1 = some walk) (hfinished : walk.nextQuery = none) :
    (∀ item ∈ learned (walkExchanges pair exchanges).2,
      item ∈ answered (walkExchanges pair exchanges).2) ↔
      ∀ item ∈ lost (walkExchanges pair exchanges).2,
      item ∈ answered (walkExchanges pair exchanges).2 := by
  have ha := (Accounted.walkExchanges exchanges hunchanged).1
  rw [hwalk, Option.getD_some] at ha
  constructor
  · exact fun hall item hl => hall item (ha.lost_known item hl)
  · intro hl item hi
    rcases ha.covered item hi with hp | hn | hi
    · rw [ClaimWalk.pending_of_nextQuery_none hfinished] at hp
      cases hp
    · exact hn
    · exact hl item hi

def oneMissing : Nat → RoundTrip
  | 0 => .received 0 (some { pair := "ours/theirs", tops := [3] })
  | 1 => .received 0 (some { pair := "ours/theirs", leaves := [30] })
  | 2 => .received 0 (some { pair := "ours/theirs", missing := ["c1"] })
  | _ => .received 1 (some { pair := "ours/theirs" })

theorem one_missing_answered :
    (walkExchanges "ours/theirs" [oneMissing]).1 = some (.finished "ours/theirs") ∧
      ∀ item ∈ learned (walkExchanges "ours/theirs" [oneMissing]).2,
        item ∈ answered (walkExchanges "ours/theirs" [oneMissing]).2 := by
  have hw : (walkExchanges "ours/theirs" [oneMissing]).1 = some (.finished "ours/theirs") := by
    decide +kernel
  refine ⟨hw, (finished_walk_answered_iff (by decide +kernel) hw (by decide +kernel)).mpr ?_⟩
  decide +kernel

def secondUnsent : Nat → RoundTrip
  | 0 => .received 0 (some { pair := "ours/theirs", tops := [3] })
  | _ => .unsent "connection refused"

theorem unsent_query_given_up :
    (∀ r ∈ (walkExchanges "ours/theirs" [secondUnsent]).2, Unchanged "ours/theirs" r.2) ∧
      (walkExchanges "ours/theirs" [secondUnsent]).1 = some (.finished "ours/theirs") ∧
      (ClaimWalk.finished "ours/theirs").nextQuery = none ∧
      .top 3 ∈ learned (walkExchanges "ours/theirs" [secondUnsent]).2 ∧
      .top 3 ∉ answered (walkExchanges "ours/theirs" [secondUnsent]).2 := by
  decide +kernel

end Smalltalk
