import Mathlib

/-!
# The next work of one seat

`select` lists the steps that occupy a seat and its ready steps in queue order. A nested step
whose listed ancestor has the same selector is reached through that ancestor.
-/

namespace Smalltalk.Seats

open List

inductive Status where
  | pending
  | ready
  | claimed
  | working
  | verifying
  | blocked
  | waitingPerson
  | orphaned
  | completed
  | failed
  | cancelled
  deriving DecidableEq

def Status.occupies : Status → Bool
  | .claimed | .working | .verifying => true
  | _ => false

structure SeatStep where
  subject : String
  run : String
  step : String
  status : Status
  assignee : Option String
  claimant : Option String
  availableTo : List String
  createdAtUnixMs : Nat
  carriedClaimant : Option String

structure SeatSelection where
  held : List String
  ready : List String

def SeatSelection.next (selection : SeatSelection) : Option String := selection.ready.head?

def SeatSelection.wake (selection : SeatSelection) : Option String :=
  if selection.held.isEmpty then selection.next else none

def nestsUnder (ancestor step : SeatStep) : Bool :=
  ancestor.run = step.run && ancestor.assignee = step.assignee &&
    ancestor.availableTo = step.availableTo &&
    (ancestor.step.toList ++ ['/']).isPrefixOf step.step.toList

def reachedThroughParent (step : SeatStep) (steps : List SeatStep) : Bool :=
  steps.any fun candidate => nestsUnder candidate step && candidate.status ≠ .verifying

def submittedWithReadyNestedWork (parent : SeatStep) (steps : List SeatStep) : Bool :=
  parent.status = .verifying && steps.any fun step => step.status = .ready && nestsUnder parent step

section
variable (agent : String) (steps : List SeatStep)

/-- The seat's claim occupies it, whatever is nested under the step. -/
def SeatStep.holds (step : SeatStep) : Bool :=
  step.status.occupies && (step.claimant = some agent || step.assignee = some agent)

def rank (runOrder : List String) (run : String) : Nat := (runOrder.idxOf? run).getD (2 ^ 64 - 1)

/-- The order of the ready steps, `false` before `true`. -/
def SeatStep.key (runOrder : List String) (step : SeatStep) :=
  toLex (decide (step.carriedClaimant ≠ some agent),
    toLex (rank runOrder step.run, toLex (step.createdAtUnixMs, step.subject)))

def selectReady : List SeatStep :=
  steps.filter fun step =>
    step.status = .ready && step.assignee = some agent && !reachedThroughParent step steps

def select (runOrder : List String) : SeatSelection where
  held :=
    (steps.filter fun step => step.holds agent && !submittedWithReadyNestedWork step steps).map
      (·.subject)
  ready :=
    ((selectReady agent steps).insertionSort (·.key agent runOrder ≤ ·.key agent runOrder)).map
      (·.subject)

/-- A ready step of the seat whose listed ancestors with its selector are all ready or submitted. -/
def Open (step : SeatStep) : Prop :=
  step ∈ steps ∧ step.status = .ready ∧ step.assignee = some agent ∧
    ∀ ancestor ∈ steps, nestsUnder ancestor step →
    ancestor.status = .ready ∨ ancestor.status = .verifying

end

section
variable {agent : String} {steps : List SeatStep} {a b c step : SeatStep}

theorem nestsUnder_iff :
    nestsUnder a b ↔ a.run = b.run ∧ a.assignee = b.assignee ∧ a.availableTo = b.availableTo ∧
    a.step.toList ++ ['/'] <+: b.step.toList := by
  simp [nestsUnder, and_assoc]

theorem nestsUnder_trans (hab : nestsUnder a b) (hb : nestsUnder b c) : nestsUnder a c := by
  obtain ⟨hr, hs, ha, hp⟩ := nestsUnder_iff.mp hab
  obtain ⟨hr', hs', ha', hp'⟩ := nestsUnder_iff.mp hb
  refine nestsUnder_iff.mpr ⟨hr.trans hr', hs.trans hs', ha.trans ha', ?_⟩
  exact hp.trans ((prefix_append _ _).trans hp')

theorem nestsUnder_length_lt (h : nestsUnder a b) :
    a.step.toList.length < b.step.toList.length := by
  have hl := (nestsUnder_iff.mp h).2.2.2.length_le
  simp only [length_append, length_singleton] at hl
  omega

theorem reachedThroughParent_eq_false : reachedThroughParent step steps = false ↔
    ∀ ancestor ∈ steps, nestsUnder ancestor step → ancestor.status = .verifying := by
  simp [reachedThroughParent]

theorem mem_selectReady : step ∈ selectReady agent steps ↔ step ∈ steps ∧ step.status = .ready ∧
    step.assignee = some agent ∧ ∀ ancestor ∈ steps, nestsUnder ancestor step →
    ancestor.status = .verifying := by
  simp [selectReady, ← reachedThroughParent_eq_false, and_assoc]

/-- The open step with the shortest path is not reached through another one: a ready ancestor of an
open step is open too. -/
theorem exists_mem_selectReady (n : Nat) :
    ∀ step, step.step.toList.length = n → Open agent steps step →
    ∃ f, f ∈ selectReady agent steps := by
  induction n using Nat.strong_induction_on with
  | _ n ih =>
    rintro step rfl ⟨hm, hr, ha, hb⟩
    by_cases hs : ∀ ancestor ∈ steps, nestsUnder ancestor step → ancestor.status = .verifying
    · exact ⟨step, mem_selectReady.mpr ⟨hm, hr, ha, hs⟩⟩
    · push Not at hs
      obtain ⟨parent, hp, hn, ht⟩ := hs
      have ho : Open agent steps parent :=
        ⟨hp, (hb parent hp hn).resolve_right ht, (nestsUnder_iff.mp hn).2.1.trans ha,
          fun ancestor hsteps h => hb ancestor hsteps (nestsUnder_trans h hn)⟩
      exact ih _ (nestsUnder_length_lt hn) parent rfl ho

theorem selectReady_ne_nil_iff : selectReady agent steps ≠ [] ↔ ∃ step, Open agent steps step := by
  constructor
  · intro h
    obtain ⟨step, hs⟩ := exists_mem_of_ne_nil _ h
    obtain ⟨hm, hr, ha, hb⟩ := mem_selectReady.mp hs
    exact ⟨step, hm, hr, ha, fun ancestor hsteps hn => .inr (hb ancestor hsteps hn)⟩
  · rintro ⟨step, ho⟩
    obtain ⟨f, hf⟩ := exists_mem_selectReady _ step rfl ho
    exact ne_nil_of_mem hf

theorem wake_isSome_iff (order : List String) : (select agent steps order).wake.isSome ↔
    (select agent steps order).held = [] ∧ ∃ step, Open agent steps step := by
  have hr : (select agent steps order).next.isSome ↔ ∃ step, Open agent steps step := by
    rw [← selectReady_ne_nil_iff, SeatSelection.next, isSome_head?]
    simp only [select, ne_eq, map_eq_nil_iff]
    rw [← length_eq_zero_iff, length_insertionSort, length_eq_zero_iff]
  by_cases hh : (select agent steps order).held = [] <;> simp [SeatSelection.wake, hh, hr]

theorem held_eq_nil (hi : ∀ step ∈ steps, step.holds agent = false) (order : List String) :
    (select agent steps order).held = [] := by
  simp only [select, map_eq_nil_iff, filter_eq_nil_iff]
  intro step hs
  simp [hi step hs]

end

/-- An idle seat is woken exactly when a ready step of its has only ready steps above it with
the same selector. -/
theorem idle_seat_wakes_iff (agent : String) (steps : List SeatStep) (runOrder : List String)
    (hidle : ∀ step ∈ steps, step.holds agent = false) :
    (select agent steps runOrder).wake.isSome ↔
    ∃ step ∈ steps, step.status = .ready ∧ step.assignee = some agent ∧
        ∀ ancestor ∈ steps, nestsUnder ancestor step → ancestor.status = .ready := by
  rw [wake_isSome_iff, and_iff_right (held_eq_nil hidle runOrder)]
  refine exists_congr fun step =>
    and_congr_right fun _ => and_congr_right fun _ => and_congr_right fun hs => ?_
  refine forall₃_congr fun ancestor hsteps hn => or_iff_left fun hv => ?_
  -- A submitted ancestor with the step's selector would occupy the seat.
  have hh := hidle ancestor hsteps
  have ha := (nestsUnder_iff.mp hn).2.1.trans hs
  simp [SeatStep.holds, Status.occupies, hv, ha] at hh

def sampleStep (path : String) (status : Status) : SeatStep :=
  ⟨path, "mission-run/r", path, status, some "agent/a", none, [], 0, none⟩

theorem ready_chain_wakes :
    (select "agent/a" [sampleStep "build" .ready, sampleStep "build/m/test" .ready]
      []).wake.isSome :=
  (idle_seat_wakes_iff "agent/a" _ [] (by decide)).mpr
    ⟨sampleStep "build" .ready, by simp, rfl, rfl, by decide +kernel⟩

/-- The ready nested step is reached only through its blocked parent, and the seat stays idle. -/
theorem blocked_parent_leaves_seat_idle :
    (∀ step ∈ [sampleStep "build" .blocked, sampleStep "build/m/test" .ready],
      step.holds "agent/a" = false) ∧
      sampleStep "build/m/test" .ready ∈
        [sampleStep "build" .blocked, sampleStep "build/m/test" .ready] ∧
      (select "agent/a" [sampleStep "build" .blocked, sampleStep "build/m/test" .ready] []).wake =
        none := by
  refine ⟨by decide, by simp, by decide +kernel⟩

end Smalltalk.Seats
