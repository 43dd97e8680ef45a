import Smalltalk.Seats.Selection

/-!
# The execution clock of a step

A step's timing is folded from its step and work events in canonical order. A declared wait
stops the clock until it is resumed or its deadline passes.
-/

namespace Smalltalk.Missions

open List Option

open Seats (Status)

/-! ## The fold -/

inductive EventKind where
  | stepRunState
  | stepRunCarried
  | workClaimed
  | workRenewed
  | workProgress
  | workExtended
  | workSubmitted
  | workFailed
  | workReleased
  | workPerson
  deriving DecidableEq

def EventKind.isWork : EventKind → Bool
  | .stepRunState | .stepRunCarried => false
  | _ => true

inductive ClockField where
  | paused
  | running
  deriving DecidableEq

structure Event where
  kind : EventKind
  accepted : Nat
  attempt : Option Nat := none
  status : Option Status := none
  claimant : Option String := none
  claimExpiresAtUnixMs : Option Nat := none
  clock : Option ClockField := none
  waitUntilUnixMs : Option Nat := none

namespace Event

def active (event : Event) : Bool := event.status = some .claimed || event.status = some .working

def declares (event : Event) : Option Nat :=
  if event.kind = .workProgress ∧ event.clock = some .paused then
    event.waitUntilUnixMs.filter (event.accepted < ·)
  else none

def counts (attempt : Nat) (event : Event) : Bool :=
  !event.kind.isWork || event.attempt = some attempt

def opens (event : Event) : Bool :=
  match event.kind with
  | .stepRunState => event.active
  | .workClaimed => true
  | .stepRunCarried => event.active && event.claimant.isSome
  | _ => false

theorem lt_of_declares {event : Event} {deadline : Nat} (h : event.declares = some deadline) :
    event.accepted < deadline := by
  simp only [declares, ite_none_right_eq_some, filter_eq_some_iff, decide_eq_true_eq] at h
  exact h.2.2

def Leases (event : Event) : Prop :=
  ∀ expiry, event.claimExpiresAtUnixMs = some expiry → event.accepted ≤ expiry

end Event

structure Clock where
  started : Option Nat := none
  elapsed : Nat := 0
  leaseExpires : Option Nat := none
  pausedUntil : Option Nat := none
  pauseStarted : Option Nat := none
  waited : Nat := 0
  deriving DecidableEq

namespace Clock

def endWait (s : Clock) (time : Nat) : Clock :=
  { s with waited := s.waited + s.pauseStarted.elim 0 (time - ·), pauseStarted := none,
           pausedUntil := none }

def intervalEnd (s : Clock) (time : Nat) : Nat := s.leaseExpires.elim time (min time)

def closeInterval (s : Clock) (time : Nat) : Clock :=
  { s with elapsed := s.elapsed + s.started.elim 0 (s.intervalEnd time - ·), started := none }

/-- A wait ends at its deadline whether or not anyone resumed. -/
def passDeadline (s : Clock) (time : Nat) : Clock :=
  match s.pausedUntil with
  | some deadline =>
    if deadline < time then { s with started := some deadline }.endWait deadline else s
  | none => s

def passExpiry (s : Clock) (time : Nat) : Clock :=
  match s.started, s.leaseExpires with
  | some start, some expiry =>
    if expiry < time then
      { s with elapsed := s.elapsed + (expiry - start), started := none, leaseExpires := none }
        else s
  | _, _ => s

/-- A new claim ends any wait the previous holder declared. -/
def claim (s : Clock) (event : Event) : Clock :=
  let s := s.endWait event.accepted
  { s with started := s.started.or (some event.accepted),
           leaseExpires := event.claimExpiresAtUnixMs }

def close (s : Clock) (time : Nat) : Clock :=
  { s.closeInterval time with leaseExpires := none }.endWait time

def renew (s : Clock) (event : Event) : Clock :=
  if s.started.isSome || s.pausedUntil.isSome then
    let s' : Clock := match event.declares with
      | some deadline =>
        { (s.endWait event.accepted).closeInterval event.accepted with
          pauseStarted := some event.accepted, pausedUntil := some deadline }
      | none =>
        if event.kind = .workProgress ∧ event.clock = some .running ∧ s.pausedUntil.isSome then
          { s.endWait event.accepted with started := some event.accepted }
        else s
    { s' with leaseExpires := event.claimExpiresAtUnixMs }
  else s

def apply (s : Clock) (event : Event) : Clock :=
  match event.kind with
  | .stepRunState =>
    if event.active then
      if s.started.isNone && s.pausedUntil.isNone then
        { s with started := some event.accepted } else s
    else if event.status.isSome then s.close event.accepted
    else s
  | .workClaimed => s.claim event
  | .stepRunCarried => if event.active && event.claimant.isSome then s.claim event else s
  | .workRenewed | .workProgress | .workExtended => s.renew event
  | .workSubmitted | .workFailed | .workReleased => s.close event.accepted
  | .workPerson => s

def fold (attempt : Nat) (s : Clock) (event : Event) : Clock :=
  if event.counts attempt then
  ((s.passDeadline event.accepted).passExpiry event.accepted).apply event else s

/-- The time waited as of a snapshot, a wait still running included. -/
def waitedAt (s : Clock) (snapshot : Nat) : Nat :=
  (s.passDeadline snapshot).waited + (s.passDeadline snapshot).pauseStarted.elim 0 (snapshot - ·)

end Clock

structure StepTiming where
  started : Option Nat
  elapsed : Nat
  pausedUntil : Option Nat
  waited : Nat

def foldStepClockOpen (events : List Event) (attempt snapshot : Nat) : Clock :=
  let s := (events.takeWhile (·.accepted ≤ snapshot)).foldl (Clock.fold attempt) {}
  { s.passDeadline snapshot with waited := s.waitedAt snapshot }

def foldStepClock (events : List Event) (attempt snapshot : Nat) (currentlyActive : Bool) :
    StepTiming :=
  let s := foldStepClockOpen events attempt snapshot
  let expired := s.leaseExpires.any (· ≤ snapshot)
  { started := if expired || !currentlyActive then none else s.started
    elapsed :=
      s.elapsed + if expired || currentlyActive then
      s.started.elim 0 (s.intervalEnd snapshot - ·) else 0
    pausedUntil := if currentlyActive then s.pausedUntil else none
    waited := s.waited }

def opening (attempt : Nat) (events : List Event) : Option Nat :=
  (events.find? fun event => event.counts attempt && event.opens).map (·.accepted)

def maxStepWaitMs : Nat := 12 * 60 * 60 * 1000

/-- The check of the wait action: it reads the clock at a time no later than its event's. -/
def Admitted (attempt : Nat) (before : List Event) (event : Event) : Prop :=
  ∀ deadline, event.counts attempt → event.declares = some deadline →
    ∃ now waitMs, now ≤ event.accepted ∧ deadline = now + waitMs ∧
      waitMs ≤ maxStepWaitMs - (foldStepClock before attempt now true).waited

/-! ## What the clock has counted -/

namespace Clock

/-- Up to `t`, the clock has counted nothing before `first` and nothing twice. It is idle, runs
from `start`, or waits from `start` on. -/
inductive Phase (first t : Nat) : Clock → Prop
  | idle {elapsed waited : Nat} (lease : Option Nat) (h : elapsed + waited + first ≤ t) :
    Phase first t ⟨none, elapsed, lease, none, none, waited⟩
  | runs {elapsed waited start : Nat} (lease : Option Nat) (h : elapsed + waited + first ≤ start)
      (hstart : start ≤ t) :
    Phase first t ⟨some start, elapsed, lease, none, none, waited⟩
  | waits {elapsed waited start deadline : Nat} (lease : Option Nat)
      (h : elapsed + waited + first ≤ start)
    (hstart : start ≤ t) (hdeadline : start ≤ deadline) :
    Phase first t ⟨none, elapsed, lease, some deadline, some start, waited⟩

section
variable {first t t' : Nat} {s : Clock} {event : Event} {attempt : Nat}

section
variable (h : Phase first t s)
include h

theorem Phase.mono (hl : t ≤ t') : Phase first t' s := by
  cases h with
  | idle lease h => exact .idle lease (by omega)
  | runs lease h hs => exact .runs lease h (by omega)
  | waits lease h hs hd => exact .waits lease h (by omega) hd

theorem Phase.passDeadline : Phase first t (s.passDeadline t) := by
  cases h with
  | idle lease h => exact .idle lease h
  | runs lease h hs => exact .runs lease h hs
  | @waits elapsed waited start deadline lease h hs hd =>
    by_cases hp : deadline < t
    · simp only [Clock.passDeadline, hp, if_true, endWait, elim_some]
      exact .runs lease (by omega) (by omega)
    · simp only [Clock.passDeadline, hp, if_false]
      exact .waits lease h hs hd

theorem Phase.passExpiry : Phase first t (s.passExpiry t) := by
  cases h with
  | idle lease h => exact .idle lease h
  | @runs elapsed waited start lease h hs =>
    cases lease with
    | none => exact .runs _ h hs
    | some e =>
      by_cases hp : e < t
      · simp only [Clock.passExpiry, hp, if_true]
        exact .idle _ (by omega)
      · simp only [Clock.passExpiry, hp, if_false]
        exact .runs _ h hs
  | waits lease h hs hd => exact .waits lease h hs hd

end

theorem intervalEnd_le (s : Clock) (t : Nat) : s.intervalEnd t ≤ t := by
  cases hl : s.leaseExpires <;> simp [intervalEnd, hl]

section
variable (h : Phase first t s)
include h

theorem Phase.endWait : Phase first t (s.endWait t) := by
  cases h with
  | idle lease h => exact .idle lease h
  | runs lease h hs => exact .runs lease h hs
  | @waits elapsed waited start deadline lease h hs hd =>
    exact .idle lease (by simp only [elim_some]; omega)

theorem Phase.closeInterval : Phase first t (s.closeInterval t) := by
  have hl := s.intervalEnd_le t
  cases h with
  | idle lease h => exact .idle lease h
  | @runs elapsed waited start lease h hs =>
    refine .idle lease ?_
    simp only [elim_some]
    omega
  | waits lease h hs hd => exact .waits lease h hs hd

theorem Phase.lease (lease : Option Nat) : Phase first t { s with leaseExpires := lease } := by
  cases h with
  | idle _ h => exact .idle lease h
  | runs _ h hs => exact .runs lease h hs
  | waits _ h hs hd => exact .waits lease h hs hd

theorem Phase.open (hw : s.pausedUntil = none) :
    Phase first t { s with started := s.started.or (some t) } := by
  cases h with
  | idle lease h => exact .runs lease h le_rfl
  | runs lease h hs => exact .runs lease h hs
  | waits => cases hw

theorem Phase.wait {d : Nat} (hs : s.started = none) (hw : s.pausedUntil = none)
    (hl : t ≤ d) : Phase first t { s with pauseStarted := some t, pausedUntil := some d } := by
  cases h with
  | idle lease h => exact .waits lease h le_rfl hl
  | runs => cases hs
  | waits => cases hw

theorem Phase.close : Phase first t (s.close t) := ((h.closeInterval).lease none).endWait

end

section
variable (h : Phase first event.accepted s)
include h

theorem Phase.claim : Phase first event.accepted (s.claim event) := (h.endWait.open rfl).lease _

theorem Phase.renew : Phase first event.accepted (s.renew event) := by
  unfold Clock.renew
  split
  · refine Phase.lease (s := _) ?_ _
    cases hd : event.declares with
    | some d =>
      exact h.endWait.closeInterval.wait rfl rfl (Event.lt_of_declares hd).le
    | none =>
      simp only
      split
      · rename_i hr
        cases h with
        | idle | runs => simp at hr
        | waits lease h hs hle =>
          simp only [Clock.endWait, elim_some]
          exact .runs lease (by omega) le_rfl
      · exact h
  · exact h

theorem Phase.apply : Phase first event.accepted (s.apply event) := by
  unfold Clock.apply
  split
  · split
    · split
      · rename_i hi
        simp only [Bool.and_eq_true, isNone_iff_eq_none] at hi
        simpa [hi.1] using h.open hi.2
      · exact h
    · split
      · exact h.close
      · exact h
  · exact h.claim
  · split
    · exact h.claim
    · exact h
  all_goals first | exact h.renew | exact h.close | exact h

end

theorem Phase.fold (h : Phase first t s) (hl : t ≤ event.accepted) :
    Phase first event.accepted (s.fold attempt event) := by
  have h := h.mono hl
  unfold Clock.fold
  split
  · exact h.passDeadline.passExpiry.apply
  · exact h

structure Between (t t' : Nat) (events : List Event) : Prop where
  sorted : events.Pairwise (·.accepted ≤ ·.accepted)
  lower : ∀ event ∈ events, t ≤ event.accepted
  upper : ∀ event ∈ events, event.accepted ≤ t'
  le : t ≤ t'

variable {events : List Event}

theorem Between.cons (h : Between t t' (event :: events)) :
    t ≤ event.accepted ∧ Between event.accepted t' events := by
  obtain ⟨hh, ht⟩ := pairwise_cons.mp h.sorted
  exact ⟨h.lower event mem_cons_self, ht, hh, fun e he => h.upper e (mem_cons_of_mem _ he),
    h.upper event mem_cons_self⟩

theorem Phase.foldl (h : Phase first t s) (hb : Between t t' events) :
    Phase first t' (events.foldl (Clock.fold attempt) s) := by
  induction events generalizing s t with
  | nil => exact h.mono hb.le
  | cons event events ih =>
    obtain ⟨he, hr⟩ := hb.cons
    exact ih (h.fold he) hr

theorem fold_initial (h : (event.counts attempt && event.opens) = false) :
    Clock.fold attempt {} event = {} := by
  unfold Clock.fold
  split
  · rename_i hc
    simp only [hc, Bool.true_and] at h
    unfold Clock.apply
    cases hk : event.kind <;>
      simp_all [Event.opens, passDeadline, passExpiry, close, closeInterval, endWait, Clock.renew]
  · rfl

theorem fold_opens (h : (event.counts attempt && event.opens) = true) :
    Phase event.accepted event.accepted (Clock.fold attempt {} event) := by
  rw [Bool.and_eq_true] at h
  have hr : ∀ lease, Phase event.accepted event.accepted
      ⟨some event.accepted, 0, lease, none, none, 0⟩ :=
    fun lease => .runs lease (by omega) le_rfl
  unfold Clock.fold Clock.apply
  have ho := h.2
  cases hk : event.kind <;>
    simp_all [Event.opens, passDeadline, passExpiry, Clock.claim, Clock.endWait]

section
variable (h : events.Pairwise (·.accepted ≤ ·.accepted))
include h

/-- From the start, the clock is untouched or has counted from the first opening event on. -/
theorem fold_events (ht : ∀ event ∈ events, event.accepted ≤ t') :
    (events.foldl (Clock.fold attempt) {} = {} ∧ opening attempt events = none) ∨
      ∃ first, opening attempt events = some first ∧
      Phase first t' (events.foldl (Clock.fold attempt) {}) := by
  induction events with
  | nil => exact .inl ⟨rfl, rfl⟩
  | cons event events ih =>
    obtain ⟨hh, hl⟩ := pairwise_cons.mp h
    have hr := fun e he => ht e (mem_cons_of_mem _ he)
    cases ho : event.counts attempt && event.opens with
    | true =>
      refine .inr ⟨event.accepted, by simp [opening, ho], ?_⟩
      exact (fold_opens ho).foldl ⟨hl, hh, hr, ht event mem_cons_self⟩
    | false =>
      rw [foldl_cons, fold_initial ho]
      simpa [opening, find?_cons, ho] using ih hl hr

theorem phase_fold_events
    (ht : ∀ event ∈ events, event.accepted ≤ t') :
    ∃ first, Phase first t' (events.foldl (Clock.fold attempt) {}) := by
  obtain ⟨hi, -⟩ | ⟨first, -, hp⟩ := @fold_events t' attempt _ h ht
  · rw [hi]
    exact ⟨0, .idle none (Nat.zero_le _)⟩
  · exact ⟨first, hp⟩

end

/-! ## Elapsed time -/

/-- What an interval from `start` adds as of `t`, its lease over from `t` on or only after it. -/
def interval (ends : Nat → Nat → Bool) (active : Bool) (lease : Option Nat) (t start : Nat) : Nat :=
  if lease.any (ends · t) || active then lease.elim t (min t) - start else 0

def elapsedAt (ends : Nat → Nat → Bool) (active : Bool) (s : Clock) (t : Nat) : Nat :=
  (s.passDeadline t).elapsed +
    (s.passDeadline t).started.elim 0 (interval ends active (s.passDeadline t).leaseExpires t)

def atMost (a b : Nat) : Bool := a ≤ b

def below (a b : Nat) : Bool := a < b

section
variable (active : Bool)
include active

theorem interval_le_below (lease : Option Nat) (start : Nat) (hl : t < t') :
    interval atMost active lease t start ≤ interval below active lease t' start := by
  cases lease with
  | none => cases active <;> simp [interval]; omega
  | some e =>
    cases active
    · simp only [interval, any_some, atMost, below, Bool.or_false, decide_eq_true_eq, elim_some]
      split_ifs <;> omega
    · simp only [interval, Bool.or_true, if_true, elim_some]
      omega

theorem interval_below_le (lease : Option Nat) (t start : Nat) :
    interval below active lease t start ≤ interval atMost active lease t start := by
  cases lease with
  | none => rfl
  | some e =>
    cases active
    · simp only [interval, any_some, atMost, below, Bool.or_false, decide_eq_true_eq, elim_some]
      split_ifs <;> omega
    · simp [interval]

theorem elapsedAt_below_le (s : Clock) (t : Nat) :
    s.elapsedAt below active t ≤ s.elapsedAt atMost active t := by
  unfold elapsedAt
  cases (s.passDeadline t).started with
  | none => exact le_rfl
  | some start => exact Nat.add_le_add_left (interval_below_le _ _ _ _) _

theorem elapsedAt_le_below (h : Phase first t s) (hl : t < t') :
    s.elapsedAt atMost active t ≤ s.elapsedAt below active t' := by
  cases h with
  | idle lease h => exact le_rfl
  | runs lease h hs => exact Nat.add_le_add_left (interval_le_below active lease _ hl) _
  | @waits elapsed waited start deadline lease h hs hd =>
    have hm := interval_le_below active lease deadline hl
    by_cases hp : deadline < t
    · have hp' : deadline < t' := by omega
      simpa [elapsedAt, passDeadline, endWait, hp, hp'] using hm
    · by_cases hp' : deadline < t' <;> simp [elapsedAt, passDeadline, endWait, hp, hp']

theorem elapsedAt_below_mono (h : Phase first t s) (hle : t ≤ t') :
    s.elapsedAt below active t ≤ s.elapsedAt below active t' := by
  rcases hle.eq_or_lt with rfl | hl
  · exact le_rfl
  · exact (elapsedAt_below_le active s t).trans (elapsedAt_le_below active h hl)

end

def Due (t : Nat) (s : Clock) : Prop := ∀ deadline, s.pausedUntil = some deadline → t ≤ deadline

def Current (t : Nat) (s : Clock) : Prop :=
  Due t s ∧ ∀ expiry, s.leaseExpires = some expiry →
  t ≤ expiry ∨ s.started = none ∧ s.pausedUntil ≠ none

/-- A clock that neither runs nor waits has no lease, and one that waits does not run. -/
def Tidy (s : Clock) : Prop :=
  (s.started = none → s.pausedUntil = none → s.leaseExpires = none) ∧
  (s.pausedUntil ≠ none → s.started = none)

def shown (active : Bool) (s : Clock) (t : Nat) : Nat :=
  s.elapsed + if active then s.started.elim 0 (t - ·) else 0

theorem passDeadline_of_due (h : Due t s) : s.passDeadline t = s := by
  unfold passDeadline
  cases hp : s.pausedUntil with
  | none => rfl
  | some d => exact if_neg (Nat.not_lt.mpr (h d hp))

theorem due_passDeadline (s : Clock) (t : Nat) : Due t (s.passDeadline t) := by
  intro d hd
  unfold passDeadline at hd
  cases hs : s.pausedUntil with
  | none => simp [hs] at hd
  | some d' =>
    by_cases hp : d' < t
    · simp [hs, hp, endWait] at hd
    · simp only [hs, hp, if_false, Option.some.injEq] at hd
      omega

theorem elapsedAt_of_due (e : Nat → Nat → Bool) (active : Bool) (h : Due t s) :
    s.elapsedAt e active t = s.elapsed + s.started.elim 0 (interval e active s.leaseExpires t) := by
  rw [elapsedAt, passDeadline_of_due h]

theorem waitedAt_of_due (h : Due t s) :
    s.waitedAt t = s.waited + s.pauseStarted.elim 0 (t - ·) := by
  rw [waitedAt, passDeadline_of_due h]

theorem lease_of_current (h : Current t s) {start expiry : Nat} (hs : s.started = some start)
    (hl : s.leaseExpires = some expiry) : t ≤ expiry := by
  rcases h.2 expiry hl with hle | ⟨hn, -⟩
  · exact hle
  · rw [hs] at hn
    cases hn

theorem intervalEnd_of_current (h : Current t s) {start : Nat} (hs : s.started = some start) :
    s.intervalEnd t = t := by
  unfold intervalEnd
  cases hl : s.leaseExpires with
  | none => rfl
  | some e => exact min_eq_left (lease_of_current h hs hl)

theorem elapsedAt_of_current (active : Bool) (h : Current t s) :
    s.elapsedAt below active t = s.shown active t := by
  rw [elapsedAt_of_due below active h.1, shown]
  cases hs : s.started with
  | none => simp
  | some start =>
    have he := intervalEnd_of_current h hs
    have hl : s.leaseExpires.any (below · t) = false := by
      cases hl : s.leaseExpires with
      | none => rfl
      | some e => simpa [below] using lease_of_current h hs hl
    rw [intervalEnd] at he
    simp [interval, hl, he]

/-- Passing a deadline and an expiry makes the clock current and moves neither sum. -/
theorem passExpiry_of_due (active : Bool) (h : Due t s) (htidy : Tidy s) :
    Current t (s.passExpiry t) ∧
    (s.passExpiry t).elapsedAt below active t = s.elapsedAt below active t ∧
    (s.passExpiry t).waitedAt t = s.waitedAt t := by
  cases hl : s.leaseExpires with
  | none => simp [passExpiry, hl, Current, h]
  | some e =>
    cases hs : s.started with
    | none =>
      simp only [passExpiry, hs]
      refine ⟨⟨h, fun _ _ => .inr ⟨hs, fun hd => ?_⟩⟩, trivial, trivial⟩
      rw [htidy.1 hs hd] at hl
      cases hl
    | some start =>
      by_cases hp : e < t
      · simp only [passExpiry, hs, hl, hp, if_true]
        have h' : Due t { s with
            elapsed := s.elapsed + (e - start), started := none
            leaseExpires := none } := h
        refine ⟨⟨h', by simp⟩, ?_, by rw [waitedAt_of_due h', waitedAt_of_due h]⟩
        rw [elapsedAt_of_due _ _ h', elapsedAt_of_due _ _ h]
        simp [hs, hl, interval, below, hp, min_eq_right hp.le]
      · simp only [passExpiry, hs, hl, hp, if_false]
        refine ⟨⟨h, fun other ho => .inl ?_⟩, trivial, trivial⟩
        rw [hl, Option.some.injEq] at ho
        omega

theorem tidy_passDeadline (htidy : Tidy s) (t : Nat) : Tidy (s.passDeadline t) := by
  unfold passDeadline
  split
  · split
    · simp [Tidy, endWait]
    · exact htidy
  · exact htidy

theorem tidy_pass (htidy : Tidy s) (t : Nat) : Tidy ((s.passDeadline t).passExpiry t) := by
  have htidy' := tidy_passDeadline htidy t
  unfold passExpiry
  split
  · split
    · simp [Tidy]
    · exact htidy'
  · exact htidy'

theorem pass_current (active : Bool) (htidy : Tidy s) (t : Nat) :
    Current t ((s.passDeadline t).passExpiry t) ∧
    ((s.passDeadline t).passExpiry t).elapsedAt below active t = s.elapsedAt below active t ∧
    ((s.passDeadline t).passExpiry t).waitedAt t = s.waitedAt t := by
  have hd := due_passDeadline s t
  obtain ⟨hc, he, hw⟩ := passExpiry_of_due active hd (tidy_passDeadline htidy t)
  refine ⟨hc, he.trans ?_, hw.trans ?_⟩
  · rw [elapsedAt_of_due _ _ hd, elapsedAt]
  · rw [waitedAt_of_due hd, waitedAt]

/-- What an event does to a clock that is current at its time. -/
structure Moves (active : Bool) (event : Event) (s s' : Clock) : Prop where
  due : Due event.accepted s'
  current : event.Leases → Current event.accepted s'
  tidy : Tidy s'
  shown : s.shown active event.accepted ≤ s'.shown active event.accepted
  waited : s'.waited + s'.pauseStarted.elim 0 (event.accepted - ·) =
    s.waited + s.pauseStarted.elim 0 (event.accepted - ·)

theorem shown_le_closeInterval (active : Bool) (h : Current t s) :
    s.shown active t ≤ s.elapsed + s.started.elim 0 (s.intervalEnd t - ·) := by
  cases hs : s.started with
  | none => simp [shown, hs]
  | some start => cases active <;> simp [shown, hs, intervalEnd_of_current h hs]

section
variable (active : Bool) (h : Current event.accepted s) (htidy : Tidy s)

theorem Moves.claim : Moves active event s (s.claim event) where
  due := by simp [Due, Clock.claim, Clock.endWait]
  current hl := ⟨by simp [Due, Clock.claim, Clock.endWait], fun e hexpires => .inl (hl e hexpires)⟩
  tidy := by simp [Tidy, Clock.claim, Clock.endWait]
  shown := by cases hs : s.started <;> simp [Clock.shown, Clock.claim, Clock.endWait, hs]
  waited := by simp [Clock.claim, Clock.endWait]

include h

theorem Moves.close : Moves active event s (s.close event.accepted) where
  due := by simp [Due, Clock.close, Clock.endWait]
  current _ := ⟨by simp [Due, Clock.close, Clock.endWait], by simp [Clock.close, Clock.endWait]⟩
  tidy := by simp [Tidy, Clock.close, Clock.closeInterval, Clock.endWait]
  shown := by
    simpa [Clock.shown, Clock.close, Clock.closeInterval, Clock.endWait]
      using shown_le_closeInterval active h
  waited := by simp [Clock.close, Clock.closeInterval, Clock.endWait]

include htidy

theorem Moves.refl : Moves active event s s := ⟨h.1, fun _ => h, htidy, le_rfl, rfl⟩

theorem Moves.renew : Moves active event s (s.renew event) := by
  unfold Clock.renew
  split
  · rename_i hg
    cases hd : event.declares with
    | some deadline =>
      have ht : event.accepted ≤ deadline := (Event.lt_of_declares hd).le
      refine ⟨by simpa [Due] using ht, fun hl => ⟨by simpa [Due] using ht, fun e hexpires =>
        .inl (hl e hexpires)⟩, by simp [Tidy, closeInterval], ?_, by simp [closeInterval, endWait]⟩
      simpa [Clock.shown, closeInterval, endWait, intervalEnd] using shown_le_closeInterval active h
    | none =>
      simp only
      split
      · rename_i hr
        have hs := htidy.2 (isSome_iff_ne_none.mp hr.2.2)
        exact ⟨by simp [Due, endWait], fun hl => ⟨by simp [Due, endWait], fun e hexpires =>
          .inl (hl e hexpires)⟩, by
            simp [Tidy, endWait], by simp [Clock.shown, endWait, hs], by simp [endWait]⟩
      · refine ⟨h.1, fun hl => ⟨h.1, fun e hexpires => .inl (hl e hexpires)⟩, ⟨?_, htidy.2⟩,
          le_rfl, rfl⟩
        intro hs hp
        have hs : s.started = none := hs
        have hp : s.pausedUntil = none := hp
        simp [hs, hp] at hg
  · exact .refl active h htidy

theorem Moves.apply : Moves active event s (s.apply event) := by
  unfold Clock.apply
  split
  · split
    · split
      · rename_i hi
        simp only [Bool.and_eq_true, isNone_iff_eq_none] at hi
        refine ⟨h.1, fun _ => ⟨h.1, fun e hexpires => ?_⟩,
          by simp [Tidy, hi.2], by simp [Clock.shown, hi.1], rfl⟩
        rcases h.2 e hexpires with hl | ⟨-, hn⟩
        · exact .inl hl
        · exact absurd hi.2 hn
      · exact .refl active h htidy
    · split
      · exact .close active h
      · exact .refl active h htidy
  · exact .claim active
  · split
    · exact .claim active
    · exact .refl active h htidy
  all_goals first | exact .renew active h htidy | exact .close active h | exact .refl active h htidy

end

theorem fold_tidy (htidy : Tidy s) : Tidy (s.fold attempt event) ∧
    (s.fold attempt event).waitedAt event.accepted = s.waitedAt event.accepted := by
  unfold Clock.fold
  split
  · obtain ⟨hc, -, hw⟩ := pass_current true htidy event.accepted
    have htidy' := tidy_pass htidy event.accepted
    have hm := Moves.apply true hc htidy'
    rw [← hw, waitedAt_of_due hm.due, waitedAt_of_due hc.1]
    exact ⟨hm.tidy, hm.waited⟩
  · exact ⟨htidy, rfl⟩

theorem elapsedAt_le_fold (active : Bool) (htidy : Tidy s) (hl : event.Leases) :
    s.elapsedAt below active event.accepted ≤
      (s.fold attempt event).elapsedAt below active event.accepted := by
  unfold Clock.fold
  split
  · obtain ⟨hc, he, -⟩ := pass_current active htidy event.accepted
    have hm := Moves.apply active hc (tidy_pass htidy event.accepted)
    rw [← he, elapsedAt_of_current active hc, elapsedAt_of_current active (hm.current hl)]
    exact hm.shown
  · exact le_rfl

theorem tidy_foldl (htidy : Tidy s) : Tidy (events.foldl (Clock.fold attempt) s) := by
  induction events generalizing s with
  | nil => exact htidy
  | cons event events ih => exact ih (fold_tidy htidy).1

theorem elapsedAt_le_foldl (active : Bool) (htidy : Tidy s) (h : Phase first t s)
    (hb : Between t t' events) (hl : ∀ event ∈ events, event.Leases) :
    s.elapsedAt below active t ≤
      (events.foldl (Clock.fold attempt) s).elapsedAt below active t' := by
  induction events generalizing s t with
  | nil => exact elapsedAt_below_mono active h hb.le
  | cons event events ih =>
    obtain ⟨hv, hr⟩ := hb.cons
    calc s.elapsedAt below active t
        ≤ s.elapsedAt below active event.accepted := elapsedAt_below_mono active h hv
      _ ≤ (s.fold attempt event).elapsedAt below active event.accepted :=
        elapsedAt_le_fold active htidy (hl event mem_cons_self)
      _ ≤ _ := ih (fold_tidy htidy).1 (h.fold hv) hr fun e he => hl e (mem_cons_of_mem _ he)

/-! ## Time waited -/

theorem waitedAt_rate (h : Phase first t s) (hl : t ≤ t') :
    s.waitedAt t' ≤ s.waitedAt t + (t' - t) := by
  cases h with
  | idle | runs => simp [waitedAt, passDeadline]
  | @waits elapsed waited start deadline lease h hs hd =>
    by_cases hp : deadline < t
    · have hp' : deadline < t' := by omega
      simp [waitedAt, passDeadline, endWait, hp, hp']
    · by_cases hp' : deadline < t' <;> simp [waitedAt, passDeadline, endWait, hp, hp'] <;> omega

theorem waitedAt_foldl_le (htidy : Tidy s) (h : Phase first t s) (hb : Between t t' events) :
    (events.foldl (Clock.fold attempt) s).waitedAt t' ≤ s.waitedAt t + (t' - t) := by
  induction events generalizing s t with
  | nil => exact waitedAt_rate h hb.le
  | cons event events ih =>
    obtain ⟨he, hr⟩ := hb.cons
    have hl := ih (@fold_tidy s event attempt htidy).1 (h.fold he) hr
    rw [(fold_tidy htidy).2] at hl
    have ht := waitedAt_rate h he
    have hle := hr.le
    rw [foldl_cons]
    omega

/-- The time waited and what is left of the declared wait. -/
def committed (s : Clock) : Nat :=
  s.waited + s.pauseStarted.elim 0 fun start => s.pausedUntil.elim 0 (· - start)

section
variable (h : Phase first t s)
include h

theorem waitedAt_le_committed (t' : Nat) : s.waitedAt t' ≤ s.committed := by
  cases h with
  | idle | runs => simp [waitedAt, passDeadline, committed]
  | @waits elapsed waited start deadline lease h hs hd =>
    by_cases hp : deadline < t' <;> simp [waitedAt, passDeadline, endWait, committed, hp]
    omega

theorem committed_endWait_le (hd : Due t s) : (s.endWait t).committed ≤ s.committed := by
  have hl := waitedAt_le_committed h t
  rw [waitedAt_of_due hd] at hl
  simpa [committed, endWait] using hl

theorem committed_pass_le : ((s.passDeadline t).passExpiry t).committed ≤ s.committed := by
  have hcommitted : ∀ u : Clock, (u.passExpiry t).committed = u.committed := by
    intro u
    unfold passExpiry
    split
    · split <;> rfl
    · rfl
  rw [hcommitted]
  cases h with
  | idle | runs => exact le_rfl
  | @waits elapsed waited start deadline lease h hs hd =>
    by_cases hp : deadline < t <;> simp [passDeadline, endWait, committed, hp]

end

theorem committed_apply (h : Phase first event.accepted s) (hd : Due event.accepted s) :
    (s.apply event).committed ≤ s.committed ∨ ∃ d, event.declares = some d ∧
      (s.apply event).committed = s.waitedAt event.accepted + (d - event.accepted) := by
  have he := committed_endWait_le h hd
  have hl : (s.close event.accepted).committed ≤ s.committed := by
    simpa [committed, endWait, Clock.close, closeInterval] using he
  have hc : (s.claim event).committed ≤ s.committed := by
    simpa [committed, endWait, Clock.claim] using he
  have hr : (s.renew event).committed ≤ s.committed ∨ ∃ d, event.declares = some d ∧
      (s.renew event).committed = s.waitedAt event.accepted + (d - event.accepted) := by
    unfold Clock.renew
    split
    · cases hdeclares : event.declares with
      | some d =>
        refine .inr ⟨d, rfl, ?_⟩
        rw [waitedAt_of_due hd]
        simp [committed, closeInterval, endWait]
      | none =>
        simp only
        split
        · exact .inl (by simpa [committed, endWait] using he)
        · exact .inl le_rfl
    · exact .inl le_rfl
  unfold Clock.apply
  split
  · refine .inl ?_
    split
    · split <;> exact le_rfl
    · split
      · exact hl
      · exact le_rfl
  · exact .inl hc
  · split
    · exact .inl hc
    · exact .inl le_rfl
  all_goals first | exact hr | exact .inl hl | exact .inl le_rfl

theorem committed_fold (htidy : Tidy s) (h : Phase first t s) (hle : t ≤ event.accepted) :
    (s.fold attempt event).committed ≤ s.committed ∨
    event.counts attempt ∧ ∃ d, event.declares = some d ∧
        (s.fold attempt event).committed = s.waitedAt event.accepted + (d - event.accepted) := by
  have h := h.mono hle
  obtain ⟨hc, -, hw⟩ := pass_current true htidy event.accepted
  unfold Clock.fold
  split
  · rename_i hn
    rcases committed_apply h.passDeadline.passExpiry hc.1 with hl | ⟨d, hd, heq⟩
    · exact .inl (hl.trans (committed_pass_le h))
    · exact .inr ⟨hn, d, hd, by rw [heq, hw]⟩
  · exact .inl le_rfl

end

end Clock

/-! ## Snapshots -/

section
open Clock

variable {events : List Event} {attempt snapshot : Nat}

theorem takeWhile_split (hsorted : events.Pairwise (·.accepted ≤ ·.accepted)) {snapshot' : Nat}
    (hle : snapshot ≤ snapshot') :
    ∃ l, events.takeWhile (·.accepted ≤ snapshot') = events.takeWhile (·.accepted ≤ snapshot) ++ l ∧
      ∀ event ∈ l, snapshot < event.accepted := by
  induction events with
  | nil => exact ⟨[], rfl, by simp⟩
  | cons event events ih =>
    obtain ⟨hh, ht⟩ := pairwise_cons.mp hsorted
    by_cases hr : event.accepted ≤ snapshot
    · obtain ⟨l, heq, hl⟩ := ih ht
      exact ⟨l, by simp [hr, hr.trans hle, heq], hl⟩
    · refine ⟨(event :: events).takeWhile (·.accepted ≤ snapshot'), by simp [hr], fun e he => ?_⟩
      rcases mem_cons.mp ((takeWhile_sublist _).subset he) with rfl | he
      · omega
      · have := hh e he
        omega

theorem accepted_le_of_mem_takeWhile {event : Event}
    (h : event ∈ events.takeWhile (·.accepted ≤ snapshot)) :
    event.accepted ≤ snapshot := by simpa using mem_takeWhile_imp h

theorem foldStepClock_elapsed (active : Bool) :
    (foldStepClock events attempt snapshot active).elapsed =
    ((events.takeWhile (·.accepted ≤ snapshot)).foldl (Clock.fold attempt) {}).elapsedAt atMost
      active snapshot := by
  simp only [foldStepClock, foldStepClockOpen, elapsedAt]
  cases (passDeadline _ _).started <;> simp [interval, intervalEnd, atMost]

theorem foldStepClock_waited (active : Bool) :
    (foldStepClock events attempt snapshot active).waited =
    ((events.takeWhile (·.accepted ≤ snapshot)).foldl (Clock.fold attempt) {}).waitedAt snapshot :=
  rfl

theorem Clock.Phase.counted {first t : Nat} {s : Clock} (h : Phase first t s) (active : Bool) :
    s.elapsedAt atMost active t + s.waitedAt t + first ≤ t := by
  have hl : ∀ lease start, interval atMost active lease t start ≤ t - start := by
    intro lease start
    cases lease <;> simp only [interval, elim_none, elim_some] <;> split_ifs <;> omega
  simp only [elapsedAt, waitedAt]
  have h := h.passDeadline
  generalize s.passDeadline t = u at h
  cases h with
  | idle lease h => simpa using h
  | @runs elapsed waited start lease h hs =>
    have := hl lease start
    simp only [elim_some, elim_none]
    omega
  | waits lease h hs hd =>
    simp only [elim_some, elim_none]
    omega

section
variable (hpairwise : events.Pairwise (·.accepted ≤ ·.accepted))
include hpairwise

theorem counted_le (active : Bool) :
    (foldStepClock events attempt snapshot active).elapsed +
      (foldStepClock events attempt snapshot active).waited ≤
      snapshot - (opening attempt events).getD snapshot := by
  rw [foldStepClock_elapsed, foldStepClock_waited]
  have he := hpairwise.sublist (takeWhile_sublist (·.accepted ≤ snapshot))
  obtain ⟨hi, -⟩ | ⟨first, ho, hp⟩ :=
    @fold_events snapshot attempt _ he fun _ => accepted_le_of_mem_takeWhile
  · rw [hi]
    exact Nat.zero_le _
  · have hc := hp.counted active
    have hw : opening attempt events = some first := by
      rw [opening, map_eq_some_iff] at ho ⊢
      obtain ⟨event, hn, hf⟩ := ho
      refine ⟨event, ?_, hf⟩
      rw [← takeWhile_append_dropWhile (p := (·.accepted ≤ snapshot)) (l := events),
        find?_append, hn]
      rfl
    rw [hw, getD_some]
    omega

theorem elapsed_mono (hleases : ∀ event ∈ events, event.Leases)
    (active : Bool) {snapshot' : Nat} (hl : snapshot ≤ snapshot') :
    (foldStepClock events attempt snapshot active).elapsed ≤
      (foldStepClock events attempt snapshot' active).elapsed := by
  rcases hl.eq_or_lt with rfl | hlt
  · exact le_rfl
  have hs := takeWhile_sublist (l := events) (·.accepted ≤ snapshot')
  obtain ⟨later, hp, ht⟩ := takeWhile_split hpairwise hl
  have hsorted' := hpairwise.sublist hs
  rw [hp] at hsorted' hs
  obtain ⟨first, hh⟩ := @phase_fold_events snapshot attempt _
    (hpairwise.sublist (takeWhile_sublist (·.accepted ≤ snapshot)))
      fun _ => accepted_le_of_mem_takeWhile
  have hto : ∀ event ∈ later, event.accepted ≤ snapshot' := fun event he =>
    accepted_le_of_mem_takeWhile (by rw [hp]; exact mem_append_right _ he)
  have htidy : Tidy ((events.takeWhile (·.accepted ≤ snapshot)).foldl (Clock.fold attempt) {}) :=
    tidy_foldl ⟨fun _ _ => rfl, fun h => absurd rfl h⟩
  rw [foldStepClock_elapsed, foldStepClock_elapsed, hp, foldl_append]
  calc _ ≤ _ := elapsedAt_le_below active hh (Nat.lt_succ_self snapshot)
    _ ≤ _ := elapsedAt_le_foldl active htidy (hh.mono (Nat.le_succ _))
      ⟨(pairwise_append.mp hsorted').2.1, ht, hto, hlt⟩
        fun event he => hleases event (hs.subset (mem_append_right _ he))
    _ ≤ _ := elapsedAt_below_le active _ _

/-- The whole of a wait fits in the budget when it is declared, so it does while it runs. -/
theorem committed_le (ha : ∀ before event, before ++ [event] <+: events →
    Admitted attempt before event) :
    (events.foldl (Clock.fold attempt) {}).committed ≤ maxStepWaitMs := by
  induction events using List.reverseRecOn with
  | nil => exact Nat.zero_le _
  | append_singleton before event ih =>
    obtain ⟨hb, -, hl⟩ := pairwise_append.mp hpairwise
    have ht : ∀ earlier ∈ before, earlier.accepted ≤ event.accepted :=
      fun e he => hl e he event mem_cons_self
    have hi : Tidy {} := ⟨fun _ _ => rfl, fun h => absurd rfl h⟩
    obtain ⟨first, hp⟩ := @phase_fold_events event.accepted attempt _ hb ht
    have hl' := ih hb fun earlier e he => ha earlier e (he.trans (prefix_append _ _))
    rw [foldl_append]
    rcases committed_fold (tidy_foldl hi) hp le_rfl with hle | ⟨hc, deadline, hd, heq⟩
    · exact hle.trans hl'
    · obtain ⟨now, waitMs, hn, rfl, hle'⟩ := ha before event prefix_rfl _ hc hd
      have hlt' := Event.lt_of_declares hd
      obtain ⟨l, hs, hlt⟩ := takeWhile_split hb hn
      rw [takeWhile_eq_self_iff.mpr (by simpa using ht)] at hs
      obtain ⟨start, hphase⟩ := @phase_fold_events now attempt _
        (hb.sublist (takeWhile_sublist (·.accepted ≤ now))) fun _ => accepted_le_of_mem_takeWhile
      have hsorted' : l.Pairwise (·.accepted ≤ ·.accepted) := by
        rw [hs] at hb
        exact (pairwise_append.mp hb).2.1
      have hr := @waitedAt_foldl_le start now event.accepted _ attempt _ (tidy_foldl hi) hphase
        ⟨hsorted', fun e he => (hlt e he).le,
          fun e he => ht e (by rw [hs]; exact mem_append_right _ he), hn⟩
      rw [← foldl_append, ← hs] at hr
      rw [foldStepClock_waited] at hle'
      simp only [foldl_cons, foldl_nil] at heq ⊢
      omega

end

end

theorem opening_append {earlier own : List Event} {attempt : Nat}
    (h : ∀ event ∈ earlier, event.counts attempt = true → event.opens = false) :
    opening attempt (earlier ++ own) = opening attempt own := by
  have hn : earlier.find? (fun event => event.counts attempt && event.opens) = none := by
    rw [find?_eq_none]
    intro event he hb
    obtain ⟨hc, ho⟩ := Bool.and_eq_true_iff.mp hb
    rw [h event he hc] at ho
    cases ho
  rw [opening, opening, find?_append, hn, none_or]

def failedAttempt : List Event :=
  [{ kind := .workClaimed, accepted := 2, attempt := some 1, claimExpiresAtUnixMs := some 602 },
    { kind := .workFailed, accepted := 5, attempt := some 1 },
    { kind := .stepRunState, accepted := 6, status := some .failed }]

def sampleEvents : List Event :=
  [{ kind := .workClaimed, accepted := 10, attempt := some 2, claimExpiresAtUnixMs := some 610 },
    { kind := .workProgress, accepted := 30, attempt := some 2, claimExpiresAtUnixMs := some 630
      clock := some .paused, waitUntilUnixMs := some 90 },
    { kind := .workProgress, accepted := 50, attempt := some 2, claimExpiresAtUnixMs := some 650
      clock := some .running },
    { kind := .workSubmitted, accepted := 70, attempt := some 2 }]

end Smalltalk.Missions
