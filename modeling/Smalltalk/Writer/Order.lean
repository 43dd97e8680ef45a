import Smalltalk.Writer.Admission

/-!
# The order of admission

Whatever is admitted is in the log, in hand, put back, in the channel or in the background
queue, in its order.
-/

namespace Smalltalk.Writer

open List State Option Request

@[simp] theorem admitted_append (log log' : List Event) :
    admitted (log ++ log') = admitted log ++ admitted log' :=
  filterMap_append

@[simp] theorem taken_append (log log' : List Event) :
    taken (log ++ log') = taken log ++ taken log' :=
  filterMap_append

section
variable (r : Request)
include r

@[simp] theorem admitted_admitted : admitted [.admitted r] = [r] := rfl

@[simp] theorem admitted_dispatched : admitted [.dispatched r] = [] := rfl

@[simp] theorem admitted_collected : admitted [.collected r] = [] := rfl

@[simp] theorem taken_admitted : taken [.admitted r] = [] := rfl

@[simp] theorem taken_dispatched : taken [.dispatched r] = [r] := rfl

@[simp] theorem taken_collected : taken [.collected r] = [r] := rfl

end

@[simp] theorem hand_fetch : Pc.fetch.hand = [] := rfl

@[simp] theorem hand_empty : Pc.empty.hand = [] := rfl

@[simp] theorem hand_wait : Pc.wait.hand = [] := rfl

@[simp] theorem hand_batch (writes : Nat) : (Pc.batch writes).hand = [] := rfl

@[simp] theorem hand_holding (job : Message) : (Pc.holding job).hand = [job] := rfl

@[simp] theorem hand_refused (job : Message) : (Pc.refused job).hand = [job] := rfl

/-! ## Steps -/

inductive Work : State → State → Prop where
  | putBack {s : State} {m : Message} (hholding : s.pc = .fetch) (hnext : s.next = some m) :
      Work s ({ s with next := none }.inspect m)
  | recv {s : State} {m : Message} {rest : List Message} (hholding : s.pc = .wait ∨
      s.pc = .fetch ∧ s.next = none)
      (hchannel : s.channel = m :: rest) : Work s ({ s with channel := rest }.inspect m)
  | empty {s : State} (hholding : s.pc = .fetch) (hnext : s.next = none) (hseen : s.seen = true)
      (hchannel : s.channel = []) :
      Work s { s with pc := .empty }
  | idle {s : State} (hholding : s.pc = .empty) (hjobs : s.background.jobs = []) :
      Work s { s with pc := .wait }
  | background {s : State} {sequence : Nat} {r : Request} {rest : List (Nat × Request)}
      (hholding : s.pc = .empty)
      (hjobs : s.background.jobs = (sequence, r) :: rest) : Work s (s.lendBackground r rest)
  | overtaken {s : State} {job : Message} {sequence : Nat} {r : Request}
      {rest : List (Nat × Request)}
      (hholding : s.pc = .holding job) (hseen : s.seen = true)
        (hjobs : s.background.jobs = (sequence, r) :: rest)
      (hdue : job.isFence = true ∧ sequence ≤ job.through ∨
        job.isFence = false ∧ foregroundTurns ≤ s.turns) :
      Work s { s.lendBackground r rest with next := some job }
  | refused {s : State} {job : Message} (hholding : s.pc = .holding job) (hseen : s.seen = true)
      (hclear : ∀ sequence r rest, s.background.jobs = (sequence, r) :: rest →
        if job.isFence then job.through < sequence else s.turns < foregroundTurns) :
      Work s { s with pc := .refused job }
  | unseen {s : State} {job : Message} (hholding : s.pc = .holding job) (hseen : s.seen = false) :
      Work s (s.dispatch job)
  | counted {s : State} {job : Message} (hholding : s.pc = .refused job) :
      Work s ({ s with turns := if s.background.jobs.isEmpty then 0 else s.turns + 1 }.dispatch job)
  | drained {s : State} {writes : Nat} (hholding : s.pc = .batch writes)
      (hchannel : s.channel = []) :
      Work s { s with pc := .fetch }
  | collected {s : State} {writes : Nat} {r : Request} {rest : List Message}
      (hholding : s.pc = .batch writes)
      (hwrites : writes < writeBatchLimit) (hchannel : s.channel = .batched r :: rest) :
      Work s { s with channel := rest, log := s.log ++ [.collected r], pc := .batch (writes + 1) }
  | stopped {s : State} {writes : Nat} {m : Message} {rest : List Message}
      (hholding : s.pc = .batch writes)
      (hchannel : s.channel = m :: rest) :
        Work s { s with channel := rest, next := some m, pc := .fetch }

variable {s t : State}

theorem recv_eq_some (h : s.recv = some t) :
    ∃ m rest, s.channel = m :: rest ∧ t = { s with channel := rest }.inspect m := by
  unfold State.recv at h
  cases hc : s.channel with
  | nil => simp [hc] at h
  | cons m rest =>
    simp only [hc, some.injEq] at h
    exact ⟨m, rest, rfl, h.symm⟩

variable {through : WithTop Nat} {rest : List (Nat × Request)}

theorem pop_eq_some {r : Request} (h : s.pop through = some (r, rest)) :
    ∃ sequence : Nat, s.background.jobs = (sequence, r) :: rest ∧
    (sequence : WithTop Nat) ≤ through := by
  unfold State.pop at h
  cases hj : s.background.jobs with
  | nil => simp [hj] at h
  | cons job j =>
    obtain ⟨sequence, r'⟩ := job
    by_cases hl : (sequence : WithTop Nat) ≤ through
    · simp only [hj, hl, if_true, some.injEq, Prod.mk.injEq] at h
      exact ⟨sequence, by rw [h.1, h.2], hl⟩
    · simp [hj, hl] at h

theorem pop_eq_none (h : s.pop through = none) {sequence : Nat} {r : Request}
    (hj : s.background.jobs = (sequence, r) :: rest) :
    through < (sequence : WithTop Nat) := by
  by_contra hl
  simp [State.pop, hj, not_lt.mp hl] at h

theorem work_cases (h : s.work = some t) : Work s t := by
  unfold State.work at h
  cases hfetch : s.pc with
  | fetch =>
    simp only [hfetch] at h
    split at h
    · next m hnext => exact some.inj h ▸ .putBack hfetch hnext
    · next hnext =>
      by_cases hempty : s.seen = true ∧ s.channel = []
      · rw [if_pos hempty, some.injEq] at h
        exact h ▸ .empty hfetch hnext hempty.1 hempty.2
      · rw [if_neg hempty] at h
        obtain ⟨m, rest, hchannel, rfl⟩ := recv_eq_some h
        exact .recv (.inr ⟨hfetch, hnext⟩) hchannel
  | empty =>
    simp only [hfetch] at h
    cases hpop : s.pop ⊤ with
    | some p =>
      obtain ⟨r, rest⟩ := p
      simp only [hpop, some.injEq] at h
      obtain ⟨sequence, hs, -⟩ := pop_eq_some hpop
      exact h ▸ .background hfetch hs
    | none =>
      simp only [hpop, some.injEq] at h
      refine h ▸ .idle hfetch ?_
      cases hs : s.background.jobs with
      | nil => rfl
      | cons job rest => exact absurd (pop_eq_none hpop hs) not_top_lt
  | wait =>
    simp only [hfetch] at h
    obtain ⟨m, rest, hchannel, rfl⟩ := recv_eq_some h
    exact .recv (.inl hfetch) hchannel
  | holding job =>
    simp only [hfetch] at h
    by_cases hseen : s.seen = true
    · rw [if_pos hseen] at h
      cases hpop : (s.through job).bind s.pop with
      | some p =>
        obtain ⟨r, rest⟩ := p
        simp only [hpop, some.injEq] at h
        obtain ⟨bound, hb, hpop⟩ := bind_eq_some_iff.mp hpop
        obtain ⟨sequence, hs, hle⟩ := pop_eq_some hpop
        refine h ▸ .overtaken hfetch hseen hs ?_
        cases job <;> simp_all [State.through, Message.isFence, Message.through]
        exact WithTop.coe_le_coe.mp (hle.trans hb.ge)
      | none =>
        simp only [hpop, some.injEq] at h
        refine h ▸ .refused hfetch hseen fun sequence r rest hs => ?_
        have hlt : ∀ bound, s.through job = some bound → bound < (sequence : WithTop Nat) := by
          intro bound hb
          rw [hb, bind_some] at hpop
          exact pop_eq_none hpop hs
        cases job <;> simp_all [State.through, Message.isFence, Message.through]
    · rw [if_neg hseen] at h
      exact some.inj h ▸ .unseen hfetch (by simpa using hseen)
  | refused job =>
    simp only [hfetch, some.injEq] at h
    exact h ▸ .counted hfetch
  | batch writes =>
    simp only [hfetch] at h
    by_cases hwrites : writes < writeBatchLimit
    · rw [if_pos hwrites] at h
      split at h
      · next hchannel => exact some.inj h ▸ .drained hfetch hchannel
      · next r rest hchannel => exact some.inj h ▸ .collected hfetch hwrites hchannel
      · next m rest _ hchannel => exact some.inj h ▸ .stopped hfetch hchannel
    · rw [if_neg hwrites] at h
      cases h

inductive Steps (s : State) : Label → State → Prop
  | enqueue (kind : Kind) (hwaking : s.waking = false) : Steps s (.enqueue kind) (s.enqueue kind)
  | wake (hwaking : s.waking = true) :
      Steps s .wake { s.send .backgroundReady with waking := false }
  | work {t : State} (hwork : Work s t) : Steps s .work t
  | stop {writes : Nat} (hbatch : s.pc = .batch writes) : Steps s .stop { s with pc := .fetch }

theorem step_cases {label : Label} (h : s.step label = some t) : Steps s label t := by
  cases label with
  | enqueue k =>
    obtain ⟨hw, h⟩ := ite_none_left_eq_some.mp h
    cases h
    exact .enqueue k (by simpa using hw)
  | wake =>
    obtain ⟨hw, h⟩ := ite_none_right_eq_some.mp h
    cases h
    exact .wake hw
  | work => exact .work (work_cases h)
  | stop =>
    cases hp : s.pc with
    | batch writes =>
      simp only [State.step, hp, some.injEq] at h
      exact h ▸ .stop hp
    | _ => simp [State.step, hp] at h

structure Slots (s : State) : Prop where
  putBack : ∀ m, s.next = some m → s.pc = .fetch
  held : .backgroundReady ∉ s.pc.hand

inductive Moves (s t : State) : Prop where
  | quiet (hwaiting : t.waiting = s.waiting) (hbackground : t.background = s.background)
      (hlog : t.log = s.log)
      (hseen : t.seen = s.seen)
  | notified (hwaiting : s.waiting = .backgroundReady :: t.waiting)
      (hbackground : t.background = s.background)
      (hlog : t.log = s.log) (hseen : t.seen = true)
  | took {m : Message} {r : Request} {event : Event} (hwaiting : s.waiting = m :: t.waiting)
      (hrequest : m.request? = some r) (hbackground : t.background = s.background)
        (hlog : t.log = s.log ++ [event])
      (hevent : event = .dispatched r ∨ event = .collected r ∧
        m.isFence = false) (hseen : t.seen = s.seen)
      (hclear : s.pc = .refused m ∨ s.pc = .holding m ∧ s.seen = false ∨
        m.isFence = false ∧ ∃ n, s.pc = .batch n)
  | lent {sequence : Nat} {r : Request} (hwaiting : t.waiting = s.waiting)
      (hjobs : s.background.jobs = (sequence, r) :: t.background.jobs)
        (hlast : t.background.last = s.background.last)
      (hlog : t.log = s.log ++ [.dispatched r]) (hseen : t.seen = s.seen)

theorem moves_dispatch {job : Message} (turns : Nat) (hs : Slots s) (hh : s.pc.hand = [job])
    (hc : s.pc = .refused job ∨ s.pc = .holding job ∧ s.seen = false)
    (ht : t = { s with turns }.dispatch job) : Moves s t := by
  have hn : s.next = none := by
    cases hn : s.next with
    | none => rfl
    | some m => simp [hs.putBack m hn] at hh
  have hl := hs.held
  rw [hh] at hl
  have hc' : s.pc = .refused job ∨ s.pc = .holding job ∧ s.seen = false ∨
      job.isFence = false ∧ ∃ n, s.pc = .batch n := hc.imp_right .inl
  cases job with
  | backgroundReady => simp at hl
  | batched | lend | fenceLend =>
    subst ht
    exact .took (by simp [waiting, dispatch, hh, hn]) rfl rfl rfl (.inl rfl) rfl hc'

theorem moves_inspect {m : Message} (s' : State) (hw : s.waiting = m :: s'.channel)
    (hn : s'.next = none) (hb : s'.background = s.background) (hl : s'.log = s.log)
    (hs : s'.seen = s.seen) (ht : t = s'.inspect m) : Moves s t := by
  subst ht
  have hk : ∀ pc : Pc, { s' with pc }.waiting = pc.hand ++ s'.channel := by simp [waiting, hn]
  cases m with
  | backgroundReady =>
    rw [← nil_append s'.channel] at hw
    exact .notified (hw.trans (congrArg _ (hk .fetch).symm)) hb hl rfl
  | batched | lend | fenceLend => exact .quiet ((hk _).trans hw.symm) hb hl hs

theorem next_eq_none (hs : Slots s) (hp : s.pc ≠ .fetch) : s.next = none := by
  cases hn : s.next with
  | none => rfl
  | some m => exact absurd (hs.putBack m hn) hp

theorem moves_of_work (hs : Slots s) (h : Work s t) : Moves s t := by
  cases h with
  | @putBack m hp hn =>
    have hw : s.waiting = m :: s.channel := by simp [waiting, hp, hn]
    exact moves_inspect { s with next := none } hw rfl rfl rfl rfl rfl
  | @recv m rest hp hc =>
    have hn : s.next = none := hp.elim (fun hp => next_eq_none hs (by simp [hp])) And.right
    have hh : s.pc.hand = [] := by rcases hp with hp | ⟨hp, -⟩ <;> simp [hp]
    have hw : s.waiting = m :: rest := by simp [waiting, hh, hn, hc]
    exact moves_inspect { s with channel := rest } hw hn rfl rfl rfl rfl
  | empty hp hn | idle hp | refused hp | drained hp =>
    exact .quiet (by simp [waiting, hp]) rfl rfl rfl
  | background hp hj => exact .lent (by simp [waiting, lendBackground, hp]) hj rfl rfl rfl
  | @overtaken job sequence r rest hp hseen hj =>
    have hn := next_eq_none hs (by simp [hp])
    exact .lent (by simp [waiting, lendBackground, hp, hn]) hj rfl rfl rfl
  | @unseen job hp hseen =>
    exact moves_dispatch s.turns hs (by simp [hp]) (.inr ⟨hp, hseen⟩) rfl
  | counted hp => exact moves_dispatch _ hs (by simp [hp]) (.inl hp) rfl
  | @collected writes r rest hp hr hc =>
    have hn := next_eq_none hs (by simp [hp])
    refine .took (m := .batched r) ?_ rfl rfl rfl (.inr ⟨rfl, rfl⟩) rfl
      (.inr (.inr ⟨rfl, writes, hp⟩))
    simp [waiting, hp, hn, hc]
  | @stopped writes m rest hp hc =>
    have hn := next_eq_none hs (by simp [hp])
    exact .quiet (by simp [waiting, hp, hn, hc]) rfl rfl rfl

/-! ## Both queues keep their order -/

def backgroundOf (requests : List Request) : List Request := requests.filter isBackground

def foregroundOf (requests : List Request) : List Request := requests.filter isForeground

@[simp] theorem backgroundOf_append (requests requests' : List Request) :
    backgroundOf (requests ++ requests') = backgroundOf requests ++ backgroundOf requests' :=
  filter_append ..

@[simp] theorem foregroundOf_append (requests requests' : List Request) :
    foregroundOf (requests ++ requests') = foregroundOf requests ++ foregroundOf requests' :=
  filter_append ..

@[simp] theorem backgroundOf_nil : backgroundOf [] = [] := rfl

theorem backgroundOf_singleton (r : Request) :
    backgroundOf [r] = if r.isBackground then [r] else [] := by
  by_cases h : r.isBackground = true <;> simp [backgroundOf, h]

theorem foregroundOf_singleton (r : Request) :
    foregroundOf [r] = if r.isBackground then [] else [r] := by
  by_cases h : r.isBackground = true <;> simp [foregroundOf, isForeground, h]

def Marked (loans : List Request) (m : Message) : Prop :=
  m.through ≤ loans.length ∧ ∀ r, m.request? = some r → (m.isFence = true → r.kind = .fence) ∧
    (r.kind = .fence → ∀ (i : Nat) (b : Request), loans[i]? = some b →
      (b.number < r.number ↔ i < m.through))

structure Consistent (s : State) : Prop where
  numbers : (admitted s.log).map number = range (admitted s.log).length
  foreground : foregroundOf (admitted s.log) =
    foregroundOf (taken s.log) ++ s.waiting.filterMap Message.request?
  background : backgroundOf (admitted s.log) =
    backgroundOf (taken s.log) ++ s.background.jobs.map Prod.snd
  sequences : s.background.jobs.map Prod.fst =
    range' ((backgroundOf (taken s.log)).length + 1) s.background.jobs.length
  last : s.background.last = (backgroundOf (admitted s.log)).length
  fences : ∀ m ∈ s.waiting, Marked (backgroundOf (admitted s.log)) m
  unseen : s.seen = false → 0 < s.background.last → s.waking = true ∨ .backgroundReady ∈ s.waiting
  unmarked : s.seen = false → ∀ m ∈ s.waiting.takeWhile (· ≠ .backgroundReady), m.through = 0

def Settled (s : State) : Prop :=
  ∀ m, s.pc = .refused m → m.through ≤ (backgroundOf (taken s.log)).length

namespace Consistent

variable {s t : State} (h : Consistent s)

include h

variable {r : Request} {m : Message}

theorem number_lt (hr : r ∈ admitted s.log) : r.number < (admitted s.log).length := by
  have hm := mem_map_of_mem (f := number) hr
  rw [h.numbers] at hm
  exact mem_range.mp hm

theorem waiting_mem (hm : m ∈ s.waiting) (hr : m.request? = some r) :
    r ∈ foregroundOf (admitted s.log) := by
  rw [h.foreground]
  exact mem_append_right _ (mem_filterMap.mpr ⟨m, hm, hr⟩)

theorem not_background (hm : m ∈ s.waiting) (hr : m.request? = some r) :
    r.isBackground = false := by
  have hmem := (mem_filter.mp (h.waiting_mem hm hr)).2
  simpa [isForeground] using hmem

theorem is_background {sequence : Nat} (hr : (sequence, r) ∈ s.background.jobs) :
    r.isBackground = true := by
  have hm : r ∈ backgroundOf (admitted s.log) := by
    rw [h.background]
    exact mem_append_right _ (mem_map_of_mem hr)
  exact (mem_filter.mp hm).2

theorem sequence_head {sequence : Nat} {rest : List (Nat × Request)}
    (hj : s.background.jobs = (sequence, r) :: rest) :
    sequence = (backgroundOf (taken s.log)).length + 1 := by
  have hs := h.sequences
  rw [hj] at hs
  simp only [map_cons, length_cons, range'_succ, cons.injEq] at hs
  exact hs.1

/-- A fence in hand comes after the background loans before it. -/
theorem fence_clear (hs : Settled s) {m : Message} {r : Request} {rest : List Message}
    (hw : s.waiting = m :: rest) (hr : m.request? = some r) (hf : r.kind = .fence)
    (hc : s.pc = .refused m ∨ s.pc = .holding m ∧ s.seen = false ∨
      m.isFence = false ∧ ∃ n, s.pc = .batch n)
    {b : Request} (hb : b ∈ backgroundOf (admitted s.log)) (hl : b.number < r.number) :
    b ∈ backgroundOf (taken s.log) := by
  have hm : m ∈ s.waiting := by simp [hw]
  obtain ⟨i, hi⟩ := mem_iff_getElem?.mp hb
  have ht : i < m.through := (((h.fences m hm).2 r hr).2 hf i b hi).mp hl
  have hle : m.through ≤ (backgroundOf (taken s.log)).length := by
    rcases hc with hp | ⟨-, hn⟩ | ⟨hfence, -⟩
    · exact hs m hp
    · have hd : m ≠ .backgroundReady := by rintro rfl; cases hr
      have hz := h.unmarked hn m (by simp [hw, hd])
      omega
    · have hz : m.through = 0 := by cases m <;> simp_all [Message.isFence, Message.through]
      omega
  rw [h.background, getElem?_append_left (by omega)] at hi
  exact mem_of_getElem? hi

theorem of_moves (hwaking : t.waking = s.waking) (hv : Moves s t) : Consistent t := by
  cases hv with
  | quiet hw hb hl hs =>
    constructor <;> simp only [hw, hb, hl, hs, hwaking]
    exacts [h.numbers, h.foreground, h.background, h.sequences, h.last, h.fences,
      h.unseen, h.unmarked]
  | notified hw hb hl hs =>
    have hf := h.foreground
    rw [hw] at hf
    constructor <;> simp only [hb, hl, hs]
    exacts [h.numbers, hf, h.background, h.sequences, h.last,
      fun m hm => h.fences m (by simp [hw, hm]), (by simp), (by simp)]
  | @took m r event hw hr hb hl he hs hc =>
    have hm : m ∈ s.waiting := by simp [hw]
    have hd : m ≠ .backgroundReady := by rintro rfl; cases hr
    have hk := h.not_background hm hr
    have ha : admitted t.log = admitted s.log := by
      rcases he with rfl | ⟨rfl, -⟩ <;> simp [hl]
    have ht : taken t.log = taken s.log ++ [r] := by
      rcases he with rfl | ⟨rfl, -⟩ <;> simp [hl]
    have hn : backgroundOf (taken t.log) = backgroundOf (taken s.log) := by
      simp [ht, backgroundOf_singleton, hk]
    constructor <;> simp only [ha, hn, hb, hs, hwaking]
    · exact h.numbers
    · rw [h.foreground, ht, foregroundOf_append, foregroundOf_singleton, hk, hw,
        filterMap_cons_some hr]
      simp
    · exact h.background
    · exact h.sequences
    · exact h.last
    · exact fun m' hm' => h.fences m' (by simp [hw, hm'])
    · intro hu hlt
      have hmem := h.unseen hu hlt
      simpa [hw, hd.symm] using hmem
    · intro hu m' hm'
      apply h.unmarked hu m'
      rw [hw, takeWhile_cons_of_pos (by simp [hd])]
      exact mem_cons_of_mem _ hm'
  | @lent sequence r hw hj hlt hl hs =>
    have hk : r.isBackground = true := h.is_background (by rw [hj]; exact mem_cons_self)
    have ha : admitted t.log = admitted s.log := by simp [hl]
    have ht : taken t.log = taken s.log ++ [r] := by simp [hl]
    constructor
    · rw [ha]
      exact h.numbers
    · rw [ha, hw, h.foreground, ht, foregroundOf_append, foregroundOf_singleton, hk]
      simp
    · rw [ha, h.background, ht, backgroundOf_append, backgroundOf_singleton, hk, hj]
      simp
    · have hq := h.sequences
      rw [hj] at hq
      simp only [map_cons, length_cons, range'_succ, cons.injEq] at hq
      rw [hq.2, ht, backgroundOf_append, backgroundOf_singleton, hk]
      simp
    · rw [ha, hlt]
      exact h.last
    · rw [ha, hw]
      exact h.fences
    · rw [hs, hlt, hwaking, hw]
      exact h.unseen
    · rw [hs, hw]
      exact h.unmarked

omit h in
theorem mem_takeWhile_concat {p : Message → Bool} {messages : List Message} {m' : Message}
    (hm' : m' ∈ (messages ++ [m]).takeWhile p) :
    m' ∈ messages.takeWhile p ∨ m' = m ∧ ∀ x ∈ messages, p x = true := by
  induction messages with
  | nil =>
    by_cases hp : p m = true
    · exact .inr ⟨by simpa [hp] using hm', by simp⟩
    · simp [hp] at hm'
  | cons x messages ih =>
    by_cases hp : p x = true
    · rw [cons_append, takeWhile_cons_of_pos hp, mem_cons] at hm'
      rw [takeWhile_cons_of_pos hp, mem_cons]
      rcases hm' with rfl | hm'
      · exact .inl (.inl rfl)
      · rcases ih hm' with hmem | ⟨rfl, ha⟩
        · exact .inl (.inr hmem)
        · exact .inr ⟨rfl, by simpa [hp] using ha⟩
    · rw [cons_append, takeWhile_cons_of_neg hp] at hm'
      cases hm'

theorem numbers_concat (hn : r.number = (admitted s.log).length) :
    (admitted (s.log ++ [.admitted r])).map number =
      range (admitted (s.log ++ [.admitted r])).length := by
  simp only [admitted_append, admitted_admitted, map_append, h.numbers, length_append,
    length_singleton, range_succ, hn, map_cons, map_nil]

theorem sent (hr : m.request? = some r) (hk : r.isBackground = false)
    (hn : r.number = (admitted s.log).length) (hmarked : Marked (backgroundOf (admitted s.log)) m)
    (hle : m.through ≤ s.background.last) (hwaking' : s.waking = false) :
    Consistent { s with channel := s.channel ++ [m], log := s.log ++ [.admitted r] } := by
  have hw : ∀ log, { s with channel := s.channel ++ [m], log }.waiting = s.waiting ++ [m] := by
    simp [waiting]
  have hl : backgroundOf (admitted (s.log ++ [.admitted r])) = backgroundOf (admitted s.log) := by
    simp [backgroundOf_singleton, hk]
  have ht : taken (s.log ++ [.admitted r]) = taken s.log := by simp
  constructor
  · exact h.numbers_concat hn
  · rw [hw, ht, admitted_append, foregroundOf_append, h.foreground, admitted_admitted,
      foregroundOf_singleton, hk, filterMap_append, filterMap_cons_some hr]
    simp
  · rw [hl, ht]
    exact h.background
  · rw [ht]
    exact h.sequences
  · rw [hl]
    exact h.last
  · rw [hl, hw]
    intro m' hm'
    rcases mem_append.mp hm' with hm' | hm'
    · exact h.fences m' hm'
    · cases mem_singleton.mp hm'
      exact hmarked
  · rw [hw]
    intro hs hp
    exact (h.unseen hs hp).imp_right fun hd => mem_append_left _ hd
  · rw [hw]
    intro hs m' hm'
    rcases mem_takeWhile_concat hm' with hm' | ⟨rfl, ha⟩
    · exact h.unmarked hs m' hm'
    · -- without a notification ahead there was no background loan yet
      by_contra hh
      rcases h.unseen hs (by omega) with hwaking | hd
      · simp [hwaking'] at hwaking
      · simpa using ha _ hd

theorem pushed (hk : r.isBackground = true) (hnumber : r.number = (admitted s.log).length)
    (hwaking : s.waking = false) :
    Consistent (push { s with log := s.log ++ [.admitted r] } r) := by
  have hwaiting : (push { s with log := s.log ++ [.admitted r] } r).waiting = s.waiting := rfl
  have ht : taken (s.log ++ [.admitted r]) = taken s.log := by simp
  have hl : backgroundOf (admitted (s.log ++ [.admitted r])) =
      backgroundOf (admitted s.log) ++ [r] := by
    simp [backgroundOf_singleton, hk]
  have hn : (backgroundOf (admitted s.log)).length =
      (backgroundOf (taken s.log)).length + s.background.jobs.length := by
    rw [h.background]
    simp
  constructor
  · exact h.numbers_concat hnumber
  · rw [hwaiting]
    change foregroundOf (admitted (s.log ++ [.admitted r])) =
      foregroundOf (taken (s.log ++ [.admitted r])) ++ _
    rw [ht, admitted_append, foregroundOf_append, h.foreground, admitted_admitted,
      foregroundOf_singleton, hk]
    simp
  · change backgroundOf (admitted (s.log ++ [.admitted r])) =
      backgroundOf (taken (s.log ++ [.admitted r])) ++
      (s.background.jobs ++ [(s.background.last + 1, r)]).map Prod.snd
    rw [hl, ht, h.background]
    simp
  · change (s.background.jobs ++ [(s.background.last + 1, r)]).map Prod.fst =
      range' ((backgroundOf (taken (s.log ++ [.admitted r]))).length + 1)
        (s.background.jobs ++ [(s.background.last + 1, r)]).length
    rw [ht, map_append, h.sequences, length_append, length_singleton, range'_concat, h.last, hn]
    simp only [map_cons, map_nil, Nat.one_mul]
    congr 2
    omega
  · change s.background.last + 1 = (backgroundOf (admitted (s.log ++ [.admitted r]))).length
    rw [hl, h.last]
    simp
  · intro m hm
    change Marked (backgroundOf (admitted (s.log ++ [.admitted r]))) m
    rw [hl]
    obtain ⟨hle, hr⟩ := h.fences m hm
    refine ⟨by simp; omega, fun q hq => ⟨(hr q hq).1, fun hf i b hb => ?_⟩⟩
    have hlt := h.number_lt (mem_filter.mp (h.waiting_mem hm hq)).1
    by_cases hi : i < (backgroundOf (admitted s.log)).length
    · rw [getElem?_append_left hi] at hb
      exact (hr q hq).2 hf i b hb
    · rw [getElem?_append_right (not_lt.mp hi)] at hb
      have hnil := mem_of_getElem? hb
      cases mem_singleton.mp hnil
      omega
  · intro hs _
    by_cases hj : s.background.jobs = []
    · exact .inl (by simp [push, hj])
    · have hp : 0 < s.background.last := by
        have := length_pos_of_ne_nil hj
        rw [h.last]
        omega
      rcases h.unseen hs hp with hw | hd
      · simp [hwaking] at hw
      · exact .inr hd
  · exact h.unmarked

theorem fence_marked :
    Marked (backgroundOf (admitted s.log)) (s.fenceMessage ⟨.fence, (admitted s.log).length⟩) := by
  have ht : (s.fenceMessage ⟨.fence, (admitted s.log).length⟩).through = s.background.last := by
    by_cases hl : s.background.last = 0 <;> simp [fenceMessage, hl, Message.through]
  have hq : (s.fenceMessage ⟨.fence, (admitted s.log).length⟩).request? =
      some ⟨.fence, (admitted s.log).length⟩ := by
    by_cases hl : s.background.last = 0 <;> simp [fenceMessage, hl, Message.request?]
  rw [Marked, ht, h.last, hq]
  refine ⟨le_rfl, fun r hr => ?_⟩
  cases hr
  refine ⟨fun _ => rfl, fun _ i b hb => ?_⟩
  have hlt := h.number_lt (mem_filter.mp (mem_of_getElem? hb)).1
  have hi := (List.getElem?_eq_some_iff.mp hb).1
  simp [hlt, hi]

theorem enqueue (hw : s.waking = false) (k : Kind) : Consistent (s.enqueue k) := by
  cases k with
  | write | loan =>
    refine h.sent rfl rfl rfl ⟨Nat.zero_le _, fun r hr => ⟨by simp [Message.isFence], fun hf => ?_⟩⟩
      (Nat.zero_le _) hw
    cases hr
    cases hf
  | background => exact h.pushed rfl rfl hw
  | fence =>
    have hq : (s.fenceMessage ⟨.fence, (admitted s.log).length⟩).request? =
        some ⟨.fence, (admitted s.log).length⟩ := by
      by_cases hl : s.background.last = 0 <;> simp [fenceMessage, hl, Message.request?]
    have ht : (s.fenceMessage ⟨.fence, (admitted s.log).length⟩).through ≤ s.background.last := by
      by_cases hl : s.background.last = 0 <;> simp [fenceMessage, hl, Message.through]
    exact h.sent hq rfl rfl h.fence_marked ht hw

theorem wake : Consistent { s.send .backgroundReady with waking := false } := by
  have hw : { s.send .backgroundReady with waking := false }.waiting =
      s.waiting ++ [.backgroundReady] := by
    simp [waiting, send]
  constructor
  · exact h.numbers
  · rw [hw, filterMap_append]
    exact h.foreground.trans (by simp [send, Message.request?])
  · exact h.background
  · exact h.sequences
  · exact h.last
  · rw [hw]
    intro m hm
    rcases mem_append.mp hm with hm | hm
    · exact h.fences m hm
    · cases mem_singleton.mp hm
      exact ⟨Nat.zero_le _, fun r hr => by cases hr⟩
  · rw [hw]
    exact fun _ _ => .inr (by simp)
  · rw [hw]
    intro hs m hm
    rcases mem_takeWhile_concat hm with hm | ⟨rfl, -⟩
    · exact h.unmarked hs m hm
    · rfl

end Consistent

def FencesInOrder (log : List Event) : Prop :=
  Always (fun before event => ∀ r, event.taken? = some r → r.kind = .fence →
    ∀ b ∈ admitted before, b.isBackground = true → b.number < r.number → b ∈ taken before) log

structure Sound (s : State) : Prop where
  slots : Slots s
  consistent : Consistent s
  settled : Settled s
  fences : FencesInOrder s.log

variable {s t : State} {m : Message}

theorem slots_inspect (hn : s.next = none) : Slots (s.inspect m) := by
  cases m <;> exact ⟨by simp [inspect, hn], by simp [inspect]⟩

theorem slots_dispatch (hn : s.next = none) : Slots (s.dispatch m) := by
  cases m <;> exact ⟨by simp [dispatch, hn], by simp [dispatch]⟩

theorem Slots.work (h : Slots s) (hw : Work s t) : Slots t := by
  cases hw with
  | putBack => exact slots_inspect rfl
  | recv hp =>
    have hn : s.next = none := hp.elim (fun hp => next_eq_none h (by simp [hp])) And.right
    exact slots_inspect hn
  | empty hp hn => exact ⟨by simp [hn], by simp⟩
  | idle hp | collected hp => exact ⟨by simp [next_eq_none h, hp], by simp⟩
  | background | overtaken => exact ⟨by simp [lendBackground], by simp [lendBackground]⟩
  | refused hp => exact ⟨by simp [next_eq_none h, hp], by simpa [hp] using h.held⟩
  | unseen hp => exact slots_dispatch (next_eq_none h (by simp [hp]))
  | counted hp =>
    have hn := next_eq_none h (by simp [hp])
    exact slots_dispatch hn
  | drained | stopped => exact ⟨by simp, by simp⟩

theorem settled_inspect : Settled (s.inspect m) := by
  cases m <;> simp [Settled, inspect]

theorem settled_dispatch : Settled (s.dispatch m) := by
  cases m <;> simp [Settled, dispatch]

theorem Consistent.settled_work (h : Consistent s) (hw : Work s t) : Settled t := by
  cases hw with
  | putBack | recv => exact settled_inspect
  | @refused job hp hs hc =>
    intro m hm
    cases hm
    change job.through ≤ (backgroundOf (taken s.log)).length
    have hl := (h.fences job (by simp [waiting, hp])).1
    cases hj : s.background.jobs with
    | nil => simpa [h.background, hj] using hl
    | cons f rest =>
      have hc := hc f.1 f.2 rest hj
      have hh := h.sequence_head hj
      by_cases hf : job.isFence = true
      · rw [if_pos hf] at hc
        omega
      · cases job <;> simp_all [Message.isFence, Message.through]
  | unseen | counted => exact settled_dispatch
  | _ => simp [Settled, lendBackground]

theorem FencesInOrder.of_moves (h : FencesInOrder s.log) (hc : Consistent s)
    (hs : Settled s) (hv : Moves s t) : FencesInOrder t.log := by
  cases hv with
  | quiet _ _ hl => exact hl ▸ h
  | notified _ _ hl => exact hl ▸ h
  | @took m r event hw hq _ hl he _ hrefused =>
    have ht : event.taken? = some r := by rcases he with rfl | ⟨rfl, -⟩ <;> rfl
    rw [hl]
    refine h.concat fun r' hr' hf b hb hk hlt => ?_
    cases ht.symm.trans hr'
    have hm := hc.fence_clear hs hw hq hf hrefused (mem_filter.mpr ⟨hb, hk⟩) hlt
    exact (mem_filter.mp hm).1
  | @lent sequence r _ hj _ hl =>
    have hk : r.isBackground = true := hc.is_background (by rw [hj]; exact mem_cons_self)
    rw [hl]
    refine h.concat fun r' hr' hf => ?_
    cases hr'
    simp [isBackground, hf] at hk

theorem Sound.start : Sound {} where
  slots := ⟨by simp, by simp⟩
  consistent := by constructor <;> simp [admitted, taken, waiting]
  settled := by simp [Settled]
  fences := always_nil

theorem waking_work (h : Work s t) : t.waking = s.waking := by
  cases h with
  | putBack => rename_i m _ _; cases m <;> rfl
  | recv => rename_i m _ _ _; cases m <;> rfl
  | unseen => rename_i job _ _; cases job <;> rfl
  | counted => rename_i job _; cases job <;> rfl
  | _ => rfl

theorem fencesInOrder_admitted {log : List Event} (h : FencesInOrder log) (r : Request) :
    FencesInOrder (log ++ [.admitted r]) := by
  refine h.concat fun r' hr' => ?_
  cases hr'

theorem Sound.step {label : Label} (h : Sound s) (hs : s.step label = some t) : Sound t := by
  cases step_cases hs with
  | enqueue k hk =>
    have hc := h.consistent.enqueue hk k
    have ht := h.settled
    cases k <;>
      exact ⟨⟨h.slots.putBack, h.slots.held⟩, hc,
        fun m hm => by simpa [State.enqueue, send, push] using ht m hm,
        fencesInOrder_admitted h.fences _⟩
  | wake => exact ⟨⟨h.slots.putBack, h.slots.held⟩, h.consistent.wake, h.settled, h.fences⟩
  | work hw =>
    have hv := moves_of_work h.slots hw
    exact ⟨h.slots.work hw, h.consistent.of_moves (waking_work hw) hv, h.consistent.settled_work hw,
      h.fences.of_moves h.consistent h.settled hv⟩
  | stop hp =>
    refine ⟨⟨by simp, by simp⟩, h.consistent.of_moves rfl ?_, by simp [Settled], h.fences⟩
    exact .quiet (by simp [waiting, hp]) rfl rfl rfl

end Smalltalk.Writer
