import Smalltalk.Writer.Order

/-!
# Foreground turns

Once the writer has the background queue, it lends to a waiting background loan after eight
foreground turns. Before that it does not know of the loan: the notification waits behind the
jobs that were in the channel first.
-/

namespace Smalltalk.Writer

open List State Nat

def Event.isTurn : Event → Bool
  | .dispatched r => r.kind = .write ∨ r.kind = .loan
  | _ => false

def LoanWaits (log : List Event) : Prop := ∃ b ∈ backgroundOf (admitted log), b ∉ taken log

def NoLoanTaken (stretch : List Event) : Prop := ∀ r ∈ taken stretch, r.isBackground = false

def Bounded (log : List Event) : Prop :=
  Stretches (fun before stretch => LoanWaits before → NoLoanTaken stretch →
    stretch.countP Event.isTurn ≤ foregroundTurns) log

def firstLoanAlone (s : State) : Label → Bool
  | .enqueue .background => s.background.last != 0 || s.waiting.isEmpty
  | _ => true

def TurnsUpTo (log : List Event) (bound : Nat) : Prop :=
  ∀ before stretch, before ++ stretch = log → LoanWaits before → NoLoanTaken stretch →
    stretch.countP Event.isTurn ≤ bound

variable {log : List Event} {bound : Nat} {e : Event}

theorem TurnsUpTo.mono {bound' : Nat} (h : TurnsUpTo log bound) (hle : bound ≤ bound') :
    TurnsUpTo log bound' :=
  fun before after hl hw hn => (h before after hl hw hn).trans hle

theorem TurnsUpTo.min {bound' : Nat} (h : TurnsUpTo log bound) (h' : TurnsUpTo log bound') :
    TurnsUpTo log (Min.min bound bound') :=
  fun before after hl hw hn =>
    le_min (h before after hl hw hn) (h' before after hl hw hn)

theorem NoLoanTaken.of_append {first l : List Event} (h : NoLoanTaken (first ++ l)) :
    NoLoanTaken first :=
  fun r hr => h r (by simp [hr])

theorem TurnsUpTo.concat (h : TurnsUpTo log bound) (he : e.isTurn = false) :
    TurnsUpTo (log ++ [e]) bound := by
  intro before after hl hw hn
  rcases append_eq_concat hl with ⟨-, rfl⟩ | ⟨first, rfl, hf⟩
  · simp
  · simpa [he] using h before first hf hw hn.of_append

/-- After a background loan the count starts again. -/
theorem turnsUpTo_lent {r : Request} (hr : r.isBackground = true) (bound : Nat) :
    TurnsUpTo (log ++ [.dispatched r]) bound := by
  intro before after hl hw hn
  rcases append_eq_concat hl with ⟨-, rfl⟩ | ⟨first, rfl, -⟩
  · simp
  · have := hn r (by simp)
    simp [hr] at this

/-- A turn that no waiting loan sees leaves every bound. -/
theorem turnsUpTo_idle (bound : Nat)
    (hi : ∀ before f, before ++ f = log → LoanWaits before → NoLoanTaken f → False) :
    TurnsUpTo (log ++ [e]) bound := by
  intro before after hl hw hn
  rcases append_eq_concat hl with ⟨-, rfl⟩ | ⟨f, rfl, hf⟩
  · simp
  · exact (hi before f hf hw hn.of_append).elim

theorem Bounded.concat (h : Bounded log) (he : TurnsUpTo (log ++ [e]) foregroundTurns) :
    Bounded (log ++ [e]) :=
  Stretches.concat h he

theorem TurnsUpTo.counted (h : TurnsUpTo log bound) : TurnsUpTo (log ++ [e]) (bound + 1) := by
  intro before after hl hw hn
  rcases append_eq_concat hl with ⟨-, rfl⟩ | ⟨first, rfl, hf⟩
  · simp
  · have hc := h before first hf hw hn.of_append
    rw [countP_append]
    have ho : [e].countP Event.isTurn ≤ 1 := countP_le_length
    omega

/-- A loan that waited and was not lent to is in the background queue. -/
theorem Consistent.jobs_ne_nil {s : State} (h : Consistent s) {before after : List Event}
    (hl : before ++ after = s.log) (hw : LoanWaits before) (hn : NoLoanTaken after) :
    s.background.jobs ≠ [] := by
  obtain ⟨b, hb, hf⟩ := hw
  intro hj
  have hc := h.background
  have hm : b ∈ backgroundOf (taken s.log) := by
    rw [hj, map_nil, append_nil] at hc
    rw [← hc, ← hl]
    simp [hb]
  obtain ⟨hm, hk⟩ := mem_filter.mp hm
  rw [← hl, taken_append, mem_append] at hm
  rcases hm with hm | hm
  · exact hf hm
  · simp [hn b hm] at hk

structure Counted (s : State) : Prop where
  turns : TurnsUpTo s.log (min s.turns foregroundTurns)
  refused : ∀ m, s.pc = .refused m → s.seen = true ∧
    (m.isFence = false → TurnsUpTo s.log (foregroundTurns - 1))
  unseen : s.seen = false → s.turns = 0
  notification : s.seen = false → 0 < s.background.last →
    s.waiting = [] ∨ ∃ rest, s.waiting = .backgroundReady :: rest
  bounded : Bounded s.log

namespace Counted

variable {s t : State} (h : Counted s)

include h

theorem bounded_concat {e : Event} (he : TurnsUpTo (s.log ++ [e]) (min t.turns foregroundTurns)) :
    Bounded (s.log ++ [e]) :=
  h.bounded.concat (he.mono (min_le_right _ _))

theorem quiet (hl : t.log = s.log) (ht : t.turns = s.turns) (hp : ∀ m, t.pc ≠ .refused m)
    (hs : t.seen = s.seen) (hlast : t.background.last = s.background.last)
    (hw : t.waiting = s.waiting) : Counted t := by
  constructor
  · rw [hl, ht]
    exact h.turns
  · exact fun m hm => absurd hm (hp m)
  · rw [hs, ht]
    exact h.unseen
  · rw [hs, hlast, hw]
    exact h.notification
  · rw [hl]
    exact h.bounded

variable {r : Request}

theorem lent {sequence : Nat} {rest : List (Nat × Request)} (hn : Sound s)
    (hj : s.background.jobs = (sequence, r) :: rest) (hl : t.log = s.log ++ [.dispatched r])
    (hp : t.pc = .fetch) (ht : t.turns = 0) (hs : t.seen = s.seen)
    (hlast : t.background.last = s.background.last) (hw : t.waiting = s.waiting) : Counted t := by
  have hk : r.isBackground = true := hn.consistent.is_background (by rw [hj]; exact mem_cons_self)
  constructor
  · rw [hl]
    exact turnsUpTo_lent hk _
  · simp [hp]
  · exact fun _ => ht
  · rw [hs, hlast, hw]
    exact h.notification
  · rw [hl]
    exact h.bounded.concat (turnsUpTo_lent hk _)

variable {m : Message}

theorem idle {e : Event} (hs : Sound s) (hseen : s.seen = false)
    (hw : s.waiting = m :: t.waiting) (hq : m.request? = some r) (hl : t.log = s.log ++ [e])
    (hne : ∀ m, t.pc ≠ .refused m) (hr : t.turns = s.turns)
    (hlast : t.background.last = s.background.last) : Counted t := by
  have hd : m ≠ .backgroundReady := by rintro rfl; cases hq
  have hz : s.background.last = 0 := by
    by_contra hp
    rcases h.notification hseen (pos_of_ne_zero hp) with hnil | ⟨rest, hc⟩
    · simp [hw] at hnil
    · rw [hw] at hc
      exact hd (List.cons.inj hc).1
  have hj : s.background.jobs = [] := by
    have hn := hs.consistent.last
    rw [hs.consistent.background, hz] at hn
    apply eq_nil_of_length_eq_zero
    simp at hn
    omega
  have hi : TurnsUpTo (s.log ++ [e]) (min t.turns foregroundTurns) := turnsUpTo_idle _
    fun before f hf ht htaken => hs.consistent.jobs_ne_nil hf ht htaken hj
  constructor
  · rw [hl]
    exact hi
  · exact fun m hm => absurd hm (hne m)
  · exact fun _ => hr.trans (h.unseen hseen)
  · rw [hlast, hz]
    simp
  · rw [hl]
    exact h.bounded_concat hi

theorem inspect (s' : State) (hw : s.waiting = m :: s'.channel) (hn : s'.next = none)
    (hl : s'.log = s.log) (ht : s'.turns = s.turns) (hs : s'.seen = s.seen)
    (hlast : s'.background.last = s.background.last) : Counted (s'.inspect m) := by
  have hk : ∀ job, { s' with pc := .holding job }.waiting = job :: s'.channel := by
    simp [waiting, hn]
  cases m with
  | backgroundReady =>
    constructor
    · simpa [State.inspect, hl, ht] using h.turns
    · simp [State.inspect]
    · simp [State.inspect]
    · simp [State.inspect]
    · simpa [State.inspect, hl] using h.bounded
  | batched | lend => exact h.quiet hl ht (by simp [State.inspect]) hs hlast ((hk _).trans hw.symm)
  | fenceLend through r =>
    exact h.quiet hl ht (by simp [State.inspect]) hs hlast ((hk _).trans hw.symm)

theorem counted {job : Message} (hn : Sound s) (hp : s.pc = .refused job)
    (hq : job.request? = some r) (hl : t.log = s.log ++ [.dispatched r])
    (hc : ∀ m, t.pc ≠ .refused m)
    (hr : t.turns = if s.background.jobs.isEmpty then 0 else s.turns + 1)
    (hseen : t.seen = s.seen) : Counted t := by
  obtain ⟨hs, hf⟩ := h.refused job hp
  have hu : TurnsUpTo (s.log ++ [.dispatched r]) (Min.min t.turns foregroundTurns) := by
    by_cases hj : s.background.jobs = []
    · exact turnsUpTo_idle _ fun before f hbefore hw htaken =>
        hn.consistent.jobs_ne_nil hbefore hw htaken hj
    · have hx : t.turns = s.turns + 1 := by simpa [hj] using hr
      rw [hx]
      by_cases ht : (Event.dispatched r).isTurn = true
      · have hfence : job.isFence = false := by
          by_contra hnoFence
          have hb : job ∈ s.waiting := by simp [waiting, hp]
          have hk := ((hn.consistent.fences job hb).2 r hq).1 (by simpa using hnoFence)
          simp [Event.isTurn, hk] at ht
        have ha : TurnsUpTo (s.log ++ [.dispatched r]) (s.turns + 1) :=
          (h.turns.mono (min_le_left _ _)).counted
        exact ha.min (hf hfence).counted
      · refine (h.turns.concat (by simpa using ht)).mono ?_
        omega
  constructor
  · rw [hl]
    exact hu
  · exact fun m hm => absurd hm (hc m)
  · simp [hseen, hs]
  · simp [hseen, hs]
  · rw [hl]
    exact h.bounded_concat hu

theorem work (hsound : Sound s) (hr : Work s t) : Counted t := by
  have hh := hsound.slots.held
  cases hr with
  | @putBack m hp hn =>
    have hw : s.waiting = m :: s.channel := by simp [waiting, hp, hn]
    exact h.inspect { s with next := none } hw rfl rfl rfl rfl rfl
  | @recv m rest hp hc =>
    have hn : s.next = none :=
      hp.elim (fun hp => next_eq_none hsound.slots (by simp [hp])) And.right
    have hhand : s.pc.hand = [] := by rcases hp with hp | ⟨hp, -⟩ <;> simp [hp]
    have hw : s.waiting = m :: rest := by simp [waiting, hhand, hn, hc]
    exact h.inspect { s with channel := rest } hw hn rfl rfl rfl rfl
  | empty hp hn | idle hp | drained hp =>
    exact h.quiet rfl rfl (by simp) rfl rfl (by simp [waiting, hp])
  | background hp hj =>
    exact h.lent hsound hj rfl rfl rfl rfl rfl (by simp [waiting, lendBackground, hp])
  | @overtaken job sequence r rest hp hs hj =>
    have hn := next_eq_none hsound.slots (by simp [hp])
    exact h.lent hsound hj rfl rfl rfl rfl rfl (by simp [waiting, lendBackground, hp, hn])
  | @refused job hp hs hc' =>
    refine ⟨h.turns, fun m hm => ⟨hs, fun hfence => ?_⟩, h.unseen, by simp [hs], h.bounded⟩
    cases hm
    intro before after hl ht htaken
    have hj := hsound.consistent.jobs_ne_nil hl ht htaken
    obtain ⟨f, rest, hj⟩ := exists_cons_of_ne_nil hj
    have ht' := hc' f.1 f.2 rest hj
    simp only [hfence, Bool.false_eq_true, if_false] at ht'
    have hle := h.turns before after hl ht htaken
    have := min_le_left s.turns foregroundTurns
    omega
  | @unseen job hp hs =>
    have hn := next_eq_none hsound.slots (by simp [hp])
    have hw : s.waiting = job :: (s.dispatch job).waiting := by
      cases job <;> simp [waiting, dispatch, hp, hn]
    rw [hp] at hh
    cases job with
    | backgroundReady => simp at hh
    | _ => exact h.idle hsound hs hw rfl rfl (by simp [dispatch]) rfl rfl
  | @counted job hp =>
    rw [hp] at hh
    cases job with
    | backgroundReady => simp at hh
    | _ => exact h.counted hsound hp rfl rfl (by simp [dispatch]) rfl rfl
  | @collected writes r rest hp hlt hc =>
    have hn := next_eq_none hsound.slots (by simp [hp])
    by_cases hs : s.seen = true
    · have hu : TurnsUpTo (s.log ++ [.collected r]) (min s.turns foregroundTurns) :=
        h.turns.concat rfl
      exact ⟨hu, by simp, by simp [hs], by simp [hs], h.bounded.concat (hu.mono (min_le_right _ _))⟩
    · refine h.idle (m := .batched r) hsound (by simpa using hs) ?_ rfl rfl (by simp) rfl rfl
      simp [waiting, hp, hn, hc]
  | @stopped writes m rest hp hc =>
    have hn := next_eq_none hsound.slots (by simp [hp])
    exact h.quiet rfl rfl (by simp) rfl rfl (by simp [waiting, hp, hn, hc])

theorem admitted (hl : t.log = s.log ++ [.admitted r]) (ht : t.turns = s.turns) (hc : t.pc = s.pc)
    (hn : t.seen = s.seen) (hwaiting : s.seen = false → 0 < t.background.last →
      t.waiting = [] ∨ ∃ rest, t.waiting = .backgroundReady :: rest) : Counted t := by
  have hu : TurnsUpTo (s.log ++ [.admitted r]) (min s.turns foregroundTurns) := h.turns.concat rfl
  constructor
  · rw [hl, ht]
    exact hu
  · intro m hm
    obtain ⟨hs, hf⟩ := h.refused m (hc ▸ hm)
    rw [hl, hn]
    exact ⟨hs, fun hp => (hf hp).concat rfl⟩
  · rw [hn, ht]
    exact h.unseen
  · rw [hn]
    exact hwaiting
  · rw [hl]
    exact h.bounded.concat (hu.mono (min_le_right _ _))

theorem sent (hn : Sound s) (hk : s.waking = false) {r : Request} :
    Counted { s with channel := s.channel ++ [m], log := s.log ++ [.admitted r] } := by
  refine h.admitted rfl rfl rfl rfl fun hs hl => ?_
  rcases h.notification hs hl with hnil | ⟨rest, hc⟩
  · rcases hn.consistent.unseen hs hl with hw | hr
    · simp [hk] at hw
    · simp [hnil] at hr
  · refine .inr ⟨rest ++ [m], ?_⟩
    have ht : ∀ log, { s with channel := s.channel ++ [m], log }.waiting = s.waiting ++ [m] := by
      simp [waiting]
    rw [ht, hc, cons_append]

theorem step {label : Label} (hs : Sound s) (hg : firstLoanAlone s label = true)
    (ht : s.step label = some t) : Counted t := by
  cases step_cases ht with
  | enqueue k hk =>
    cases k with
    | background =>
      refine h.admitted rfl rfl rfl rfl fun hseen _ => ?_
      by_cases hl : s.background.last = 0
      · have hn : s.waiting = [] := by simpa [firstLoanAlone, hl] using hg
        exact .inl hn
      · exact h.notification hseen (pos_of_ne_zero hl)
    | _ => exact h.sent hs hk
  | wake =>
    refine ⟨h.turns, h.refused, h.unseen, fun hseen hl => .inr ?_, h.bounded⟩
    have hw : { s.send .backgroundReady with waking := false }.waiting =
        s.waiting ++ [.backgroundReady] := by
      simp [waiting, send]
    rw [hw]
    rcases h.notification hseen hl with hn | ⟨rest, hc⟩
    · exact ⟨[], by simp [hn]⟩
    · exact ⟨rest ++ [.backgroundReady], by simp [hc]⟩
  | work hr => exact h.work hs hr
  | stop hp => exact h.quiet rfl rfl (by simp) rfl rfl (by simp [waiting, hp])

end Counted

theorem Counted.start : Counted {} where
  turns := by
    intro before after hl
    simp at hl
    simp [hl.2]
  refused := by simp
  unseen := fun _ => rfl
  notification := by simp
  bounded := by
    intro before after hl
    simp at hl
    simp [hl.2]

/-- While a background loan waits, at most eight foreground turns go before a background loan, if
the first one found no foreground job waiting. -/
theorem bounded_run {s : State} {labels : List Label}
    (hr : (writer.restrict firstLoanAlone).run {} labels = some s) :
    Bounded s.log := by
  have hk : (writer.restrict firstLoanAlone).Keeps (fun _ => True)
      fun s => Sound s ∧ Counted s := by
    intro s label t _ h hs
    obtain ⟨hg, hs⟩ := Machine.step_of_restrict hs
    exact ⟨h.1.step hs, h.2.step h.1 hg hs⟩
  exact (hk.run (fun _ _ => trivial) ⟨Sound.start, Counted.start⟩ hr).2.bounded

end Smalltalk.Writer
