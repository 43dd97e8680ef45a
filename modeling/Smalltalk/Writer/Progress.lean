import Smalltalk.Writer.Turns

/-!
# Every admitted job is dispatched

The jobs that are admitted now are taken after a bounded number of further steps of the
writer thread: what comes later stands behind them, and while a background loan waits only eight
turns can go before it.
-/

namespace Smalltalk.Writer

open List Option State

def Label.isWriter : Label → Bool
  | .work | .stop => true
  | _ => false

variable {s t : State}

theorem log_of_moves (h : Moves s t) : s.log <+: t.log := by
  cases h with
  | quiet _ _ hl | notified _ _ hl => exact hl ▸ prefix_rfl
  | took _ _ _ hl | lent _ _ _ hl => exact hl ▸ prefix_append ..

theorem log_of_step {label : Label} (h : Sound s) (hs : s.step label = some t) :
    s.log <+: t.log := by
  cases step_cases hs with
  | enqueue k => cases k <;> exact prefix_append ..
  | work hw => exact log_of_moves (moves_of_work h.slots hw)
  | _ => exact prefix_rfl

theorem log_of_run {labels : List Label} (h : Sound s) (hr : writer.run s labels = some t) :
    s.log <+: t.log := by
  have hk : writer.Keeps (fun _ => True) fun u => Sound u ∧ s.log <+: u.log :=
    fun _ _ _ _ hu hs => ⟨hu.1.step hs, hu.2.trans (log_of_step hu.1 hs)⟩
  exact (hk.run (fun _ _ => trivial) ⟨h, prefix_rfl⟩ hr).2

/-! ## What stands before the jobs of now -/

def Delivered (f b : Nat) (s : State) : Prop :=
  f ≤ (foregroundOf (taken s.log)).length ∧ b ≤ (backgroundOf (taken s.log)).length

structure Ahead (f b : Nat) (old : List Message) (s : State) : Prop where
  sound : Sound s
  split : ∃ new, s.waiting = old ++ new ∧ (∀ m ∈ new, m.isFence = true → b ≤ m.through) ∧
    ((backgroundOf (taken s.log)).length < b → .backgroundReady ∉ new)
  foreground : f ≤ (foregroundOf (taken s.log)).length + (old.filterMap Message.request?).length
  fences : ∀ m ∈ old, m.through ≤ b
  loans : b ≤ (backgroundOf (admitted s.log)).length
  notification : (backgroundOf (taken s.log)).length < b →
    s.waking = false ∧ (s.seen = true ∨ .backgroundReady ∈ old)

/-- While old messages are left, each step of the loop comes closer to the next one. -/
def busyRank : Pc → Nat
  | .empty => 5
  | .batch _ => 4
  | .fetch => 3
  | .wait => 3
  | .holding _ => 2
  | .refused _ => 1

def idleRank (turns : Nat) : Pc → Nat
  | .batch writes => writeBatchLimit - writes + 5
  | .fetch => 4
  | .wait => 4
  | .empty => 3
  | .holding _ => 3
  | .refused _ => if turns < foregroundTurns then 2 else 300

def loansLeft (b : Nat) (s : State) : Nat := b - (backgroundOf (taken s.log)).length

def idleMeasure (b : Nat) (s : State) : Nat :=
  3000 * loansLeft b s + 300 * (foregroundTurns - s.turns) + idleRank s.turns s.pc

def busyMeasure (b : Nat) (old : List Message) (s : State) : Nat :=
  3000 * b + 3000 + 8 * old.length + 2 * loansLeft b s +
    (if foregroundTurns ≤ s.turns then 2 else 0) + busyRank s.pc

def stepsLeft (b : Nat) (old : List Message) (s : State) : Nat :=
  if old = [] then idleMeasure b s else busyMeasure b old s

theorem idleMeasure_lt (b : Nat) (s : State) : idleMeasure b s < 3000 * b + 3000 := by
  have hr : idleRank s.turns s.pc ≤ 300 := by
    cases s.pc with
    | refused job => by_cases ht : s.turns < foregroundTurns <;> simp [idleRank, ht]
    | batch writes => simp [idleRank, writeBatchLimit]; omega
    | _ => simp [idleRank]
  have hl : loansLeft b s ≤ b := Nat.sub_le ..
  unfold idleMeasure foregroundTurns
  omega

/-- One old message less pays for everything else. -/
theorem stepsLeft_cons {b : Nat} {m : Message} {old : List Message}
    (hl : loansLeft b t ≤ loansLeft b s) (hp : busyRank t.pc ≤ 4) :
    stepsLeft b old t + 1 ≤ stepsLeft b (m :: old) s := by
  unfold stepsLeft
  rw [if_neg (cons_ne_nil m old)]
  by_cases hold : old = []
  · have := idleMeasure_lt b t
    rw [if_pos hold]
    unfold busyMeasure
    omega
  · rw [if_neg hold]
    have hf : (if foregroundTurns ≤ t.turns then 2 else 0) ≤ 2 := by split <;> omega
    have hr : 0 < busyRank s.pc := by cases s.pc <;> simp [busyRank]
    simp only [busyMeasure, length_cons]
    omega

namespace Ahead

variable {f b : Nat} {old : List Message} {s t : State} (h : Ahead f b old s)

include h

theorem quiet (hn : Sound t) (hw : t.waiting = s.waiting) (hl : t.log = s.log)
    (hs : t.seen = s.seen) (hk : t.waking = s.waking) : Ahead f b old t := by
  constructor
  · exact hn
  · rw [hw, hl]
    exact h.split
  · rw [hl]
    exact h.foreground
  · exact h.fences
  · rw [hl]
    exact h.loans
  · rw [hl, hk, hs]
    exact h.notification

variable {r : Request} {m : Message}

theorem lent (hsound : Sound t) (hw : t.waiting = s.waiting)
    (hl : t.log = s.log ++ [.dispatched r]) (hk : r.isBackground = true) (hs : t.seen = s.seen)
    (hwaking : t.waking = s.waking) : Ahead f b old t := by
  have ht' : (backgroundOf (taken t.log)).length = (backgroundOf (taken s.log)).length + 1 := by
    simp [hl, backgroundOf_singleton, hk]
  have hf : foregroundOf (taken t.log) = foregroundOf (taken s.log) := by
    simp [hl, foregroundOf_singleton, hk]
  have ha : admitted t.log = admitted s.log := by simp [hl]
  obtain ⟨new, hn, ht, hr⟩ := h.split
  constructor
  · exact hsound
  · exact ⟨new, hw.trans hn, ht, fun hlt => hr (by omega)⟩
  · rw [hf]
    exact h.foreground
  · exact h.fences
  · rw [ha]
    exact h.loans
  · intro hlt
    rw [hwaking, hs]
    exact h.notification (by omega)

theorem took {e : Event} (hsound : Sound t) (hw : s.waiting = m :: t.waiting)
    (hr : m.request? = some r) (hg : t.log = s.log ++ [e])
    (he : e = .dispatched r ∨ e = .collected r) (hs : t.seen = s.seen) (hk : t.waking = s.waking) :
    ∃ old', Ahead f b old' t ∧ (old = m :: old' ∨ old = [] ∧ old' = []) := by
  have hbackground : r.isBackground = false := h.sound.consistent.not_background (by simp [hw]) hr
  have htaken : taken t.log = taken s.log ++ [r] := by rcases he with rfl | rfl <;> simp [hg]
  have ha : admitted t.log = admitted s.log := by rcases he with rfl | rfl <;> simp [hg]
  have hl : backgroundOf (taken t.log) = backgroundOf (taken s.log) := by
    simp [htaken, backgroundOf_singleton, hbackground]
  have hf : (foregroundOf (taken t.log)).length = (foregroundOf (taken s.log)).length + 1 := by
    simp [htaken, foregroundOf_singleton, hbackground]
  have hd : m ≠ .backgroundReady := by rintro rfl; cases hr
  obtain ⟨new, hn, ht, hnoNew⟩ := h.split
  rw [hw] at hn
  have hc := h.foreground
  cases old with
  | nil =>
    rw [nil_append] at hn
    subst hn
    refine ⟨[], ⟨hsound, ⟨t.waiting, rfl, ?_, ?_⟩, ?_, by simp, ?_, ?_⟩, .inr ⟨rfl, rfl⟩⟩
    · exact fun m' hm' => ht m' (mem_cons_of_mem _ hm')
    · rw [hl]
      exact fun hlt hmem => hnoNew hlt (mem_cons_of_mem _ hmem)
    · simp only [filterMap_nil, length_nil] at hc ⊢
      omega
    · rw [ha]
      exact h.loans
    · rw [hl, hk, hs]
      exact h.notification
  | cons first old =>
    obtain ⟨rfl, hwaiting⟩ := cons.inj hn
    refine ⟨old, ⟨hsound, ⟨new, hwaiting, ht, by rwa [hl]⟩, ?_, ?_, ?_, ?_⟩, .inl rfl⟩
    · rw [filterMap_cons_some hr, length_cons] at hc
      omega
    · exact fun m' hm' => h.fences m' (mem_cons_of_mem _ hm')
    · rw [ha]
      exact h.loans
    · rw [hl, hk, hs]
      intro hlt
      simpa [hd.symm] using h.notification hlt

theorem notified (hsound : Sound t) (hwaiting' : s.waiting = .backgroundReady :: t.waiting)
    (hl : t.log = s.log) (hs : t.seen = true) (hw : t.waking = s.waking) :
    ∃ old', Ahead f b old' t ∧
    (old = .backgroundReady :: old' ∨ b ≤ (backgroundOf (taken s.log)).length ∧ old = [] ∧
      old' = []) := by
  obtain ⟨new, hn, hr, hnoNew⟩ := h.split
  rw [hwaiting'] at hn
  have hc := h.foreground
  cases old with
  | nil =>
    rw [nil_append] at hn
    subst hn
    refine ⟨[], ⟨hsound, ⟨t.waiting, rfl, ?_, ?_⟩, ?_, by simp, ?_, ?_⟩, .inr ⟨?_, rfl, rfl⟩⟩
    · exact fun m' hm' => hr m' (mem_cons_of_mem _ hm')
    · rw [hl]
      exact fun ht hmem => hnoNew ht (mem_cons_of_mem _ hmem)
    · rw [hl]
      exact hc
    · rw [hl]
      exact h.loans
    · rw [hl, hw]
      exact fun ht => ⟨(h.notification ht).1, .inl hs⟩
    · by_contra ht
      exact hnoNew (not_le.mp ht) mem_cons_self
  | cons first old =>
    obtain ⟨rfl, hwaiting⟩ := cons.inj hn
    refine ⟨old, ⟨hsound, ⟨new, hwaiting, hr, by rwa [hl]⟩, ?_, ?_, ?_, ?_⟩, .inl rfl⟩
    · rw [hl]
      exact hc
    · exact fun m' hm' => h.fences m' (mem_cons_of_mem _ hm')
    · rw [hl]
      exact h.loans
    · rw [hl, hw]
      exact fun ht => ⟨(h.notification ht).1, .inl hs⟩

theorem jobs_ne_nil (ht : (backgroundOf (taken s.log)).length < b) : s.background.jobs ≠ [] := by
  have hl := h.loans
  intro hj
  rw [h.sound.consistent.background, hj] at hl
  simp at hl
  omega

theorem loan_left (hl : ¬ Delivered f b s) (hold : old = []) :
    (backgroundOf (taken s.log)).length < b := by
  have hf := h.foreground
  rw [hold] at hf
  simp only [filterMap_nil, length_nil, Nat.add_zero] at hf
  by_contra hle
  exact hl ⟨hf, not_lt.mp hle⟩

omit h in
theorem stepsLeft_quiet (hl : t.log = s.log) (ht : t.turns = s.turns)
    (hb : old ≠ [] → busyRank t.pc < busyRank s.pc)
    (hi : old = [] → idleRank s.turns t.pc < idleRank s.turns s.pc) :
    stepsLeft b old t + 1 ≤ stepsLeft b old s := by
  unfold stepsLeft
  by_cases hold : old = []
  · have := hi hold
    simp only [if_pos hold, idleMeasure, loansLeft, hl, ht]
    omega
  · have := hb hold
    simp only [if_neg hold, busyMeasure, loansLeft, hl, ht]
    omega

theorem inspect (s' : State) (hf : ¬ Delivered f b s) (hs : Sound (s'.inspect m))
    (hw : s.waiting = m :: s'.channel) (hn : s'.next = none) (hl : s'.log = s.log)
    (ht : s'.turns = s.turns) (hseen : s'.seen = s.seen) (hk : s'.waking = s.waking)
    (hp : s.pc = .wait ∨ s.pc = .fetch) :
    ∃ old', Ahead f b old' (s'.inspect m) ∧
    stepsLeft b old' (s'.inspect m) + 1 ≤ stepsLeft b old s := by
  by_cases hr : m = .backgroundReady
  · subst hr
    have hwaiting : s.waiting = .backgroundReady :: (s'.inspect .backgroundReady).waiting := by
      rw [hw]
      simp [waiting, inspect, hn]
    obtain ⟨old', ha, rfl | ⟨hle, hold, -⟩⟩ := h.notified hs hwaiting hl rfl hk
    · refine ⟨old', ha, stepsLeft_cons ?_ (by simp [inspect, busyRank])⟩
      simp [loansLeft, inspect, hl]
    · have := h.loan_left hf hold
      omega
  · have hi : s'.inspect m = { s' with pc := .holding m } := by cases m <;> simp_all [inspect]
    rw [hi] at hs ⊢
    have hm : { s' with pc := .holding m }.waiting = s.waiting := by
      rw [hw]
      simp [waiting, hn]
    refine ⟨old, h.quiet hs hm hl hseen hk, stepsLeft_quiet hl ht ?_ ?_⟩
    · rcases hp with hp | hp <;> simp [hp, busyRank]
    · rcases hp with hp | hp <;> simp [hp, idleRank]

theorem lent_step {sequence : Nat} {rest : List (Nat × Request)} (hn : Sound t)
    (hj : s.background.jobs = (sequence, r) :: rest) (hw : t.waiting = s.waiting)
    (hl : t.log = s.log ++ [.dispatched r]) (hp : t.pc = .fetch) (hr : t.turns = 0)
    (hs : t.seen = s.seen) (hwaking : t.waking = s.waking) (hnoDelivered : ¬ Delivered f b s)
    (hb : old ≠ [] → s.pc = .empty ∨ 2 ≤ busyRank s.pc ∧
      (sequence ≤ b ∨ foregroundTurns ≤ s.turns)) :
    ∃ old', Ahead f b old' t ∧ stepsLeft b old' t + 1 ≤ stepsLeft b old s := by
  have hk : r.isBackground = true :=
    h.sound.consistent.is_background (by rw [hj]; exact mem_cons_self)
  have hq := h.sound.consistent.sequence_head hj
  have ht : (backgroundOf (taken t.log)).length = (backgroundOf (taken s.log)).length + 1 := by
    simp [hl, backgroundOf_singleton, hk]
  refine ⟨old, h.lent hn hw hl hk hs hwaking, ?_⟩
  unfold stepsLeft
  by_cases hold : old = []
  · have hlt := h.loan_left hnoDelivered hold
    have hf : idleRank t.turns t.pc = 4 := by rw [hp]; rfl
    have hr' : foregroundTurns - t.turns ≤ 8 := Nat.sub_le ..
    simp only [if_pos hold, idleMeasure, loansLeft, ht, hf]
    omega
  · have hg : (if foregroundTurns ≤ t.turns then 2 else 0) = 0 := by simp [hr, foregroundTurns]
    have hf : busyRank t.pc = 3 := by rw [hp]; rfl
    simp only [if_neg hold, busyMeasure, loansLeft, ht, hg, hf]
    rcases hb hold with he | ⟨hle', hd | hle⟩
    · have hv : busyRank s.pc = 5 := by rw [he]; rfl
      omega
    · omega
    · rw [if_pos hle]
      omega

omit h in
theorem idleMeasure_counted {job : Message} (hp : s.pc = .refused job)
    (hl : loansLeft b t = loansLeft b s) (ht : t.turns = s.turns + 1)
    (hr : idleRank t.turns t.pc ≤ 260) :
    idleMeasure b t + 1 ≤ idleMeasure b s := by
  have hrank : idleRank s.turns s.pc = if s.turns < foregroundTurns then 2 else 300 := by
    rw [hp]; rfl
  unfold idleMeasure
  rw [hl, ht, hrank]
  rw [ht] at hr
  by_cases hf : s.turns < foregroundTurns
  · rw [if_pos hf]
    omega
  · rw [if_neg hf]
    omega

theorem took_busy (hn : Sound t) (hw : s.waiting = m :: t.waiting)
    (hr : m.request? = some r)
    (hl : t.log = s.log ++ [.dispatched r] ∨ t.log = s.log ++ [.collected r])
    (hs : t.seen = s.seen) (hk : t.waking = s.waking) (hp : busyRank t.pc ≤ 4)
    (hi : old = [] → loansLeft b t = loansLeft b s → idleMeasure b t + 1 ≤ idleMeasure b s) :
    ∃ old', Ahead f b old' t ∧ stepsLeft b old' t + 1 ≤ stepsLeft b old s := by
  have hbackground : r.isBackground = false := h.sound.consistent.not_background (by simp [hw]) hr
  have ha : ∃ old', Ahead f b old' t ∧ (old = m :: old' ∨ old = [] ∧ old' = []) := by
    rcases hl with hl | hl
    · exact h.took hn hw hr hl (.inl rfl) hs hk
    · exact h.took hn hw hr hl (.inr rfl) hs hk
  have hleft : loansLeft b t = loansLeft b s := by
    rcases hl with hl | hl <;> simp [loansLeft, hl, backgroundOf_singleton, hbackground]
  obtain ⟨old', ha, rfl | ⟨rfl, rfl⟩⟩ := ha
  · exact ⟨old', ha, stepsLeft_cons hleft.le hp⟩
  · refine ⟨[], ha, ?_⟩
    simpa [stepsLeft] using hi rfl hleft

/-- One step of the writer thread: of `Admission::next`, or of a batch that asks for one more
write. -/
theorem work (hf : ¬ Delivered f b s) (hwork : Work s t) (hs : Sound t) :
    ∃ old', Ahead f b old' t ∧ stepsLeft b old' t + 1 ≤ stepsLeft b old s := by
  have hl := h.sound.slots
  have hh := hl.held
  have hi : old = [] → s.seen = true ∧ s.background.jobs ≠ [] := by
    intro hold
    have hlt := h.loan_left hf hold
    have hseen := (h.notification hlt).2
    exact ⟨by simpa [hold] using hseen, h.jobs_ne_nil hlt⟩
  cases hwork with
  | @putBack m hp hn =>
    have ht : s.waiting = m :: s.channel := by simp [waiting, hp, hn]
    exact h.inspect { s with next := none } hf hs ht rfl rfl rfl rfl rfl (.inr hp)
  | @recv m rest hp hc =>
    have hn : s.next = none := hp.elim (fun hp => next_eq_none hl (by simp [hp])) And.right
    have hhand : s.pc.hand = [] := by rcases hp with hp | ⟨hp, -⟩ <;> simp [hp]
    have ht : s.waiting = m :: rest := by simp [waiting, hhand, hn, hc]
    exact h.inspect { s with channel := rest } hf hs ht hn rfl rfl rfl rfl (hp.imp_right And.left)
  | empty hp hn _ hc =>
    refine ⟨old, h.quiet hs (by simp [waiting, hp]) rfl rfl rfl, stepsLeft_quiet rfl rfl ?_ ?_⟩
    · intro hold
      obtain ⟨new, hw, -⟩ := h.split
      simp [waiting, hp, hn, hc] at hw
      exact absurd hw.1 hold
    · simp [hp, idleRank]
  | idle hp hj =>
    refine ⟨old, h.quiet hs (by simp [waiting, hp]) rfl rfl rfl, stepsLeft_quiet rfl rfl ?_ ?_⟩
    · simp [hp, busyRank]
    · exact fun hold => absurd hj (hi hold).2
  | background hp hj =>
    exact h.lent_step hs hj (by simp [waiting, lendBackground, hp]) rfl rfl rfl rfl rfl hf
      fun _ => .inl hp
  | @overtaken job sequence r rest hp hseen' hj hd =>
    have hn := next_eq_none hl (by simp [hp])
    refine h.lent_step hs hj (by simp [waiting, lendBackground, hp, hn]) rfl rfl rfl rfl rfl hf
      fun hold => .inr ⟨by simp [hp, busyRank], ?_⟩
    obtain ⟨new, hw, -⟩ := h.split
    have hb : job ∈ old := by
      obtain ⟨first, rest', rfl⟩ := exists_cons_of_ne_nil hold
      have hfirst : first = job := by
        simp only [waiting, hp, hand_holding, cons_append, cons.injEq] at hw
        exact hw.1.symm
      simp [hfirst]
    have hle' := h.fences job hb
    rcases hd with ⟨-, hd⟩ | ⟨-, hle⟩
    · exact .inl (hd.trans hle')
    · exact .inr hle
  | @refused job hp hseen' hc' =>
    refine ⟨old, h.quiet hs (by simp [waiting, hp]) rfl rfl rfl, stepsLeft_quiet rfl rfl ?_ ?_⟩
    · simp [hp, busyRank]
    · intro hold
      have hlt := h.loan_left hf hold
      obtain ⟨first, rest, hj⟩ := exists_cons_of_ne_nil (hi hold).2
      have hc' := hc' first.1 first.2 rest hj
      have hq := h.sound.consistent.sequence_head hj
      by_cases hfence : job.isFence = true
      · -- a fence that came later waits for every loan that is left
        obtain ⟨new, hw, hr, -⟩ := h.split
        rw [hold, nil_append] at hw
        have hle' := hr job (by rw [← hw]; simp [waiting, hp]) hfence
        rw [if_pos hfence] at hc'
        omega
      · rw [if_neg hfence] at hc'
        simp [hp, idleRank, hc']
  | @unseen job hp hseen' =>
    have hn := next_eq_none hl (by simp [hp])
    have ht : s.waiting = job :: (s.dispatch job).waiting := by
      cases job <;> simp [waiting, dispatch, hp, hn]
    rw [hp] at hh
    cases job with
    | backgroundReady => simp at hh
    | _ =>
      refine h.took_busy hs ht rfl (.inl rfl) rfl rfl (by simp [dispatch, busyRank]) fun hold => ?_
      have hm := (hi hold).1
      simp [hseen'] at hm
  | @counted job hp =>
    have hn := next_eq_none hl (by simp [hp])
    have ht : ∀ turns, s.waiting = job :: ({ s with turns }.dispatch job).waiting := by
      intro turns
      cases job <;> simp [waiting, dispatch, hp, hn]
    rw [hp] at hh
    cases job with
    | backgroundReady => simp at hh
    | _ =>
      refine h.took_busy hs (ht _) rfl (.inl rfl) rfl rfl (by simp [dispatch, busyRank])
        fun hold hleft => ?_
      have hj := (hi hold).2
      exact idleMeasure_counted hp hleft (by simp [dispatch, hj])
        (by simp [dispatch, idleRank, writeBatchLimit])
  | drained hp =>
    refine ⟨old, h.quiet hs (by simp [waiting, hp]) rfl rfl rfl, stepsLeft_quiet rfl rfl ?_ ?_⟩
    · simp [hp, busyRank]
    · simp [hp, idleRank]
  | @collected writes r rest hp hlt' hc =>
    have hn := next_eq_none hl (by simp [hp])
    refine h.took_busy (m := .batched r) hs (by simp [waiting, hp, hn, hc]) rfl (.inr rfl) rfl rfl
      (by simp [busyRank]) fun _ hleft => ?_
    simp only [idleMeasure, hleft, hp, idleRank]
    omega
  | @stopped writes m rest hp hc =>
    have hn := next_eq_none hl (by simp [hp])
    refine ⟨old, h.quiet hs (by simp [waiting, hp, hn, hc]) rfl rfl rfl,
      stepsLeft_quiet rfl rfl ?_ ?_⟩
    · simp [hp, busyRank]
    · simp [hp, idleRank]

theorem sent (hk : r.isBackground = false) (hr : m ≠ .backgroundReady)
    (hh : m.isFence = true → m.through = s.background.last)
    (hs : Sound { s with channel := s.channel ++ [m], log := s.log ++ [.admitted r] }) :
    Ahead f b old { s with channel := s.channel ++ [m], log := s.log ++ [.admitted r] } := by
  have hw : ∀ log, { s with channel := s.channel ++ [m], log }.waiting = s.waiting ++ [m] := by
    simp [waiting]
  have heq : backgroundOf (admitted (s.log ++ [.admitted r])) = backgroundOf (admitted s.log) := by
    simp [backgroundOf_singleton, hk]
  have ht : taken (s.log ++ [.admitted r]) = taken s.log := by simp
  obtain ⟨new, hn, hl, hnoNew⟩ := h.split
  refine ⟨hs, ⟨new ++ [m], by rw [hw, hn, append_assoc], ?_, ?_⟩, ?_, h.fences, ?_, ?_⟩
  · intro m' hm' hf
    rcases mem_append.mp hm' with hm' | hm'
    · exact hl m' hm' hf
    · cases mem_singleton.mp hm'
      rw [hh hf, h.sound.consistent.last]
      exact h.loans
  · rw [ht]
    intro hlt hmem
    rcases mem_append.mp hmem with hmem | hmem
    · exact hnoNew hlt hmem
    · exact hr (mem_singleton.mp hmem).symm
  · rw [ht]
    exact h.foreground
  · rw [heq]
    exact h.loans
  · rw [ht]
    exact h.notification

theorem enqueue {k : Kind} (hs : Sound (s.enqueue k)) : Ahead f b old (s.enqueue k) := by
  cases k with
  | write | loan => exact h.sent rfl (by simp) (by simp [Message.isFence]) hs
  | background =>
    have hw : (s.enqueue .background).waiting = s.waiting := rfl
    have ht : taken (s.enqueue .background).log = taken s.log := by simp [State.enqueue, push]
    have ha : admitted (s.enqueue .background).log =
        admitted s.log ++ [⟨.background, (admitted s.log).length⟩] := by
      simp [State.enqueue, push]
    have hn := h.loans
    constructor
    · exact hs
    · rw [hw, ht]
      exact h.split
    · rw [ht]
      exact h.foreground
    · exact h.fences
    · rw [ha, backgroundOf_append, length_append]
      omega
    · rw [ht]
      intro hlt
      have he : (s.enqueue .background).waking = s.background.jobs.isEmpty := rfl
      exact ⟨by simpa [he] using h.jobs_ne_nil hlt, (h.notification hlt).2⟩
  | fence =>
    refine h.sent rfl ?_ ?_ hs
    · by_cases hl : s.background.last = 0 <;> simp [fenceMessage, hl]
    · by_cases hl : s.background.last = 0 <;>
        simp [fenceMessage, hl, Message.isFence, Message.through]

theorem wake (hk : s.waking = true) (hs : Sound { s.send .backgroundReady with waking := false }) :
    Ahead f b old { s.send .backgroundReady with waking := false } := by
  -- the notification is late only for loans that are all taken
  have hd : ¬ (backgroundOf (taken s.log)).length < b := by
    intro hl
    have := (h.notification hl).1
    simp [hk] at this
  have hw : { s.send .backgroundReady with waking := false }.waiting =
      s.waiting ++ [.backgroundReady] := by
    simp [waiting, send]
  obtain ⟨new, hn, ht, -⟩ := h.split
  refine ⟨hs, ⟨new ++ [.backgroundReady], by rw [hw, hn, append_assoc], ?_, ?_⟩, h.foreground,
    h.fences, h.loans, ?_⟩
  · intro m hm hf
    rcases mem_append.mp hm with hm | hm
    · exact ht m hm hf
    · cases mem_singleton.mp hm
      cases hf
  · exact fun hl => absurd hl hd
  · exact fun hl => absurd hl hd

omit h in
theorem stepsLeft_congr (hk : taken t.log = taken s.log) (ht : t.turns = s.turns)
    (hp : t.pc = s.pc) :
    stepsLeft b old t = stepsLeft b old s := by
  simp only [stepsLeft, idleMeasure, busyMeasure, loansLeft, hk, ht, hp]

theorem step {label : Label} (hl : ¬ Delivered f b s) (ht : s.step label = some t) :
    ∃ old', Ahead f b old' t ∧
    stepsLeft b old' t + (if label.isWriter then 1 else 0) ≤ stepsLeft b old s := by
  have hs := h.sound.step ht
  cases step_cases ht with
  | enqueue k =>
    refine ⟨old, h.enqueue hs, le_of_eq ?_⟩
    cases k <;> exact stepsLeft_congr (by simp [State.enqueue, send, push]) rfl rfl
  | wake hk => exact ⟨old, h.wake hk hs, le_rfl⟩
  | work hw => exact h.work hl hw hs
  | stop hp =>
    refine ⟨old, h.quiet hs (by simp [waiting, hp]) rfl rfl rfl, stepsLeft_quiet rfl rfl ?_ ?_⟩
    · simp [hp, busyRank]
    · simp [hp, idleRank]

end Ahead

variable {s t : State}

theorem ahead_start (h : Sound s) (hw : s.waking = false) :
    Ahead (foregroundOf (admitted s.log)).length
      (backgroundOf (admitted s.log)).length s.waiting s where
  sound := h
  split := ⟨[], by simp⟩
  foreground := by
    rw [h.consistent.foreground]
    simp
  fences := fun m hm => (h.consistent.fences m hm).1
  loans := le_rfl
  notification := by
    intro hl
    refine ⟨hw, ?_⟩
    by_cases hs : s.seen = true
    · exact .inl hs
    · have hp : 0 < s.background.last := by
        rw [h.consistent.last]
        omega
      rcases h.consistent.unseen (by simpa using hs) hp with hk | hr
      · simp [hw] at hk
      · exact .inr hr

theorem length_le_of_prefix_log (p : Request → Bool) (h : s.log <+: t.log) :
    ((taken s.log).filter p).length ≤ ((taken t.log).filter p).length := by
  obtain ⟨rest, hr⟩ := h
  rw [← hr, taken_append, filter_append, length_append]
  omega

theorem Delivered.step {f b : Nat} {label : Label} (hn : Sound s) (h : Delivered f b s)
    (hs : s.step label = some t) : Delivered f b t := by
  have hl := log_of_step hn hs
  exact ⟨h.1.trans (length_le_of_prefix_log _ hl), h.2.trans (length_le_of_prefix_log _ hl)⟩

theorem mem_of_prefixes {first all done : List Request} (hf : first <+: all) (hd : done <+: all)
    (hl : first.length ≤ done.length) {r : Request} (hr : r ∈ first) : r ∈ done :=
  (prefix_of_prefix_length_le hf hd hl).subset hr

theorem Sound.mem_taken (ht : Sound t) (hl : s.log <+: t.log)
    (h : Delivered (foregroundOf (admitted s.log)).length (backgroundOf (admitted s.log)).length t)
    {r : Request} (hr : r ∈ admitted s.log) : r ∈ taken t.log := by
  obtain ⟨rest, hs⟩ := hl
  by_cases hk : r.isBackground = true
  · have hf : backgroundOf (admitted s.log) <+: backgroundOf (admitted t.log) := by simp [← hs]
    have hd : backgroundOf (taken t.log) <+: backgroundOf (admitted t.log) :=
      ⟨_, ht.consistent.background.symm⟩
    exact (mem_filter.mp (mem_of_prefixes hf hd h.2 (mem_filter.mpr ⟨hr, hk⟩))).1
  · have hf : foregroundOf (admitted s.log) <+: foregroundOf (admitted t.log) := by simp [← hs]
    have hd : foregroundOf (taken t.log) <+: foregroundOf (admitted t.log) :=
      ⟨_, ht.consistent.foreground.symm⟩
    have hg : r.isForeground = true := by simpa [Request.isForeground] using hk
    exact (mem_filter.mp (mem_of_prefixes hf hd h.1 (mem_filter.mpr ⟨hr, hg⟩))).1

/-- Enough further steps of the writer thread dispatch whatever is admitted now. -/
theorem Sound.delivered (h : Sound s) (hw : s.waking = false) :
    ∃ n, ∀ labels t, writer.run s labels = some t → n ≤ labels.countP Label.isWriter →
    ∀ r ∈ admitted s.log, r ∈ taken t.log := by
  let f := (foregroundOf (admitted s.log)).length
  let b := (backgroundOf (admitted s.log)).length
  refine ⟨stepsLeft b s.waiting s + 1, fun labels t hn hc r hr => ?_⟩
  have hl := log_of_run h hn
  have hk : writer.Keeps (fun _ => True) Sound := fun _ _ _ _ h hs => h.step hs
  have ht : Sound t := hk.run (fun _ _ => trivial) h hn
  refine ht.mem_taken hl ?_ hr
  by_contra hf
  have hb : labels.countP Label.isWriter ≤ stepsLeft b s.waiting s := Machine.count_le_of_measure
    (I := Ahead f b) (G := fun u => Sound u ∧ Delivered f b u)
    (fun _ _ _ _ hu hs => ⟨hu.1.step hs, hu.2.step hu.1 hs⟩)
    (fun old u label v hu hv hs =>
      hu.step (fun hG => hv ⟨hu.sound.step hs, hG.step hu.sound hs⟩) hs)
    (ahead_start h hw) hn fun hG => hf hG.2
  omega

/-! ## The writer thread waits only for new jobs -/

def Parked (s : State) : Prop :=
  s.pc = .wait → s.background.jobs = [] ∨ s.waking = true ∨ .backgroundReady ∈ s.waiting

theorem parked_inspect {m : Message} : Parked (s.inspect m) := by
  cases m <;> simp [Parked, inspect]

theorem parked_dispatch {m : Message} : Parked (s.dispatch m) := by
  cases m <;> simp [Parked, dispatch]

theorem parked_work (h : Work s t) : Parked t := by
  cases h with
  | putBack | recv => exact parked_inspect
  | idle hp hj => exact fun _ => .inl hj
  | unseen | counted => exact parked_dispatch
  | _ => simp [Parked, lendBackground]

theorem Parked.step {label : Label} (h : Parked s) (ht : s.step label = some t) : Parked t := by
  cases step_cases ht with
  | enqueue k hk =>
    intro hp
    have hs : s.background.jobs = [] ∨ s.waking = true ∨ .backgroundReady ∈ s.waiting :=
      h (by cases k <;> exact hp)
    rcases hs with hj | hw | hd
    · cases k with
      | background => exact .inr (.inl (by simp [State.enqueue, push, hj]))
      | _ => exact .inl hj
    · simp [hk] at hw
    · have hg : s.waiting <+: (s.enqueue k).waiting := by
        cases k <;> simp [State.enqueue, send, push, waiting]
      exact .inr (.inr (hg.subset hd))
  | wake => exact fun _ => .inr (.inr (by simp [waiting, send]))
  | work hr => exact parked_work hr
  | stop => simp [Parked]

theorem recv_eq_none (h : s.recv = none) : s.channel = [] := by
  cases hc : s.channel with
  | nil => rfl
  | cons m rest => simp [State.recv, hc] at h

/-- A writer thread that cannot go on has nothing left to dispatch. -/
theorem Sound.blocked (h : Sound s) (hp : Parked s) (hwaking : s.waking = false)
    (hstep : s.step .work = none) (hs : s.step .stop = none) :
    s.waiting = [] ∧ s.background.jobs = [] := by
  change s.work = none at hstep
  cases hfetch : s.pc with
  | fetch =>
    simp only [State.work, hfetch] at hstep
    split at hstep
    · simp at hstep
    · next hnext =>
      by_cases hempty : s.seen = true ∧ s.channel = []
      · simp [hempty] at hstep
      · rw [if_neg hempty] at hstep
        have hchannel := recv_eq_none hstep
        have hw : s.waiting = [] := by simp [waiting, hfetch, hnext, hchannel]
        have hseen : s.seen = false := by simpa [hchannel] using hempty
        refine ⟨hw, ?_⟩
        have hl : ¬ 0 < s.background.last := by
          intro hpos
          rcases h.consistent.unseen hseen hpos with hwaking' | hr
          · simp [hwaking] at hwaking'
          · simp [hw] at hr
        have hlength := h.consistent.last
        rw [h.consistent.background] at hlength
        simp only [length_append, length_map] at hlength
        exact eq_nil_of_length_eq_zero (by omega)
  | wait =>
    simp only [State.work, hfetch] at hstep
    have hchannel := recv_eq_none hstep
    have hnext := next_eq_none h.slots (by simp [hfetch])
    have hw : s.waiting = [] := by simp [waiting, hfetch, hnext, hchannel]
    refine ⟨hw, ?_⟩
    rcases hp hfetch with hjobs | hwaking' | hr
    · exact hjobs
    · simp [hwaking] at hwaking'
    · simp [hw] at hr
  | empty =>
    simp only [State.work, hfetch] at hstep
    split at hstep <;> simp at hstep
  | holding job =>
    simp only [State.work, hfetch] at hstep
    split at hstep
    · split at hstep <;> simp at hstep
    · simp at hstep
  | refused job => simp [State.work, hfetch] at hstep
  | batch writes => simp [State.step, hfetch] at hs

structure Orderly (s : State) : Prop where
  once : (taken s.log).Nodup
  foreground : foregroundOf (taken s.log) <+: foregroundOf (admitted s.log)
  background : backgroundOf (taken s.log) <+: backgroundOf (admitted s.log)
  fences : FencesInOrder s.log
  dispatched : s.waking = false → ∃ n, ∀ labels t, writer.run s labels = some t →
    n ≤ labels.countP Label.isWriter → ∀ r ∈ admitted s.log, r ∈ taken t.log
  idle : s.waking = false → s.step .work = none → s.step .stop = none →
    ∀ r ∈ admitted s.log, r ∈ taken s.log

theorem Sound.nodup (h : Sound s) : (taken s.log).Nodup := by
  have hd : (admitted s.log).Nodup := by
    apply List.Nodup.of_map Request.number
    rw [h.consistent.numbers]
    exact nodup_range
  have hb : (backgroundOf (taken s.log)).Nodup := by
    have ha : (backgroundOf (admitted s.log)).Nodup := hd.filter _
    rw [h.consistent.background] at ha
    exact (nodup_append.mp ha).1
  have hf : (foregroundOf (taken s.log)).Nodup := by
    have ha : (foregroundOf (admitted s.log)).Nodup := hd.filter _
    rw [h.consistent.foreground] at ha
    exact (nodup_append.mp ha).1
  refine (filter_append_perm Request.isBackground (taken s.log)).nodup_iff.mp (hb.append hf ?_)
  intro r hr hr'
  have hk := (mem_filter.mp hr).2
  simp [hk] at hr'

theorem Sound.orderly (h : Sound s) (hp : Parked s) : Orderly s where
  once := h.nodup
  foreground := ⟨_, h.consistent.foreground.symm⟩
  background := ⟨_, h.consistent.background.symm⟩
  fences := h.fences
  dispatched := h.delivered
  idle := by
    intro hk hstep hs r hr
    obtain ⟨hw, hj⟩ := h.blocked hp hk hstep hs
    refine h.mem_taken prefix_rfl ⟨?_, ?_⟩ hr
    · rw [h.consistent.foreground, hw]
      simp
    · rw [h.consistent.background, hj]
      simp

/-- Jobs are dispatched once and in their order, fences after the background loans before them.
If the first background loan found no foreground job waiting, at most eight foreground turns go
before a waiting one. -/
theorem admission_orderly {labels : List Label} {s : State} (hrun : writer.run {} labels = some s) :
    Orderly s ∧ ((writer.restrict firstLoanAlone).run {} labels = some s → Bounded s.log) := by
  have hk : writer.Keeps (fun _ => True) fun u => Sound u ∧ Parked u :=
    fun _ _ _ _ h hs => ⟨h.1.step hs, h.2.step hs⟩
  have hp : Parked {} := by simp [Parked]
  obtain ⟨hn, hp⟩ := hk.run (fun _ _ => trivial) ⟨Sound.start, hp⟩ hrun
  exact ⟨hn.orderly hp, bounded_run⟩

def loanFirst : List Label :=
  [.enqueue .background, .wake] ++ replicate 10 (.enqueue .loan) ++ replicate 30 .work

theorem loan_first_bounded : ((writer.restrict firstLoanAlone).run {} loanFirst).isSome = true ∧
      ∀ s ∈ writer.run {} loanFirst, Orderly s ∧ Bounded s.log := by
  have hm : ((writer.restrict firstLoanAlone).run {} loanFirst).isSome = true := by decide +kernel
  refine ⟨hm, fun s hs => ?_⟩
  obtain ⟨t, ht⟩ := isSome_iff_exists.mp hm
  cases (Machine.run_of_restrict ht).symm.trans hs
  exact ⟨(admission_orderly hs).1, (admission_orderly hs).2 ht⟩

def loanLast : List Label :=
  replicate 9 (.enqueue .loan) ++ [.enqueue .background, .wake] ++ replicate 18 .work

def nineTurns : List Event := (range 9).map fun i => .dispatched ⟨.loan, i⟩

theorem first_loan_overtaken_nine_times :
    ∃ s before, writer.run {} loanLast = some s ∧ s.log = before ++ nineTurns ∧ LoanWaits before ∧
      NoLoanTaken nineTurns ∧ ¬ Bounded s.log := by
  let before : List Event :=
    (range 9).map (fun i => .admitted ⟨.loan, i⟩) ++ [.admitted ⟨.background, 9⟩]
  have hw : LoanWaits before := ⟨⟨.background, 9⟩, by decide, by decide⟩
  have hn : NoLoanTaken nineTurns := by unfold NoLoanTaken; decide
  obtain ⟨s, hs⟩ :=
    isSome_iff_exists.mp (show (writer.run {} loanLast).isSome = true by decide +kernel)
  have hl : (writer.run {} loanLast).map State.log = some (before ++ nineTurns) := by decide +kernel
  rw [hs, map_some, Option.some.injEq] at hl
  refine ⟨s, before, hs, hl, hw, hn, fun hb => ?_⟩
  have hle := hb before nineTurns (hl ▸ prefix_rfl) hw hn
  exact absurd hle (by decide)

end Smalltalk.Writer
