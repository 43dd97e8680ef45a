import Mathlib
import Smalltalk.Lib.OrdSet
import Smalltalk.Lib.Table
import Smalltalk.Lib.Texts

/-!
# The ordered queue of mission runs for one seat

A run joins the end of the seat's queue at its first step there. Each recorded move is
replayed after the joins recorded before it. Only the joins of live runs and of runs that a
move names are read.
-/

namespace Smalltalk.Seats

open List

inductive Placement where
  | top
  | bottom
  | before
  | after
  deriving DecidableEq

structure QueueJoin where
  run : String
  atUnixMs : Nat
  deriving DecidableEq

structure QueueMove where
  run : String
  placement : Placement
  anchor : Option String
  atUnixMs : Nat

/-! ## Replay -/

def joinRun (order : List String) (run : String) : List String :=
  if run ∈ order then order else order ++ [run]

def joinRuns (order : List String) (joins : List QueueJoin) : List String :=
  joins.foldl (fun order join => joinRun order join.run) order

def applyMove (order : List String) (movement : QueueMove) : List String :=
  if movement.run ∉ order then order
  else
    let rest := order.erase movement.run
    match movement.placement, movement.anchor with
    | .top, _ => movement.run :: rest
    | .bottom, _ => rest ++ [movement.run]
    | .before, some anchor =>
      if anchor ≠ movement.run ∧ anchor ∈ order then
        rest.insertIdx (rest.idxOf anchor) movement.run else order
    | .after, some anchor =>
      if anchor ≠ movement.run ∧ anchor ∈ order then
        rest.insertIdx (rest.idxOf anchor + 1) movement.run else order
    | _, none => order

def QueueMove.named (movement : QueueMove) : List String := movement.run :: movement.anchor.toList

def QueueJoin.key (join : QueueJoin) : Nat ×ₗ String := toLex (join.atUnixMs, join.run)

def sortJoins (joins : List QueueJoin) : List QueueJoin := joins.insertionSort (·.key ≤ ·.key)

/-- One turn of the loop over the moves: the order so far and the joins still pending. -/
def replayMove (known : List String) (s : List String × List QueueJoin) (movement : QueueMove) :
    List String × List QueueJoin :=
  let due := fun join : QueueJoin => decide (join.atUnixMs ≤ movement.atUnixMs)
  let order := joinRuns s.1 (s.2.takeWhile due)
  let order := (movement.named.filter (· ∈ known)).foldl joinRun order
  (applyMove order movement, s.2.dropWhile due)

def replay (joins : List QueueJoin) (moves : List QueueMove) : List String :=
  let joins := sortJoins joins
  let s := moves.foldl (replayMove (joins.map (·.run))) ([], joins)
  joinRuns s.1 s.2

def liveOrder (joins : List QueueJoin) (moves : List QueueMove) (live : List String) :
    List String :=
  (replay joins moves).filter (· ∈ live)

/-! ## What is read for a seat -/

structure MissionRun where
  status : String
  phase : String
  currentGenerationId : String

structure StepRun where
  runId : String
  generationId : String
  assignee : Option String
  agentless : Bool
  createdAtUnixMs : Nat

structure SeatQueueInputs where
  joins : List QueueJoin
  moves : List QueueMove
  live : List String

def SeatQueueInputs.liveOrder (inputs : SeatQueueInputs) : List String :=
  Seats.liveOrder inputs.joins inputs.moves inputs.live

def missionRun (id : String) : String := "mission-run/" ++ id

section
variable (runs : Table String MissionRun) (steps : List StepRun) (seat : String)

def seatSteps (id : String) : List StepRun :=
  steps.filter fun step => step.assignee = some seat && step.runId = id && !step.agentless

/-- `MIN(created_at_unix_ms)` over the seat's steps in the run. -/
def joinOf (id : String) : Option QueueJoin :=
  ((seatSteps steps seat id).map (·.createdAtUnixMs)).min?.map (⟨missionRun id, ·⟩)

/-- The rows of `seat_queue_joins_query`: open runs with a step of their current generation. -/
def openRun (id : String) (run : MissionRun) : Bool :=
  run.status ∉ ["completed", "failed", "cancelled"] && run.phase ≠ "terminal" &&
    (seatSteps steps seat id).any (·.generationId = run.currentGenerationId)

def liveIds : List String := (runs.rows.filter fun row => openRun steps seat row.1 row.2).map (·.1)

/-- The query for one run that a move names. -/
def probe (run : String) : Option QueueJoin :=
  (stripPrefix run "mission-run/").bind fun id => (runs.get? id).bind fun _ => joinOf steps seat id

def seatQueueInputsOf (moves : List QueueMove) : SeatQueueInputs :=
  let live := (liveIds runs steps seat).map missionRun
  let named := OrdSet.ofList ((moves.flatMap (·.named)).filter (· ∉ live))
  { joins := (liveIds runs steps seat).filterMap (joinOf steps
      seat) ++ named.toList.filterMap (probe runs steps seat)
    moves
    live }

/-- When the seat joined each run it ever had a step in. -/
def seatJoins : List QueueJoin := (runs.rows.map (·.1)).filterMap (joinOf steps seat)

end

/-! ## Joins in time order -/

theorem QueueJoin.key_injective : Function.Injective QueueJoin.key := by
  rintro ⟨run, time⟩ ⟨run', at'⟩ h
  simpa [QueueJoin.key, and_comm] using h

theorem pairwise_sortJoins (joins : List QueueJoin) : (sortJoins joins).Pairwise (·.key ≤ ·.key) :=
  pairwise_insertionSort _ _

theorem sortJoins_perm (joins : List QueueJoin) : (sortJoins joins).Perm joins :=
  perm_insertionSort _ _

theorem sortJoins_filter (joins : List QueueJoin) (p : QueueJoin → Bool) :
    sortJoins (joins.filter p) = (sortJoins joins).filter p := by
  refine List.Perm.eq_of_pairwise (fun a b _ _ ha hb => QueueJoin.key_injective (le_antisymm ha hb))
    (pairwise_sortJoins _) ((pairwise_sortJoins joins).filter _) ?_
  exact (sortJoins_perm _).trans ((sortJoins_perm joins).symm.filter p)

/-- The joins recorded up to a time are the pending ones with at most that time. -/
theorem takeWhile_due {pending : List QueueJoin} (h : pending.Pairwise (·.key ≤ ·.key)) (t : Nat) :
    pending.takeWhile (fun join => decide (join.atUnixMs ≤ t)) =
      pending.filter (fun join => join.atUnixMs ≤ t) ∧
    pending.dropWhile (fun join => decide (join.atUnixMs ≤ t)) =
      pending.filter (fun join => ¬ join.atUnixMs ≤ t) := by
  induction pending with
  | nil => simp
  | cons join pending ih =>
    obtain ⟨hh, hpairwise⟩ := pairwise_cons.mp h
    obtain ⟨hpending, hr⟩ := ih hpairwise
    by_cases hd : join.atUnixMs ≤ t
    · simp [hd, hpending, hr]
    · have hl : ∀ l ∈ pending, ¬ l.atUnixMs ≤ t := by
        intro l ht hle
        have hk := Prod.Lex.monotone_fst _ _ (hh l ht)
        exact hd (le_trans hk hle)
      have hn : pending.filter (fun join => decide (join.atUnixMs ≤ t)) = [] := by
        simpa [filter_eq_nil_iff] using hl
      have ha : pending.filter (fun join => decide (¬ join.atUnixMs ≤ t)) = pending := by
        simpa [filter_eq_self] using hl
      rw [filter_cons_of_neg (by simpa using hd), filter_cons_of_pos (by simpa using hd), hn, ha]
      simp [hd]

/-! ## Each joined run exactly once -/

theorem mem_joinRun {order : List String} {run other : String} :
    other ∈ joinRun order run ↔ other ∈ order ∨ other = run := by
  unfold joinRun
  split <;> simp_all

theorem nodup_joinRun {order : List String} (h : order.Nodup) (run : String) :
    (joinRun order run).Nodup := by
  unfold joinRun
  split
  · exact h
  · rename_i hr
    simpa [nodup_append, h] using fun other ho (heq : other = run) => hr (heq ▸ ho)

theorem foldl_joinRun (r order : List String) :
    (∀ other, other ∈ r.foldl joinRun order ↔ other ∈ order ∨ other ∈ r) ∧
      (order.Nodup → (r.foldl joinRun order).Nodup) := by
  induction r generalizing order with
  | nil => simp
  | cons run r ih =>
    obtain ⟨hm, hn⟩ := ih (joinRun order run)
    refine ⟨fun other => ?_, fun h => hn (nodup_joinRun h run)⟩
    rw [foldl_cons, hm, mem_joinRun, mem_cons, or_assoc]

theorem joinRuns_eq (order : List String) (joins : List QueueJoin) :
    joinRuns order joins = (joins.map (·.run)).foldl joinRun order := by
  rw [joinRuns, foldl_map]

theorem applyMove_perm (order : List String) (m : QueueMove) : (applyMove order m).Perm order := by
  unfold applyMove
  split
  · rfl
  · rename_i hn
    have hr := (perm_cons_erase (not_not.mp hn)).symm
    split
    · exact hr
    · exact (perm_append_singleton _ _).trans hr
    · split
      · exact (perm_insertIdx _ _ idxOf_le_length).trans hr
      · rfl
    · split
      · rename_i ha
        have hm := (mem_erase_of_ne ha.1).mpr ha.2
        exact (perm_insertIdx _ _ (idxOf_lt_length_of_mem hm)).trans hr
      · rfl
    · rfl

structure Queued (joins : List QueueJoin) (s : List String × List QueueJoin) : Prop where
  nodup : s.1.Nodup
  joined : ∀ run ∈ s.1, run ∈ joins.map (·.run)
  pending : s.2 ⊆ joins
  queued : ∀ join ∈ joins, join.run ∈ s.1 ∨ join ∈ s.2

section
variable {joins : List QueueJoin}

theorem Queued.replayMove {s : List String × List QueueJoin} (h : Queued joins s)
    (m : QueueMove) : Queued joins (replayMove (joins.map (·.run)) s m) := by
  have hm : ∀ run, run ∈ (Seats.replayMove (joins.map (·.run)) s m).1 ↔
      (run ∈ s.1 ∨
        run ∈ (s.2.takeWhile fun join => decide (join.atUnixMs ≤ m.atUnixMs)).map (·.run)) ∨
        run ∈ m.named.filter (· ∈ joins.map (·.run)) := by
    intro run
    rw [Seats.replayMove, (applyMove_perm _ _).mem_iff, (foldl_joinRun _ _).1, joinRuns_eq,
      (foldl_joinRun _ _).1]
  have hs :=
    takeWhile_append_dropWhile (p := fun join : QueueJoin =>
      decide (join.atUnixMs ≤ m.atUnixMs)) (l := s.2)
  have hp : ∀ join, join ∈ s.2 ↔
      join ∈ s.2.takeWhile (fun join => decide (join.atUnixMs ≤ m.atUnixMs)) ∨
      join ∈ s.2.dropWhile (fun join => decide (join.atUnixMs ≤ m.atUnixMs)) := by
    intro join
    rw [← mem_append, hs]
  constructor
  · refine (applyMove_perm _ _).nodup_iff.mpr ((foldl_joinRun _ _).2 ?_)
    rw [joinRuns_eq]
    exact (foldl_joinRun _ _).2 h.nodup
  · intro run hr
    rcases (hm run).mp hr with (hr | hr) | hr
    · exact h.joined run hr
    · obtain ⟨join, hj, rfl⟩ := mem_map.mp hr
      exact mem_map_of_mem (h.pending ((hp join).mpr (.inl hj)))
    · simpa using (mem_filter.mp hr).2
  · exact fun join hj => h.pending ((hp join).mpr (.inr hj))
  · intro join hj
    rcases h.queued join hj with hr | hn
    · exact .inl ((hm _).mpr (.inl (.inl hr)))
    · rcases (hp join).mp hn with hd | hl
      · exact .inl ((hm _).mpr (.inl (.inr (mem_map_of_mem hd))))
      · exact .inr hl

theorem Queued.foldl (moves : List QueueMove) {s : List String × List QueueJoin}
    (h : Queued joins s) : Queued joins (moves.foldl (Seats.replayMove (joins.map (·.run))) s) := by
  induction moves generalizing s with
  | nil => exact h
  | cons m moves ih => exact ih (h.replayMove m)

theorem replay_perm (hd : (joins.map (·.run)).Nodup) (moves : List QueueMove) :
    (replay joins moves).Perm (joins.map (·.run)) := by
  have hs := (sortJoins_perm joins).map (·.run)
  refine List.Perm.trans ?_ hs
  have h : Queued (sortJoins joins) ([], sortJoins joins) :=
    ⟨by simp, by simp, fun _ h => h, fun _ h => .inr h⟩
  replace h := h.foldl moves
  rw [perm_ext_iff_of_nodup _ (hs.nodup_iff.mpr hd)]
  · intro run
    rw [replay, joinRuns_eq, (foldl_joinRun _ _).1]
    constructor
    · rintro (hr | hr)
      · exact h.joined run hr
      · obtain ⟨join, hj, rfl⟩ := mem_map.mp hr
        exact mem_map_of_mem (h.pending hj)
    · intro hr
      obtain ⟨join, hj, rfl⟩ := mem_map.mp hr
      exact (h.queued join hj).imp id mem_map_of_mem
  · rw [replay, joinRuns_eq]
    exact (foldl_joinRun _ _).2 h.nodup

end

/-! ## Runs no move names -/

section
variable {keep : String → Bool}

theorem joinRun_filter (order : List String) (run : String) :
    (joinRun order run).filter keep = if keep run then joinRun (order.filter keep) run
      else order.filter keep := by
  unfold joinRun
  by_cases hr : run ∈ order <;> by_cases hk : keep run <;> simp [hr, hk]

theorem foldl_joinRun_filter (r order : List String) :
    (r.foldl joinRun order).filter keep = (r.filter keep).foldl joinRun (order.filter keep) := by
  induction r generalizing order with
  | nil => rfl
  | cons run r ih =>
    rw [foldl_cons, ih, joinRun_filter, filter_cons]
    split <;> rfl

theorem joinRuns_filter (order : List String) (joins : List QueueJoin) :
    (joinRuns order joins).filter keep =
      joinRuns (order.filter keep) (joins.filter (keep ·.run)) := by
  rw [joinRuns_eq, joinRuns_eq, foldl_joinRun_filter, filter_map]
  rfl

/-- An insertion next to a kept anchor is next to it among the kept runs. -/
theorem insertIdx_idxOf_filter {run a : String} (hr : keep run) (ha : keep a) (r : List String) :
    (r.insertIdx (r.idxOf a) run).filter keep =
      (r.filter keep).insertIdx ((r.filter keep).idxOf a) run ∧
      (r.insertIdx (r.idxOf a + 1) run).filter keep =
        (r.filter keep).insertIdx ((r.filter keep).idxOf a + 1) run := by
  induction r with
  | nil => simp [hr]
  | cons other r ih =>
    by_cases ho : other = a
    · subst ho
      simp [hr, ha]
    · by_cases hk : keep other
      · simp [idxOf_cons_ne _ ho, hk, ih.1, ih.2]
      · simp [idxOf_cons_ne _ ho, hk, ih.1, ih.2]

theorem applyMove_filter {movement : QueueMove} (h : ∀ run ∈ movement.named, keep run)
    (order : List String) :
    (applyMove order movement).filter keep = applyMove (order.filter keep) movement := by
  obtain ⟨run, placement, anchor, time⟩ := movement
  have hr : keep run := h run (by simp [QueueMove.named])
  unfold applyMove
  by_cases hm : run ∈ order
  · have hm' : run ∈ order.filter keep := mem_filter.mpr ⟨hm, hr⟩
    have he : (order.erase run).filter keep = (order.filter keep).erase run := by rw [erase_filter]
    cases anchor with
    | none => cases placement <;> simp [hm, hr, he]
    | some anchor =>
      have ha : keep anchor := h anchor (by simp [QueueMove.named])
      have hi := insertIdx_idxOf_filter hr ha (order.erase run)
      rw [he] at hi
      cases placement with
      | top | bottom => simp [hm, hr, he]
      | before =>
        by_cases hq : anchor ≠ run ∧ anchor ∈ order
        · simp [hm, hr, ha, hq.1, hq.2, hi.1]
        · simp only [hm, hm', mem_filter, ha, and_true, not_true_eq_false, if_false, hq]
      | after =>
        by_cases hq : anchor ≠ run ∧ anchor ∈ order
        · simp [hm, hr, ha, hq.1, hq.2, hi.2]
        · simp only [hm, hm', mem_filter, ha, and_true, not_true_eq_false, if_false, hq]
  · simp [hm]

theorem replayMove_filter {joins : List QueueJoin} {s : List String × List QueueJoin}
    {m : QueueMove} (hs : s.2.Pairwise (·.key ≤ ·.key)) (h : ∀ run ∈ m.named, keep run) :
    replayMove ((joins.filter (keep ·.run)).map (·.run))
      (s.1.filter keep, s.2.filter (keep ·.run)) m =
      ((replayMove (joins.map (·.run)) s m).1.filter keep,
        (replayMove (joins.map (·.run)) s m).2.filter (keep ·.run)) := by
  have hn : m.named.filter (· ∈ (joins.filter (keep ·.run)).map (·.run)) =
      (m.named.filter (· ∈ joins.map (·.run))).filter keep := by
    rw [filter_filter]
    refine filter_congr fun run hr => ?_
    have hk := h run hr
    simp only [mem_map, mem_filter, hk, Bool.true_and, decide_eq_decide]
    exact ⟨fun ⟨join, hj, heq⟩ => ⟨join, hj.1, heq⟩,
      fun ⟨join, hj, heq⟩ => ⟨join, ⟨hj, heq ▸ hk⟩, heq⟩⟩
  obtain ⟨ht, hd⟩ := takeWhile_due hs m.atUnixMs
  obtain ⟨ht', hd'⟩ := takeWhile_due (hs.filter (keep ·.run)) m.atUnixMs
  simp only [replayMove]
  rw [applyMove_filter h, foldl_joinRun_filter, joinRuns_filter, hn, ht, hd, ht', hd']
  simp only [filter_filter, Bool.and_comm]

theorem foldl_replayMove_filter {joins : List QueueJoin} (moves : List QueueMove)
    {s : List String × List QueueJoin} (hs : s.2.Pairwise (·.key ≤ ·.key))
    (h : ∀ movement ∈ moves, ∀ run ∈ movement.named, keep run) :
    moves.foldl (replayMove ((joins.filter (keep ·.run)).map (·.run)))
      (s.1.filter keep, s.2.filter (keep ·.run)) =
      ((moves.foldl (replayMove (joins.map (·.run))) s).1.filter keep,
        (moves.foldl (replayMove (joins.map (·.run))) s).2.filter (keep ·.run)) := by
  induction moves generalizing s with
  | nil => rfl
  | cons movement moves ih =>
    have hr := fun m hm => h m (mem_cons_of_mem _ hm)
    rw [foldl_cons, foldl_cons, replayMove_filter hs (h movement mem_cons_self)]
    exact ih (hs.sublist (dropWhile_sublist _)) hr

/-- Leaving out the joins of runs no move names leaves the other runs where they are. -/
theorem replay_filter (joins : List QueueJoin) {moves : List QueueMove}
    (h : ∀ m ∈ moves, ∀ run ∈ m.named, keep run) :
    replay (joins.filter (keep ·.run)) moves = (replay joins moves).filter keep := by
  simp only [replay]
  rw [sortJoins_filter, joinRuns_filter]
  have hf :=
    @foldl_replayMove_filter keep (sortJoins joins) moves ([], sortJoins joins)
      (pairwise_sortJoins joins) h
  rw [filter_nil] at hf
  rw [hf]

end

theorem replay_eq_of_perm {joins joins' : List QueueJoin} (h : joins.Perm joins')
    (moves : List QueueMove) :
    replay joins moves = replay joins' moves := by
  have hs : sortJoins joins = sortJoins joins' :=
    ((sortJoins_perm _).trans (h.trans (sortJoins_perm _).symm)).eq_of_pairwise
      (fun _ _ _ _ ha hb => QueueJoin.key_injective (le_antisymm ha hb)) (pairwise_sortJoins _)
        (pairwise_sortJoins _)
  rw [replay, hs, replay]

/-- The joins of live runs and of runs a move names order the live runs as all joins do. -/
theorem liveOrder_eq {reads joins : List QueueJoin} {moves : List QueueMove} {live : List String}
    (h : reads.Perm (joins.filter fun join => join.run ∈ live ∨
      join.run ∈ moves.flatMap (·.named))) :
    liveOrder reads moves live = liveOrder joins moves live := by
  have hn : ∀ m ∈ moves, ∀ run ∈ m.named,
      (fun run => decide (run ∈ live ∨ run ∈ moves.flatMap (·.named))) run = true := by
    intro m hm run hr
    simpa using .inr ⟨m, hm, hr⟩
  rw [liveOrder, replay_eq_of_perm h, replay_filter joins hn, filter_filter, liveOrder]
  refine filter_congr fun run _ => ?_
  by_cases hl : run ∈ live <;> simp [hl]

/-! ## The reads suffice -/

section
variable {runs : Table String MissionRun} {steps : List StepRun} {seat id run : String}
    {join : QueueJoin}

theorem missionRun_injective : Function.Injective missionRun :=
  fun _ _ h => String.append_right_inj _ |>.mp h

theorem joinOf_run (h : joinOf steps seat id = some join) : join.run = missionRun id := by
  obtain ⟨time, -, rfl⟩ := Option.map_eq_some_iff.mp h
  rfl

theorem nodup_joins {ids : List String} (h : ids.Nodup) :
    (ids.filterMap (joinOf steps seat)).Nodup :=
  h.filterMap fun _ _ _ ha hb => missionRun_injective ((joinOf_run ha).symm.trans (joinOf_run hb))

theorem probe_eq_some : probe runs steps seat run = some join ↔
    ∃ id, run = missionRun id ∧ id ∈ runs.rows.map (·.1) ∧ joinOf steps seat id = some join := by
  unfold probe missionRun
  simp only [Option.bind_eq_some_iff, stripPrefix_eq_some, mem_map, Prod.exists, exists_and_right,
    exists_eq_right, Table.mem_rows]

theorem liveIds_sublist : (liveIds runs steps seat).Sublist (runs.rows.map (·.1)) :=
  filter_sublist.map _

theorem probe_run (h : probe runs steps seat run = some join) : join.run = run := by
  obtain ⟨id, rfl, -, hj⟩ := probe_eq_some.mp h
  exact joinOf_run hj

theorem mem_seatQueueInputsOf_joins {moves : List QueueMove} :
    join ∈ (seatQueueInputsOf runs steps seat moves).joins ↔ join ∈ seatJoins runs steps seat ∧
      (join.run ∈ (liveIds runs steps seat).map missionRun ∨
        join.run ∈ moves.flatMap (·.named)) := by
  rw [seatQueueInputsOf, mem_append, mem_filterMap, mem_filterMap, seatJoins, mem_filterMap]
  constructor
  · rintro (⟨id, hi, hj⟩ | ⟨run, hr, hp⟩)
    · rw [joinOf_run hj]
      exact ⟨⟨id, liveIds_sublist.subset hi, hj⟩, .inl (mem_map_of_mem hi)⟩
    · obtain ⟨id, -, hi, hj⟩ := probe_eq_some.mp hp
      rw [probe_run hp]
      exact ⟨⟨id, hi, hj⟩, .inr (mem_filter.mp (OrdSet.mem_ofList.mp hr)).1⟩
  · rintro ⟨⟨id, hi, hj⟩, hr⟩
    rw [joinOf_run hj] at hr
    by_cases hl : missionRun id ∈ (liveIds runs steps seat).map missionRun
    · exact .inl ⟨id, (mem_map_of_injective missionRun_injective).mp hl, hj⟩
    · have hn : missionRun id ∈ moves.flatMap (·.named) := hr.resolve_left hl
      refine .inr ⟨missionRun id,
        OrdSet.mem_ofList.mpr (mem_filter.mpr ⟨hn, decide_eq_true hl⟩), ?_⟩
      exact probe_eq_some.mpr ⟨id, rfl, hi, hj⟩

theorem nodup_seatQueueInputsOf_joins (moves : List QueueMove) :
    (seatQueueInputsOf runs steps seat moves).joins.Nodup := by
  refine (nodup_joins (runs.nodup.sublist liveIds_sublist)).append ?_ ?_
  · exact (OrdSet.nodup _).filterMap fun _ _ _ ha hb => (probe_run ha).symm.trans (probe_run hb)
  · intro join hl hn
    obtain ⟨id, hi, hj⟩ := mem_filterMap.mp hl
    obtain ⟨run, hr, hp⟩ := mem_filterMap.mp hn
    have hm := of_decide_eq_true (mem_filter.mp (OrdSet.mem_ofList.mp hr)).2
    rw [← probe_run hp, joinOf_run hj] at hm
    exact hm (mem_map_of_mem hi)

/-- What `seat_queue_inputs_of_tx` reads orders the live runs as every join of the seat would. -/
theorem seatQueueInputsOf_liveOrder (runs : Table String MissionRun) (steps : List StepRun)
    (seat : String) (moves : List QueueMove) : (seatQueueInputsOf runs steps seat moves).liveOrder =
      liveOrder (seatJoins runs steps seat) moves ((liveIds runs steps seat).map missionRun) := by
  refine liveOrder_eq
    ((perm_ext_iff_of_nodup (nodup_seatQueueInputsOf_joins moves)
      ((nodup_joins runs.nodup).filter _)).mpr
    fun join => ?_)
  rw [mem_seatQueueInputsOf_joins, mem_filter, decide_eq_true_eq]
  rfl

end

theorem replay_keeps_named (joins : List QueueJoin) (moves : List QueueMove)
    (hdistinct : (joins.map (·.run)).Nodup) :
    ((replay joins moves).Perm (joins.map (·.run)) ∧ (replay joins moves).Nodup) ∧
      ∀ run, (∀ movement ∈ moves, movement.run ≠ run ∧ movement.anchor ≠ some run) →
        replay (joins.filter (·.run ≠ run)) moves = (replay joins moves).filter (· ≠ run) := by
  have hp := replay_perm hdistinct moves
  refine ⟨⟨hp, hp.nodup_iff.mpr hdistinct⟩, fun run hr => ?_⟩
  refine @replay_filter (· ≠ run) joins moves fun movement hm other ho => ?_
  obtain ⟨hn, ha⟩ := hr movement hm
  rcases mem_cons.mp ho with rfl | ho
  · simpa using hn
  · rw [Option.mem_toList] at ho
    simpa using fun heq : other = run => ha (heq ▸ ho)

theorem replay_four_runs : replay ([⟨"a", 1⟩, ⟨"b", 2⟩, ⟨"c", 3⟩, ⟨"d", 9⟩].filter (·.run ≠ "b"))
        [⟨"d", .before, some "c", 4⟩, ⟨"a", .bottom, none, 2⟩] =
          (replay [⟨"a", 1⟩, ⟨"b", 2⟩, ⟨"c", 3⟩, ⟨"d", 9⟩]
        [⟨"d", .before, some "c", 4⟩, ⟨"a", .bottom, none, 2⟩]).filter (· ≠ "b") :=
  (replay_keeps_named _ _ (by decide)).2 "b" (by decide)

end Smalltalk.Seats
