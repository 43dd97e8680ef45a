import Smalltalk.Writer.Admission

/-!
# Batched writes

The writer thread runs the writes of one batch in one transaction, each in a savepoint of its
own, and answers their callers after the commit. Any statement of SQLite may fail, and it may
roll the whole transaction back while a write runs.
-/

namespace Smalltalk.Writer

open List Option

variable {Db : Type}

inductive Outcome where
  | ok
  | error (text : String)
  | panic (text : String)
  deriving DecidableEq

structure Write (Db : Type) where
  caller : Nat
  /-- What the job returns and the database it leaves in the transaction; `none` when SQLite
  rolled the transaction back meanwhile. -/
  run : Db → Outcome × Option Db
  savepointFault : Option String := none
  releaseFault : Option String := none
  rollbackFault : Option String := none

inductive Answer where
  | success
  | error (text : String)
  | failed (text : String)
  | panic (text : String)
  deriving DecidableEq

structure Hooks (Db : Type) where
  prepare : Db → Except String Db
  finalize : Db → Except String Db

structure Batch (Db : Type) where
  session : Option Db
  failure : Option String
  taken : List (Write Db × Option Outcome) := []

inductive Entry (Db : Type) where
  | loan (effect : Db → Db)
  | batch (committed : Bool) (answers : List (Write Db × Answer))

inductive BatchEvent where
  | took (caller : Nat)
  | decided (callers : List Nat)
  | answered (caller : Nat) (answer : Answer)
  deriving DecidableEq

structure Thread (Db : Type) where
  committed : Db
  batch : Option (Batch Db) := none
  answering : List (Write Db × Answer) := []
  history : List (Entry Db) := []
  log : List BatchEvent := []

/-- `batched` after its write is answered. -/
def answerOf (outcome : Option Outcome) (committed : Except String Unit) : Answer :=
  match outcome, committed with
  | some (.panic text), _ => .panic text
  | some .ok, .ok () => .success
  | some (.error text), .ok () => .error text
  | _, .error text => .failed text
  | none, .ok () => .failed "the writer answered a write it did not run"

/-- `ROLLBACK TO batched_write` after an error or a panic, `RELEASE batched_write` after success. -/
def closeSavepoint (w : Write Db) (saved : Db) : Outcome × Option Db → Except String Db
  | (.ok, some db) =>
    match w.releaseFault with
    | none => .ok db
    | some text => .error text
  | (_, some _) =>
    match w.rollbackFault with
    | none => .ok saved
    | some text => .error text
  | (_, none) => .error "no such savepoint: batched_write"

namespace Batch

def begin (hooks : Hooks Db) (db : Db) (fault : Option String) : Batch Db :=
  match fault with
  | some text => { session := none, failure := some text }
  | none =>
    match hooks.prepare db with
    | .ok db => { session := some db, failure := none }
    | .error text => { session := some db, failure := some text }

/-- One turn of the loop: a batch that has failed drops the write without running it. -/
def take (batch : Batch Db) (w : Write Db) : Batch Db :=
  match batch.session, batch.failure with
  | some db, none =>
    match w.savepointFault with
    | some text => { batch with failure := some text, taken := batch.taken ++ [(w, none)] }
    | none =>
      let ran := w.run db
      match closeSavepoint w db ran with
      | .ok next => { batch with session := some next, taken := batch.taken ++ [(w, some ran.1)] }
      | .error text =>
        { session := ran.2, failure := some text, taken := batch.taken ++ [(w, some ran.1)] }
  | _, _ => { batch with taken := batch.taken ++ [(w, none)] }

/-- More writes are taken while nothing failed and the batch is not full. -/
def takesMore (batch : Batch Db) : Bool :=
  batch.failure.isNone ∧ batch.taken.length < writeBatchLimit

def commit (hooks : Hooks Db) (batch : Batch Db) (fault : Option String) : Except String Db :=
  match batch.session, batch.failure with
  | some db, none =>
    match hooks.finalize db with
    | .error text => .error text
    | .ok db =>
      match fault with
      | none => .ok db
      | some text => .error text
  | _, some text => .error text
  | none, none => .error "a batch without a transaction failed to begin"

def answers (batch : Batch Db) (committed : Except String Unit) : List (Write Db × Answer) :=
  batch.taken.map fun (w, outcome) => (w, answerOf outcome committed)

end Batch

inductive Turn (Db : Type) where
  | first (write : Write Db) (beginFault : Option String)
  | next (write : Write Db)
  | finish (commitFault : Option String)
  | answer
  | loan (effect : Db → Db)

namespace Thread

def step (hooks : Hooks Db) (s : Thread Db) : Turn Db → Option (Thread Db)
  | .first w fault =>
    match s.batch, s.answering with
    | none, [] =>
      some { s with batch := some ((Batch.begin hooks s.committed fault).take w),
                    log := s.log ++ [.took w.caller] }
    | _, _ => none
  | .next w =>
    match s.batch with
    | some batch =>
      if batch.takesMore then
        some { s with batch := some (batch.take w), log := s.log ++ [.took w.caller] } else none
    | none => none
  | .finish fault =>
    match s.batch with
    | some batch =>
      let result := batch.commit hooks fault
      let answers := batch.answers (result.map fun _ => ())
      some { s with
        committed := match result with
          | .ok db => db
          | .error _ => s.committed
        batch := none
        answering := answers
        history := s.history ++ [.batch result.isOk answers]
        log := s.log ++ [.decided (batch.taken.map (·.1.caller))] }
    | none => none
  | .answer =>
    match s.answering with
    | (w, answer) :: rest =>
      some { s with answering := rest, log := s.log ++ [.answered w.caller answer] }
    | [] => none
  | .loan effect =>
    match s.batch, s.answering with
    | none, [] =>
      some { s with committed := effect s.committed, history := s.history ++ [.loan effect] }
    | _, _ => none

end Thread

def writeQueue (hooks : Hooks Db) : Machine (Thread Db) (Turn Db) where
  step := Thread.step hooks

/-! ## Serial execution -/

def Write.apply (w : Write Db) (db : Db) : Db := (w.run db).2.getD db

def applySuccesses (answers : List (Write Db × Answer)) (db : Db) : Db :=
  answers.foldl (fun db (w, answer) => if answer = .success then w.apply db else db) db

def attempt (hook : Db → Except String Db) (db : Db) : Db :=
  match hook db with
  | .ok next => next
  | .error _ => db

def Entry.serial (hooks : Hooks Db) (db : Db) : Entry Db → Db
  | .loan effect => effect db
  | .batch committed answers =>
    if committed then attempt hooks.finalize (applySuccesses answers (attempt hooks.prepare db))
    else db

def serial (hooks : Hooks Db) (history : List (Entry Db)) (db : Db) : Db :=
  history.foldl (Entry.serial hooks) db

def Hooks.none : Hooks Db := { prepare := .ok, finalize := .ok }

def Entry.answers : Entry Db → List (Write Db × Answer)
  | .loan _ => []
  | .batch _ answers => answers

def Entry.plain (db : Db) : Entry Db → Db
  | .loan effect => effect db
  | .batch _ answers => applySuccesses answers db

def BatchEvent.took? : BatchEvent → Option Nat
  | .took caller => some caller
  | _ => .none

def BatchEvent.told? : BatchEvent → Option (Nat × Answer)
  | .answered caller answer => some (caller, answer)
  | _ => .none

def AnsweredAfterDecision (log : List BatchEvent) : Prop :=
  Always (fun before event => ∀ caller answer, event = .answered caller answer →
    ∃ callers, .decided callers ∈ before ∧ caller ∈ callers) log

def Thread.openCallers (s : Thread Db) : List Nat :=
  (s.batch.map (·.taken.map (·.1.caller))).getD []

structure RunsSerially (hooks : Hooks Db) (start : Db) (s : Thread Db) : Prop where
  database : s.committed = serial hooks s.history start
  told : s.log.filterMap BatchEvent.told? ++ s.answering.map (fun p => (p.1.caller, p.2)) =
    (s.history.flatMap Entry.answers).map fun p => (p.1.caller, p.2)
  order : s.log.filterMap BatchEvent.took? =
    (s.history.flatMap Entry.answers).map (·.1.caller) ++ s.openCallers
  rolledBack : ∀ answers, .batch false answers ∈ s.history → ∀ p ∈ answers, p.2 ≠ .success
  decided : AnsweredAfterDecision s.log

/-! ## A batch is a serial execution -/

theorem applySuccesses_concat (answers : List (Write Db × Answer)) (w : Write Db)
    (answer : Answer) (db : Db) :
    applySuccesses (answers ++ [(w, answer)]) db =
      if answer = .success then w.apply (applySuccesses answers db)
      else applySuccesses answers db := by
  simp [applySuccesses]

theorem applySuccesses_of_none {answers : List (Write Db × Answer)}
    (h : ∀ p ∈ answers, p.2 ≠ .success) (db : Db) :
    applySuccesses answers db = db := by
  induction answers with
  | nil => rfl
  | cons p answers ih =>
    have hp := h p mem_cons_self
    have hr := ih fun q hq => h q (mem_cons_of_mem _ hq)
    simpa [applySuccesses, hp] using hr

def Batch.Mirrors (hooks : Hooks Db) (db : Db) (batch : Batch Db) : Prop :=
  batch.failure = .none → batch.session =
    some (applySuccesses (batch.answers (.ok ())) (attempt hooks.prepare db))

variable {db next : Db} {hooks : Hooks Db} {batch : Batch Db} {f : Option String} {s t : Thread Db}

theorem closeSavepoint_eq_ok {w : Write Db} {saved : Db} {ran : Outcome × Option Db}
    (h : closeSavepoint w saved ran = .ok next) :
    (ran.1 = .ok ∧ ran.2 = some next) ∨ (ran.1 ≠ .ok ∧ next = saved) := by
  obtain ⟨o, after⟩ := ran
  cases o <;> cases after <;> simp only [closeSavepoint] at h
  case ok.some =>
    split at h <;> simp_all
  case error.some =>
    split at h <;> simp_all
  case panic.some =>
    split at h <;> simp_all
  all_goals cases h

theorem Batch.mirrors_begin (hooks : Hooks Db) (db : Db) (f : Option String) :
    (Batch.begin hooks db f).Mirrors hooks db := by
  intro hf
  cases f with
  | some text => simp [Batch.begin] at hf
  | none =>
    cases hp : hooks.prepare db with
    | error text => simp [Batch.begin, hp] at hf
    | ok next => simp [Batch.begin, hp, Batch.answers, applySuccesses, attempt]

theorem Batch.Mirrors.take (h : batch.Mirrors hooks db) (w : Write Db) :
    (batch.take w).Mirrors hooks db := by
  intro hf
  have ho : batch.failure = .none := by
    by_contra hl
    obtain ⟨text, ht⟩ := ne_none_iff_exists'.mp hl
    cases hs : batch.session <;> simp [Batch.take, hs, ht] at hf
  have hs := h ho
  have hanswers : ∀ o, Batch.answers { batch with taken := batch.taken ++ [(w, o)] } (.ok ()) =
      batch.answers (.ok ()) ++ [(w, answerOf o (.ok ()))] := by simp [Batch.answers]
  simp only [Batch.take, hs, ho] at hf ⊢
  cases hv : w.savepointFault with
  | some text => simp [hv] at hf
  | none =>
    simp only [hv] at hf ⊢
    cases hc : closeSavepoint w (applySuccesses (batch.answers (.ok ())) (attempt hooks.prepare db))
        (w.run (applySuccesses (batch.answers (.ok ())) (attempt hooks.prepare db))) with
    | error text => simp [hc] at hf
    | ok next =>
      simp only [some.injEq]
      change next = applySuccesses (Batch.answers { batch with taken := _ } (.ok ())) _
      rw [hanswers, applySuccesses_concat]
      rcases closeSavepoint_eq_ok hc with ⟨hk, hn⟩ | ⟨he, hn⟩
      · simp [hk, answerOf, Write.apply, hn]
      · have ha :
            answerOf (some
              (w.run (applySuccesses (batch.answers (.ok ())) (attempt hooks.prepare db))).1)
            (.ok ()) ≠ .success := by
          cases hrun :
              (w.run (applySuccesses (batch.answers (.ok ())) (attempt hooks.prepare db))).1 with
          | ok => exact absurd hrun he
          | _ => simp [answerOf]
        rw [if_neg ha, hn]

theorem Batch.callers_take (batch : Batch Db) (w : Write Db) :
    (batch.take w).taken.map (·.1.caller) = batch.taken.map (·.1.caller) ++ [w.caller] := by
  unfold Batch.take
  split
  · next db _ _ =>
    split
    · simp
    · cases hc : closeSavepoint w db (w.run db) <;> simp [hc]
  · simp

/-- A batch that is rolled back tells nobody of success. -/
theorem Batch.answers_of_error (batch : Batch Db) (text : String) :
    ∀ p ∈ batch.answers (.error text), p.2 ≠ .success := by
  intro p hp
  obtain ⟨⟨w, outcome⟩, -, rfl⟩ := List.mem_map.mp hp
  rcases outcome with _ | _ | _ | _ <;> simp [answerOf]

theorem Batch.callers_answers (batch : Batch Db) (committed : Except String Unit) :
    (batch.answers committed).map (·.1.caller) = batch.taken.map (·.1.caller) := by
  simp [Batch.answers, Function.comp_def]

theorem Batch.commit_eq_ok (h : batch.commit hooks f = .ok next) :
    ∃ db, batch.session = some db ∧ batch.failure = .none ∧ hooks.finalize db = .ok next := by
  unfold Batch.commit at h
  split at h
  · next db hs hl =>
    split at h
    · cases h
    · next final hf =>
      split at h
      · cases h
        exact ⟨db, hs, hl, hf⟩
      · cases h
  · cases h
  · cases h

/-- The commit of a batch is the serial execution of its successes. -/
theorem Batch.Mirrors.commit (h : batch.Mirrors hooks db) (hc : batch.commit hooks f = .ok next) :
    next = Entry.serial hooks db (.batch true (batch.answers (.ok ()))) := by
  obtain ⟨current, hs, hl, hf⟩ := Batch.commit_eq_ok hc
  have hm := h hl
  rw [hs, some.injEq] at hm
  change next = attempt hooks.finalize
    (applySuccesses (batch.answers (.ok ())) (attempt hooks.prepare db))
  rw [← hm]
  simp [attempt, hf]

structure Refines (hooks : Hooks Db) (start : Db) (s : Thread Db) :
    Prop extends RunsSerially hooks start s where
  mirrors : ∀ batch, s.batch = some batch → batch.Mirrors hooks s.committed ∧ s.answering = []
  pending : ∀ p ∈ s.answering, ∃ callers, .decided callers ∈ s.log ∧ p.1.caller ∈ callers

theorem serial_concat (hooks : Hooks Db) (log : List (Entry Db)) (entry : Entry Db) (db : Db) :
    serial hooks (log ++ [entry]) db = Entry.serial hooks (serial hooks log db) entry := by
  simp [serial]

@[simp] theorem told?_took (c : Nat) : BatchEvent.told? (.took c) = .none := rfl

@[simp] theorem told?_decided (callers : List Nat) : BatchEvent.told? (.decided callers) = .none :=
  rfl

@[simp] theorem took?_decided (callers : List Nat) : BatchEvent.took? (.decided callers) = .none :=
  rfl

@[simp] theorem took?_answered (c : Nat) (answer : Answer) :
    BatchEvent.took? (.answered c answer) = .none := rfl

section
variable {log : List BatchEvent} (h : AnsweredAfterDecision log)
include h

theorem AnsweredAfterDecision.took (c : Nat) : AnsweredAfterDecision (log ++ [.took c]) :=
  h.concat fun _ _ he => by cases he

theorem AnsweredAfterDecision.decided (callers : List Nat) :
    AnsweredAfterDecision (log ++ [.decided callers]) :=
  h.concat fun _ _ he => by cases he

end

theorem Refines.start (hooks : Hooks Db) (db : Db) : Refines hooks db { committed := db } where
  database := rfl
  told := rfl
  order := rfl
  rolledBack := by simp
  decided := always_nil
  mirrors := by simp
  pending := by simp

section
variable {start : Db} (h : Refines hooks start s)
include h

theorem Refines.took (batch : Batch Db) (w : Write Db) (hm : batch.Mirrors hooks s.committed)
    (ha : s.answering = []) (hc : s.openCallers = batch.taken.map (·.1.caller)) :
    Refines hooks start { s with
      batch := some (batch.take w)
      log := s.log ++ [.took w.caller] } where
  database := h.database
  told := by simpa [filterMap_cons] using h.told
  order := by
    have ho := h.order
    rw [hc] at ho
    simp only [filterMap_append, ho, Thread.openCallers, map_some, getD_some, Batch.callers_take,
      append_assoc]
    rfl
  rolledBack := h.rolledBack
  decided := h.decided.took w.caller
  mirrors := by
    intro batch' hb'
    cases hb'
    exact ⟨hm.take w, ha⟩
  pending := by simp [ha]

theorem Refines.finish (hs : s.step hooks (.finish f) = some t) : Refines hooks start t := by
  cases hb : s.batch with
  | none => simp [Thread.step, hb] at hs
  | some batch =>
    obtain ⟨hm, hanswering⟩ := h.mirrors batch hb
    have ht := h.told
    have ho := h.order
    simp only [hanswering, map_nil, append_nil] at ht
    simp only [Thread.openCallers, hb, map_some, getD_some] at ho
    simp only [Thread.step, hb, some.injEq] at hs
    subst hs
    refine ⟨⟨?_, ?_, ?_, ?_, h.decided.decided _⟩, by simp, ?_⟩
    · rw [serial_concat, ← h.database]
      cases hc : batch.commit hooks f with
      | ok next => exact hm.commit hc
      | error text => rfl
    · simp [ht, Entry.answers]
    · simp [ho, Entry.answers, Batch.callers_answers, Thread.openCallers]
    · intro answers he p hp
      rcases mem_append.mp he with hold | hn
      · exact h.rolledBack answers hold p hp
      · cases hc : batch.commit hooks f with
        | ok next => simp [hc, Except.isOk, Except.toBool] at hn
        | error text =>
          have ha : answers = batch.answers (.error text) := by
            simpa [hc, Except.isOk, Except.toBool, Except.map] using hn
          exact batch.answers_of_error text p (ha ▸ hp)
    · intro p hp
      refine ⟨batch.taken.map (·.1.caller), by simp, ?_⟩
      rw [← batch.callers_answers]
      exact List.mem_map_of_mem hp

theorem Refines.answer (hs : s.step hooks .answer = some t) : Refines hooks start t := by
  cases ha : s.answering with
  | nil => simp [Thread.step, ha] at hs
  | cons p rest =>
    obtain ⟨w, answer⟩ := p
    simp only [Thread.step, ha, some.injEq] at hs
    subst hs
    have hi : s.batch = none := by
      by_contra ho
      obtain ⟨batch, hb⟩ := ne_none_iff_exists'.mp ho
      exact absurd (h.mirrors batch hb).2 (by simp [ha])
    obtain ⟨callers, hd, hc⟩ := h.pending (w, answer) (by simp [ha])
    refine ⟨⟨h.database, ?_, ?_, h.rolledBack, h.decided.concat ?_⟩, ?_, ?_⟩
    · simpa [ha, BatchEvent.told?] using h.told
    · simpa [Thread.openCallers, filterMap_cons] using h.order
    · intro c told he
      cases he
      exact ⟨callers, hd, hc⟩
    · simp [hi]
    · intro p hp
      obtain ⟨callers, hm, hp⟩ := h.pending p (by simp [ha, hp])
      exact ⟨callers, by simp [hm], hp⟩

end

theorem Refines.step {start : Db} {turn : Turn Db} (h : Refines hooks start s)
    (hs : s.step hooks turn = some t) : Refines hooks start t := by
  cases turn with
  | first w f =>
    simp only [Thread.step] at hs
    split at hs
    · next hb ha =>
      cases hs
      refine h.took _ w (Batch.mirrors_begin hooks s.committed f) ha ?_
      have he : (Batch.begin hooks s.committed f).taken = [] := by
        unfold Batch.begin
        split
        · rfl
        · split <;> rfl
      simp [Thread.openCallers, hb, he]
    · cases hs
  | next w =>
    simp only [Thread.step] at hs
    split at hs
    · next batch hb =>
      split at hs
      · cases hs
        obtain ⟨hm, ha⟩ := h.mirrors batch hb
        exact h.took batch w hm ha (by simp [Thread.openCallers, hb])
      · cases hs
    · cases hs
  | finish f => exact h.finish hs
  | answer => exact h.answer hs
  | loan e =>
    simp only [Thread.step] at hs
    split at hs
    · next hb ha =>
      cases hs
      refine ⟨⟨?_, ?_, ?_, ?_, h.decided⟩, fun batch ho => absurd ho (by simp [hb]), h.pending⟩
      · rw [serial_concat, ← h.database]
        rfl
      · simpa [Entry.answers] using h.told
      · simpa [Entry.answers, Thread.openCallers] using h.order
      · simpa using h.rolledBack
    · cases hs

theorem refines_run {turns : List (Turn Db)}
    (hr : (writeQueue hooks).run { committed := db } turns = some s) : Refines hooks db s :=
  Machine.Keeps.run (m := writeQueue hooks) (fun _ _ _ _ h hs => h.step hs) (fun _ _ => trivial)
    (Refines.start hooks db) hr

/-- Without hooks a batch that was rolled back and one that was committed are both the writes that
were told of success. -/
theorem serial_none {hi : List (Entry Db)} (start : Db)
    (h : ∀ answers, .batch false answers ∈ hi → ∀ p ∈ answers, p.2 ≠ .success) :
    serial Hooks.none hi start = hi.foldl Entry.plain start := by
  induction hi generalizing start with
  | nil => rfl
  | cons entry hi ih =>
    have he : Entry.serial Hooks.none start entry = Entry.plain start entry := by
      cases entry with
      | loan e => rfl
      | batch committed answers =>
        cases committed with
        | true => rfl
        | false => exact (applySuccesses_of_none (h answers mem_cons_self) start).symm
    have hr := ih (Entry.plain start entry) fun answers hm => h answers (mem_cons_of_mem _ hm)
    simpa [serial, he] using hr

/-- The batched writes of every run are a serial execution. -/
theorem batched_writes_serial (hooks : Hooks Db) (db : Db) (turns : List (Turn Db)) (s : Thread Db)
    (hrun : (writeQueue hooks).run { committed := db } turns = some s) :
    RunsSerially hooks db s ∧
    (hooks = Hooks.none → s.committed = s.history.foldl Entry.plain db) := by
  have hr := refines_run hrun
  refine ⟨hr.toRunsSerially, ?_⟩
  rintro rfl
  rw [hr.database, serial_none db hr.rolledBack]

def storing (number : Nat) (outcome : Outcome) : Write (List Nat) where
  caller := number
  run db := (outcome, some (db ++ [number]))

def sampleTurns : List (Turn (List Nat)) :=
  [.first (storing 1 .ok) none, .next (storing 2 (.panic "")), .next (storing 3 (.error "")),
    .next (storing 4 .ok), .finish none, .answer, .answer, .answer, .answer, .loan (· ++ [5]),
    .first (storing 6 .ok) none, .finish (some ""), .answer]

theorem sampleTurns_serial :
    ∃ s, (writeQueue Hooks.none).run { committed := [] } sampleTurns = some s ∧
    s.committed = [1, 4, 5] ∧
    s.log.filterMap BatchEvent.told? =
      [(1, .success), (2, .panic ""), (3, .error ""), (4, .success), (6, .failed "")] ∧
    RunsSerially Hooks.none [] s ∧ s.committed = s.history.foldl Entry.plain [] := by
  refine ⟨_, rfl, by decide, by decide, ?_⟩
  have hs := batched_writes_serial Hooks.none [] sampleTurns _ rfl
  exact ⟨hs.1, hs.2 rfl⟩

end Smalltalk.Writer
