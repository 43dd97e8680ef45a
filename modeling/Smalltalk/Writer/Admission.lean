import Mathlib
import Smalltalk.Lib.Machine
import Smalltalk.Lib.Trace

/-!
# Admission to the writer

Callers send foreground writes, foreground loans and fences through one channel. Background
loans go to a queue of their own; the first loan of an empty queue sends a notification through
the channel. The writer thread takes a message, or lends to a background loan instead. Pushes
may fall between any two of its steps.
-/

namespace Smalltalk.Writer

def foregroundTurns : Nat := 8

def writeBatchLimit : Nat := 256

inductive Kind where
  | write
  | loan
  | background
  | fence
  deriving DecidableEq

structure Request where
  kind : Kind
  number : Nat
  deriving DecidableEq

def Request.isBackground (r : Request) : Bool := r.kind = .background

def Request.isForeground (r : Request) : Bool := !r.isBackground

inductive Message where
  | batched (request : Request)
  | lend (request : Request)
  | fenceLend (through : Nat) (request : Request)
  | backgroundReady
  deriving DecidableEq

def Message.request? : Message → Option Request
  | batched r | lend r | fenceLend _ r => some r
  | backgroundReady => none

/-- Up to which background loan a fence waits. -/
def Message.through : Message → Nat
  | fenceLend through _ => through
  | _ => 0

def Message.isFence : Message → Bool
  | fenceLend _ _ => true
  | _ => false

inductive Event where
  | admitted (request : Request)
  | dispatched (request : Request)
  | collected (request : Request)
  deriving DecidableEq

def Event.admitted? : Event → Option Request
  | admitted r => some r
  | _ => none

def Event.taken? : Event → Option Request
  | dispatched r | collected r => some r
  | admitted _ => none

def admitted (log : List Event) : List Request := log.filterMap Event.admitted?

def taken (log : List Event) : List Request := log.filterMap Event.taken?

inductive Pc where
  /-- At the head of the loop of `Admission::next`. -/
  | fetch
  /-- `try_recv` came back empty. -/
  | empty
  | wait
  /-- A job in hand, before the background queue is asked. -/
  | holding (job : Message)
  /-- A job in hand that no background loan goes before. -/
  | refused (job : Message)
  | batch (writes : Nat)
  deriving DecidableEq

def Pc.hand : Pc → List Message
  | holding job | refused job => [job]
  | _ => []

structure BackgroundQueue where
  last : Nat := 0
  jobs : List (Nat × Request) := []
  deriving DecidableEq

structure State where
  channel : List Message := []
  background : BackgroundQueue := {}
  waking : Bool := false
  next : Option Message := none
  seen : Bool := false
  turns : Nat := 0
  pc : Pc := .fetch
  log : List Event := []
  deriving DecidableEq

namespace State

def waiting (s : State) : List Message := s.pc.hand ++ s.next.toList ++ s.channel

def send (s : State) (m : Message) : State := { s with channel := s.channel ++ [m] }

/-- `BackgroundQueue::push`; a notification is due when the queue was empty. -/
def push (s : State) (r : Request) : State :=
  { s with
    background :=
      { last := s.background.last + 1, jobs := s.background.jobs ++ [(s.background.last + 1, r)] }
    waking := s.background.jobs.isEmpty }

/-- What `lend_writer` sends for a fence: a plain loan before the first background loan. -/
def fenceMessage (s : State) (r : Request) : Message :=
  if s.background.last = 0 then .lend r else .fenceLend s.background.last r

/-- `send`, `lend_writer` and `enqueue_background` under the admission lock. -/
def enqueue (s : State) (kind : Kind) : State :=
  let r : Request := ⟨kind, (admitted s.log).length⟩
  let s : State := { s with log := s.log ++ [.admitted r] }
  match kind with
  | .write => s.send (.batched r)
  | .loan => s.send (.lend r)
  | .background => s.push r
  | .fence => s.send (s.fenceMessage r)

/-- The first background loan up to `through`, and the rest. -/
def pop (s : State) (through : WithTop Nat) : Option (Request × List (Nat × Request)) :=
  match s.background.jobs with
  | [] => none
  | (sequence, r) :: rest => if (sequence : WithTop Nat) ≤ through then some (r, rest) else none

def through (s : State) : Message → Option (WithTop Nat)
  | .fenceLend through _ => some through
  | _ => if foregroundTurns ≤ s.turns then some ⊤ else none

/-- A message the loop takes: a notification goes on to the next one. -/
def inspect (s : State) (m : Message) : State :=
  match m with
  | .backgroundReady => { s with seen := true, pc := .fetch }
  | job => { s with pc := .holding job }

/-- A batch starts with its first write; a loan is over when the loop goes on. -/
def dispatch (s : State) (m : Message) : State :=
  match m with
  | .batched r => { s with log := s.log ++ [.dispatched r], pc := .batch 1 }
  | .lend r | .fenceLend _ r => { s with log := s.log ++ [.dispatched r], pc := .fetch }
  | .backgroundReady => { s with pc := .fetch }

def lendBackground (s : State) (r : Request) (rest : List (Nat × Request)) : State :=
  { s with
    background := { s.background with jobs := rest }
    turns := 0
    pc := .fetch
    log := s.log ++ [.dispatched r] }

def recv (s : State) : Option State :=
  match s.channel with
  | [] => none
  | m :: rest => some ({ s with channel := rest }.inspect m)

/-- One step of the writer thread: of `Admission::next`, or of a batch that asks for one more
write. -/
def work (s : State) : Option State :=
  match s.pc with
  | .fetch =>
    match s.next with
    | some m => some ({ s with next := none }.inspect m)
    | none => if s.seen ∧ s.channel = [] then some { s with pc := .empty } else s.recv
  | .empty =>
    match s.pop ⊤ with
    | some (r, rest) => some (s.lendBackground r rest)
    | none => some { s with pc := .wait }
  | .wait => s.recv
  | .holding job =>
    if s.seen then
      match (s.through job).bind s.pop with
      | some (r, rest) => some { s.lendBackground r rest with next := some job }
      | none => some { s with pc := .refused job }
    else some (s.dispatch job)
  | .refused job =>
    some ({ s with turns := if s.background.jobs.isEmpty then 0 else s.turns + 1 }.dispatch job)
  | .batch writes =>
    if writes < writeBatchLimit then
      match s.channel with
      | [] => some { s with pc := .fetch }
      | .batched r :: rest =>
        some { s with channel := rest, log := s.log ++ [.collected r], pc := .batch (writes + 1) }
      | m :: rest => some { s with channel := rest, next := some m, pc := .fetch }
    else none

end State

inductive Label where
  | enqueue (kind : Kind)
  /-- The caller that pushed onto an empty queue sends its notification. -/
  | wake
  | work
  /-- A batch that takes no more writes: its window is over, it is full, or it failed. -/
  | stop
  deriving DecidableEq

def State.step (s : State) : Label → Option State
  | .enqueue kind => if s.waking then none else some (s.enqueue kind)
  | .wake => if s.waking then some { s.send .backgroundReady with waking := false } else none
  | .work => s.work
  | .stop =>
    match s.pc with
    | .batch _ => some { s with pc := .fetch }
    | _ => none

def writer : Machine State Label where
  step := State.step

end Smalltalk.Writer
