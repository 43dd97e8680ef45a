import Mathlib
import Smalltalk.Ivm.Claims
import Smalltalk.Lib.Machine
import Smalltalk.Lib.Pages

/-!
# The asynchronous claim source of the maintained views

Triggers on `claims` capture every inserted claim in `ivm_async_queue` within the quotas of
the runtime, and make the source unavailable on whatever they cannot capture. A page takes
claims from the front of the queue, gives each to the views that read its kind, and publishes
the index it has reached.
-/

namespace Smalltalk.Ivm

inductive Outcome (σ : Type)
  | applied (output : σ)
  | refused
  | broken

structure View (σ : Type) where
  name : String
  fingerprint : String
  kinds : List String
  empty : σ
  operate : σ → Nat → Claim → ClaimKey → Outcome σ

def View.reads {σ : Type} (view : View σ) (kind : String) : Bool := view.kinds.contains kind

/-- The rows of a view in `ivm_views` and `ivm_async_views`, and its output. -/
structure Progress (σ : Type) where
  fingerprint : String
  epoch : Nat
  ready : Bool
  complete : Bool
  output : σ

def Progress.fence {σ : Type} (progress : Progress σ) : Progress σ :=
  { progress with ready := false, complete := progress.complete && !progress.ready }

structure Limits where
  queueRows : Nat
  queueBytes : Nat
  pageRows : Nat
  pageBytes : Nat
  legacyRankRows : Nat

structure State (σ : Type) where
  claims : Table Nat Claim
  queue : Table Nat (String × Nat)
  retainedRows : Nat
  retainedBytes : Nat
  available : Bool
  error : Option String
  epoch : Nat
  admitted : Nat
  projected : Nat
  views : List (View σ × Progress σ)

section
variable {σ : Type}

def fresh (epoch : Nat) (views : List (View σ)) : State σ where
  claims := ∅
  queue := ∅
  retainedRows := 0
  retainedBytes := 0
  available := true
  error := none
  epoch := epoch
  admitted := 0
  projected := 0
  views := views.map fun view =>
    (view, { fingerprint := view.fingerprint, epoch := epoch, ready := true, complete := true,
             output := view.empty })

def State.stop (s : State σ) (error : String) : State σ :=
  { s with available := false, error := some error }

def State.fenceWhere (s : State σ) (p : View σ → Bool) : State σ :=
  { s with views := s.views.map fun v => if p v.1 then (v.1, v.2.fence) else v }

/-! ## Claims and their triggers -/

/-- The first statement of `ivm_async_admit`. -/
def stopBehind (s : State σ) (index : Nat) : State σ :=
  if index ≤ s.projected then
    s.stop "async input inserted behind certified prefix; explicit recovery required"
  else s

/-- The insertion into the queue, which selects nothing over the quotas. -/
def capture (limits : Limits) (s : State σ) (index : Nat) (claim : Claim) : Option (State σ) :=
  if s.available && s.retainedRows < limits.queueRows &&
    claim.bytes + s.retainedBytes ≤ limits.queueBytes then
    if (s.queue.get? index).isSome || s.queue.rows.any (·.2.1 = claim.id) then none
    else some { s with queue := s.queue.insert index (claim.id, claim.bytes) }
  else some s

/-- The trigger's statements after the insertion: the quota's error, the counters and the
frontier. -/
def charge (s : State σ) (index : Nat) (claim : Claim) : State σ :=
  let queued := (s.queue.get? index).isSome
  let stopped :=
    if s.available && !queued then
    s.stop "async queue quota exceeded; explicit recovery required" else s
  { stopped with
    retainedRows := if queued then s.retainedRows + 1 else s.retainedRows
    retainedBytes := if queued then s.retainedBytes + claim.bytes else s.retainedBytes
    admitted := max s.admitted index }

/-- Both columns of `claims` are unique. -/
def insertClaim (limits : Limits) (s : State σ) (index : Nat) (claim : Claim) : Option (State σ) :=
  if (s.claims.get? index).isSome || hasId s.claims claim.id then none
  else (capture limits (stopBehind { s with claims := s.claims.insert index claim } index)
    index claim).map
    fun t => charge t index claim

/-- The triggers compare the old row with the new one, `ivm_claim_source_update` without looking at
`origin`. They do not fire on an update that changes no column. -/
def updateClaim (s : State σ) (index : Nat) (newIndex : Nat) (new : Claim) : Option (State σ) :=
  match s.claims.get? index with
  | none => some s
  | some old =>
    if index = newIndex ∧ old = new then some s
    else
      let others := s.claims.delete index
      if (others.get? newIndex).isSome || hasId others new.id then none
      else
        let updated := { s with claims := others.insert newIndex new }
        let fenced :=
          if index ≠ newIndex ∨ { old with origin := new.origin } ≠ new then
          updated.fenceWhere fun _ => true
          else updated
        some (fenced.stop "async source mutation requires explicit recovery")

def deleteClaim (s : State σ) (index : Nat) : State σ :=
  match s.claims.get? index with
  | none => s
  | some _ =>
    ({ s with claims := s.claims.delete index }.fenceWhere fun _ => true).stop
      "async source deletion requires explicit recovery"

/-- `publish_cut` with the trigger `ivm_async_prefix_mutation`. -/
def publishCut (s : State σ) (admitted projected : Nat) : Option (State σ) :=
  if projected ≤ admitted ∧ s.admitted ≤ admitted ∧ s.projected ≤ projected then
    let published := { s with admitted := admitted, projected := projected }
    if s.queue.rows.any (·.1 ≤ projected) then
      some (published.stop
        "async prefix publication skipped captured input; explicit recovery required")
    else some published
  else none

/-! ## Pages -/

/-- `recorded_or_bounded_legacy`. The query counts no further than the limit. -/
def recordedOrBoundedLegacy (ledger : Ledger) (limits : Limits) (claims : Table Nat Claim)
    (index : Nat) (claim : Claim) : Bool :=
  (ledger.recorded claim.id).isSome ||
    min (earlier claims claim.batchId index) (limits.legacyRankRows + 1) ≤ limits.legacyRankRows

def viewReady (epoch : Nat) (v : View σ × Progress σ) : Bool :=
  v.2.fingerprint = v.1.fingerprint && v.2.epoch = epoch && v.2.ready

/-- One view in the loop of `change_selected`. A view that is not ready is deferred; an operator's
own error fences the view; an error of the database ends the page. -/
def change (epoch : Nat) (index : Nat) (claim : Claim) (key : ClaimKey) (v : View σ × Progress σ) :
    Option (View σ × Progress σ) :=
  if v.1.reads claim.kind && viewReady epoch v then
    match v.1.operate v.2.output index claim key with
    | .applied output => some (v.1, { v.2 with output := output })
    | .refused => some (v.1, v.2.fence)
    | .broken => none
  else some v

/-- One queued claim in the loop of `page_tx`. -/
def dispatch (ledger : Ledger) (limits : Limits) (s : State σ) (entry : Nat × String × Nat) :
    Option (State σ) :=
  match s.claims.rows.find? (·.2.id = entry.2.1) with
  | none => none
  | some (index, claim) =>
    if index ≠ entry.1 then none
    else if s.views.any (·.1.reads claim.kind) then
      if recordedOrBoundedLegacy ledger limits s.claims index claim then
        (claimKey ledger s.claims index claim).bind fun key =>
          (s.views.mapM (change s.epoch index claim key)).map fun views => { s with views := views }
      else some (s.fenceWhere (·.reads claim.kind))
    else some s

def fill (limits : Limits) : Nat → Nat → List (Nat × String × Nat) → List (Nat × String × Nat)
  | _, _, [] => []
  | rows, bytes, entry :: rest =>
    if rows = limits.pageRows ∨ limits.pageBytes < bytes + entry.2.2 then []
    else entry :: fill limits (rows + 1) (bytes + entry.2.2) rest

def candidates (limits : Limits) (s : State σ) : List (Nat × String × Nat) :=
  (sortByKey s.queue.rows).take (limits.pageRows + 1)

/-- The index a page reaches. Only a page that empties the queue goes to the end of what was
admitted. -/
def reached (s : State σ) (page candidates : List (Nat × String × Nat)) : Nat :=
  if page.length = candidates.length then s.admitted else (page.getLast?.map (·.1)).getD s.projected

def drain (s : State σ) (page : List (Nat × String × Nat)) (through : Nat) : State σ :=
  if page.isEmpty then s
  else
    { s with
      queue := s.queue.deleteWhere fun index _ => index ≤ through
      retainedRows := s.retainedRows - page.length
      retainedBytes := s.retainedBytes - (page.map (·.2.2)).sum }

def pageTx (ledger : Ledger) (limits : Limits) (s : State σ) : Option (State σ) :=
  if !s.available then some s
  else
    let candidates := candidates limits s
    let page := fill limits 0 0 candidates
    if page.any (·.1 ≤ s.projected) then none
    else if page.isEmpty && !candidates.isEmpty then
      some (s.stop "async input exceeds page byte bound; explicit recovery required")
    else (page.foldlM (dispatch ledger limits) s).bind fun t =>
      let through := reached s page candidates
      publishCut (drain t page through) s.admitted through

/-! ## Runs -/

inductive Label
  | insertClaim (index : Nat) (claim : Claim)
  | updateClaim (index newIndex : Nat) (claim : Claim)
  | deleteClaim (index : Nat)
  | fence (view : String)
  /-- An append publishes the allocated index, also where no claim has it. -/
  | publish (admitted : Nat)
  | page

/-- A statement or a page that fails is rolled back. -/
def source (ledger : Ledger) (limits : Limits) : Machine (State σ) Label where
  step s
    | .insertClaim index claim => some ((insertClaim limits s index claim).getD s)
    | .updateClaim index newIndex claim => some ((updateClaim s index newIndex claim).getD s)
    | .deleteClaim index => some (deleteClaim s index)
    | .fence view => some (s.fenceWhere (·.name = view))
    | .publish admitted => some ((publishCut s admitted s.projected).getD s)
    | .page => some ((pageTx ledger limits s).getD s)

def appliedPrefix (s : State σ) (v : View σ × Progress σ) : Option Nat :=
  if v.2.fingerprint = v.1.fingerprint ∧ v.2.epoch = s.epoch ∧ v.2.complete then
  some s.projected else none

/-! ## What a view stands for -/

def View.apply (view : View σ) (ledger : Ledger) (claims : Table Nat Claim) (output : σ)
    (row : Nat × Claim) :
    Option σ :=
  if view.reads row.2.kind then
    (claimKey ledger claims row.1 row.2).bind fun key =>
      match view.operate output row.1 row.2 key with
      | .applied output => some output
      | _ => none
  else some output

def claimsThrough (claims : Table Nat Claim) (index : Nat) : List (Nat × Claim) :=
  (sortByKey claims.rows).filter (·.1 ≤ index)

def View.replay (view : View σ) (ledger : Ledger) (claims : Table Nat Claim) (index : Nat) :
    Option σ :=
  (claimsThrough claims index).foldlM (view.apply ledger claims) view.empty

end

end Smalltalk.Ivm
