import Mathlib.Data.List.MinMax
import Mathlib.Data.Prod.Lex
import Mathlib.Data.String.Basic
import Smalltalk.Ivm.Claims
import Smalltalk.Lib.Machine
import Smalltalk.Lib.Pages

/-!
# Register views

A register view maps a claim and its canonical key to contributions, one value and rank for
each register, and the head of a register is the one with the greatest rank. Local appends
apply a claim at once; replicated claims are applied when a page of them is projected. A
retraction takes a claim's contributions out, and an accepted repair does so in the views
that replace originals.
-/

namespace Smalltalk.Ivm

structure Contribution (ρ : Type) where
  key : String
  register : String
  value : String
  rank : ρ

inductive RepairPolicy
  | retainOriginal
  | replaceOriginal
  deriving DecidableEq

structure RegisterView (ρ : Type) where
  name : String
  kinds : List String
  repairPolicy : RepairPolicy
  maxContributions : Nat
  contributions : Claim → ClaimKey → Option (List (Contribution ρ))

def RegisterView.reads {ρ : Type} (view : RegisterView ρ) (kind : String) : Bool :=
  view.kinds.contains kind

structure Head (ρ : Type) where
  value : String
  claimId : String
  rank : ρ
  deriving DecidableEq

abbrev Slot := String × String

structure Registers (ρ : Type) where
  contributions : Table (Slot × String) (String × ρ)
  heads : Table Slot (Head ρ)

structure ViewRow (ρ : Type) where
  ready : Bool
  registers : Registers ρ

section
variable {ρ : Type} [LinearOrder ρ]

/-- `ORDER BY rank DESC, claim_id DESC`. -/
def Head.order (head : Head ρ) : ρ ×ₗ String := toLex (head.rank, head.claimId)

def headOf (row : (Slot × String) × String × ρ) : Head ρ :=
  { value := row.2.1, claimId := row.1.2, rank := row.2.2 }

def next (contributions : Table (Slot × String) (String × ρ)) (slot : Slot) : Option (Head ρ) :=
  ((contributions.rows.filter fun row => row.1.1 = slot).map headOf).argmax Head.order

/-- Repeated writes to a register in one claim: the last one counts. -/
def lastWrites (contributions : List (Contribution ρ)) : Table Slot (String × ρ) :=
  Table.putAll ∅ (contributions.map fun c => ((c.key, c.register), c.value, c.rank))

def slotsOf (contributions : Table (Slot × String) (String × ρ)) (id : String) : List Slot :=
  (contributions.rows.filter fun row => row.1.2 = id).map (·.1.1)

def removeOld (contributions : Table (Slot × String) (String × ρ)) (old : Option Claim) :
    Table (Slot × String) (String × ρ) :=
  contributions.deleteWhere fun row _ => old.any (·.id = row.2)

def reheadSlot (contributions : Table (Slot × String) (String × ρ)) (heads : Table Slot (Head ρ))
    (slot : Slot) :
    Table Slot (Head ρ) :=
  if next contributions slot = heads.get? slot then heads
  else
    match next contributions slot with
    | some head => heads.put slot head
    | none => heads.delete slot

def rehead (contributions : Table (Slot × String) (String × ρ)) (heads : Table Slot (Head ρ))
    (slots : List Slot) :
    Table Slot (Head ρ) := slots.foldl (reheadSlot contributions) heads

/-- The end of a change: the heads, and the bound on the affected keys. -/
def settleHeads (view : RegisterView ρ) (registers : Registers ρ)
    (contributions : Table (Slot × String) (String × ρ)) (slots : List Slot) :
    Option (Registers ρ) :=
  if view.maxContributions * 2 < (slots.map (·.1)).dedup.length then none
  else some { contributions := contributions, heads := rehead contributions registers.heads slots }

/-- The savepoint of `change_selected` for one view. The result is `none` on an
error of the operator. -/
def changeRegisters (view : RegisterView ρ) (registers : Registers ρ) (old : Option Claim)
    (new : Option (Claim × ClaimKey)) : Option (Registers ρ) :=
  let oldSlots := (old.map fun old => slotsOf registers.contributions old.id).getD []
  if view.maxContributions < oldSlots.length then none
  else
    let remaining := removeOld registers.contributions old
    match new.filter (fun new => view.reads new.1.kind) with
    | none => settleHeads view registers remaining oldSlots
    | some (claim, key) =>
      (view.contributions claim key).bind fun contributions =>
        if view.maxContributions < contributions.length || claim.id.isEmpty ||
            contributions.any (fun c => c.key.isEmpty || c.register.isEmpty) then none
        else
          let writes := lastWrites contributions
          settleHeads view registers
            (remaining.putAll (writes.rows.map fun w => ((w.1, claim.id), w.2)))
            (oldSlots ++ writes.rows.map (·.1))

/-- One view in the loop of `change_selected`: a view that reads neither claim
or is not ready is passed over, and an error of its operator fences it. -/
def changeRow (old : Option Claim) (new : Option (Claim × ClaimKey))
    (v : RegisterView ρ × ViewRow ρ) :
    RegisterView ρ × ViewRow ρ :=
  if (old.any (v.1.reads ·.kind) || new.any (v.1.reads ·.1.kind)) && v.2.ready then
    match changeRegisters v.1 v.2.registers old new with
    | some registers => (v.1, { v.2 with registers := registers })
    | none => (v.1, { v.2 with ready := false })
  else v

inductive Input
  | admitted (claim : Claim) (key : ClaimKey)
  | retracted (old : Claim)
  | repaired (old new : Claim) (key : ClaimKey)
  | fenced (view : String)

def respond (v : RegisterView ρ × ViewRow ρ) : Input → RegisterView ρ × ViewRow ρ
  | .admitted claim key => changeRow none (some (claim, key)) v
  | .retracted old => changeRow (some old) none v
  | .repaired old new key =>
    match v.1.repairPolicy with
    | .replaceOriginal => changeRow (some old) (some (new, key)) v
    | .retainOriginal => changeRow none (some (new, key)) v
  | .fenced view => if v.1.name = view then (v.1, { v.2 with ready := false }) else v

end

/-! ## The runtime -/

/-- What the views share: the claims, `sqlite_sequence` and the cut. The last two fields are no
tables; they list the claims that were retracted, and repaired without coming back. -/
structure Shared where
  claims : Table Nat Claim
  allocated : Nat
  admitted : Nat
  projected : Nat
  retracted : List String
  repaired : List String

structure Runtime (ρ : Type) where
  shared : Shared
  views : List (RegisterView ρ × ViewRow ρ)

def currentIndex (s : Shared) : Nat :=
  s.claims.rows.foldl (fun index row => max index row.1) s.allocated

def Shared.publishCut (s : Shared) (admitted projected : Nat) : Option Shared :=
  if projected ≤ admitted ∧ s.admitted ≤ admitted ∧ s.projected ≤ projected then
    some { s with admitted := admitted, projected := projected }
  else none

def Shared.insertClaim (ledger : Ledger) (s : Shared) (index : Nat) (claim : Claim) :
    Option Shared :=
  if index ≤ currentIndex s || hasId s.claims claim.id || (ledger.batches claim.batchId).isNone then
  none
  else some { s with claims := s.claims.insert index claim, allocated := index }

def appendClaimTx (ledger : Ledger) (s : Shared) (index : Nat) (claim : Claim) :
    Option (Shared × List Input) :=
  (s.insertClaim ledger index claim).bind fun t =>
    (claimKey ledger t.claims index claim).bind fun key =>
      (t.publishCut (currentIndex t) (if t.projected + 1 = index then index else t.projected)).map
          fun u =>
        (u, [.admitted claim key])

def projectionChunkClaims : Nat := 128

def chunk (s : Shared) (through : Nat) : List (Nat × Claim) :=
  (sortByKey s.claims.rows).filter fun row => s.projected < row.1 && row.1 ≤ through

def projectIncremental (ledger : Ledger) (s : Shared) (through : Nat) :
    Option (Shared × List Input) :=
  if through ≤ s.projected then some (s, [])
  else if projectionChunkClaims < (chunk s through).length then none
  else
    ((chunk s through).mapM fun row =>
      (claimKey ledger s.claims row.1 row.2).map (Input.admitted row.2)).bind
      fun inputs => (s.publishCut (currentIndex s) through).map fun t => (t, inputs)

def record (s : Shared) (id : String) : Option (Nat × Claim) := s.claims.rows.find? (·.2.id = id)

def retract (s : Shared) (id : String) : Option (Shared × List Input) :=
  (record s id).map fun old => ({ s with retracted := id :: s.retracted }, [.retracted old.2])

def applyRepairTx (ledger : Ledger) (s : Shared) (repaired replacement : String) :
    Option (Shared × List Input) :=
  (record s repaired).bind fun old =>
    (record s replacement).bind fun new =>
      (claimKey ledger s.claims new.1 new.2).map fun key =>
        ({ s with
          retracted := s.retracted.filter (· ≠ replacement)
          repaired :=
            (repaired :: s.repaired).filter (· ≠ replacement) }, [.repaired old.2 new.2 key])

inductive Event
  | append (index : Nat) (claim : Claim)
  | receive (index : Nat) (claim : Claim)
  | project (through : Nat)
  | retract (id : String)
  | repair (repaired replacement : String)
  | fence (view : String)

def act (ledger : Ledger) (s : Shared) : Event → Option (Shared × List Input)
  | .append index claim => appendClaimTx ledger s index claim
  | .receive index claim => (s.insertClaim ledger index claim).map fun t => (t, [])
  | .project through => projectIncremental ledger s through
  | .retract id => retract s id
  | .repair repaired replacement => applyRepairTx ledger s repaired replacement
  | .fence view => some (s, [.fenced view])

section
variable {ρ : Type} [LinearOrder ρ]

/-- A transaction that fails is rolled back. -/
def runtime (ledger : Ledger) : Machine (Runtime ρ) Event where
  step s event :=
    match act ledger s.shared event with
    | none => some s
    | some (shared, inputs) =>
      some { shared := shared, views := s.views.map fun v => inputs.foldl respond v }

def freshViews (views : List (RegisterView ρ)) : Runtime ρ where
  shared :=
    { claims := ∅, allocated := 0, admitted := 0, projected := 0, retracted := [], repaired := [] }
  views :=
    views.map fun view => (view, { ready := true, registers := { contributions := ∅, heads := ∅ } })

/-- `readiness`: the view is ready, and the cut has every allocated index. -/
def isReady (s : Runtime ρ) (v : RegisterView ρ × ViewRow ρ) : Bool :=
  v.2.ready && s.shared.admitted = s.shared.projected && s.shared.admitted = currentIndex s.shared

/-! ## Recomputation -/

def withdrawn (s : Shared) (view : RegisterView ρ) (id : String) : Bool :=
  s.retracted.contains id || (view.repairPolicy = .replaceOriginal && s.repaired.contains id)

def contributionAt (ledger : Ledger) (claims : Table Nat Claim) (view : RegisterView ρ)
    (row : Nat × Claim) (slot : Slot) : Option (Head ρ) :=
  if view.reads row.2.kind then
    (claimKey ledger claims row.1 row.2).bind fun key =>
      (view.contributions row.2 key).bind fun contributions =>
        ((lastWrites contributions).get? slot).map fun write =>
          { value := write.1, claimId := row.2.id, rank := write.2 }
  else none

/-- The greatest contribution of the held claims that were not withdrawn. -/
def recomputed (ledger : Ledger) (s : Shared) (view : RegisterView ρ) (slot : Slot) :
    Option (Head ρ) :=
  (s.claims.rows.filterMap fun row =>
    if withdrawn s view row.2.id then none
    else contributionAt ledger s.claims view row slot).argmax Head.order

def settled (s : Runtime ρ) : Event → Bool
  | .retract id => (record s.shared id).all (·.1 ≤ s.shared.projected)
  | .repair repaired _ =>
    s.views.all (·.1.repairPolicy = .retainOriginal) ||
      (record s.shared repaired).all (·.1 ≤ s.shared.projected)
  | _ => true

end

end Smalltalk.Ivm
