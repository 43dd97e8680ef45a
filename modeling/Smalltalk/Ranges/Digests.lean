import Smalltalk.Lib.Changes
import Smalltalk.Lib.Texts
import Smalltalk.Lib.Pages
import Smalltalk.Lib.Machine
import Smalltalk.Lib.Table
import Smalltalk.Projection.Accumulator

/-!
# Range digests over the retained claims

A claim falls in a leaf range by the first three hex digits of its id, and the leaf in a top
range. Every range keeps a count and the sum of its members' hashes. Triggers queue inserts and
deletes, an import pages over the claims from before, and folding moves both into the digests.
-/

namespace Smalltalk.Ranges

open List Option Table

open Projection (Accumulator accumulatorBytes)

def topRanges : Nat := 64

def leafRanges : Nat := 4096

def leavesPerTop : Nat := leafRanges / topRanges

def regular (id : Text) : Bool := id.length = 64 && id.all fun byte => (hexDigit byte).isSome

/-- The leaf range of a claim id. Irregular ids share leaf 4096. -/
def leaf (id : Text) : Nat :=
  if regular id then spell 16 ((id.take 3).map fun byte => (hexDigit byte).getD 0) else leafRanges

def ranges (id : Text) : List (Nat × Nat) := [(1, leaf id / leavesPerTop), (2, leaf id)]

structure Digest where
  count : Int
  accumulator : Accumulator
  deriving DecidableEq

def Digest.zero : Digest := ⟨0, Accumulator.zero⟩

/-- Rows of `claim_range_digests`, or a `Delta`, by level and range. -/
abbrev Digests := Table (Nat × Nat) Digest

def digestAt (digests : Digests) (key : Nat × Nat) : Digest := (digests.get? key).getD Digest.zero

section
variable (hash : Text → Accumulator)

def change (delta : Digests) (change : Change Text) : Digests :=
  (ranges change.member).foldl (fun delta key =>
    let old := digestAt delta key
    delta.put key ⟨old.count + (if change.removes then -1 else 1),
      old.accumulator.add (hash change.member) change.removes⟩)
    delta

def applyRange (digests : Digests) (row : (Nat × Nat) × Digest) : Option Digests :=
  let stored := digestAt digests row.1
  let count := stored.count + row.2.count
  if count < 0 then none
  else if count = 0 then some (digests.delete row.1)
  else some (digests.put row.1 ⟨count, stored.accumulator.add row.2.accumulator false⟩)

def applyDelta (digests delta : Digests) : Option Digests := delta.rows.foldlM applyRange digests

def applyChanges (digests : Digests) (changes : List (Change Text)) : Option Digests :=
  applyDelta digests (changes.foldl (change hash) ∅)

end

/-! ## The store -/

structure State where
  claims : Table Nat Text
  lastIndex : Nat
  /-- The tables and triggers, and the row of `meta`. -/
  installed : Bool
  importing : Option (Nat × Nat)
  /-- `claim_range_pending` in the order of its changes. -/
  pending : List (Change Text)
  digests : Digests

def State.empty : State := ⟨∅, 0, false, none, [], ∅⟩

def State.waits (s : State) (index : Nat) : Bool :=
  s.importing.any fun row => row.1 < index && index ≤ row.2

def State.waiting (s : State) : List (Nat × Text) := s.claims.rows.filter (s.waits ·.1)

def insertClaim (s : State) (id : Text) : Option State :=
  if s.claims.rows.any (·.2 = id) then none
  else
    some { s with
      claims := s.claims.insert (s.lastIndex + 1) id
      lastIndex := s.lastIndex + 1
      pending := if s.installed then s.pending ++ [⟨id, false⟩] else s.pending }

/-- A claim the import has not reached was never added. -/
def deleteClaim (s : State) (index : Nat) : State :=
  match s.claims.get? index with
  | none => s
  | some id =>
    { s with
      claims := s.claims.delete index
      pending := if s.installed && !s.waits index then s.pending ++ [⟨id, true⟩] else s.pending }

def install (s : State) : State :=
  if s.installed then s
  else
    { s with
      installed := true
      importing := (s.claims.rows.map (·.1)).max?.map fun bound => (0, bound) }

def importRows (s : State) (cursor bound : Nat) : List (Nat × Text) :=
  rowsAfter (some cursor) (sortByKey (s.claims.rows.filter (·.1 ≤ bound)))

/-- The cursor after a page, gone once the page reached the bound or was empty. -/
def nextImport (page : List (Nat × Text)) (bound : Nat) : Option (Nat × Nat) :=
  match page.getLast? with
  | some (through, _) => if through < bound then some (through, bound) else none
  | none => none

section
variable (hash : Text → Accumulator)

/-- `fold_page` with a page of `more + 1`. -/
def foldPage (s : State) (more : Nat) : Option State :=
  let pending := s.pending.take (more + 1)
  if pending ≠ [] then
    (applyChanges hash s.digests pending).map
      fun digests => { s with digests, pending := s.pending.drop (more + 1) }
  else match s.importing with
    | none => some s
    | some (cursor, bound) =>
      let claims := (importRows s cursor bound).take (more + 1)
      (applyChanges hash s.digests (claims.map fun row => ⟨row.2, false⟩)).map fun digests =>
        { s with digests, importing := nextImport claims bound }

inductive Label where
  | insert (id : Text)
  | delete (index : Nat)
  | install
  | fold (more : Nat)

def machine : Machine State Label where
  step s
    | .insert id => insertClaim s id
    | .delete index => some (deleteClaim s index)
    | .install => some (install s)
    | .fold more => if s.installed then foldPage hash s more else none

end

def State.complete (s : State) : Bool := s.installed && s.importing.isNone && s.pending.isEmpty

/-! ## Reading the digests -/

structure ClaimRange where
  range : Nat
  count : Int
  digest : Accumulator
  deriving DecidableEq

/-- `read_ranges`: the rows of a level from one range up to another, in order. -/
def readRanges (digests : Digests) (level start stop : Nat) : List ClaimRange :=
  (List.range' start (stop - start)).filterMap fun range =>
    (digests.get? (level, range)).map fun digest => ⟨range, digest.count, digest.accumulator⟩

def tops (s : State) : List ClaimRange := readRanges s.digests 1 0 (topRanges + 1)

def leaves (s : State) (top : Nat) : List ClaimRange :=
  readRanges s.digests 2 (top * leavesPerTop) ((top + 1) * leavesPerTop)

def whole (s : State) : Digest :=
  (tops s).foldl (fun sum top =>
    ⟨sum.count + top.count, sum.accumulator.add top.digest false⟩) Digest.zero

/-! ## Recomputed from the claims -/

section
variable (hash : Text → Accumulator)

def digestOf (ids : List Text) : Digest :=
  ⟨ids.length, ids.foldl (fun sum id => sum.add (hash id) false) Accumulator.zero⟩

def State.ids (s : State) : List Text := s.claims.rows.map (·.2)

/-- A range's row as the claims table gives it, none for an empty range. -/
def recount (s : State) (key : Nat × Nat) : Option Digest :=
  let ids := s.ids.filter (key ∈ ranges ·)
  if ids.isEmpty then none else some (digestOf hash ids)

/-! ## Values of digests -/

def Digest.value (digest : Digest) : ℤ × ZMod (256 ^ accumulatorBytes) :=
  (digest.count, digest.accumulator.value)

theorem Digest.value_injective : Function.Injective Digest.value := by
  rintro ⟨count, accumulator⟩ ⟨count', accumulator'⟩ h
  have hc : count = count' := congrArg Prod.fst h
  have hv : accumulator.value = accumulator'.value := congrArg Prod.snd h
  rw [hc, Accumulator.value_injective hv]

@[simp] theorem Digest.value_zero : Digest.zero.value = 0 := by
  simp [Digest.zero, Digest.value]

def valueAt (digests : Digests) (key : Nat × Nat) : ℤ × ZMod (256 ^ accumulatorBytes) :=
  (digestAt digests key).value

@[simp] theorem valueAt_empty (key : Nat × Nat) : valueAt ∅ key = 0 := Digest.value_zero

theorem valueAt_put (digests : Digests) (key : Nat × Nat) (d : Digest) (other : Nat × Nat) :
    valueAt (digests.put key d) other = if other = key then d.value else valueAt digests other := by
  unfold valueAt digestAt
  rw [get?_put]
  split <;> rfl

theorem valueAt_delete (digests : Digests) (key other : Nat × Nat) :
    valueAt (digests.delete key) other = if other = key then 0 else valueAt digests other := by
  unfold valueAt digestAt
  rw [get?_delete]
  split
  · exact Digest.value_zero
  · rfl

def weight (key : Nat × Nat) (id : Text) : ℤ × ZMod (256 ^ accumulatorBytes) :=
  if key ∈ ranges id then (1, (hash id).value) else 0

def unit (id : Text) : ℤ × ZMod (256 ^ accumulatorBytes) := (1, (hash id).value)

theorem Digest.value_add (count count' : ℤ) (sum other : Accumulator) :
    Digest.value ⟨count + count', sum.add other false⟩ =
      Digest.value ⟨count, sum⟩ + Digest.value ⟨count', other⟩ := by
  simp [Digest.value, Accumulator.value_add]

theorem value_digestOf (ids : List Text) :
    (digestOf hash ids).value = (ids.map (unit hash)).sum := by
  have hf : ∀ (count : ℤ) (sum : Accumulator),
      Digest.value ⟨count + ids.length, ids.foldl (fun sum id => sum.add (hash id) false) sum⟩ =
        Digest.value ⟨count, sum⟩ + (ids.map (unit hash)).sum := by
    induction ids with
    | nil => intro count sum; simp
    | cons id ids ih =>
      intro count sum
      have hc : count + ((id :: ids).length : ℤ) = count + 1 + ids.length := by
        rw [length_cons]
        push_cast
        ring
      rw [hc, foldl_cons, ih, Digest.value_add, map_cons, sum_cons, add_assoc]
      rfl
  have := hf 0 Accumulator.zero
  rw [zero_add] at this
  rw [digestOf, this]
  simp [Digest.value]

theorem sum_weight (key : Nat × Nat) (ids : List Text) :
    (ids.map (weight hash key)).sum = ((ids.filter (key ∈ ranges ·)).map (unit hash)).sum := by
  induction ids with
  | nil => rfl
  | cons id ids ih =>
    by_cases hk : key ∈ ranges id
    · rw [filter_cons_of_pos (by simpa using hk), map_cons, map_cons, sum_cons, sum_cons, ih,
        weight, if_pos hk, unit]
    · rw [filter_cons_of_neg (by simpa using hk), map_cons, sum_cons, ih, weight,
        if_neg hk, zero_add]

/-! ## Folding changes -/

theorem valueAt_change (d : Digests) (c : Change Text) (key : Nat × Nat) :
    valueAt (change hash d c) key =
      valueAt d key + (if c.removes then -weight hash key c.member
        else weight hash key c.member) := by
  have hp : ∀ (d : Digests) (key other : Nat × Nat), valueAt (d.put key
      ⟨(digestAt d key).count + (if c.removes then -1 else 1),
        (digestAt d key).accumulator.add (hash c.member) c.removes⟩) other =
      valueAt d other + if other = key then
      (if c.removes then -unit hash c.member else unit hash c.member) else 0 := by
    intro d key other
    rw [valueAt_put]
    by_cases hk : other = key
    · rw [if_pos hk, if_pos hk, hk]
      cases c.removes <;> simp [valueAt, Digest.value, unit, Accumulator.value_add,
        Accumulator.value_sub, sub_eq_add_neg]
    · rw [if_neg hk, if_neg hk, add_zero]
  rw [change, ranges, foldl_cons, foldl_cons, foldl_nil]
  simp only
  rw [hp, hp, weight]
  have hn : ((1 : Nat), leaf c.member / leavesPerTop) ≠ (2, leaf c.member) := by simp
  by_cases ht : key = (1, leaf c.member / leavesPerTop)
  · have hl : key ≠ (2, leaf c.member) := ht ▸ hn
    simp [ht, ranges, unit]
  · by_cases hl : key = (2, leaf c.member)
    · simp [hl, ranges, unit]
    · simp [ht, hl, ranges]

theorem valueAt_foldl_change (changes : List (Change Text)) (key : Nat × Nat) : ∀ d : Digests,
    valueAt (changes.foldl (change hash) d) key =
      valueAt d key + signedSum (weight hash key) changes := by
  induction changes with
  | nil => intro d; simp [signedSum]
  | cons c changes ih =>
    intro d
    rw [foldl_cons, ih, valueAt_change, signedSum_cons, add_assoc]

def Positive (digests : Digests) : Prop :=
  ∀ key digest, digests.get? key = some digest → 0 < digest.count

theorem applyRange_spec {digests : Digests} {row : (Nat × Nat) × Digest} (hp : Positive digests)
    (hc : 0 ≤ (valueAt digests row.1 + row.2.value).1)
    (hz : (valueAt digests row.1 + row.2.value).1 = 0 → valueAt digests row.1 + row.2.value = 0) :
    ∃ digests', applyRange digests row = some digests' ∧ Positive digests' ∧
      ∀ key, valueAt digests' key = if key = row.1 then valueAt digests row.1 + row.2.value
        else valueAt digests key := by
  have hf : (valueAt digests row.1 + row.2.value).1 =
    (digestAt digests row.1).count + row.2.count := rfl
  rw [hf] at hc hz
  unfold applyRange
  simp only
  rw [if_neg (by omega)]
  by_cases he : (digestAt digests row.1).count + row.2.count = 0
  · rw [if_pos he]
    refine ⟨_, rfl, fun key d hg => hp key d (of_get?_delete hg), fun key => ?_⟩
    rw [valueAt_delete, hz he]
  · rw [if_neg he]
    refine ⟨_, rfl, ?_, fun key => ?_⟩
    · intro key d hg
      rw [get?_put] at hg
      by_cases hk : key = row.1
      · rw [if_pos hk] at hg
        cases hg
        simp only
        omega
      · rw [if_neg hk] at hg
        exact hp key d hg
    · rw [valueAt_put, Digest.value_add]
      rfl

def rowAt (rows : List ((Nat × Nat) × Digest)) (key : Nat × Nat) :
    ℤ × ZMod (256 ^ accumulatorBytes) :=
  (((rows.find? (·.1 = key)).map (·.2)).getD Digest.zero).value

theorem foldlM_applyRange {rows : List ((Nat × Nat) × Digest)} :
    ∀ {digests : Digests}, Positive digests → (rows.map (·.1)).Nodup →
    (∀ key, 0 ≤ (valueAt digests key + rowAt rows key).1) →
    (∀ key, (valueAt digests key + rowAt rows key).1 = 0 →
      valueAt digests key + rowAt rows key = 0) →
    ∃ digests', rows.foldlM applyRange digests = some digests' ∧ Positive digests' ∧
      ∀ key, valueAt digests' key = valueAt digests key + rowAt rows key := by
  induction rows with
  | nil =>
    intro digests hp _ _ _
    refine ⟨digests, rfl, hp, fun key => ?_⟩
    rw [rowAt, find?_nil, map_none, getD_none, Digest.value_zero, add_zero]
  | cons row rows ih =>
    intro digests hp hn hc hz
    rw [map_cons, nodup_cons] at hn
    -- The first row is alone under its key, and the others do not see it.
    have hl : rowAt (row :: rows) row.1 = row.2.value := by simp [rowAt]
    have ht : ∀ key, key ≠ row.1 → rowAt (row :: rows) key = rowAt rows key := by
      intro key hk
      rw [rowAt, rowAt, find?_cons_of_neg (by simpa using fun h => hk h.symm)]
    have hg : rowAt rows row.1 = 0 := by
      have hrows : rows.find? (·.1 = row.1) = none := by
        rw [find?_eq_none]
        intro other ho heq
        exact hn.1 (List.mem_map.mpr ⟨other, ho, by simpa using heq⟩)
      simp [rowAt, hrows]
    have hc' := hc row.1
    have hz' := hz row.1
    rw [hl] at hc' hz'
    obtain ⟨digests₁, ha, hpositive₁, hv⟩ := applyRange_spec hp hc' hz'
    have hs : ∀ key, valueAt digests₁ key + rowAt rows key =
        valueAt digests key + rowAt (row :: rows) key := by
      intro key
      rw [hv]
      by_cases hk : key = row.1
      · rw [if_pos hk, hk, hl, hg, add_zero]
      · rw [if_neg hk, ht key hk]
    obtain ⟨digests', hf, hp', hv'⟩ :=
      ih hpositive₁ hn.2 (fun key => hs key ▸ hc key) fun key => hs key ▸ hz key
    refine ⟨digests', ?_, hp', fun key => (hv' key).trans (hs key)⟩
    rw [foldlM_cons, ha]
    exact hf

theorem rowAt_rows (digests : Digests) (key : Nat × Nat) :
    rowAt digests.rows key = valueAt digests key := rfl

/-- Changes that leave no count below zero, and no sum at count zero, are folded in. -/
theorem applyChanges_spec {digests : Digests} {changes : List (Change Text)} (hp : Positive digests)
    (hc : ∀ key, 0 ≤ (valueAt digests key + signedSum (weight hash key) changes).1)
    (hz : ∀ key, (valueAt digests key + signedSum (weight hash key) changes).1 = 0 →
      valueAt digests key + signedSum (weight hash key) changes = 0) :
    ∃ digests', applyChanges hash digests changes = some digests' ∧ Positive digests' ∧
      ∀ key, valueAt digests' key = valueAt digests key + signedSum (weight hash key) changes := by
  have hd : ∀ key, rowAt (changes.foldl (change hash) ∅).rows key =
      signedSum (weight hash key) changes := by
    intro key
    rw [rowAt_rows, valueAt_foldl_change, valueAt_empty, zero_add]
  obtain ⟨digests', hf, hp', hv⟩ := foldlM_applyRange hp (changes.foldl (change hash) ∅).nodup
    (fun key => hd key ▸ hc key) fun key => hd key ▸ hz key
  exact ⟨digests', hf, hp', fun key => hd key ▸ hv key⟩

end

end Smalltalk.Ranges
