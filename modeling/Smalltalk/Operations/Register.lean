import Smalltalk.Lib.Least

/-!
# Operations and their registration

The claims of one operation each carry a request digest. `expectedOperation` reduces all of
them to one row: the least digest, a stored claim that speaks for it, and whether the digests
differ. `registerOperation` keeps the row as stored claims come in.
-/

namespace Smalltalk.Operations

open List Option

structure OperationClaim (δ ι : Type) where
  id : ι
  digest : δ
  deriving DecidableEq

inductive OperationState where
  | active
  | conflict
  deriving DecidableEq

structure Row (δ ι : Type) where
  digest : δ
  canonical : ι
  state : OperationState
  deriving DecidableEq

def stateOf (conflict : Bool) : OperationState := if conflict then .conflict else .active

structure OperationMetadata (δ ι : Type) where
  minimum : Option δ
  canonical : Option ι
  fallback : Option ι
  conflict : Bool

variable {δ ι : Type} [LinearOrder δ] [LinearOrder ι]

/-! ## The reduction -/

namespace OperationMetadata

def empty : OperationMetadata δ ι := ⟨none, none, none, false⟩

def keep (kept : Option ι) (claim : ι) (stored : Bool) : Option ι :=
  if stored && kept.all (claim < ·) then some claim else kept

/-- Add one request digest and claim, distinguishing stored claims from tombstones. -/
def includeClaim (m : OperationMetadata δ ι) (digest : δ) (claim : ι) (stored : Bool) :
    OperationMetadata δ ι :=
  let m :=
    match m.minimum with
    | none => { m with minimum := some digest, canonical := if stored then some claim else none }
    | some minimum =>
      if digest < minimum then
        { m with minimum := some digest, canonical := if stored then some claim else none,
                 conflict := true }
      else if minimum < digest then { m with conflict := true }
      else { m with canonical := keep m.canonical claim stored }
  { m with fallback := keep m.fallback claim stored }

/-- No row when only tombstones remain. -/
def row (m : OperationMetadata δ ι) : Option (Row δ ι) :=
  match m.fallback, m.minimum with
  | some fallback, some minimum => some ⟨minimum, m.canonical.getD fallback, stateOf m.conflict⟩
  | _, _ => none

end OperationMetadata

/-- The claims the reduction reads: the stored ones, then the tombstones of
claims that are not stored. -/
def operationClaims (stored dropped : List (OperationClaim δ ι)) :
    List (OperationClaim δ ι × Bool) :=
  stored.map (·, true) ++ (dropped.filter fun c => stored.all (·.id ≠ c.id)).map (·, false)

def reduce (claims : List (OperationClaim δ ι × Bool)) : OperationMetadata δ ι :=
  claims.foldl (fun m c => OperationMetadata.includeClaim m c.1.digest c.1.id c.2) .empty

def expectedOperation (stored dropped : List (OperationClaim δ ι)) : Option (Row δ ι) :=
  (reduce (operationClaims stored dropped)).row

/-! ## Registration -/

/-- The tombstones of the operation, by digest and claim. -/
def checkpointedOperation (dropped : List (OperationClaim δ ι)) : List (OperationClaim δ ι) :=
  dropped.insertionSort fun a b => a.digest < b.digest ∨ a.digest = b.digest ∧ a.id ≤ b.id

/-- Register one stored claim; also whether the claim takes effect. -/
def registerOperation (dropped : List (OperationClaim δ ι)) (current : Option (Row δ ι))
    (claim : OperationClaim δ ι) :
    Option (Row δ ι) × Bool :=
  match current with
  | none =>
    let dropped := checkpointedOperation dropped
    let conflict := dropped.any (·.digest ≠ claim.digest)
    let storedDigest := ((dropped.head?.map (·.digest)).filter (· < claim.digest)).getD claim.digest
    (some ⟨storedDigest, claim.id, stateOf conflict⟩, dropped.isEmpty)
  | some row =>
    if row.digest = claim.digest then
      (some (if claim.id < row.canonical then { row with canonical := claim.id } else row),
        row.state = .active && row.canonical = claim.id)
    else (some { row with state := .conflict }, false)

def registered (dropped order : List (OperationClaim δ ι)) : Option (Row δ ι) :=
  order.foldl (fun row claim => (registerOperation dropped row claim).1) none

/-! ## What the reduction finds -/

structure Reduces (m : OperationMetadata δ ι) (claims : List (OperationClaim δ ι × Bool)) :
    Prop where
  minimum : Least (fun d => ∃ c ∈ claims, c.1.digest = d) m.minimum
  canonical :
    Least (fun i => ∃ c ∈ claims, c.2 = true ∧ some c.1.digest = m.minimum ∧ c.1.id = i) m.canonical
  fallback : Least (fun i => ∃ c ∈ claims, c.2 = true ∧ c.1.id = i) m.fallback
  conflict : m.conflict = true ↔ ∃ c ∈ claims, some c.1.digest ≠ m.minimum

section
variable {m : OperationMetadata δ ι} {claims : List (OperationClaim δ ι × Bool)} {P : ι → Prop}
    {k : Option ι}

theorem reduces_empty : Reduces (.empty : OperationMetadata δ ι) [] where
  minimum := by simp [Least, OperationMetadata.empty]
  canonical := by simp [Least, OperationMetadata.empty]
  fallback := by simp [Least, OperationMetadata.empty]
  conflict := by simp [OperationMetadata.empty]

theorem least_keep (h : Least P k) (claim : ι) (s : Bool) :
    Least (fun i => (s = true ∧ claim = i) ∨ P i) (OperationMetadata.keep k claim s) := by
  unfold OperationMetadata.keep
  cases s with
  | false => exact h.congr (by simp)
  | true =>
    cases k with
    | none => exact (h.insert_le nofun).congr (by simp)
    | some b =>
      by_cases hb : claim < b
      · rw [if_pos (by simpa using hb)]
        exact (h.insert_le (by simpa using hb.le)).congr (by simp)
      · rw [if_neg (by simpa using hb)]
        exact (h.insert_ge (not_lt.mp hb)).congr (by simp)

theorem Reduces.includeClaim (h : Reduces m claims) (c : OperationClaim δ ι) (s : Bool) :
    Reduces (m.includeClaim c.digest c.id s) ((c, s) :: claims) := by
  have hf : Least (fun i => ∃ d ∈ (c, s) :: claims, d.2 = true ∧ d.1.id = i)
      (OperationMetadata.keep m.fallback c.id s) := (least_keep h.fallback c.id s).congr (by simp)
  cases hm : m.minimum with
  | none =>
    -- nothing came before
    have hclaims : claims = [] := by
      have hl := h.minimum
      rw [hm] at hl
      exact eq_nil_iff_forall_not_mem.mpr fun d hd => hl d.1.digest ⟨d, hd, rfl⟩
    subst hclaims
    refine ⟨?_, ?_, ?_, ?_⟩
    · simp [OperationMetadata.includeClaim, hm, Least]
    · cases s <;> simp [OperationMetadata.includeClaim, hm, Least]
    · simpa only [OperationMetadata.includeClaim, hm] using hf
    · have hn : m.conflict = false := by simpa using h.conflict
      simp [OperationMetadata.includeClaim, hm, hn]
  | some least =>
    have hl := h.minimum
    have hc := h.canonical
    have hn := h.conflict
    rw [hm] at hl hc hn
    obtain ⟨⟨d, hd, -⟩, hle⟩ := id hl
    rcases lt_trichotomy c.digest least with ht | heq | hg
    · have hne : ∀ e ∈ claims, e.1.digest ≠ c.digest := fun e he heq =>
        absurd (hle _ ⟨e, he, heq⟩) (not_le.mpr ht)
      refine ⟨?_, ?_, ?_, ?_⟩ <;> simp only [OperationMetadata.includeClaim, hm, ht, if_true]
      · exact (hl.insert_le (by simpa using ht.le)).congr (by simp)
      · have hleast : Least (fun i => s = true ∧ c.id = i) (if s = true then some c.id
          else none) := by
          cases s <;> simp [Least]
        refine hleast.congr fun i => ?_
        simp only [exists_mem_cons_iff, some.injEq, true_and]
        exact (or_iff_left fun ⟨e, he, _, hdigest, _⟩ => hne e he hdigest).symm
      · exact hf
      · exact iff_of_true trivial ⟨d, mem_cons_of_mem _ hd, by simpa using hne d hd⟩
    · subst heq
      refine ⟨?_, ?_, ?_, ?_⟩ <;>
        simp only [OperationMetadata.includeClaim, hm, lt_irrefl, if_false]
      · exact (hl.insert_ge (le_refl c.digest)).congr (by simp)
      · exact (least_keep hc c.id s).congr (by simp)
      · exact hf
      · rw [hn]
        simp
    · refine ⟨?_, ?_, ?_, ?_⟩ <;>
        simp only [OperationMetadata.includeClaim, hm, not_lt_of_gt hg, hg, if_false, if_true]
      · exact (hl.insert_ge hg.le).congr (by simp)
      · refine hc.congr fun i => ?_
        simp [hg.ne']
      · exact hf
      · exact iff_of_true trivial ⟨_, mem_cons_self, by simpa using hg.ne'⟩

theorem Reduces.congr {claims' : List (OperationClaim δ ι × Bool)} (h : Reduces m claims)
    (hm : ∀ c, c ∈ claims ↔ c ∈ claims') : Reduces m claims' where
  minimum := h.minimum.congr (by simp [hm])
  canonical := h.canonical.congr (by simp [hm])
  fallback := h.fallback.congr (by simp [hm])
  conflict := by simp [h.conflict, hm]

theorem Reduces.foldl (more : List (OperationClaim δ ι × Bool)) :
    ∀ {m : OperationMetadata δ ι} {claims}, Reduces m claims →
      Reduces (more.foldl (fun m c => OperationMetadata.includeClaim m c.1.digest c.1.id c.2) m)
        (more.reverse ++ claims) := by
  induction more with
  | nil => exact fun h => h
  | cons c more ih =>
    intro m claims h
    rw [reverse_cons, append_assoc]
    exact ih (h.includeClaim c.1 c.2)

theorem reduces_reduce (claims : List (OperationClaim δ ι × Bool)) :
    Reduces (reduce claims) claims :=
  (reduces_empty.foldl claims).congr (by simp)

end

/-! ## What registration keeps -/

structure Registers (dropped : List (OperationClaim δ ι)) (first : OperationClaim δ ι)
    (rest : List (OperationClaim δ ι)) (row : Row δ ι) : Prop where
  digest : Least (fun d => first.digest = d ∨ ∃ c ∈ dropped, c.digest = d) (some row.digest)
  canonical : Least (fun i => first.id = i ∨ ∃ c ∈ rest, c.digest = row.digest ∧ c.id = i)
    (some row.canonical)
  state : row.state = .conflict ↔ (∃ c ∈ dropped, c.digest ≠ first.digest) ∨
    ∃ c ∈ rest, c.digest ≠ row.digest

section
variable {dropped r : List (OperationClaim δ ι)} {f : OperationClaim δ ι} {row : Row δ ι}

theorem least_head_checkpointedOperation (dropped : List (OperationClaim δ ι)) :
    Least (fun d => ∃ c ∈ dropped, c.digest = d)
      ((checkpointedOperation dropped).head?.map (·.digest)) := by
  let before : OperationClaim δ ι → OperationClaim δ ι → Prop :=
    fun a b => a.digest < b.digest ∨ a.digest = b.digest ∧ a.id ≤ b.id
  have ht : Std.Total before := ⟨fun a b => by
    rcases lt_trichotomy a.digest b.digest with h | h | h
    · exact .inl (.inl h)
    · rcases le_total a.id b.id with h' | h'
      · exact .inl (.inr ⟨h, h'⟩)
      · exact .inr (.inr ⟨h.symm, h'⟩)
    · exact .inr (.inl h)⟩
  have htrans : IsTrans (OperationClaim δ ι) before := ⟨by
    rintro a b c (h | ⟨h, hi⟩) (h' | ⟨h', hi'⟩)
    · exact .inl (h.trans h')
    · exact .inl (h' ▸ h)
    · exact .inl (h ▸ h')
    · exact .inr ⟨h.trans h', hi.trans hi'⟩⟩
  have hs : (checkpointedOperation dropped).Pairwise before := pairwise_insertionSort before dropped
  have hm : ∀ c, c ∈ checkpointedOperation dropped ↔ c ∈ dropped := fun c => mem_insertionSort _
  cases hl : checkpointedOperation dropped with
  | nil =>
    rintro d ⟨c, hc, -⟩
    rw [← hm, hl] at hc
    cases hc
  | cons a r =>
    rw [hl] at hs
    refine ⟨⟨a, (hm a).mp (by simp [hl]), rfl⟩, ?_⟩
    rintro d ⟨c, hc, rfl⟩
    rw [← hm, hl] at hc
    rcases mem_cons.mp hc with rfl | hc
    · exact le_rfl
    · rcases (pairwise_cons.mp hs).1 c hc with h | ⟨h, -⟩
      · exact h.le
      · exact h.le

theorem registers_first (dropped : List (OperationClaim δ ι)) (f : OperationClaim δ ι) :
    ∃ row, (registerOperation dropped none f).1 = some row ∧ Registers dropped f [] row := by
  refine ⟨_, rfl, ?_, ?_, ?_⟩
  · have hl := least_head_checkpointedOperation dropped
    cases hh : (checkpointedOperation dropped).head?.map (·.digest) with
    | none =>
      rw [hh] at hl
      exact hl.insert_le nofun
    | some d =>
      rw [hh] at hl
      by_cases ht : d < f.digest
      · simp only [filter_some, ht, decide_true, if_true, getD_some]
        exact hl.insert_ge ht.le
      · simp only [filter_some, ht, decide_false, Bool.false_eq_true, if_false, getD_none]
        exact hl.insert_le (by simpa using ht)
  · simp [Least]
  · have hm : ∀ c, c ∈ checkpointedOperation dropped ↔ c ∈ dropped := fun c => mem_insertionSort _
    have hs : ∀ b : Bool, stateOf b = .conflict ↔ b = true := by decide
    simp [hs, hm]

theorem Registers.next (h : Registers dropped f r row) (claim : OperationClaim δ ι) :
    ∃ row', (registerOperation dropped (some row) claim).1 = some row' ∧
    Registers dropped f (claim :: r) row' := by
  by_cases heq : row.digest = claim.digest
  · have hd : (if claim.id < row.canonical then { row with canonical := claim.id }
      else row).digest = row.digest := by
      split <;> rfl
    refine ⟨if claim.id < row.canonical then { row with canonical := claim.id } else row,
      by simp only [registerOperation, heq, if_true], ?_, ?_, ?_⟩
    · rw [hd]
      exact h.digest
    · rw [hd]
      have hs : ∀ i, (claim.id = i ∨ f.id = i ∨ ∃ c ∈ r, c.digest = row.digest ∧ c.id = i) ↔
          (f.id = i ∨ ∃ c ∈ claim :: r, c.digest = row.digest ∧ c.id = i) := by
        intro i
        simp only [exists_mem_cons_iff, heq, true_and]
        exact or_left_comm
      by_cases hl : claim.id < row.canonical
      · rw [if_pos hl]
        exact (h.canonical.insert_le (by simpa using hl.le)).congr hs
      · rw [if_neg hl]
        exact (h.canonical.insert_ge (not_lt.mp hl)).congr hs
    · have ht : (if claim.id < row.canonical then { row with canonical := claim.id }
        else row).state = row.state := by
        split <;> rfl
      rw [hd, ht, h.state]
      simp [heq]
  · refine ⟨{ row with state := .conflict },
      by simp only [registerOperation, heq, if_false], h.digest, ?_, ?_⟩
    · exact h.canonical.congr (by simp [Ne.symm heq])
    · simp [Ne.symm heq]

theorem registers_registered (dropped : List (OperationClaim δ ι)) (f : OperationClaim δ ι)
    (r : List (OperationClaim δ ι)) :
    ∃ row, registered dropped (f :: r) = some row ∧ Registers dropped f r row := by
  induction r using List.reverseRecOn with
  | nil =>
    obtain ⟨row, hw, h⟩ := registers_first dropped f
    exact ⟨row, hw, h⟩
  | append_singleton r claim ih =>
    obtain ⟨row, hw, h⟩ := ih
    obtain ⟨row', hw', h'⟩ := h.next claim
    refine ⟨row', ?_, ?_⟩
    · rw [registered, ← cons_append, foldl_append, ← registered, hw]
      exact hw'
    · exact ⟨h'.digest, h'.canonical.congr (by simp [or_comm]), h'.state.trans (by simp [or_comm])⟩

end

structure Expects (stored dropped : List (OperationClaim δ ι)) (row : Row δ ι) : Prop where
  digest : Least (fun d => ∃ c ∈ stored ++ dropped, c.digest = d) (some row.digest)
  canonical : (∃ c ∈ stored, c.digest = row.digest) →
    Least (fun i => ∃ c ∈ stored, c.digest = row.digest ∧ c.id = i) (some row.canonical)
  fallback : (∀ c ∈ stored, c.digest ≠ row.digest) →
    Least (fun i => ∃ c ∈ stored, c.id = i) (some row.canonical)
  state : row.state = .conflict ↔ ∃ c ∈ stored ++ dropped, c.digest ≠ row.digest

section
variable {stored dropped rest : List (OperationClaim δ ι)} {first : OperationClaim δ ι}

theorem stateOf_eq_conflict (b : Bool) : stateOf b = .conflict ↔ b = true := by
  cases b <;> decide

omit [LinearOrder δ] in
/-- The digests read are those of all claims: a tombstone that is left out has a stored claim with
its digest. -/
theorem exists_operationClaims (hi : ∀ c ∈ dropped, ∀ s ∈ stored, c.id = s.id → c.digest = s.digest)
    (P : δ → Prop) :
    (∃ c ∈ operationClaims stored dropped, P c.1.digest) ↔ ∃ c ∈ stored ++ dropped, P c.digest := by
  simp only [operationClaims, mem_append, List.mem_map, mem_filter, List.all_eq_true,
    decide_eq_true_eq]
  constructor
  · rintro ⟨_, ⟨c, hc, rfl⟩ | ⟨c, ⟨hc, -⟩, rfl⟩, hP⟩
    · exact ⟨c, .inl hc, hP⟩
    · exact ⟨c, .inr hc, hP⟩
  · rintro ⟨c, hc | hc, hP⟩
    · exact ⟨_, .inl ⟨c, hc, rfl⟩, hP⟩
    · by_cases ht : ∀ s ∈ stored, s.id ≠ c.id
      · exact ⟨_, .inr ⟨c, ⟨hc, ht⟩, rfl⟩, hP⟩
      · push Not at ht
        obtain ⟨s, hs, hd⟩ := ht
        exact ⟨_, .inl ⟨s, hs, rfl⟩, hi c hc s hs hd.symm ▸ hP⟩

omit [LinearOrder δ] in
theorem stored_operationClaims (P : OperationClaim δ ι → Prop) :
    (∃ c ∈ operationClaims stored dropped, c.2 = true ∧ P c.1) ↔ ∃ c ∈ stored, P c := by
  simp only [operationClaims, mem_append, List.mem_map]
  constructor
  · rintro ⟨_, ⟨c, hc, rfl⟩ | ⟨c, -, rfl⟩, ht, hP⟩
    · exact ⟨c, hc, hP⟩
    · cases ht
  · rintro ⟨c, hc, hP⟩
    exact ⟨_, .inl ⟨c, hc, rfl⟩, rfl, hP⟩

theorem expects_expectedOperation
    (hi : ∀ c ∈ dropped, ∀ s ∈ stored, c.id = s.id → c.digest = s.digest)
    (ht : stored ≠ []) :
    ∃ row, expectedOperation stored dropped = some row ∧ Expects stored dropped row := by
  have h := reduces_reduce (operationClaims stored dropped)
  obtain ⟨s, hs⟩ := exists_mem_of_ne_nil stored ht
  have hleast := h.minimum.congr fun d => exists_operationClaims hi (· = d)
  have hl := h.fallback.congr fun i => stored_operationClaims (·.id = i)
  cases hm : (reduce (operationClaims stored dropped)).minimum with
  | none =>
    rw [hm] at hleast
    exact absurd ⟨s, mem_append_left _ hs, rfl⟩ (hleast s.digest)
  | some least =>
    cases hf : (reduce (operationClaims stored dropped)).fallback with
    | none =>
      rw [hf] at hl
      exact absurd ⟨s, hs, rfl⟩ (hl s.id)
    | some f =>
      rw [hm] at hleast
      rw [hf] at hl
      have hn := h.canonical
      rw [hm] at hn
      replace hn :=
        hn.congr fun i => stored_operationClaims fun c => some c.digest = some least ∧ c.id = i
      simp only [some.injEq] at hn
      refine ⟨⟨least, (reduce (operationClaims stored dropped)).canonical.getD f,
        stateOf (reduce (operationClaims stored dropped)).conflict⟩,
        by simp only [expectedOperation, OperationMetadata.row, hm, hf], hleast, ?_, ?_, ?_⟩
      · rintro ⟨c, hc, hd⟩
        cases hcanonical : (reduce (operationClaims stored dropped)).canonical with
        | none =>
          rw [hcanonical] at hn
          exact absurd ⟨c, hc, hd, rfl⟩ (hn c.id)
        | some canonical => exact hcanonical ▸ hn
      · intro hne
        cases hcanonical : (reduce (operationClaims stored dropped)).canonical with
        | none => exact hl
        | some canonical =>
          rw [hcanonical] at hn
          obtain ⟨c, hc, hd, -⟩ := hn.1
          exact absurd hd (hne c hc)
      · rw [stateOf_eq_conflict, h.conflict, hm]
        simpa using exists_operationClaims hi (· ≠ least)

/-- The first claim settled the row: no later digest is below what it saw; and it has the least
digest, or a later claim with the least digest comes no later in id order, or there is none and
it has the least id. -/
def Settled (dropped : List (OperationClaim δ ι)) : List (OperationClaim δ ι) → Prop
  | [] => True
  | first :: rest =>
    (∀ c ∈ rest, ∃ d ∈ first :: dropped, d.digest ≤ c.digest) ∧
        ((∀ d ∈ rest ++ dropped, first.digest ≤ d.digest) ∨
        (∃ c ∈ rest, (∀ d ∈ first :: dropped, c.digest ≤ d.digest) ∧ c.id ≤ first.id) ∨
        ((∀ c ∈ rest, ∃ d ∈ first :: dropped, d.digest < c.digest) ∧ ∀ c ∈ rest, first.id ≤ c.id))

variable {registered expected : Row δ ι}

section
variable (hr : Registers dropped first rest registered)
include hr

section
variable (he : Expects (first :: rest) dropped expected)
include he

theorem state_eq : registered.state = expected.state := by
  have hi : registered.state = .conflict ↔ expected.state = .conflict := by
    rw [hr.state, he.state]
    constructor
    · intro hdropped
      by_contra hn
      push Not at hn
      have hf : first.digest = expected.digest := hn first (by simp)
      rcases hr.digest.1 with hd | ⟨d, hd, hdigest⟩
      · rcases hdropped with ⟨c, hc, hne⟩ | ⟨c, hc, hne⟩
        · exact hne ((hn c (by simp [hc])).trans hf.symm)
        · exact hne ((hn c (by simp [hc])).trans (hf.symm.trans hd))
      · have hw : registered.digest = expected.digest := hdigest.symm.trans (hn d (by simp [hd]))
        rcases hdropped with ⟨c, hc, hne⟩ | ⟨c, hc, hne⟩
        · exact hne ((hn c (by simp [hc])).trans hf.symm)
        · exact hne ((hn c (by simp [hc])).trans hw.symm)
    · rintro ⟨c, hc, hne⟩
      by_contra hn
      push Not at hn
      obtain ⟨hdigest', hr'⟩ := hn
      -- then every digest is the first's
      have hw : registered.digest = first.digest := by
        rcases hr.digest.1 with hd | ⟨d, hd, hdigest⟩
        · exact hd.symm
        · exact hdigest.symm.trans (hdigest' d hd)
      have ha : ∀ d ∈ first :: rest ++ dropped, d.digest = first.digest := by
        intro d hd
        simp only [cons_append, mem_cons, mem_append] at hd
        rcases hd with rfl | hd | hd
        · rfl
        · exact (hr' d hd).trans hw
        · exact hdigest' d hd
      obtain ⟨d, hd, hdigest⟩ := he.digest.1
      exact hne ((ha c hc).trans ((ha d hd).symm.trans hdigest))
  cases hs : registered.state <;> cases ht : expected.state <;> simp_all

/-- The digests agree when no later digest is below what the first claim saw. -/
theorem digest_eq_iff :
    registered.digest = expected.digest ↔
    ∀ c ∈ rest, ∃ d ∈ first :: dropped, d.digest ≤ c.digest := by
  have hs : ∃ d ∈ first :: dropped, d.digest = registered.digest := by
    rcases hr.digest.1 with hd | ⟨d, hd, hdigest'⟩
    · exact ⟨first, mem_cons_self, hd⟩
    · exact ⟨d, mem_cons_of_mem _ hd, hdigest'⟩
  obtain ⟨d, hd, hdigest'⟩ := hs
  constructor
  · intro heq c hc
    exact ⟨d, hd, hdigest'.le.trans (heq ▸ he.digest.2 _ ⟨c, by simp [hc], rfl⟩)⟩
  · intro ha
    refine le_antisymm ?_ (he.digest.2 _ ⟨d, ?_, hdigest'⟩)
    · obtain ⟨c, hc, hdigest⟩ := he.digest.1
      simp only [cons_append, mem_cons, mem_append] at hc
      rcases hc with rfl | hc | hc
      · exact hr.digest.2 _ (.inl hdigest)
      · obtain ⟨e, he', hl⟩ := ha c hc
        refine le_trans (hr.digest.2 e.digest ?_) (hl.trans hdigest.le)
        rcases mem_cons.mp he' with rfl | he'
        · exact .inl rfl
        · exact .inr ⟨e, he', rfl⟩
      · exact hr.digest.2 _ (.inr ⟨c, hc, hdigest⟩)
    · rcases mem_cons.mp hd with rfl | hd
      · simp
      · simp [hd]

/-- With the digests equal, the claims agree in three ways. -/
theorem canonical_eq_iff (hg : registered.digest = expected.digest) :
    registered.canonical = expected.canonical ↔ (∀ d ∈ rest ++ dropped, first.digest ≤ d.digest) ∨
        (∃ c ∈ rest, (∀ d ∈ first :: dropped, c.digest ≤ d.digest) ∧ c.id ≤ first.id) ∨
        ((∀ c ∈ rest, ∃ d ∈ first :: dropped, d.digest < c.digest) ∧
          ∀ c ∈ rest, first.id ≤ c.id) := by
  set least := expected.digest with hleast'
  have hl : ∀ d ∈ first :: rest ++ dropped, least ≤ d.digest :=
    fun d hd => he.digest.2 _ ⟨d, hd, rfl⟩
  have hfirst : ∃ d ∈ first :: dropped, d.digest = least := by
    rcases hr.digest.1 with hd | ⟨d, hd, hdigest'⟩
    · exact ⟨first, mem_cons_self, hd.trans hg⟩
    · exact ⟨d, mem_cons_of_mem _ hd, hdigest'.trans hg⟩
  obtain ⟨d, hd, hd'⟩ := hfirst
  have hn := hr.canonical
  rw [hg] at hn
  by_cases hf' : first.digest = least
  · have hb := (he.canonical ⟨first, mem_cons_self, hf'⟩).congr
      (Q := fun i => first.id = i ∨ ∃ c ∈ rest, c.digest = least ∧ c.id = i) fun i => by
        rw [exists_mem_cons_iff, ← hleast']
        simp [hf']
    have heq : registered.canonical = expected.canonical := some.inj (hn.unique hb)
    refine iff_of_true heq (.inl fun e he' => hf'.le.trans (hl e ?_))
    simpa using .inr (mem_append.mp he')
  -- the first claim's digest is above a dropped one
  have ht : ¬ ∀ e ∈ rest ++ dropped, first.digest ≤ e.digest := by
    intro ha
    rcases mem_cons.mp hd with rfl | hd
    · exact hf' hd'
    · refine hf' (le_antisymm ((ha d (mem_append_right _ hd)).trans hd'.le) (hl first ?_))
      simp
  have hr' : ∀ c ∈ rest, (∀ e ∈ first :: dropped, c.digest ≤ e.digest) → c.digest = least :=
    fun c hc ha => le_antisymm ((ha d hd).trans hd'.le) (hl c (by simp [hc]))
  by_cases hs : ∃ c ∈ rest, c.digest = least
  · obtain ⟨c, hc, hdigest⟩ := hs
    have hleast := (he.canonical ⟨c, mem_cons_of_mem _ hc, hdigest⟩).congr
      (Q := fun i => ∃ c ∈ rest, c.digest = least ∧ c.id = i) fun i => by
        rw [exists_mem_cons_iff, ← hleast']
        simp [hf']
    have hlt : ¬ ∀ c ∈ rest, ∃ e ∈ first :: dropped, e.digest < c.digest := by
      intro ha
      obtain ⟨e, he', hlt'⟩ := ha c hc
      refine absurd (hl e ?_) (not_le.mpr (hdigest ▸ hlt'))
      rcases mem_cons.mp he' with rfl | he' <;> simp [*]
    have hiff : registered.canonical = expected.canonical ↔ expected.canonical ≤ first.id := by
      constructor
      · intro heq
        exact heq ▸ hn.2 _ (.inl rfl)
      · intro hi
        refine le_antisymm (hn.2 _ (.inr hleast.1)) ?_
        rcases hn.1 with h | h
        · exact h ▸ hi
        · exact hleast.2 _ h
    rw [hiff, or_iff_right ht, or_iff_left fun h => hlt h.1]
    constructor
    · intro hi
      obtain ⟨e, he', h', hi'⟩ := hleast.1
      refine ⟨e, he', fun f hf => h'.le.trans (hl f ?_), hi'.le.trans hi⟩
      rcases mem_cons.mp hf with rfl | hf <;> simp [*]
    · rintro ⟨e, he', ha, hi'⟩
      exact (hleast.2 _ ⟨e, he', hr' e he' ha, rfl⟩).trans hi'
  · push Not at hs
    have hleast := he.fallback (forall_mem_cons.mpr ⟨hf', hs⟩)
    have hcanonical : registered.canonical = first.id := by
      rcases hn.1 with h | ⟨c, hc, hg', -⟩
      · exact h.symm
      · exact absurd hg' (hs c hc)
    have hnoRest : ¬ ∃ c ∈ rest, (∀ e ∈ first :: dropped, c.digest ≤ e.digest) ∧
        c.id ≤ first.id := by
      rintro ⟨c, hc, ha, -⟩
      exact hs c hc (hr' c hc ha)
    have hab : ∀ c ∈ rest, ∃ e ∈ first :: dropped, e.digest < c.digest := fun c hc =>
      ⟨d, hd, hd' ▸ lt_of_le_of_ne (hl c (by simp [hc])) (Ne.symm (hs c hc))⟩
    rw [or_iff_right ht, or_iff_right hnoRest, hcanonical]
    constructor
    · intro heq
      exact ⟨hab, fun c hc => heq ▸ hleast.2 _ ⟨c, mem_cons_of_mem _ hc, rfl⟩⟩
    · rintro ⟨-, hids⟩
      obtain ⟨c, hc, hcanonical'⟩ := hleast.1
      refine le_antisymm ?_ (hleast.2 _ ⟨first, mem_cons_self, rfl⟩)
      rcases mem_cons.mp hc with rfl | hc
      · exact hcanonical'.le
      · exact (hids c hc).trans hcanonical'.le

end

end

theorem Expects.perm {s' : List (OperationClaim δ ι)} {row : Row δ ι}
    (h : Expects stored dropped row) (hp : stored.Perm s') : Expects s' dropped row where
  digest := h.digest.congr (by simp [hp.mem_iff])
  canonical := by simpa [hp.mem_iff] using h.canonical
  fallback := by simpa [hp.mem_iff] using h.fallback
  state := by simpa [hp.mem_iff] using h.state

end

/-- Registering the stored claims in any order gives the state of the reduction, and its whole
row exactly when the first claim settled it. -/
theorem registered_eq_expected_iff (stored dropped order : List (OperationClaim δ ι))
    (horder : order.Perm stored)
    (hids : ∀ c ∈ dropped, ∀ s ∈ stored, c.id = s.id → c.digest = s.digest) :
    (registered dropped order).map Row.state = (expectedOperation stored dropped).map Row.state ∧
      (registered dropped order = expectedOperation stored dropped ↔ Settled dropped order) := by
  cases order with
  | nil =>
    obtain rfl := horder.nil_eq
    have hf :=
      (reduces_reduce (operationClaims [] dropped)).fallback.congr
        fun i => stored_operationClaims (·.id = i)
    have hn : (reduce (operationClaims [] dropped)).fallback = none := hf.unique (by simp [Least])
    have hw : expectedOperation [] dropped = none := by
      simp only [expectedOperation, OperationMetadata.row, hn]
    rw [hw]
    exact ⟨rfl, iff_of_true rfl trivial⟩
  | cons first rest =>
    have hne : stored ≠ [] := by
      rintro rfl
      exact absurd horder.eq_nil (cons_ne_nil _ _)
    obtain ⟨row, hw, hr⟩ := registers_registered dropped first rest
    obtain ⟨row', hw', he⟩ := expects_expectedOperation hids hne
    replace he := he.perm horder.symm
    have hs := state_eq hr he
    rw [hw, hw', map_some, map_some, hs]
    refine ⟨rfl, ?_⟩
    rw [some.injEq, Settled, ← digest_eq_iff hr he]
    constructor
    · rintro rfl
      exact ⟨rfl, (canonical_eq_iff hr he rfl).mp rfl⟩
    · rintro ⟨hd, hc⟩
      have hcanonical := (canonical_eq_iff hr he hd).mpr hc
      cases row
      cases row'
      simp_all

theorem repeated_request_registered :
    registered [(⟨0, 5⟩ : OperationClaim Nat Nat)] [⟨2, 5⟩, ⟨1, 5⟩] =
      expectedOperation [⟨1, 5⟩, ⟨2, 5⟩] [(⟨0, 5⟩ : OperationClaim Nat Nat)] :=
  (registered_eq_expected_iff [⟨1, 5⟩, ⟨2, 5⟩] [⟨0, 5⟩] [⟨2, 5⟩, ⟨1, 5⟩] (by decide)
    (by decide)).2.mpr
    ⟨by decide, .inl (by decide)⟩

/-- The second claim has the smaller digest, which registration never takes over. -/
theorem later_digest_kept_out :
    registered [] [(⟨1, 6⟩ : OperationClaim Nat Nat), ⟨2, 5⟩] = some ⟨6, 1, .conflict⟩ ∧
      expectedOperation [⟨1, 6⟩, ⟨2, 5⟩] [] = some ⟨5, (2 : Nat), .conflict⟩ := by
  decide

end Smalltalk.Operations
